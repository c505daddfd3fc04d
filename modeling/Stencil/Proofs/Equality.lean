import Mathlib
import Stencil.Proofs.Fields

/-!
The laws of the two equalities. Strict equality compares arrays item by item and objects name by name, however deep
(`strictEq_iff_alike`); all else about it follows from that one step. Loose equality is strict equality after at most
two conversions.
-/
namespace Stencil.Value

/-! ### Values inside values -/

/-- The values that a value is put together from. -/
def parts : Value → List Value
  | array items => items
  | object fields => fields.map Prod.snd
  | _ => []

/-- The value `u` is the given one or occurs inside it. -/
inductive Occurs (u : Value) : Value → Prop where
  | self : Occurs u u
  | inside {part v : Value} (among : part ∈ v.parts) (deeper : Occurs u part) : Occurs u v

/-- Objects are maps: no object in the value has two fields of one name. -/
def Proper (v : Value) : Prop :=
  ∀ fields, Occurs (object fields) v → (Fields.names fields).Nodup

theorem sizeOf_lt_of_mem_parts {v part : Value} (among : part ∈ v.parts) : sizeOf part < sizeOf v := by
  cases v with
  | array items =>
    have smaller : sizeOf part < sizeOf items := List.sizeOf_lt_of_mem among
    simp only [array.sizeOf_spec]
    omega
  | object fields =>
    obtain ⟨⟨name, value⟩, member, rfl⟩ := List.mem_map.mp among
    have smaller := List.sizeOf_lt_of_mem member
    simp only [Prod.mk.sizeOf_spec] at smaller
    simp only [object.sizeOf_spec]
    omega
  | _ => cases among

/-- What holds of a value whenever it holds of its parts holds of all values. -/
theorem parts_induction {motive : Value → Prop} (step : ∀ v, (∀ part ∈ v.parts, motive part) → motive v) (v : Value) :
    motive v :=
  step v fun part _ => parts_induction step part
termination_by sizeOf v
decreasing_by exact sizeOf_lt_of_mem_parts ‹_›

theorem occurs_iff {u v : Value} : Occurs u v ↔ u = v ∨ ∃ part ∈ v.parts, Occurs u part := by
  constructor
  · rintro (_ | ⟨among, deeper⟩)
    · exact .inl rfl
    · exact .inr ⟨_, among, deeper⟩
  · rintro (rfl | ⟨part, among, deeper⟩)
    · exact .self
    · exact .inside among deeper

theorem Proper.part {v part : Value} (proper : v.Proper) (among : part ∈ v.parts) : part.Proper :=
  fun fields deeper => proper fields (.inside among deeper)

theorem proper_iff {v : Value} : v.Proper ↔
    (∀ fields, v = object fields → (Fields.names fields).Nodup) ∧ ∀ part ∈ v.parts, part.Proper := by
  constructor
  · intro proper
    refine ⟨?_, fun part => proper.part⟩
    rintro fields rfl
    exact proper fields .self
  · rintro ⟨own, inner⟩ fields occurs
    rcases occurs_iff.mp occurs with same | ⟨part, among, deeper⟩
    · exact own fields same.symm
    · exact inner part among fields deeper

theorem Proper.nodup {fields : Fields Value} (proper : (object fields).Proper) : fields.names.Nodup :=
  proper fields .self

@[simp] theorem proper_null : null.Proper :=
  proper_iff.mpr ⟨by simp, by simp [parts]⟩

@[simp] theorem proper_bool (b : Bool) : (bool b).Proper :=
  proper_iff.mpr ⟨by simp, by simp [parts]⟩

@[simp] theorem proper_number (x : Float) : (number x).Proper :=
  proper_iff.mpr ⟨by simp, by simp [parts]⟩

@[simp] theorem proper_string (s : String) : (string s).Proper :=
  proper_iff.mpr ⟨by simp, by simp [parts]⟩

@[simp] theorem proper_array {items : List Value} : (array items).Proper ↔ ∀ item ∈ items, item.Proper := by
  rw [proper_iff]
  simp [parts]

/-! ### One step of strict equality -/

/-- Two values of one kind whose parts are related: the items of arrays in order, the fields of objects by name. -/
inductive Alike (same : Value → Value → Prop) : Value → Value → Prop where
  | undefined : Alike same undefined undefined
  | null : Alike same null null
  | bool (b : Bool) : Alike same (bool b) (bool b)
  | number {x y : Float} (equal : (x == y) = true) : Alike same (number x) (number y)
  | string (s : String) : Alike same (string s) (string s)
  | array {as bs : List Value} (items : List.Forall₂ same as bs) : Alike same (array as) (array bs)
  | object {f g : Fields Value} (fields : ∀ name, Option.Rel same (f.get? name) (g.get? name)) :
      Alike same (object f) (object g)
  | function (n : Nat) : Alike same (function n) (function n)

theorem strictEqItems_iff {as bs : List Value} :
    strictEqItems as bs = true ↔ List.Forall₂ (fun a b => strictEq a b = true) as bs := by
  induction as generalizing bs with
  | nil => cases bs <;> simp [strictEqItems]
  | cons a as ih =>
    cases bs with
    | nil => simp [strictEqItems]
    | cons b bs => simp [strictEqItems, ih]

theorem strictEqFields_iff {f g : Fields Value} : strictEqFields f g = true ↔
    ∀ entry ∈ f, ∃ b, g.get? entry.1 = some b ∧ strictEq entry.2 b = true := by
  induction f with
  | nil => simp [strictEqFields]
  | cons entry rest ih =>
    obtain ⟨name, a⟩ := entry
    rw [strictEqFields, Bool.and_eq_true, ih, List.forall_mem_cons]
    cases Fields.get? name g <;> simp

/-- The names of two objects are the same if those of the first are among those of the second and there are as many
    of them. -/
theorem mem_names_iff {f g : Fields Value} (distinct : f.names.Nodup) (length : f.length = g.length)
    (among : f.names ⊆ g.names) (name : String) : name ∈ f.names ↔ name ∈ g.names := by
  have enough : g.names.length ≤ f.names.length := by simp [Fields.names, length]
  exact ((List.subperm_of_subset distinct among).perm_of_length_le enough).mem_iff

theorem rel_of_strictEqFields {f g : Fields Value} (distinct : f.names.Nodup) (length : f.length = g.length)
    (fields : strictEqFields f g = true) (name : String) :
    Option.Rel (fun a b => strictEq a b = true) (f.get? name) (g.get? name) := by
  have each := strictEqFields_iff.mp fields
  have among : f.names ⊆ g.names := by
    intro name member
    obtain ⟨entry, listed, rfl⟩ := List.mem_map.mp member
    obtain ⟨b, found, -⟩ := each entry listed
    exact List.mem_map.mpr ⟨_, Fields.mem_of_get? found, rfl⟩
  cases found : f.get? name with
  | some a =>
    obtain ⟨b, found', equal⟩ := each (name, a) (Fields.mem_of_get? found)
    rw [found']
    exact .some equal
  | none =>
    have absent : name ∉ g.names := by
      rw [← mem_names_iff distinct length among]
      exact Fields.get?_eq_none.mp found
    rw [Fields.get?_eq_none.mpr absent]
    exact .none

theorem strictEqFields_of_rel {f g : Fields Value} (distinct : f.names.Nodup) (distinct' : g.names.Nodup)
    (related : ∀ name, Option.Rel (fun a b => strictEq a b = true) (f.get? name) (g.get? name)) :
    f.length = g.length ∧ strictEqFields f g = true := by
  constructor
  · have same (name : String) : name ∈ f.names ↔ name ∈ g.names := by
      have both := related name
      rw [← not_iff_not, ← Fields.get?_eq_none, ← Fields.get?_eq_none]
      generalize f.get? name = a, g.get? name = b at both
      cases both <;> simp
    have lengths := ((List.perm_ext_iff_of_nodup distinct distinct').mpr same).length_eq
    simpa [Fields.names] using lengths
  · rw [strictEqFields_iff]
    rintro ⟨name, a⟩ listed
    have both := related name
    rw [Fields.get?_of_mem distinct listed] at both
    generalize g.get? name = b at both
    cases both with
    | some equal => exact ⟨_, rfl, equal⟩

/-- Strict equality is one step on strict equality of the parts. -/
theorem strictEq_iff_alike {a b : Value} (proper : a.Proper) (proper' : b.Proper) :
    strictEq a b = true ↔ Alike (fun a b => strictEq a b = true) a b := by
  constructor
  · intro equal
    cases a <;> cases b <;> simp only [strictEq, Bool.false_eq_true, beq_iff_eq, Bool.and_eq_true] at equal
    case undefined.undefined => exact .undefined
    case null.null => exact .null
    case bool.bool => exact equal ▸ .bool _
    case number.number => exact .number equal
    case string.string => exact equal ▸ .string _
    case array.array => exact .array (strictEqItems_iff.mp equal)
    case object.object => exact .object (rel_of_strictEqFields proper.nodup equal.1 equal.2)
    case function.function => exact equal ▸ .function _
  · intro alike
    cases alike with
    | array items => simpa [strictEq] using strictEqItems_iff.mpr items
    | object fields => simpa [strictEq] using strictEqFields_of_rel proper.nodup proper'.nodup fields
    | number equal => simpa [strictEq] using equal
    | _ => simp [strictEq]

/-! ### The laws of strict equality -/

theorem mem_parts_of_get? {fields : Fields Value} {name : String} {v : Value} (found : fields.get? name = some v) :
    v ∈ (object fields).parts :=
  List.mem_map_of_mem (Fields.mem_of_get? found)

theorem Alike.symm {r s : Value → Value → Prop} {a b : Value} (alike : Alike r a b)
    (back : ∀ x ∈ a.parts, ∀ y ∈ b.parts, r x y → s y x) : Alike s b a := by
  cases alike with
  | number equal => exact .number (BEq.symm equal)
  | @array as bs items =>
    refine .array (List.Forall₂.flip ?_)
    rw [List.forall₂_iff_get] at items ⊢
    exact ⟨items.1, fun i h h' => back _ (List.get_mem as ⟨i, h⟩) _ (List.get_mem bs ⟨i, h'⟩) (items.2 i h h')⟩
  | @object f g fields =>
    refine .object fun name => ?_
    have both := fields name
    cases found : f.get? name <;> cases found' : g.get? name <;> rw [found, found'] at both <;> cases both
    · exact .none
    · exact .some (back _ (mem_parts_of_get? found) _ (mem_parts_of_get? found') ‹_›)
  | undefined => exact .undefined
  | null => exact .null
  | bool b => exact .bool b
  | string s => exact .string s
  | function n => exact .function n

theorem Alike.trans {r s t : Value → Value → Prop} {a b c : Value} (first : Alike r a b) (second : Alike s b c)
    (join : ∀ x ∈ a.parts, ∀ y ∈ b.parts, ∀ z ∈ c.parts, r x y → s y z → t x z) : Alike t a c := by
  cases first with
  | number equal =>
    cases second with
    | number equal' => exact .number (BEq.trans equal equal')
  | @array as bs items =>
    cases second with
    | @array _ cs items' =>
      refine .array ?_
      rw [List.forall₂_iff_get] at items items' ⊢
      refine ⟨items.1.trans items'.1, fun i h h' => ?_⟩
      have inside : i < bs.length := items.1 ▸ h
      exact join _ (List.get_mem as ⟨i, h⟩) _ (List.get_mem bs ⟨i, inside⟩) _ (List.get_mem cs ⟨i, h'⟩)
        (items.2 i h inside) (items'.2 i inside h')
  | @object f g fields =>
    cases second with
    | @object _ h fields' =>
      refine .object fun name => ?_
      have both := fields name
      have both' := fields' name
      cases found : f.get? name <;> cases found' : g.get? name <;> cases found'' : h.get? name <;>
        rw [found, found'] at both <;> rw [found', found''] at both' <;> cases both <;> cases both'
      · exact .none
      · exact .some (join _ (mem_parts_of_get? found) _ (mem_parts_of_get? found') _ (mem_parts_of_get? found'')
          ‹_› ‹_›)
  | undefined => cases second; exact .undefined
  | null => cases second; exact .null
  | bool b => cases second; exact .bool b
  | string s => cases second; exact .string s
  | function n => cases second; exact .function n

theorem beq_self_iff_isNaN {x : Float} : (x == x) = true ↔ x.isNaN = false := by
  rw [Float.beq_self_iff, Float.isNaN_eq_decide_eq_nan, decide_eq_false_iff_not]

/-- A value is like itself if its parts are and it is not a double that is no number. -/
theorem alike_self_iff {r : Value → Value → Prop} {v : Value} (proper : v.Proper) :
    Alike r v v ↔ (∀ x, v = number x → x.isNaN = false) ∧ ∀ part ∈ v.parts, r part part := by
  cases v with
  | number x =>
    constructor
    · intro alike
      cases alike with
      | number equal => simpa [parts] using beq_self_iff_isNaN.mp equal
    · rintro ⟨valid, -⟩
      exact .number (beq_self_iff_isNaN.mpr (valid x rfl))
  | array items =>
    constructor
    · intro alike
      cases alike with
      | array related => exact ⟨by simp, List.forall₂_same.mp related⟩
    · rintro ⟨-, related⟩
      exact .array (List.forall₂_same.mpr related)
  | object fields =>
    constructor
    · intro alike
      cases alike with
      | object related =>
        refine ⟨by simp, fun part among => ?_⟩
        obtain ⟨⟨name, value⟩, listed, rfl⟩ := List.mem_map.mp among
        have both := related name
        rw [Fields.get?_of_mem proper.nodup listed] at both
        cases both with
        | some same => exact same
    · rintro ⟨-, related⟩
      refine .object fun name => ?_
      cases found : Fields.get? name fields with
      | none => exact .none
      | some value => exact .some (related value (mem_parts_of_get? found))
  | undefined => exact ⟨fun _ => by simp [parts], fun _ => .undefined⟩
  | null => exact ⟨fun _ => by simp [parts], fun _ => .null⟩
  | bool b => exact ⟨fun _ => by simp [parts], fun _ => .bool b⟩
  | string s => exact ⟨fun _ => by simp [parts], fun _ => .string s⟩
  | function n => exact ⟨fun _ => by simp [parts], fun _ => .function n⟩

theorem strictEq_symm {a b : Value} (proper : a.Proper) (proper' : b.Proper) (equal : strictEq a b = true) :
    strictEq b a = true := by
  induction a using parts_induction generalizing b with
  | step a ih =>
    rw [strictEq_iff_alike proper' proper]
    refine ((strictEq_iff_alike proper proper').mp equal).symm fun x among y among' => ?_
    exact ih x among (proper.part among) (proper'.part among')

theorem strictEq_trans {a b c : Value} (proper : a.Proper) (proper' : b.Proper) (proper'' : c.Proper)
    (first : strictEq a b = true) (second : strictEq b c = true) : strictEq a c = true := by
  induction a using parts_induction generalizing b c with
  | step a ih =>
    rw [strictEq_iff_alike proper proper'']
    refine ((strictEq_iff_alike proper proper').mp first).trans ((strictEq_iff_alike proper' proper'').mp second) ?_
    intro x among y among' z among''
    exact ih x among (proper.part among) (proper'.part among') (proper''.part among'')

theorem strictEq_self_iff {v : Value} (proper : v.Proper) :
    strictEq v v = true ↔ ¬ ∃ x : Float, x.isNaN = true ∧ Occurs (number x) v := by
  induction v using parts_induction with
  | step v ih =>
    rw [strictEq_iff_alike proper proper, alike_self_iff proper]
    constructor
    · rintro ⟨valid, related⟩ ⟨x, nan, occurs⟩
      rcases occurs_iff.mp occurs with rfl | ⟨part, among, deeper⟩
      · rw [valid x rfl] at nan
        cases nan
      · exact (ih part among (proper.part among)).mp (related part among) ⟨x, nan, deeper⟩
    · intro absent
      refine ⟨?_, fun part among => (ih part among (proper.part among)).mpr ?_⟩
      · rintro x rfl
        exact Bool.eq_false_iff.mpr fun nan => absent ⟨x, nan, .self⟩
      · rintro ⟨x, nan, deeper⟩
        exact absent ⟨x, nan, .inside among deeper⟩

/-! ### Loose equality -/

/-- The value is an array or an object. -/
def isContainer : Value → Bool
  | array _ | object _ => true
  | _ => false

/-- The value is a number or a text. -/
def isScalar : Value → Bool
  | number _ | string _ => true
  | _ => false

/-- The value is a truth value. -/
def isBool : Value → Bool
  | bool _ => true
  | _ => false

/-- A loose comparison of `a` and `b` goes on with `c` and `d`, one of which has been converted. -/
inductive Converts : Value → Value → Value → Value → Prop where
  | boolLeft {x : Bool} {b : Value} (something : b.isNothing = false) :
      Converts (bool x) b (number (toNumber (bool x))) b
  | boolRight {a : Value} {x : Bool} (something : a.isNothing = false) (other : a.isBool = false) :
      Converts a (bool x) a (number (toNumber (bool x)))
  | textLeft {a b : Value} (container : a.isContainer = true) (scalar : b.isScalar = true) :
      Converts a b (string a.toText) b
  | textRight {a b : Value} (scalar : a.isScalar = true) (container : b.isContainer = true) :
      Converts a b a (string b.toText)

/-- A loose comparison of `a` and `b` comes to `c` and `d` after so many conversions. -/
inductive ConvertsIn : Nat → Value → Value → Value → Value → Prop where
  | none {a b : Value} : ConvertsIn 0 a b a b
  | more {n : Nat} {a b a' b' c d : Value} (first : Converts a b a' b') (rest : ConvertsIn n a' b' c d) :
      ConvertsIn (n + 1) a b c d

/-- The comparison of two values that are not converted any more: `undefined` and `null` are equal to each other only,
    and a number and a text are compared as numbers. -/
def settledEq (a b : Value) : Bool :=
  if a.isNothing || b.isNothing then a.isNothing && b.isNothing
  else if a.isScalar && b.isScalar && a.kind != b.kind then a.toNumber == b.toNumber
  else strictEq a b

theorem Converts.looseEq_eq {a b c d : Value} (converts : Converts a b c d) : looseEq a b = looseEq c d := by
  cases converts with
  | boolLeft something => cases b <;> simp_all [looseEq, isNothing]
  | boolRight something other => cases a <;> simp_all [looseEq, isNothing, isBool]
  | textLeft container scalar =>
    cases a <;> cases b <;> simp_all [looseEq, isContainer, isScalar]
  | textRight scalar container =>
    cases a <;> cases b <;> simp_all [looseEq, isContainer, isScalar]

theorem Converts.conversions_lt {a b c d : Value} (converts : Converts a b c d) :
    c.conversions + d.conversions < a.conversions + b.conversions := by
  cases converts with
  | boolLeft something => simp [conversions]
  | boolRight something other => simp [conversions]
  | textLeft container scalar => cases a <;> simp_all [conversions, isContainer]
  | textRight scalar container => cases b <;> simp_all [conversions, isContainer]

theorem looseEq_of_settled {a b : Value} (settled : ∀ c d, ¬ Converts a b c d) : looseEq a b = settledEq a b := by
  cases a <;> cases b
  case bool.bool | bool.number | bool.string | bool.array | bool.object | bool.function =>
    exact absurd (.boolLeft rfl) (settled _ _)
  case number.bool | string.bool | array.bool | object.bool | function.bool =>
    exact absurd (.boolRight rfl rfl) (settled _ _)
  case array.number | array.string | object.number | object.string =>
    exact absurd (.textLeft rfl rfl) (settled _ _)
  case number.array | string.array | number.object | string.object =>
    exact absurd (.textRight rfl rfl) (settled _ _)
  all_goals simp [looseEq, settledEq, isNothing, isScalar, kind, toNumber]

/-- A loose comparison ends after at most two conversions with a comparison that needs none. -/
theorem looseEq_settles (a b : Value) : ∃ n c d, n ≤ a.conversions + b.conversions ∧ ConvertsIn n a b c d ∧
    (∀ a' b', ¬ Converts c d a' b') ∧ looseEq a b = settledEq c d := by
  by_cases settled : ∀ c d, ¬ Converts a b c d
  · exact ⟨0, a, b, Nat.zero_le _, .none, settled, looseEq_of_settled settled⟩
  · simp only [Classical.not_forall, Classical.not_not] at settled
    obtain ⟨a', b', first⟩ := settled
    have fewer := first.conversions_lt
    obtain ⟨n, c, d, bound, rest, settled, same⟩ := looseEq_settles a' b'
    exact ⟨n + 1, c, d, by omega, .more first rest, settled, first.looseEq_eq.trans same⟩
termination_by a.conversions + b.conversions

theorem conversions_le_one (v : Value) : v.conversions ≤ 1 := by
  cases v <;> simp [conversions]

theorem strictEq_comm {a b : Value} (proper : a.Proper) (proper' : b.Proper) : strictEq a b = strictEq b a :=
  Bool.eq_iff_iff.mpr ⟨strictEq_symm proper proper', strictEq_symm proper' proper⟩

theorem settledEq_comm {a b : Value} (proper : a.Proper) (proper' : b.Proper) : settledEq a b = settledEq b a := by
  rw [settledEq, settledEq, Bool.or_comm, Bool.and_comm, Bool.and_comm a.isScalar, bne_comm (a := a.kind),
    BEq.comm (a := a.toNumber), strictEq_comm proper proper']

/-- Exchanged values are converted to exchanged values, if not always by the same conversion. -/
theorem Converts.looseEq_swap {a b c d : Value} (converts : Converts a b c d) : looseEq b a = looseEq d c := by
  cases converts with
  | boolLeft something => cases b <;> simp_all [looseEq, isNothing]
  | boolRight something other => cases a <;> simp_all [looseEq, isNothing, isBool]
  | textLeft container scalar =>
    cases a <;> cases b <;> simp_all [looseEq, isContainer, isScalar]
  | textRight scalar container =>
    cases a <;> cases b <;> simp_all [looseEq, isContainer, isScalar]

theorem Converts.exists_swap {a b c d : Value} (converts : Converts a b c d) : ∃ c' d', Converts b a c' d' := by
  cases converts with
  | @boolLeft x b something =>
    cases other : b.isBool with
    | false => exact ⟨_, _, .boolRight something other⟩
    | true =>
      cases b with
      | bool y => exact ⟨_, _, .boolLeft rfl⟩
      | _ => cases other
  | boolRight something other => exact ⟨_, _, .boolLeft something⟩
  | textLeft container scalar => exact ⟨_, _, .textRight scalar container⟩
  | textRight scalar container => exact ⟨_, _, .textLeft container scalar⟩

theorem Converts.proper {a b c d : Value} (converts : Converts a b c d) (proper : a.Proper) (proper' : b.Proper) :
    c.Proper ∧ d.Proper := by
  cases converts with
  | boolLeft something => exact ⟨proper_number _, proper'⟩
  | boolRight something other => exact ⟨proper, proper_number _⟩
  | textLeft container scalar => exact ⟨proper_string _, proper'⟩
  | textRight scalar container => exact ⟨proper, proper_string _⟩

theorem looseEq_comm {a b : Value} (proper : a.Proper) (proper' : b.Proper) : looseEq a b = looseEq b a := by
  by_cases settled : ∀ c d, ¬ Converts a b c d
  · have settled' : ∀ c d, ¬ Converts b a c d := by
      intro c d converts
      obtain ⟨c', d', back⟩ := converts.exists_swap
      exact settled c' d' back
    rw [looseEq_of_settled settled, looseEq_of_settled settled', settledEq_comm proper proper']
  · simp only [Classical.not_forall, Classical.not_not] at settled
    obtain ⟨c, d, first⟩ := settled
    have fewer := first.conversions_lt
    obtain ⟨properC, properD⟩ := first.proper proper proper'
    rw [first.looseEq_eq, first.looseEq_swap]
    exact looseEq_comm properC properD
termination_by a.conversions + b.conversions

theorem looseEq_of_strictEq {a b : Value} (equal : strictEq a b = true) : looseEq a b = true := by
  cases a <;> cases b <;> simp only [strictEq, Bool.false_eq_true, beq_iff_eq] at equal
  case bool.bool x y =>
    have valid : (toNumber (bool y)).isNaN = false := by cases y <;> decide
    simpa [looseEq, strictEq, equal] using beq_self_iff_isNaN.mpr valid
  all_goals simp_all [looseEq, strictEq]

/-! ### Objects as maps -/

theorem get?_of_perm {f g : Fields Value} (perm : f.Perm g) (distinct : f.names.Nodup) (name : String) :
    f.get? name = g.get? name := by
  have distinct' : g.names.Nodup := (perm.map Prod.fst).nodup_iff.mp distinct
  cases found : f.get? name with
  | some v => exact (Fields.get?_of_mem distinct' (perm.mem_iff.mp (Fields.mem_of_get? found))).symm
  | none =>
    have absent : name ∉ g.names := by
      intro member
      exact Fields.get?_eq_none.mp found ((perm.map Prod.fst).mem_iff.mpr member)
    exact (Fields.get?_eq_none.mpr absent).symm

theorem Proper.of_perm {f g : Fields Value} (perm : f.Perm g) (proper : (object f).Proper) : (object g).Proper := by
  refine proper_iff.mpr ⟨?_, fun part among => proper.part ((perm.map Prod.snd).mem_iff.mpr among)⟩
  rintro fields ⟨⟩
  exact (perm.map Prod.fst).nodup_iff.mp proper.nodup

theorem strictEq_object_iff {f g : Fields Value} (proper : (object f).Proper) (proper' : (object g).Proper) :
    strictEq (object f) (object g) = true ↔
      ∀ name, Option.Rel (fun a b => strictEq a b = true) (f.get? name) (g.get? name) := by
  rw [strictEq_iff_alike proper proper']
  constructor
  · intro alike
    cases alike with
    | object fields => exact fields
  · exact .object

theorem strictEq_of_perm {f g : Fields Value} (perm : f.Perm g) (proper : (object f).Proper) {v : Value}
    (proper' : v.Proper) : strictEq (object f) v = strictEq (object g) v := by
  cases v with
  | object h =>
    rw [Bool.eq_iff_iff, strictEq_object_iff proper proper', strictEq_object_iff (proper.of_perm perm) proper']
    simp only [get?_of_perm perm proper.nodup]
  | _ => simp [strictEq]

theorem looseEq_of_perm {f g : Fields Value} (perm : f.Perm g) (proper : (object f).Proper) {v : Value}
    (proper' : v.Proper) : looseEq (object f) v = looseEq (object g) v := by
  have strict := strictEq_of_perm perm proper proper'
  cases v <;> simp_all [looseEq, toText]

theorem Proper.set {fields : Fields Value} {v : Value} (proper : (object fields).Proper) (name : String)
    (proper' : v.Proper) : (object (fields.set name v)).Proper := by
  refine proper_iff.mpr ⟨?_, ?_⟩
  · rintro fields' ⟨⟩
    exact Fields.nodup_names_set proper.nodup
  · intro part among
    obtain ⟨entry, member, rfl⟩ := List.mem_map.mp among
    rcases Fields.mem_of_mem_set member with rfl | member
    · exact proper'
    · exact proper.part (List.mem_map_of_mem member)

/-- The objects that are built from entries are proper, also if a name is repeated. -/
theorem proper_ofList {entries : List (String × Value)} (proper : ∀ entry ∈ entries, entry.2.Proper) :
    (object (Fields.ofList entries)).Proper := by
  have built : ∀ fields : Fields Value, (object fields).Proper →
      (object (entries.foldl (fun fields entry => Fields.set entry.1 entry.2 fields) fields)).Proper := by
    induction entries with
    | nil => exact fun fields proper => proper
    | cons entry rest ih =>
      intro fields properFields
      obtain ⟨first, others⟩ := List.forall_mem_cons.mp proper
      exact ih others _ (properFields.set entry.1 first)
  exact built [] (proper_iff.mpr ⟨by rintro fields ⟨⟩; exact List.nodup_nil, by simp [parts]⟩)

/-- The laws of the equalities. Strict equality is symmetric and transitive, and a value is equal to itself unless
    some double in it is no number. A loose comparison ends after at most two conversions, loose equality is
    symmetric, and values that are strictly equal are loosely equal. Objects are compared name by name, whatever the
    order of their fields. -/
theorem equality_laws :
    (∀ a b, a.Proper → b.Proper → strictEq a b = strictEq b a) ∧
    (∀ a b c, a.Proper → b.Proper → c.Proper → strictEq a b = true → strictEq b c = true → strictEq a c = true) ∧
    (∀ v, v.Proper → (strictEq v v = true ↔ ¬ ∃ x : Float, x.isNaN = true ∧ Occurs (number x) v)) ∧
    (∀ a b, ∃ n c d, n ≤ 2 ∧ ConvertsIn n a b c d ∧ (∀ a' b', ¬ Converts c d a' b') ∧ looseEq a b = settledEq c d) ∧
    (∀ a b, a.Proper → b.Proper → looseEq a b = looseEq b a) ∧
    (∀ a b, strictEq a b = true → looseEq a b = true) ∧
    (∀ f g, (object f).Proper → (object g).Proper → (strictEq (object f) (object g) = true ↔
      ∀ name, Option.Rel (fun a b => strictEq a b = true) (Fields.get? name f) (Fields.get? name g))) ∧
    (∀ f g v, f.Perm g → (object f).Proper → v.Proper →
      strictEq (object f) v = strictEq (object g) v ∧ looseEq (object f) v = looseEq (object g) v) := by
  refine ⟨fun a b => strictEq_comm, fun a b c => strictEq_trans, fun v => strictEq_self_iff, ?_,
    fun a b => looseEq_comm, fun a b => looseEq_of_strictEq, fun f g => strictEq_object_iff, ?_⟩
  · intro a b
    obtain ⟨n, c, d, bound, converted, settled, same⟩ := looseEq_settles a b
    have one := conversions_le_one a
    have one' := conversions_le_one b
    exact ⟨n, c, d, by omega, converted, settled, same⟩
  · intro f g v perm proper proper'
    exact ⟨strictEq_of_perm perm proper proper', looseEq_of_perm perm proper proper'⟩

/-- The fields of an object inside another one. -/
def innerFields : Fields Value :=
  Fields.ofList [("open", bool true), ("label", null)]

/-- An object with an array and an object in it. -/
def nested : Value :=
  object (Fields.ofList [("size", array [number 1.0, string "2"]), ("lid", object innerFields)])

/-- The same with the fields of both objects in another order. -/
def rearranged : Value :=
  object (Fields.ofList [("lid", object innerFields.reverse), ("size", array [number 1.0, string "2"])])

theorem proper_inner : (object innerFields).Proper := by
  apply proper_ofList
  simp

theorem proper_inner_reverse : (object innerFields.reverse).Proper :=
  proper_inner.of_perm (List.reverse_perm _).symm

theorem proper_nested : nested.Proper := by
  apply proper_ofList
  simp [proper_inner]

theorem proper_rearranged : rearranged.Proper := by
  apply proper_ofList
  simp [proper_inner_reverse]

theorem nested_equality_laws : strictEq nested rearranged = true ∧ strictEq rearranged nested = true ∧
    looseEq nested rearranged = true ∧ looseEq rearranged nested = true ∧ strictEq nested nested = true ∧
    (¬ ∃ x : Float, x.isNaN = true ∧ Occurs (number x) nested) ∧
    looseEq (object innerFields) (object innerFields) = looseEq (object innerFields.reverse) (object innerFields) ∧
    ∀ name, Option.Rel (fun a b => strictEq a b = true) (innerFields.get? name)
      (Fields.get? name innerFields.reverse) := by
  obtain ⟨symm, trans, self, -, loose, strict, maps, orders⟩ := equality_laws
  have equal : strictEq nested rearranged = true := by decide +kernel
  have equal' : strictEq rearranged nested = true := by rw [symm _ _ proper_rearranged proper_nested, equal]
  have equal'' : strictEq nested nested = true :=
    trans _ _ _ proper_nested proper_rearranged proper_nested equal equal'
  refine ⟨equal, equal', strict _ _ equal, ?_, equal'', (self _ proper_nested).mp equal'', ?_, ?_⟩
  · rw [loose _ _ proper_rearranged proper_nested, strict _ _ equal]
  · exact (orders _ _ _ (List.reverse_perm innerFields).symm proper_inner proper_inner).2
  · exact (maps _ _ proper_inner proper_inner_reverse).mp (by decide +kernel)

end Stencil.Value
