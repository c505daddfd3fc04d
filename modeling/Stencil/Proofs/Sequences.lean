import Stencil.Proofs.Doubles
import Stencil.Proofs.Naturals
import Stencil.Proofs.Rendering

/-!
Arrays and texts as sequences. A loop makes one round for each item of an array and for each character of a
text, and what it shows in a round is what the number of the round reads as an index. The length counts the
items of an array, but the 16-bit units of a text: characters beyond the first 65536 count twice, and the second
count belongs to no round and no index.
-/
namespace Stencil

open Stencil.Expr (eval property indexed)
open Template (Block)

/-! ### Rounds -/

namespace Build

open Stateful

/-- Does steps in order, up to the first that fails. -/
def inTurn : List (Build Unit) → Build Unit
  | [] => return ()
  | step :: rest => do
    step
    inTurn rest

/-- The rounds of a loop, each of which shows its item to the body. -/
def rounds (name : String) (items : List (Value × Value)) (body : Build Unit) : List (Build Unit) :=
  items.mapIdx fun index item => do
    showItem name index items.length item
    body

/-- Does the rounds of a loop under a new fragment, and gives the fragment. -/
def unrolled (name : String) (items : List (Value × Value)) (body : List Block) : Build Nat := do
  let root ← create .fragment
  locally (inTurn (rounds name items (blocks root body)))
  return root

theorem forItems_eq_inTurn (name : String) (count : Nat) (body : Build Unit) (start : Nat)
    (items : List (Value × Value)) : forItems name count body start items =
      inTurn (items.mapIdx fun index item => do
        showItem name (start + index) count item
        body) := by
  induction items generalizing start with
  | nil => rfl
  | cons item rest ih =>
    rw [forItems, ih (start + 1), List.mapIdx_cons, inTurn, bind_assoc]
    simp only [Nat.add_zero, Nat.add_right_comm start 1, Nat.add_assoc]

theorem forItems_eq_rounds (name : String) (body : Build Unit) (items : List (Value × Value)) :
    forItems name items.length body 0 items = inTurn (rounds name items body) := by
  rw [forItems_eq_inTurn]
  simp only [Nat.zero_add, rounds]

section loop

variable {e : Expression} {data : Fields Value} {v : Value} {items : Array (Value × Value)}
  (computed : e.eval data = .ok v) (listed : loopItems v = .ok items) (document : Document Nat)

include computed listed

/-- A loop whose source has been computed goes through the items of the value. -/
theorem block_loop (parent : Nat) (name : String) (body : List Block) :
    block parent (.loop e name body) ⟨document, data⟩ =
      locally (inTurn (rounds name items.toList (blocks parent body))) ⟨document, data⟩ := by
  have items : itemsOf e ⟨document, data⟩ = (.ok items.toList, ⟨document, data⟩) := by
    rw [itemsOf, bind_ok (Machine.compute_ok computed), listed]
    rfl
  rw [block, bind_ok items, forItems_eq_rounds]

theorem rooted_loop (name : String) (body : List Block) :
    rooted [.loop e name body] ⟨document, data⟩ = unrolled name items.toList body ⟨document, data⟩ := by
  have created : create .fragment ⟨document, data⟩ =
      (.ok (document.create .fragment).1, ⟨(document.create .fragment).2, data⟩) := rfl
  rw [rooted, unrolled, bind_ok created, bind_ok created, blocks, blocks, bind_pure_unit, bind_apply, bind_apply,
    block_loop computed listed]

end loop

theorem read_showItem (name : String) (index count : Nat) (item : Value × Value) (site : Site) :
    (showItem name index count item site).2.data.read (name ++ "_value") = item.2 := by
  simp [showItem, Fields.read, Fields.get?_set_self]

end Build

/-! ### Lengths and indices -/

namespace Value

/-- Arrays, and texts short enough for a machine of 64 bits. -/
def Sequence : Value → Prop
  | .array _ => True
  | .string s => s.length < 2 ^ 63
  | _ => False

/-- How many characters of a text take two 16-bit units. -/
def wideChars : Value → Nat
  | .string s => s.toList.countP fun c => 0x10000 ≤ c.toNat
  | _ => 0

end Value

theorem Text.units16_eq (s : String) : units16 s = s.length + (Value.string s).wideChars := by
  rw [units16, Value.wideChars, ← String.length_toList]
  induction s.toList with
  | nil => rfl
  | cons c rest ih =>
    rw [List.foldr_cons, ih, List.countP_cons, List.length_cons]
    simp only [decide_eq_true_eq]
    split <;> split <;> omega

section sequence

variable {v : Value} {items : Array (Value × Value)} (sequence : v.Sequence) (listed : loopItems v = .ok items)

include sequence listed

theorem property_length : property v "length" = .ok (.number (Float.ofNat (items.size + v.wideChars))) := by
  cases v with
  | array values =>
    cases listed
    simp [property, Value.wideChars]
  | string s =>
    cases listed
    simp [property, Text.units16_eq, String.length_toList]
  | _ => cases sequence

/-- What a loop shows in a round is what the number of the round reads. In a text the number is a name like any
    other, and reaches the characters through its digits. -/
theorem indexed_of_toNat? {x : Float} {i : Nat} (denotes : Number.toNat? x = some i) :
    indexed v (.number x) = .ok ((items[i]?.map Prod.snd).getD .undefined) := by
  cases v with
  | array values =>
    cases listed
    simp [indexed, denotes, Function.comp_def]
  | string s =>
    cases listed
    have named := Number.text_ne_length denotes
    have round : ((s.toList.mapIdx fun i c => (Value.string (toString i), Value.string c.toString)).toArray[i]?.map
        Prod.snd) = s.toList[i]?.map fun c => .string c.toString := by
      simp [List.getElem?_mapIdx, Function.comp_def]
    rw [round]
    change property (.string s) (Number.text x) = _
    rcases Number.readNat?_text denotes with number | ⟨large, none⟩
    · simp [property, named, number]
    · have short : s.length < 2 ^ 63 := sequence
      have beyond : s.toList[i]? = Option.none := by
        rw [List.getElem?_eq_none_iff, String.length_toList]
        omega
      simp [property, named, none, beyond]
  | _ => cases sequence

end sequence

/-! ### Agreement -/

/-- What an array or a text has in common with the items of a loop over it. -/
structure Enumerates (items : Array (Value × Value)) (v : Value) : Prop where
  /-- The program of a loop makes one round for each item, in order. -/
  run : ∀ (e : Expression) document data, e.eval data = .ok v →
    ∀ name body, ∃ enough, ∀ steps, enough ≤ steps →
      ((Program.ofBlocks [.loop e name body]).run steps document data).result =
        Build.unrolled name items.toList body ⟨document, data⟩
  /-- So does a loop among other blocks. -/
  loop : ∀ (e : Expression) (site : Site), e.eval site.data = .ok v →
    ∀ parent name body, Build.block parent (.loop e name body) site =
      Build.locally (Build.inTurn (Build.rounds name items.toList (Build.blocks parent body))) site
  /-- A round shows the value of its item. -/
  shows : ∀ name (i : Nat) item site, items[i]? = some item →
    (Build.showItem name i items.size item site).2.data.read (name ++ "_value") = item.2
  /-- The length counts the items, and the wide characters of a text once more. -/
  length : ∀ e data, eval data e = .ok v →
    eval data (.member e "length") = .ok (.number (Float.ofNat (items.size + v.wideChars)))
  /-- A number reads the value of its item, and nothing from the number of items on. -/
  index : ∀ e key data x i, eval data e = .ok v → eval data key = .ok (.number x) →
    Number.toNat? x = some i →
      eval data (.index e key) = .ok ((items[i]?.map Prod.snd).getD .undefined)
  /-- Every natural number that a double can count to is such a number. -/
  literal : ∀ e data (i : Nat), i < 2 ^ 53 → eval data e = .ok v →
    eval data (.index e (.literal (.number (Float.ofNat i)))) = .ok ((items[i]?.map Prod.snd).getD .undefined)

/-- Length, index and loop agree on every array, and on a text except that its length counts wide characters twice. -/
theorem sequence_enumerated {v : Value} (sequence : v.Sequence) :
    ∃ items, loopItems v = .ok items ∧ Enumerates items v := by
  have listed : ∃ items, loopItems v = .ok items := by
    cases v with
    | array values => exact ⟨_, rfl⟩
    | string s => exact ⟨_, rfl⟩
    | _ => cases sequence
  obtain ⟨items, listed⟩ := listed
  have index : ∀ e key data x i, eval data e = .ok v → eval data key = .ok (.number x) →
      Number.toNat? x = some i →
        eval data (.index e key) = .ok ((items[i]?.map Prod.snd).getD .undefined) := by
    intro e key data x i target number denotes
    rw [eval, target]
    change (eval data key >>= indexed v) = _
    rw [number]
    exact indexed_of_toNat? sequence listed denotes
  refine ⟨items, listed, ?_, ?_, ?_, ?_, index, ?_⟩
  · intro e document data computed name body
    obtain ⟨enough, -, ends⟩ := ofBlocks_run [.loop e name body] document data
    refine ⟨enough, fun steps many => ?_⟩
    rw [ends steps many]
    exact Build.rooted_loop computed listed document name body
  · exact fun e site computed => Build.block_loop computed listed site.document
  · intro name i item site shown
    exact Build.read_showItem name i items.size item site
  · intro e data target
    rw [eval, target]
    exact property_length sequence listed
  · intro e data i small target
    exact index e _ data _ i target rfl (Number.toNat?_ofNat small)

theorem mixedText_enumerated : (Value.string "a😀b").Sequence ∧
    ∃ items, loopItems (.string "a😀b") = .ok items ∧ Enumerates items (.string "a😀b") := by
  have short : (Value.string "a😀b").Sequence := by
    change "a😀b".length < 2 ^ 63
    decide
  exact ⟨short, sequence_enumerated short⟩

/-- A text of one wide character has length two, but a loop over it makes one round, and index one reads nothing. -/
theorem wideText_length_exceeds_rounds :
    eval [] (.member (.literal (.string "😀")) "length") = .ok (.number (Float.ofNat 2)) ∧
      (loopItems (.string "😀")).map (·.size) = .ok 1 ∧
      eval [] (.index (.literal (.string "😀")) (.literal (.number (Float.ofNat 1)))) = .ok .undefined := by
  have short : (Value.string "😀").Sequence := by
    change "😀".length < 2 ^ 63
    decide
  exact ⟨rfl, rfl, indexed_of_toNat? short rfl (Number.toNat?_ofNat (n := 1) (by decide))⟩

end Stencil
