import Mathlib.Logic.Relation
import Stencil.Proofs.Execution

/-!
How a machine goes through a program. A path is a run of instructions that all succeed; every state on
it satisfies an invariant, so that the state in which a run is stopped for want of steps does too.

`During` and `After` are the invariants of code that may use the registers from `next` on. While it
runs, undoing the loops that it has under way gives back the data that it started with; when it is
through, no loop is under way and the data are what they were.
-/
namespace Stencil

/-- The loop that a register holds. -/
def Register.loop? : Register → Option Loop
  | .loop l => some l
  | _ => none

namespace Machine

open Relation (ReflTransGen)

variable {program : Program} {m start : Machine} {next slot : Nat}

/-! ### Loops under way -/

/-- The data once the loops in the registers from `next` on are undone, the last register first. -/
def undone (next : Nat) (m : Machine) : Fields Value :=
  ((m.registers.toList.drop next).reverse.filterMap Register.loop?).foldl
    (fun data l => restoreFields l.saved data) m.data

/-- No loop is under way in the registers from `next` on. -/
def Idle (next : Nat) (m : Machine) : Prop :=
  ∀ slot l, next ≤ slot → m.registers[slot]? ≠ some (.loop l)

theorem undone_of_idle (idle : Idle next m) : undone next m = m.data := by
  have none : (m.registers.toList.drop next).reverse.filterMap Register.loop? = [] := by
    apply List.filterMap_eq_nil_iff.mpr
    intro register member
    obtain ⟨i, found⟩ := List.mem_iff_getElem?.mp (List.mem_reverse.mp member)
    rw [List.getElem?_drop, Array.getElem?_toList] at found
    cases register with
    | loop l => exact absurd found (idle (next + i) l (by omega))
    | _ => rfl
  rw [undone, none]
  rfl

theorem undone_succ {register : Register} (held : m.registers[next]? = some register) :
    undone next m = match register.loop? with
      | some l => restoreFields l.saved (undone (next + 1) m)
      | none => undone (next + 1) m := by
  have split : m.registers.toList.drop next = register :: m.registers.toList.drop (next + 1) := by
    rw [← Array.getElem?_toList] at held
    obtain ⟨inside, rfl⟩ := List.getElem?_eq_some_iff.mp held
    exact List.drop_eq_getElem_cons inside
  rw [undone, split, List.reverse_cons, List.filterMap_append, List.foldl_append]
  cases register <;> rfl

/-- Registers without loops make no difference to what is undone. -/
theorem undone_of_le {higher : Nat} (le : next ≤ higher)
    (idle : ∀ slot l, next ≤ slot → slot < higher → m.registers[slot]? ≠ some (.loop l)) :
    undone next m = undone higher m := by
  induction le with
  | refl => rfl
  | @step higher le ih =>
    rw [ih fun slot l low high => idle slot l low (by omega)]
    cases held : m.registers[higher]? with
    | none =>
      have outside : m.registers.size ≤ higher := Array.getElem?_eq_none_iff.mp held
      rw [undone, undone, List.drop_eq_nil_of_le (by simpa using outside),
        List.drop_eq_nil_of_le (by simp; omega)]
    | some register =>
      rw [undone_succ held]
      cases register with
      | loop l => exact absurd held (idle higher l le (by omega))
      | _ => rfl

theorem unwind_document (m : Machine) : m.unwind.document = m.document := by
  have kept : ∀ (loops : List Loop) (m : Machine),
      (loops.foldl (fun m l =>
        { m with
          data := restoreFields l.saved m.data
          log := m.log ++ [⟨.trace, target, "unwinding loop `" ++ l.name ++ "`"⟩] }) m).document = m.document := by
    intro loops
    induction loops with
    | nil => intro m; rfl
    | cons l rest ih => intro m; exact ih _
  exact kept m.openLoops m

theorem unwind_data (m : Machine) : m.unwind.data = undone 0 m := by
  have restored : ∀ (loops : List Loop) (m : Machine),
      (loops.foldl (fun m l =>
        { m with
          data := restoreFields l.saved m.data
          log := m.log ++ [⟨.trace, target, "unwinding loop `" ++ l.name ++ "`"⟩] }) m).data =
        loops.foldl (fun data l => restoreFields l.saved data) m.data := by
    intro loops
    induction loops with
    | nil => intro m; rfl
    | cons l rest ih => intro m; exact ih _
  have same : m.openLoops = m.registers.toList.reverse.filterMap Register.loop? := by
    unfold openLoops
    congr 1
  rw [undone, List.drop_zero, ← same]
  exact restored m.openLoops m

/-! ### Invariants of code that uses registers from some register on -/

/-- A state that code passes through after it was entered in `start`. -/
structure During (next : Nat) (start m : Machine) : Prop where
  size : m.registers.size = start.registers.size
  kept : ∀ slot < next, m.registers[slot]? = start.registers[slot]?
  undone : undone next m = start.data

/-- A state in which code that was entered in `start` has no loop under way. -/
structure After (next : Nat) (start m : Machine) : Prop where
  size : m.registers.size = start.registers.size
  kept : ∀ slot < next, m.registers[slot]? = start.registers[slot]?
  idle : Idle next m
  data : m.data = start.data

theorem Idle.mono {higher : Nat} (idle : Idle next m) (le : next ≤ higher) : Idle higher m :=
  fun slot l high => idle slot l (by omega)

theorem After.refl (idle : Idle next m) : After next m m :=
  ⟨rfl, fun _ _ => rfl, idle, rfl⟩

theorem After.during (after : After next start m) : During next start m :=
  ⟨after.size, after.kept, (undone_of_idle after.idle).trans after.data⟩

theorem After.node {node : Nat} (after : After next start m) (below : slot < next)
    (held : start.registers[slot]? = some (.node node)) : m.registers[slot]? = some (.node node) :=
  (after.kept slot below).trans held

/-- Code that goes on from where other code has ended. -/
theorem After.trans {higher : Nat} {later : Machine} (first : After next start m) (le : next ≤ higher)
    (second : After higher m later) : After next start later := by
  refine ⟨second.size.trans first.size, ?_, ?_, second.data.trans first.data⟩
  · intro slot below
    rw [second.kept slot (by omega), first.kept slot below]
  · intro slot l low held
    by_cases high : higher ≤ slot
    · exact second.idle slot l high held
    · rw [second.kept slot (by omega)] at held
      exact first.idle slot l low held

theorem After.trans_during {higher : Nat} {later : Machine} (first : After next start m) (le : next ≤ higher)
    (second : During higher m later) : During next start later := by
  refine ⟨second.size.trans first.size, ?_, ?_⟩
  · intro slot below
    rw [second.kept slot (by omega), first.kept slot below]
  · rw [undone_of_le le, second.undone, first.data]
    intro slot l low high held
    rw [second.kept slot high] at held
    exact first.idle slot l low held

theorem After.of_registers {later : Machine} (after : After next start m) (registers : later.registers = m.registers)
    (data : later.data = m.data) : After next start later := by
  refine ⟨registers ▸ after.size, ?_, ?_, data.trans after.data⟩
  · intro slot below
    rw [registers]
    exact after.kept slot below
  · intro slot l low
    rw [registers]
    exact after.idle slot l low

theorem After.withDocument (after : After next start m) (document : Document Nat) :
    After next start (m.withDocument document) :=
  after.of_registers rfl rfl

/-- Writing anything but a loop into a register that the code may use. -/
theorem After.put {content : Register} (after : After next start m) (low : next ≤ slot)
    (plain : content.loop? = none) : After next start (m.put slot content) := by
  refine ⟨(size_put content).trans after.size, ?_, ?_, after.data⟩
  · intro other below
    rw [getElem?_put_of_ne content (by omega)]
    exact after.kept other below
  · intro other l lowOther held
    by_cases same : other = slot
    · subst same
      have inside : other < m.registers.size := by
        have bound := (Array.getElem?_eq_some_iff.mp held).1
        rwa [size_put] at bound
      rw [getElem?_put_self content inside] at held
      cases held
      simp [Register.loop?] at plain
    · rw [getElem?_put_of_ne content same] at held
      exact after.idle other l lowOther held

theorem After.withNode (after : After next start m) (low : next ≤ slot) (kind : NodeKind Nat) :
    After next start (m.withNode slot kind) :=
  (after.withDocument _).put low rfl

/-! ### Paths -/

/-- One instruction that succeeds, in a state that satisfies the invariant. -/
def Moves (program : Program) (inv : Machine → Prop) (before after : Nat × Machine) : Prop :=
  inv before.2 ∧ ∃ instr, program.instr? before.1 = some instr ∧
    exec before.1 instr before.2 = (.ok (.goto after.1), after.2)

/-- A run of instructions that succeed, in states that satisfy the invariant; the last state need not. -/
def Path (program : Program) (inv : Machine → Prop) : Nat × Machine → Nat × Machine → Prop :=
  ReflTransGen (Moves program inv)

/-- A path that ends at an instruction that fails. -/
def Fails (program : Program) (inv : Machine → Prop) (before : Nat × Machine) (e : RenderError)
    (document : Document Nat) : Prop :=
  ∃ last instr after, Path program inv before last ∧ inv last.2 ∧ program.instr? last.1 = some instr ∧
    exec last.1 instr last.2 = (.error e, after) ∧ inv after ∧ after.document = document

section paths

variable {inv inv' : Machine → Prop} {a b c : Nat × Machine} {e : RenderError} {document : Document Nat}

theorem Path.mono (imp : ∀ m, inv m → inv' m) (path : Path program inv a b) : Path program inv' a b :=
  ReflTransGen.mono (p := Moves program inv') (fun _ _ moves => ⟨imp _ moves.1, moves.2⟩) _ _ path

theorem Path.step {address target : Nat} {instr : Instr} {after : Machine} (holds : inv m)
    (found : program.instr? address = some instr) (ran : exec address instr m = (.ok (.goto target), after))
    (rest : Path program inv (target, after) c) : Path program inv (address, m) c :=
  ReflTransGen.head ⟨holds, instr, found, ran⟩ rest

theorem Path.trans (first : Path program inv a b) (second : Path program inv b c) : Path program inv a c :=
  ReflTransGen.trans first second

theorem Fails.mono (imp : ∀ m, inv m → inv' m) (fails : Fails program inv a e document) :
    Fails program inv' a e document := by
  obtain ⟨last, instr, after, path, holds, found, ran, holdsAfter, doc⟩ := fails
  exact ⟨last, instr, after, path.mono imp, imp _ holds, found, ran, imp _ holdsAfter, doc⟩

theorem Path.fails (path : Path program inv a b) (fails : Fails program inv b e document) :
    Fails program inv a e document := by
  obtain ⟨last, instr, after, rest, holds, found, ran, holdsAfter, doc⟩ := fails
  exact ⟨last, instr, after, path.trans rest, holds, found, ran, holdsAfter, doc⟩

theorem Fails.here {address : Nat} {instr : Instr} (holds : inv m) (found : program.instr? address = some instr)
    (ran : exec address instr m = (.error e, m)) : Fails program inv (address, m) e m.document :=
  ⟨(address, m), instr, m, ReflTransGen.refl, holds, found, ran, holds, rfl⟩

/-! ### Paths and steps -/

theorem execute_succ {instr : Instr} (found : program.instr? a.1 = some instr) (steps : Nat) :
    execute program (steps + 1) a.1 a.2 = match exec a.1 instr a.2 with
      | (.ok (.goto target), after) => execute program steps target after
      | (.ok (.finish root), after) => (.ok root, after)
      | (.error e, after) => (.error e, after) := by
  rw [execute, found]
  simp only [Stateful.bind_apply]
  rcases exec a.1 instr a.2 with ⟨result, after⟩
  rcases result with e | control
  · rfl
  · cases control <;> rfl

/-- A run that has ended does not change with more steps. -/
theorem execute_of_le {steps more : Nat} (enough : steps ≤ more)
    (ended : (execute program steps a.1 a.2).1 ≠ .error .unfinished) :
    execute program more a.1 a.2 = execute program steps a.1 a.2 := by
  induction steps generalizing more a with
  | zero => exact absurd rfl ended
  | succ steps ih =>
    obtain ⟨further, rfl⟩ : ∃ further, more = further + 1 := ⟨more - 1, by omega⟩
    cases found : program.instr? a.1 with
    | none => rw [execute, execute, found]
    | some instr =>
      rw [execute_succ found] at ended
      rw [execute_succ found, execute_succ found]
      rcases ran : exec a.1 instr a.2 with ⟨result, after⟩
      rw [ran] at ended
      rcases result with e | control
      · rfl
      · cases control with
        | finish root => rfl
        | goto target => exact ih (a := (target, after)) (Nat.le_of_succ_le_succ enough) ended

/-- The steps of a path can be left out from the start of a run; with fewer steps the run is stopped
    on the path, in a state that satisfies the invariant. -/
theorem Path.decides (path : Path program inv a b) :
    ∃ count, (∀ steps, execute program (count + steps) a.1 a.2 = execute program steps b.1 b.2) ∧
      ∀ steps < count, ∃ m, inv m ∧ execute program steps a.1 a.2 = (.error .unfinished, m) := by
  induction path using ReflTransGen.head_induction_on with
  | refl => exact ⟨0, fun steps => by rw [Nat.zero_add], fun steps few => absurd few (by omega)⟩
  | @head a d moves path ih =>
    obtain ⟨holds, instr, found, ran⟩ := moves
    obtain ⟨count, enough, stopped⟩ := ih
    have advance : ∀ steps, execute program (steps + 1) a.1 a.2 = execute program steps d.1 d.2 := by
      intro steps
      rw [execute_succ found, ran]
    refine ⟨count + 1, ?_, ?_⟩
    · intro steps
      rw [show count + 1 + steps = count + steps + 1 by omega, advance, enough]
    · intro steps few
      cases steps with
      | zero => exact ⟨a.2, holds, rfl⟩
      | succ steps =>
        rw [advance]
        exact stopped steps (by omega)

/-- A path to an instruction that ends the run decides it, unless the run is stopped on the path. -/
theorem Path.ends {outcome : Except RenderError Nat × Machine} (path : Path program inv a b) (holds : inv b.2)
    (last : ∀ steps, execute program (steps + 1) b.1 b.2 = outcome) :
    ∃ count, (∀ steps, count ≤ steps → execute program steps a.1 a.2 = outcome) ∧
      ∀ steps < count, ∃ m, inv m ∧ execute program steps a.1 a.2 = (.error .unfinished, m) := by
  obtain ⟨count, enough, stopped⟩ := path.decides
  refine ⟨count + 1, ?_, ?_⟩
  · intro steps many
    obtain ⟨more, rfl⟩ := Nat.exists_eq_add_of_le many
    rw [show count + 1 + more = count + (more + 1) by omega, enough, last]
  · intro steps few
    by_cases before : steps < count
    · exact stopped steps before
    · have here : steps = count + 0 := by omega
      rw [here, enough]
      exact ⟨b.2, holds, rfl⟩

end paths

end Machine

end Stencil
