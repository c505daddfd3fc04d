import Mathlib.Logic.ExistsUnique
import Stencil.Program.Layout

/-!
The shape of programs laid out from blocks. Registers are written in the order of their numbers, each
by one instruction, and every operand is the parent or one of them. Jumps stay inside the code of the
block that they belong to; they go forward, except for the jump at the end of each loop back to its
head, and none leads into a loop from outside it.
-/
namespace Stencil

/-! ### What instructions mention -/

/-- The register that an instruction writes. A loop is written once, where it starts. -/
def Instr.writes? : Instr → Option Nat
  | .fragment dst | .element dst _ | .text dst _ | .eval dst _ | .textOf dst _ _ | .loop dst _ _ => some dst
  | _ => none

/-- The registers that an instruction mentions. -/
def Instr.operands : Instr → List Nat
  | .fragment dst | .element dst _ | .text dst _ | .eval dst _ => [dst]
  | .set node _ _ | .setParts node _ _ | .listen node _ _ => [node]
  | .setIf node _ value | .spread node value => [node, value]
  | .textOf dst value _ => [dst, value]
  | .append parent child => [parent, child]
  | .jumpUnless _ _ | .jump _ => []
  | .jumpAbsent value _ => [value]
  | .loop iter _ _ | .next iter _ | .endLoop iter => [iter]
  | .done root => [root]

/-- The address that an instruction may jump to. -/
def Instr.target? : Instr → Option Nat
  | .jumpUnless _ target | .jumpAbsent _ target | .jump target | .next _ target => some target
  | _ => none

namespace Program

open Template (Action Block Chain)

/-! ### Registers -/

/-- The registers that lines write, in order. -/
def written (lines : List Line) : List Nat :=
  lines.filterMap fun line => line.instr.writes?

theorem written_append (first second : List Line) : written (first ++ second) = written first ++ written second :=
  List.filterMap_append

/-- Lines that write the registers from `next` on, one after the other, and mention no others but some
    that stand below `next`. -/
structure Numbered (outside : List Nat) (next : Nat) (laid : Laid) : Prop where
  le : next ≤ laid.next
  writes : written laid.lines = List.range' next (laid.next - next)
  operands : ∀ line ∈ laid.lines, ∀ slot ∈ line.instr.operands,
    slot ∈ outside ∨ next ≤ slot ∧ slot < laid.next

theorem Numbered.append {outside more : List Nat} {next : Nat} {first second : Laid}
    (numbered : Numbered outside next first) (numbered' : Numbered more first.next second)
    (sub : ∀ slot ∈ more, slot ∈ outside ∨ next ≤ slot ∧ slot < first.next) :
    Numbered outside next ⟨first.lines ++ second.lines, second.next⟩ := by
  have le := numbered.le
  have le' := numbered'.le
  refine ⟨Nat.le_trans le le', ?_, ?_⟩
  · rw [written_append, numbered.writes, numbered'.writes]
    have next_eq : first.next = next + 1 * (first.next - next) := by omega
    rw [show List.range' first.next (second.next - first.next) =
        List.range' (next + 1 * (first.next - next)) (second.next - first.next) by rw [← next_eq],
      List.range'_append, show first.next - next + (second.next - first.next) = second.next - next by omega]
  · intro line member slot mentioned
    rcases List.mem_append.mp member with member | member
    · rcases numbered.operands line member slot mentioned with given | ⟨low, high⟩
      · exact .inl given
      · exact .inr ⟨low, by simp only; omega⟩
    · rcases numbered'.operands line member slot mentioned with given | ⟨low, high⟩
      · rcases sub slot given with given | ⟨low, high⟩
        · exact .inl given
        · exact .inr ⟨low, by simp only; omega⟩
      · exact .inr ⟨by omega, high⟩

/-- A line that writes the next register. -/
theorem Numbered.write {outside : List Nat} {next depth : Nat} {instr : Instr}
    (writes : instr.writes? = some next) (operands : ∀ slot ∈ instr.operands, slot ∈ outside ∨ slot = next) :
    Numbered outside next ⟨[⟨depth, instr⟩], next + 1⟩ := by
  refine ⟨by simp, by simp [written, writes], ?_⟩
  intro line member slot mentioned
  rw [List.mem_singleton.mp member] at mentioned
  rcases operands slot mentioned with given | rfl
  · exact .inl given
  · exact .inr ⟨by omega, by simp⟩

/-- A line that writes no register. -/
theorem Numbered.read {outside : List Nat} {next depth : Nat} {instr : Instr}
    (writes : instr.writes? = none) (operands : ∀ slot ∈ instr.operands, slot ∈ outside) :
    Numbered outside next ⟨[⟨depth, instr⟩], next⟩ := by
  refine ⟨by simp, by simp [written, writes], ?_⟩
  intro line member slot mentioned
  rw [List.mem_singleton.mp member] at mentioned
  exact .inl (operands slot mentioned)

theorem Numbered.nil (outside : List Nat) (next : Nat) : Numbered outside next ⟨[], next⟩ :=
  ⟨by simp, by simp [written], by simp⟩

theorem layAction_numbered (node next depth : Nat) (action : Action) :
    Numbered [node] next (layAction node next depth action) := by
  have computed (e : Expression) (instr : Instr) (writes : instr.writes? = none)
      (operands : ∀ slot ∈ instr.operands, slot ∈ [node, next]) :
      Numbered [node] next ⟨[⟨depth, .eval next e⟩, ⟨depth, instr⟩], next + 1⟩ := by
    have first : Numbered [node] next ⟨[⟨depth, .eval next e⟩], next + 1⟩ := .write rfl (by simp [Instr.operands])
    have second : Numbered [node, next] (next + 1) ⟨[⟨depth, instr⟩], next + 1⟩ := .read writes operands
    exact first.append second (by simp)
  cases action with
  | set name value => exact .read rfl (by simp [Instr.operands])
  | setIf name value => exact computed value _ rfl (by simp [Instr.operands])
  | setParts name parts => exact .read rfl (by simp [Instr.operands])
  | spread value => exact computed value _ rfl (by simp [Instr.operands])
  | listen event handler => exact .read rfl (by simp [Instr.operands])

theorem layActions_numbered (node next depth : Nat) (actions : List Action) :
    Numbered [node] next (layActions node next depth actions) := by
  induction actions generalizing next with
  | nil => exact .nil _ _
  | cons action rest ih =>
    exact (layAction_numbered node next depth action).append (ih _) (by simp)

/-- The lines that emit a value, up to where the text of a value that is present has been appended. -/
theorem emission_numbered (parent next depth target : Nat) (value : Expression) (escape : Bool) :
    Numbered [parent] next
      ⟨[⟨depth, .eval next value⟩, ⟨depth, .jumpAbsent next target⟩,
        ⟨depth + 1, .textOf (next + 1) next escape⟩, ⟨depth + 1, .append parent (next + 1)⟩], next + 2⟩ := by
  have first : Numbered [parent] next ⟨[⟨depth, .eval next value⟩], next + 1⟩ :=
    .write rfl (by simp [Instr.operands])
  have second : Numbered [next] (next + 1) ⟨[⟨depth, .jumpAbsent next target⟩], next + 1⟩ :=
    .read rfl (by simp [Instr.operands])
  have third : Numbered [next] (next + 1) ⟨[⟨depth + 1, .textOf (next + 1) next escape⟩], next + 2⟩ :=
    .write rfl (by simp [Instr.operands])
  have fourth : Numbered [parent, next + 1] (next + 2) ⟨[⟨depth + 1, .append parent (next + 1)⟩], next + 2⟩ :=
    .read rfl (by simp [Instr.operands])
  exact ((first.append second (by simp)).append third (by simp)).append fourth (by simp)

mutual

theorem layBlock_numbered (parent next depth address : Nat) :
    ∀ block : Block, Numbered [parent] next (layBlock parent next depth address block)
  | .text s => by
    have first : Numbered [parent] next ⟨[⟨depth, .text next s⟩], next + 1⟩ := .write rfl (by simp [Instr.operands])
    have second : Numbered [parent, next] (next + 1) ⟨[⟨depth, .append parent next⟩], next + 1⟩ :=
      .read rfl (by simp [Instr.operands])
    exact first.append second (by simp)
  | .element tag actions body => by
    have first : Numbered [parent] next ⟨[⟨depth, .element next tag⟩], next + 1⟩ :=
      .write rfl (by simp [Instr.operands])
    have set := layActions_numbered next (next + 1) depth actions
    have le := set.le
    have appended : Numbered [parent, next] (layActions next (next + 1) depth actions).next
        ⟨[⟨depth, .append parent next⟩], (layActions next (next + 1) depth actions).next⟩ :=
      .read rfl (by simp [Instr.operands])
    have inside := layBlocks_numbered next (layActions next (next + 1) depth actions).next depth
      (address + 1 + (layActions next (next + 1) depth actions).lines.length + 1) body
    refine (first.append set (by simp)).append (appended.append inside (by simp)) ?_
    simp only [List.mem_cons, List.not_mem_nil, or_false]
    omega
  | .choose chain => layChain_numbered parent next depth address chain
  | .loop source name body => by
    have first : Numbered [parent] next ⟨[⟨depth, .loop next source name⟩], next + 1⟩ :=
      .write rfl (by simp [Instr.operands])
    have inside := layBlocks_numbered parent (next + 1) (depth + 1) (address + 2) body
    have le := inside.le
    have head : Numbered [next] (next + 1)
        ⟨[⟨depth, .next next (address + 2 +
          (layBlocks parent (next + 1) (depth + 1) (address + 2) body).lines.length + 1)⟩], next + 1⟩ :=
      .read rfl (by simp [Instr.operands])
    have back : Numbered [next] (layBlocks parent (next + 1) (depth + 1) (address + 2) body).next
        ⟨[⟨depth + 1, .jump (address + 1)⟩], _⟩ := .read rfl (by simp [Instr.operands])
    have closed : Numbered [next] (layBlocks parent (next + 1) (depth + 1) (address + 2) body).next
        ⟨[⟨depth, .endLoop next⟩], _⟩ := .read rfl (by simp [Instr.operands])
    refine (((first.append head (by simp)).append inside (by simp)).append (back.append closed (by simp)) ?_)
    simp only [List.mem_cons, List.not_mem_nil, or_false]
    omega
  | .emit value escape => emission_numbered parent next depth (address + 4) value escape
  | .emitOr value escape fallback => by
    have first := emission_numbered parent next depth (address + 5) value escape
    have inside := layBlocks_numbered parent (next + 2) (depth + 1) (address + 5) fallback
    have jump : Numbered [parent] (next + 2)
        ⟨[⟨depth + 1, .jump (address + 5 +
          (layBlocks parent (next + 2) (depth + 1) (address + 5) fallback).lines.length)⟩], next + 2⟩ :=
      .read rfl (by simp [Instr.operands])
    exact (first.append jump (by simp)).append inside (by simp)

theorem layBlocks_numbered (parent next depth address : Nat) :
    ∀ blocks : List Block, Numbered [parent] next (layBlocks parent next depth address blocks)
  | [] => .nil _ _
  | block :: rest =>
    (layBlock_numbered parent next depth address block).append
      (layBlocks_numbered parent _ depth _ rest) (by simp)

theorem layChain_numbered (parent next depth address : Nat) :
    ∀ chain : Chain, Numbered [parent] next (layChain parent next depth address chain)
  | .otherwise body => layBlocks_numbered parent next (depth + 1) address body
  | .when test body rest => by
    have inside := layBlocks_numbered parent next (depth + 1) (address + 1) body
    have others := layChain_numbered parent (layBlocks parent next (depth + 1) (address + 1) body).next depth
      (address + 1 + (layBlocks parent next (depth + 1) (address + 1) body).lines.length + 1) rest
    have guard (target : Nat) : Numbered [parent] next ⟨[⟨depth, .jumpUnless test target⟩], next⟩ :=
      .read rfl (by simp [Instr.operands])
    have exit (target : Nat) : Numbered [parent] (layBlocks parent next (depth + 1) (address + 1) body).next
        ⟨[⟨depth + 1, .jump target⟩], _⟩ := .read rfl (by simp [Instr.operands])
    exact ((guard _).append inside (by simp)).append ((exit _).append others (by simp)) (by simp)

end

/-! ### Code at an address -/

/-- Lines stand in a program from an address on. -/
def CodeAt (program : Program) (address : Nat) (lines : List Line) : Prop :=
  ∀ i < lines.length, program.instr? (address + i) = (lines[i]?).map Line.instr

section code

variable {program : Program} {address later : Nat} {line : Line} {lines more : List Line}

theorem CodeAt.head (code : CodeAt program address (line :: lines)) :
    program.instr? address = some line.instr := by
  simpa using code 0 (by simp)

theorem CodeAt.left (code : CodeAt program address (lines ++ more)) : CodeAt program address lines := by
  intro i inside
  rw [code i (by simp; omega), List.getElem?_append_left inside]

theorem CodeAt.right (code : CodeAt program address (lines ++ more)) (place : later = address + lines.length) :
    CodeAt program later more := by
  intro i inside
  have found := code (lines.length + i) (by simp; omega)
  rw [List.getElem?_append_right (by omega)] at found
  rw [place, Nat.add_assoc, found]
  simp

theorem CodeAt.tail (code : CodeAt program address (line :: lines)) (place : later = address + 1) :
    CodeAt program later lines :=
  (show CodeAt program address ([line] ++ lines) from code).right place

end code

/-! ### Jumps -/

/-- A loop of a program: it starts right before its head, its head leaves it for its exit, and the jump
    right before its exit leads back to its head. -/
structure LoopAt (program : Program) (iter head exit : Nat) : Prop where
  order : 0 < head ∧ head + 1 < exit
  opened : ∃ source name, program.instr? (head - 1) = some (.loop iter source name)
  leaves : program.instr? head = some (.next iter exit)
  back : program.instr? (exit - 1) = some (.jump head)
  closed : program.instr? exit = some (.endLoop iter)

/-- The instruction at an address may jump to a target. -/
def JumpsTo (program : Program) (address target : Nat) : Prop :=
  ∃ instr, program.instr? address = some instr ∧ instr.target? = some target

/-- The code from `low` to before `high` is properly nested, as far as it can be seen from inside it. -/
structure Nested (program : Program) (low high : Nat) : Prop where
  /-- Every loop head begins a loop that lies in the code. -/
  loops : ∀ iter head exit, low ≤ head → head < high → program.instr? head = some (.next iter exit) →
    low < head ∧ exit < high ∧ LoopAt program iter head exit
  /-- Only the end of a loop jumps backward, and to the head of that loop. -/
  backward : ∀ address target, low ≤ address → address < high → JumpsTo program address target →
    target ≤ address → ∃ iter, LoopAt program iter target (address + 1)
  /-- Only jumps inside a loop lead into it. -/
  entered : ∀ iter head exit, low ≤ head → head < high → program.instr? head = some (.next iter exit) →
    ∀ address target, low ≤ address → address < high → JumpsTo program address target →
    head ≤ target → target < exit → head < address ∧ address < exit

/-- Every target of the code from `low` to before `high` is of some kind. -/
def Targets (program : Program) (low high : Nat) (p : Nat → Prop) : Prop :=
  ∀ address target, low ≤ address → address < high → JumpsTo program address target → p target

section nesting

variable {program : Program} {low middle high address : Nat} {instr : Instr} {p q : Nat → Prop}

theorem JumpsTo.target? {target : Nat} (jumps : JumpsTo program address target)
    (found : program.instr? address = some instr) : instr.target? = some target := by
  obtain ⟨other, foundOther, targets⟩ := jumps
  rw [found] at foundOther
  cases foundOther
  exact targets

theorem Targets.mono (targets : Targets program low high p) (imp : ∀ t, p t → q t) : Targets program low high q :=
  fun address target above below jumps => imp target (targets address target above below jumps)

theorem Targets.append (first : Targets program low middle p) (second : Targets program middle high p) :
    Targets program low high p := by
  intro address target above below jumps
  by_cases before : address < middle
  · exact first address target above before jumps
  · exact second address target (by omega) below jumps

theorem Targets.single (found : program.instr? address = some instr) (targets : ∀ t, instr.target? = some t → p t) :
    Targets program address (address + 1) p := by
  intro other target above below jumps
  have same : other = address := by omega
  subst same
  exact targets target (jumps.target? found)

theorem Nested.empty (program : Program) (low : Nat) : Nested program low low :=
  ⟨fun _ _ _ above below => absurd below (by omega), fun _ _ above below => absurd below (by omega),
    fun _ _ _ above below => absurd below (by omega)⟩

/-- An instruction that is no loop head and does not jump backward. -/
theorem Nested.single (found : program.instr? address = some instr) (plain : ∀ iter exit, instr ≠ .next iter exit)
    (forward : ∀ t, instr.target? = some t → address < t) : Nested program address (address + 1) := by
  have only : ∀ other, address ≤ other → other < address + 1 → other = address := fun other _ _ => by omega
  refine ⟨?_, ?_, ?_⟩
  · intro iter head exit above below isHead
    rw [only head above below, found, Option.some.injEq] at isHead
    exact absurd isHead (plain iter exit)
  · intro other target above below jumps le
    rw [only other above below] at jumps le
    have after := forward target (jumps.target? found)
    omega
  · intro iter head exit above below isHead
    rw [only head above below, found, Option.some.injEq] at isHead
    exact absurd isHead (plain iter exit)

/-- Code after other code, where neither jumps to a place strictly inside the other. -/
theorem Nested.append (first : Nested program low middle) (second : Nested program middle high)
    (out : Targets program low middle fun t => t ≤ middle ∨ high ≤ t)
    (back : Targets program middle high fun t => t ≤ low ∨ middle ≤ t)
    (le : low ≤ middle) (le' : middle ≤ high) : Nested program low high := by
  refine ⟨?_, ?_, ?_⟩
  · intro iter head exit above below isHead
    by_cases before : head < middle
    · obtain ⟨inside, ends, loop⟩ := first.loops iter head exit above before isHead
      exact ⟨inside, by omega, loop⟩
    · obtain ⟨inside, ends, loop⟩ := second.loops iter head exit (by omega) below isHead
      exact ⟨by omega, ends, loop⟩
  · intro address target above below jumps backward
    by_cases before : address < middle
    · exact first.backward address target above before jumps backward
    · exact second.backward address target (by omega) below jumps backward
  · intro iter head exit above below isHead address target above' below' jumps reaches inside
    by_cases headBefore : head < middle
    · obtain ⟨starts, ends, -⟩ := first.loops iter head exit above headBefore isHead
      by_cases before : address < middle
      · exact first.entered iter head exit above headBefore isHead address target above' before jumps reaches inside
      · rcases back address target (by omega) below' jumps with early | late <;> omega
    · obtain ⟨starts, ends, -⟩ := second.loops iter head exit (by omega) below isHead
      by_cases before : address < middle
      · rcases out address target above' before jumps with early | late <;> omega
      · exact second.entered iter head exit (by omega) below isHead address target (by omega) below' jumps reaches
          inside

/-- Code without jumps. -/
theorem straight {lines : List Line} (code : CodeAt program low lines)
    (plain : ∀ line ∈ lines, line.instr.target? = none) (place : high = low + lines.length) :
    Nested program low high ∧ Targets program low high fun _ => False := by
  subst place
  induction lines generalizing low with
  | nil => exact ⟨.empty program low, fun address target above below => absurd below (by simp; omega)⟩
  | cons line rest ih =>
    have none := plain line (by simp)
    have noTarget : ∀ t, line.instr.target? = some t → False := by simp [none]
    have first : Nested program low (low + 1) :=
      .single code.head (fun iter exit same => by simp [same, Instr.target?] at none)
        (fun t some => (noTarget t some).elim)
    have targets : Targets program low (low + 1) fun _ => False := .single code.head noTarget
    obtain ⟨nested, targetsRest⟩ := ih (code.tail rfl) fun line member => plain line (by simp [member])
    rw [List.length_cons, show low + (rest.length + 1) = low + 1 + rest.length by omega]
    exact ⟨first.append nested (targets.mono fun _ => False.elim) (targetsRest.mono fun _ => False.elim)
      (by omega) (by omega), targets.append targetsRest⟩

/-- Code that is properly nested and whose jumps stay inside it or lead to its end. -/
structure Contained (program : Program) (low high : Nat) : Prop where
  nested : Nested program low high
  targets : Targets program low high fun t => low ≤ t ∧ t ≤ high
  le : low ≤ high

theorem Contained.append (first : Contained program low middle) (second : Contained program middle high) :
    Contained program low high := by
  have le := first.le
  have le' := second.le
  refine ⟨first.nested.append second.nested ?_ ?_ le le', ?_, by omega⟩
  · exact first.targets.mono fun _ inside => .inl inside.2
  · exact second.targets.mono fun _ inside => .inr inside.1
  · exact (first.targets.mono fun _ inside => ⟨inside.1, by omega⟩).append
      (second.targets.mono fun _ inside => ⟨by omega, inside.2⟩)

theorem Contained.straight {lines : List Line} (code : CodeAt program low lines)
    (plain : ∀ line ∈ lines, line.instr.target? = none) (place : high = low + lines.length) :
    Contained program low high :=
  ⟨(Program.straight code plain place).1, (Program.straight code plain place).2.mono fun _ => False.elim, by omega⟩

/-- A loop around code whose jumps stay inside it. -/
theorem Contained.loop {start stop iter : Nat} {source : Expression} {name : String}
    (opened : program.instr? start = some (.loop iter source name))
    (head : program.instr? (start + 1) = some (.next iter (stop + 1)))
    (back : program.instr? stop = some (.jump (start + 1)))
    (closed : program.instr? (stop + 1) = some (.endLoop iter))
    (body : Contained program (start + 2) stop) : Contained program start (stop + 2) := by
  have le := body.le
  have loop : LoopAt program iter (start + 1) (stop + 1) :=
    ⟨⟨by omega, by omega⟩, ⟨source, name, opened⟩, head, back, closed⟩
  -- An address of the loop is its start, its head, its jump back, its end, or lies in its body.
  have place : ∀ address, start ≤ address → address < stop + 2 → address = start ∨ address = start + 1 ∨
      address = stop ∨ address = stop + 1 ∨ start + 2 ≤ address ∧ address < stop := fun address _ _ => by omega
  have heads : ∀ iter' h exit, start ≤ h → h < stop + 2 → program.instr? h = some (.next iter' exit) →
      h = start + 1 ∧ iter' = iter ∧ exit = stop + 1 ∨ start + 2 ≤ h ∧ h < stop := by
    intro iter' h exit above below isHead
    rcases place h above below with rfl | rfl | rfl | rfl | inside
    · rw [opened] at isHead; cases isHead
    · rw [head] at isHead; cases isHead; exact .inl ⟨rfl, rfl, rfl⟩
    · rw [back] at isHead; cases isHead
    · rw [closed] at isHead; cases isHead
    · exact .inr inside
  have jumps : ∀ address target, start ≤ address → address < stop + 2 → JumpsTo program address target →
      address = start + 1 ∧ target = stop + 1 ∨ address = stop ∧ target = start + 1 ∨
        start + 2 ≤ address ∧ address < stop := by
    intro address target above below jumps
    rcases place address above below with rfl | rfl | rfl | rfl | inside
    · cases jumps.target? opened
    · cases jumps.target? head; exact .inl ⟨rfl, rfl⟩
    · cases jumps.target? back; exact .inr (.inl ⟨rfl, rfl⟩)
    · cases jumps.target? closed
    · exact .inr (.inr inside)
  refine ⟨⟨?_, ?_, ?_⟩, ?_, by omega⟩
  · intro iter' h exit above below isHead
    rcases heads iter' h exit above below isHead with ⟨rfl, rfl, rfl⟩ | ⟨low, high⟩
    · exact ⟨by omega, by omega, loop⟩
    · obtain ⟨inside, ends, nested⟩ := body.nested.loops iter' h exit low high isHead
      exact ⟨by omega, by omega, nested⟩
  · intro address target above below jump backward
    rcases jumps address target above below jump with ⟨rfl, rfl⟩ | ⟨rfl, rfl⟩ | ⟨low, high⟩
    · omega
    · exact ⟨iter, loop⟩
    · exact body.nested.backward address target low high jump backward
  · intro iter' h exit above below isHead address target above' below' jump reaches inside
    rcases heads iter' h exit above below isHead with ⟨rfl, rfl, rfl⟩ | ⟨low, high⟩
    · rcases jumps address target above' below' jump with ⟨rfl, rfl⟩ | ⟨rfl, rfl⟩ | ⟨low, high⟩ <;> omega
    · obtain ⟨starts, ends, -⟩ := body.nested.loops iter' h exit low high isHead
      rcases jumps address target above' below' jump with ⟨rfl, rfl⟩ | ⟨rfl, rfl⟩ | ⟨low', high'⟩
      · omega
      · omega
      · exact body.nested.entered iter' h exit low high isHead address target low' high' jump reaches inside
  · intro address target above below jump
    rcases jumps address target above below jump with ⟨rfl, rfl⟩ | ⟨rfl, rfl⟩ | ⟨low, high⟩
    · omega
    · omega
    · have inside := body.targets address target low high jump
      omega

/-- Code with a jump out of it at its end. -/
theorem Nested.exit {target : Nat} (code : Nested program low middle)
    (found : program.instr? middle = some (.jump target)) (ahead : middle < target) (le : low ≤ middle) :
    Nested program low (middle + 1) := by
  have last : Nested program middle (middle + 1) :=
    .single found (by simp) fun t some => by cases some; exact ahead
  refine code.append last (fun _ t _ _ _ => by omega) ?_ le (by omega)
  exact .single found fun t some => by cases some; exact .inr (by omega)

/-- Code that may skip what follows it. -/
theorem Contained.skipping (first : Nested program low middle)
    (out : Targets program low middle fun t => low ≤ t ∧ t ≤ middle ∨ t = high)
    (second : Contained program middle high) (le : low ≤ middle) : Contained program low high := by
  have le' := second.le
  refine ⟨first.append second.nested ?_ ?_ le le', ?_, by omega⟩
  · exact out.mono fun t inside => by omega
  · exact second.targets.mono fun t inside => .inr inside.1
  · exact (out.mono fun t inside => by omega).append (second.targets.mono fun t inside => by omega)

/-- Code behind a jump over it. -/
theorem Nested.behind {target : Nat} (found : program.instr? low = some instr)
    (jumps : ∀ t, instr.target? = some t → t = target) (plain : ∀ iter exit, instr ≠ .next iter exit)
    (code : Nested program (low + 1) high) (targets : Targets program (low + 1) high fun t => low + 1 ≤ t)
    (beyond : high ≤ target) (le : low + 1 ≤ high) : Nested program low high := by
  have first : Nested program low (low + 1) := .single found plain fun t some => by rw [jumps t some]; omega
  have out : Targets program low (low + 1) fun t => t = target := .single found jumps
  exact first.append code (out.mono fun t same => .inr (by omega)) (targets.mono fun _ late => .inr late)
    (by omega) le

/-- The lines that emit a value, which jump over the text of a value that is absent. -/
theorem emission_nested {parent next depth target : Nat} {value : Expression} {escape : Bool}
    (code : CodeAt program low
      [⟨depth, .eval next value⟩, ⟨depth, .jumpAbsent next target⟩,
        ⟨depth + 1, .textOf (next + 1) next escape⟩, ⟨depth + 1, .append parent (next + 1)⟩])
    (beyond : low + 4 ≤ target) :
    Nested program low (low + 4) ∧ Targets program low (low + 4) fun t => t = target := by
  have jump : CodeAt program (low + 1) _ := code.tail rfl
  obtain ⟨rest, restTargets⟩ :
      Nested program (low + 2) (low + 4) ∧ Targets program (low + 2) (low + 4) fun _ => False :=
    straight (jump.tail rfl) (by simp [Instr.target?]) rfl
  have inner : Nested program (low + 1) (low + 4) :=
    .behind jump.head (by simp [Instr.target?, eq_comm]) (by simp) rest (restTargets.mono fun _ => False.elim) beyond
      (by omega)
  have innerTargets : Targets program (low + 1) (low + 4) fun t => t = target :=
    Targets.append (.single jump.head (by simp [Instr.target?, eq_comm])) (restTargets.mono fun _ => False.elim)
  refine ⟨.behind code.head (by simp [Instr.target?]) (by simp) inner ?_ beyond (by omega), ?_⟩
  · exact innerTargets.mono fun t same => by omega
  · exact Targets.append (.single code.head (by simp [Instr.target?])) innerTargets

theorem layActions_straight (node next depth : Nat) (actions : List Action) :
    ∀ line ∈ (layActions node next depth actions).lines, line.instr.target? = none := by
  induction actions generalizing next with
  | nil => simp [layActions]
  | cons action rest ih =>
    intro line member
    rcases List.mem_append.mp member with member | member
    · cases action <;> simp [layAction] at member <;> rcases member with rfl | rfl <;> rfl
    · exact ih _ line member

mutual

theorem layBlock_contained (parent next depth address stop : Nat) :
    ∀ block : Block, CodeAt program address (layBlock parent next depth address block).lines →
      stop = address + (layBlock parent next depth address block).lines.length → Contained program address stop
  | .text s => fun code place => .straight code (by simp [layBlock, Instr.target?]) place
  | .element tag actions body => by
    intro code place
    rw [layBlock] at code place
    simp only [List.length_append, List.length_cons] at place
    have set := layActions_straight next (next + 1) depth actions
    have rest : CodeAt program (address + 1 + (layActions next (next + 1) depth actions).lines.length) _ :=
      code.right (by simp; omega)
    have opened : Contained program address (address + 1 + (layActions next (next + 1) depth actions).lines.length) :=
      .straight code.left (by simpa [Instr.target?] using set) (by simp; omega)
    have appended : Contained program (address + 1 + (layActions next (next + 1) depth actions).lines.length)
        (address + 1 + (layActions next (next + 1) depth actions).lines.length + 1) :=
      .straight (show CodeAt program _ [⟨depth, .append parent next⟩] from rest.left) (by simp [Instr.target?]) rfl
    have inside := layBlocks_contained next (layActions next (next + 1) depth actions).next depth
      (address + 1 + (layActions next (next + 1) depth actions).lines.length + 1) stop body (rest.tail rfl) (by omega)
    exact (opened.append appended).append inside
  | .choose chain => layChain_contained parent next depth address stop chain
  | .loop source name body => by
    intro code place
    rw [layBlock] at code place
    simp only [List.length_append, List.length_cons, List.length_nil] at place
    have head : CodeAt program (address + 1) _ := code.left.tail rfl
    have ending : CodeAt program
        (address + 2 + (layBlocks parent (next + 1) (depth + 1) (address + 2) body).lines.length) _ :=
      code.right (by simp; omega)
    have inside := layBlocks_contained parent (next + 1) (depth + 1) (address + 2) _ body (head.tail rfl) rfl
    have stops : stop =
        address + 2 + (layBlocks parent (next + 1) (depth + 1) (address + 2) body).lines.length + 2 := by omega
    rw [stops]
    exact .loop code.left.head head.head ending.head (ending.tail rfl).head inside
  | .emit value escape => by
    intro code place
    obtain ⟨nested, targets⟩ := emission_nested code (by omega)
    have stops : stop = address + 4 := place
    subst stops
    exact ⟨nested, targets.mono fun t same => by omega, by omega⟩
  | .emitOr value escape fallback => by
    intro code place
    have emission : CodeAt program address
        [⟨depth, .eval next value⟩, ⟨depth, .jumpAbsent next (address + 5)⟩,
          ⟨depth + 1, .textOf (next + 1) next escape⟩, ⟨depth + 1, .append parent (next + 1)⟩] := code.left
    have jump : CodeAt program (address + 4) _ := (((code.tail rfl).tail rfl).tail rfl).tail rfl
    simp only [layBlock, List.length_cons] at place
    have inside := layBlocks_contained parent (next + 2) (depth + 1) (address + 5) stop fallback (jump.tail rfl)
      (by omega)
    have le := inside.le
    obtain ⟨nested, targets⟩ := emission_nested emission (by omega)
    refine .skipping (nested.exit jump.head (by omega) (by omega)) ?_ inside (by omega)
    refine (targets.mono fun t same => by omega).append (.single jump.head fun t some => ?_)
    cases some
    omega

theorem layBlocks_contained (parent next depth address stop : Nat) :
    ∀ blocks : List Block, CodeAt program address (layBlocks parent next depth address blocks).lines →
      stop = address + (layBlocks parent next depth address blocks).lines.length → Contained program address stop
  | [] => fun code place => .straight code (by simp [layBlocks]) place
  | block :: rest => by
    intro code place
    rw [layBlocks] at code place
    rw [List.length_append, ← Nat.add_assoc] at place
    have first := layBlock_contained parent next depth address _ block code.left rfl
    have others := layBlocks_contained parent _ depth _ stop rest (code.right rfl) place
    exact first.append others

theorem layChain_contained (parent next depth address stop : Nat) :
    ∀ chain : Chain, CodeAt program address (layChain parent next depth address chain).lines →
      stop = address + (layChain parent next depth address chain).lines.length → Contained program address stop
  | .otherwise body => layBlocks_contained parent next (depth + 1) address stop body
  | .when test body rest => by
    intro code place
    rw [layChain] at code place
    simp only [List.length_append, List.length_cons] at place
    have inside := layBlocks_contained parent next (depth + 1) (address + 1) _ body (code.left.tail rfl) rfl
    have jump : CodeAt program (address + 1 + (layBlocks parent next (depth + 1) (address + 1) body).lines.length) _ :=
      code.right (by simp; omega)
    have others := layChain_contained parent (layBlocks parent next (depth + 1) (address + 1) body).next depth
      (address + 1 + (layBlocks parent next (depth + 1) (address + 1) body).lines.length + 1) stop rest (jump.tail rfl)
      (by omega)
    have le := others.le
    have innerTargets : Targets program (address + 1)
        (address + 1 + (layBlocks parent next (depth + 1) (address + 1) body).lines.length + 1) fun t =>
          address + 1 ≤ t ∧ t ≤ address + 1 + (layBlocks parent next (depth + 1) (address + 1) body).lines.length ∨
            t = stop := by
      refine (inside.targets.mono fun t within => .inl within).append (.single jump.head fun t some => ?_)
      cases some
      omega
    have guarded := Nested.behind code.left.head (fun t some => by cases some; rfl) (by simp)
      (inside.nested.exit jump.head (by omega) (by omega)) (innerTargets.mono fun t within => by omega)
      (Nat.le_refl _) (by omega)
    refine .skipping guarded (Targets.append (.single code.left.head fun t some => ?_) ?_) others (by omega)
    · cases some
      omega
    · exact innerTargets.mono fun t within => by omega

end

end nesting

/-! ### Programs -/

/-- The instruction at an address writes a register. -/
def Writes (program : Program) (address slot : Nat) : Prop :=
  ∃ instr, program.instr? address = some instr ∧ instr.writes? = some slot

/-- A program whose jumps, loops and registers are in order. -/
structure WellFormed (program : Program) : Prop where
  /-- Every jump leads to an instruction. -/
  targets : ∀ address target, JumpsTo program address target → target < program.size
  /-- Every register is written by exactly one instruction. -/
  written : ∀ slot, rootSlot ≤ slot → slot < program.slots → ∃! address, Writes program address slot
  /-- No instruction mentions any other register. -/
  operands : ∀ address instr, program.instr? address = some instr →
    ∀ slot ∈ instr.operands, rootSlot ≤ slot ∧ slot < program.slots
  /-- Every loop head begins a loop. -/
  loops : ∀ iter head exit, program.instr? head = some (.next iter exit) → LoopAt program iter head exit
  /-- Only the end of a loop jumps backward, and to the head of that loop. -/
  backward : ∀ address target, JumpsTo program address target → target ≤ address →
    ∃ iter, LoopAt program iter target (address + 1)
  /-- Only jumps inside a loop lead into it. -/
  entered : ∀ iter head exit, program.instr? head = some (.next iter exit) →
    ∀ address target, JumpsTo program address target → head ≤ target → target < exit →
    head < address ∧ address < exit

section programs

variable (blocks : List Block)

/-- The lines that a program lays out for its blocks. -/
def body : Laid :=
  layBlocks rootSlot (rootSlot + 1) 0 1 blocks

/-- All lines of a program for blocks. -/
def allLines : List Line :=
  [⟨0, .fragment rootSlot⟩] ++ ((body blocks).lines ++ [⟨0, .done rootSlot⟩])

theorem ofBlocks_eq : ofBlocks blocks = ⟨(allLines blocks).toArray, (body blocks).next⟩ := rfl

theorem instr?_ofBlocks (address : Nat) :
    (ofBlocks blocks).instr? address = ((allLines blocks)[address]?).map Line.instr := by
  rw [ofBlocks_eq, instr?, List.getElem?_toArray]

theorem size_ofBlocks : (ofBlocks blocks).size = (body blocks).lines.length + 2 := by
  simp [ofBlocks_eq, size, allLines]

theorem slots_ofBlocks : (ofBlocks blocks).slots = (body blocks).next := rfl

theorem ofBlocks_code : CodeAt (ofBlocks blocks) 0 (allLines blocks) := by
  intro i inside
  rw [Nat.zero_add, instr?_ofBlocks]

theorem rest_code : CodeAt (ofBlocks blocks) 1 ((body blocks).lines ++ [⟨0, .done rootSlot⟩]) :=
  (ofBlocks_code blocks).right (by simp)

theorem allLines_numbered : Numbered [] rootSlot ⟨allLines blocks, (body blocks).next⟩ := by
  have first : Numbered [] rootSlot ⟨[⟨0, .fragment rootSlot⟩], rootSlot + 1⟩ :=
    .write rfl (by simp [Instr.operands])
  have last : Numbered [rootSlot] (body blocks).next ⟨[⟨0, .done rootSlot⟩], (body blocks).next⟩ :=
    .read rfl (by simp [Instr.operands])
  exact first.append ((layBlocks_numbered rootSlot (rootSlot + 1) 0 1 blocks).append last (by simp)) (by simp)

theorem line_of_instr? {address : Nat} {instr : Instr} (found : (ofBlocks blocks).instr? address = some instr) :
    ∃ line, (allLines blocks)[address]? = some line ∧ line.instr = instr := by
  rw [instr?_ofBlocks] at found
  exact Option.map_eq_some_iff.mp found

/-- Every register of a program is written once. -/
theorem ofBlocks_written {slot : Nat} (low : rootSlot ≤ slot) (high : slot < (ofBlocks blocks).slots) :
    ∃! address, Writes (ofBlocks blocks) address slot := by
  have writes := (allLines_numbered blocks).writes
  have listed : slot ∈ written (allLines blocks) := by
    rw [writes, List.mem_range'_1]
    rw [slots_ofBlocks] at high
    simp only
    omega
  obtain ⟨line, member, lineWrites⟩ := List.mem_filterMap.mp listed
  obtain ⟨address, place⟩ := List.mem_iff_getElem?.mp member
  refine ⟨address, ⟨line.instr, by rw [instr?_ofBlocks, place]; rfl, lineWrites⟩, ?_⟩
  rintro other ⟨instr, found, instrWrites⟩
  obtain ⟨line', place', rfl⟩ := line_of_instr? blocks found
  have distinct : (written (allLines blocks)).Nodup := by rw [writes]; exact List.nodup_range'
  -- Two lines at different places would both contribute the register to the list of written ones.
  have apart := List.pairwise_iff_getElem.mp (List.pairwise_filterMap.mp distinct)
  obtain ⟨inside, rfl⟩ := List.getElem?_eq_some_iff.mp place
  obtain ⟨inside', rfl⟩ := List.getElem?_eq_some_iff.mp place'
  rcases Nat.lt_trichotomy other address with before | same | behind
  · exact absurd rfl (apart other address inside' inside before slot instrWrites slot lineWrites)
  · exact same
  · exact absurd rfl (apart address other inside inside' behind slot lineWrites slot instrWrites)

theorem body_contained : Contained (ofBlocks blocks) 1 (1 + (body blocks).lines.length) :=
  layBlocks_contained rootSlot (rootSlot + 1) 0 1 _ blocks (rest_code blocks).left rfl

theorem ofBlocks_contained : Contained (ofBlocks blocks) 0 ((body blocks).lines.length + 2) ∧
    Targets (ofBlocks blocks) 0 ((body blocks).lines.length + 2) fun t => t < (body blocks).lines.length + 2 := by
  have first : CodeAt (ofBlocks blocks) 0 [⟨0, .fragment rootSlot⟩] := (ofBlocks_code blocks).left
  have last : CodeAt (ofBlocks blocks) (1 + (body blocks).lines.length) [⟨0, .done rootSlot⟩] :=
    (rest_code blocks).right rfl
  have inside := body_contained blocks
  have opening : Contained (ofBlocks blocks) 0 1 := .straight first (by simp [Instr.target?]) rfl
  have closing : Contained (ofBlocks blocks) (1 + (body blocks).lines.length) ((body blocks).lines.length + 2) :=
    .straight last (by simp [Instr.target?]) (by simp; omega)
  refine ⟨(opening.append inside).append closing, ?_⟩
  have targets : Targets (ofBlocks blocks) 0 1 fun t => t < (body blocks).lines.length + 2 :=
    .single first.head (by simp [Instr.target?])
  refine (targets.append (inside.targets.mono fun t within => by omega)).append ?_
  rw [show (body blocks).lines.length + 2 = 1 + (body blocks).lines.length + 1 by omega]
  exact .single last.head (by simp [Instr.target?])

theorem address_lt {address : Nat} {instr : Instr} (found : (ofBlocks blocks).instr? address = some instr) :
    address < (body blocks).lines.length + 2 := by
  obtain ⟨line, place, -⟩ := line_of_instr? blocks found
  have inside := (List.getElem?_eq_some_iff.mp place).1
  simp only [allLines, List.length_append, List.length_cons, List.length_nil] at inside
  omega

/-- Programs laid out from blocks are well formed. -/
theorem ofBlocks_wellFormed : WellFormed (ofBlocks blocks) := by
  obtain ⟨⟨nested, -, -⟩, targets⟩ := ofBlocks_contained blocks
  have jumpPlace : ∀ {address target}, JumpsTo (ofBlocks blocks) address target →
      address < (body blocks).lines.length + 2 := fun jumps => address_lt blocks jumps.choose_spec.1
  refine ⟨?_, fun slot => ofBlocks_written blocks, ?_, ?_, ?_, ?_⟩
  · intro address target jumps
    rw [size_ofBlocks]
    exact targets address target (by omega) (jumpPlace jumps) jumps
  · intro address instr found slot mentioned
    obtain ⟨line, place, rfl⟩ := line_of_instr? blocks found
    have numbered := (allLines_numbered blocks).operands line (List.mem_of_getElem? place) slot mentioned
    simpa [slots_ofBlocks] using numbered
  · intro iter head exit isHead
    exact (nested.loops iter head exit (by omega) (address_lt blocks isHead) isHead).2.2
  · intro address target jumps backward
    exact nested.backward address target (by omega) (jumpPlace jumps) jumps backward
  · intro iter head exit isHead address target jumps reaches inside
    exact nested.entered iter head exit (by omega) (address_lt blocks isHead) isHead address target (by omega)
      (jumpPlace jumps) jumps reaches inside

end programs

end Program

end Stencil
