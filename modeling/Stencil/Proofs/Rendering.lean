import Stencil.Proofs.Simulation
import Stencil.Registry

/-!
Runs of compiled programs. A run with enough steps ends as the build of the blocks that the program was
compiled from, and one with fewer is stopped on the way; either way the data are what they were. The
programs are well formed, no run of one finds a register without what it wants, and every run of one ends.
-/
namespace Stencil

open Template (Block)
open Stateful

/-! ### What a run leaves behind -/

/-- The root of a run and what it has worked on, without its records. -/
def Outcome.result (outcome : Outcome) : Except RenderError Nat × Site :=
  (outcome.root, ⟨outcome.document, outcome.data⟩)

namespace Machine

/-- A machine before the first instruction. -/
def initial (slots : Nat) (document : Document Nat) (data : Fields Value) : Machine :=
  ⟨document, data, Array.replicate slots .empty, []⟩

variable {program : Program} {m : Machine} {steps slots : Nat} {document : Document Nat} {data : Fields Value}

theorem initial_idle : Idle 0 (initial slots document data) := by
  intro slot l _ held
  obtain ⟨inside, found⟩ := Array.getElem?_eq_some_iff.mp held
  simp [initial] at found

theorem run_ok {root : Nat}
    (executed : execute program steps 0 (initial program.slots document data) = (.ok root, m)) :
    (program.run steps document data).result = (.ok root, m.site) := by
  rw [initial] at executed
  rw [Program.run, executed]
  rfl

theorem run_error {e : RenderError}
    (executed : execute program steps 0 (initial program.slots document data) = (.error e, m)) :
    (program.run steps document data).result = (.error e, ⟨m.document, undone 0 m⟩) := by
  rw [← unwind_document m, ← unwind_data]
  rw [initial] at executed
  rw [Program.run, executed]
  rfl

/-- A run that is stopped has put the data back. -/
theorem run_stopped
    (stopped : ∃ m, During 0 (initial program.slots document data) m ∧
      execute program steps 0 (initial program.slots document data) = (.error .unfinished, m)) :
    ∃ reached, (program.run steps document data).result = (.error .unfinished, ⟨reached, data⟩) := by
  obtain ⟨m, during, executed⟩ := stopped
  refine ⟨m.document, ?_⟩
  rw [run_error executed, during.undone]
  rfl

/-- A run that has ended leaves the same behind with more steps, records included. -/
theorem run_of_le {more : Nat} (enough : steps ≤ more)
    (ended : (program.run steps document data).root ≠ .error .unfinished) :
    program.run more document data = program.run steps document data := by
  have decided : (execute program steps 0 (initial program.slots document data)).1 ≠ .error .unfinished := by
    intro stopped
    rcases executed : execute program steps 0 (initial program.slots document data) with ⟨result, m⟩
    rw [executed] at stopped
    subst stopped
    exact ended (congrArg Prod.fst (run_error executed))
  have same := execute_of_le (a := (0, initial program.slots document data)) enough decided
  simp only [initial] at same
  rw [Program.run, Program.run, same]

/-! ### The code for blocks -/

section blocks

variable (blocks : List Block) (document : Document Nat) (data : Fields Value)

/-- The machine after the first instruction, which makes the root. -/
def rooted : Machine :=
  (initial (Program.ofBlocks blocks).slots document data).withNode Program.rootSlot .fragment

theorem initial_size :
    (initial (Program.ofBlocks blocks).slots document data).registers.size = (Program.body blocks).next :=
  Array.size_replicate

theorem rootSlot_lt : Program.rootSlot < (initial (Program.ofBlocks blocks).slots document data).registers.size := by
  rw [initial_size]
  exact (Program.layBlocks_numbered Program.rootSlot (Program.rootSlot + 1) 0 1 blocks).le

theorem rooted_after : After 0 (initial (Program.ofBlocks blocks).slots document data) (rooted blocks document data) :=
  (After.refl initial_idle).withNode (Nat.zero_le _) _

theorem rooted_held : (rooted blocks document data).registers[Program.rootSlot]? =
    some (.node (document.create .fragment).1) :=
  getElem?_put_self _ (rootSlot_lt blocks document data)

theorem rooted_path :
    Path (Program.ofBlocks blocks) (During 0 (initial (Program.ofBlocks blocks).slots document data))
      (0, initial (Program.ofBlocks blocks).slots document data) (1, rooted blocks document data) :=
  .step (After.refl initial_idle).during (Program.ofBlocks_code blocks).head
    (exec_fragment (rootSlot_lt blocks document data)) .refl

theorem rooted_simulates :
    Simulates (Program.ofBlocks blocks) (Program.rootSlot + 1) 1 (1 + (Program.body blocks).lines.length)
      (rooted blocks document data)
      (Build.blocks (document.create .fragment).1 blocks (rooted blocks document data).site) := by
  have kept := rooted_after blocks document data
  have size := kept.size.trans (initial_size blocks document data)
  exact layBlocks_simulates Program.rootSlot (Program.rootSlot + 1) 0 1 blocks
    ⟨(Program.rest_code blocks).left, rooted_held blocks document data, Nat.lt_succ_self _,
      Nat.le_of_eq size.symm, kept.idle.mono (Nat.zero_le _)⟩ rfl

end blocks

end Machine

open Machine

/-- The program for blocks does what their build does, and a run that is stopped before its end has put
    the data back. -/
theorem ofBlocks_run (blocks : List Block) (document : Document Nat) (data : Fields Value) :
    ∃ enough,
      (∀ steps < enough, ∃ reached,
        ((Program.ofBlocks blocks).run steps document data).result = (.error .unfinished, ⟨reached, data⟩)) ∧
      ∀ steps, enough ≤ steps →
        ((Program.ofBlocks blocks).run steps document data).result = Build.rooted blocks ⟨document, data⟩ := by
  have first := rooted_path blocks document data
  have simulates := rooted_simulates blocks document data
  have lift : ∀ m, During (Program.rootSlot + 1) (rooted blocks document data) m → During 0 _ m :=
    fun m => (rooted_after blocks document data).trans_during (Nat.zero_le _)
  have created : Build.create .fragment ⟨document, data⟩ =
      (.ok (document.create .fragment).1, (rooted blocks document data).site) := rfl
  rw [Build.rooted, bind_ok created]
  rcases built : Build.blocks (document.create .fragment).1 blocks (rooted blocks document data).site with
    ⟨result, site⟩
  rw [built] at simulates
  cases result with
  | error e =>
    obtain ⟨last, instr, after, path, holds, found, ran, holdsAfter, reached⟩ := simulates.mono lift
    obtain ⟨enough, ended, stopped⟩ := (first.trans path).ends holds fun steps => by rw [execute_succ found, ran]
    -- The build has put the data back loop by loop; the run undoes all loops that are under way at once.
    have kept := (Build.blocks_tidy (document.create .fragment).1 blocks).keeps (rooted blocks document data).site
    rw [built] at kept
    refine ⟨enough, fun steps few => run_stopped (stopped steps few), fun steps many => ?_⟩
    rw [bind_error built, run_error (ended steps many), holdsAfter.undone, reached]
    exact congrArg (fun data => (Except.error e, Site.mk site.document data)) kept.symm
  | ok _ =>
    obtain ⟨after, path, kept, rfl⟩ := simulates
    have last := ((Program.rest_code blocks).right rfl).head
    have held := kept.node (Nat.lt_succ_self _) (rooted_held blocks document data)
    obtain ⟨enough, ended, stopped⟩ := (first.trans (path.mono lift)).ends (lift after kept.during) fun steps => by
      rw [execute_succ last, exec_done held]
    refine ⟨enough, fun steps few => run_stopped (stopped steps few), fun steps many => ?_⟩
    rw [bind_ok built, run_ok (ended steps many)]
    rfl

theorem ofBlocks_run_data (blocks : List Block) (steps : Nat) (document : Document Nat) (data : Fields Value) :
    ((Program.ofBlocks blocks).run steps document data).data = data := by
  obtain ⟨enough, stopped, ended⟩ := ofBlocks_run blocks document data
  by_cases few : steps < enough
  · obtain ⟨reached, same⟩ := stopped steps few
    exact congrArg (·.2.data) same
  · have same := congrArg (·.2.data) (ended steps (by omega))
    exact same.trans ((Build.rooted_tidy blocks).keeps _)

/-! ### Compiled programs -/

section compiled

variable {templates : Fields Template} {cache : Expr.ScopeCache} {name : String} {program : Program}

theorem blocks_of_compile (compiled : (Registry.compile templates cache name).1 = .ok program) :
    ∃ blocks, (Template.blocksOf templates name { cache := cache }).1 = .ok blocks ∧
      program = Program.ofBlocks blocks := by
  rw [Registry.compile] at compiled
  rcases expanded : Template.blocksOf templates name { cache := cache } with ⟨result, progress⟩
  rw [expanded] at compiled
  cases result with
  | error e => cases compiled
  | ok blocks =>
    cases compiled
    exact ⟨blocks, rfl, rfl⟩

/-- Loops whose fields have names in common, alternatives inside them, and a call that passes content. -/
def overlappingLoops : Fields Template :=
  [("main", ⟨"", ⟨"ul", [],
      [.element "t" [⟨"t-foreach", "xs"⟩, ⟨"t-as", "x"⟩]
        [.element "t" [⟨"t-foreach", "x_value"⟩, ⟨"t-as", "x_first"⟩]
          [.element "li" [⟨"t-if", "x_first_last"⟩, ⟨"t-on-click", "go"⟩] [.text "last"],
           .element "li" [⟨"t-else", ""⟩, ⟨"t-esc", "x_first"⟩] [.text "none"]]],
       .element "t" [⟨"t-call", "card"⟩] [.text "inside"]]⟩⟩),
   ("card", ⟨"", ⟨"div", [], [.element "t" [⟨"t-esc", "0"⟩] []]⟩⟩)]

theorem overlappingLoops_compiles :
    ∃ program, (Registry.compile overlappingLoops [] "main").1 = .ok program := by
  have compiles : (Registry.compile overlappingLoops [] "main").1.toOption.isSome = true := by decide +kernel
  cases compiled : (Registry.compile overlappingLoops [] "main").1 with
  | error e =>
    rw [compiled] at compiles
    cases compiles
  | ok program => exact ⟨program, rfl⟩

/-- A compiled program does on every document and data what the build of its blocks does: with enough
    steps it has the same result and leaves the same document and data, and with fewer it is stopped. -/
theorem compiled_run_eq_build (compiled : (Registry.compile templates cache name).1 = .ok program) :
    ∃ blocks, (Template.blocksOf templates name { cache := cache }).1 = .ok blocks ∧
      ∀ document data, ∃ enough,
        (∀ steps < enough, (program.run steps document data).root = .error .unfinished) ∧
        ∀ steps, enough ≤ steps →
          (program.run steps document data).result = Build.rooted blocks ⟨document, data⟩ := by
  obtain ⟨blocks, expanded, rfl⟩ := blocks_of_compile compiled
  refine ⟨blocks, expanded, fun document data => ?_⟩
  obtain ⟨enough, stopped, ended⟩ := ofBlocks_run blocks document data
  refine ⟨enough, fun steps few => ?_, ended⟩
  obtain ⟨reached, same⟩ := stopped steps few
  exact congrArg Prod.fst same

theorem overlappingLoops_run_eq_build : ∃ program, (Registry.compile overlappingLoops [] "main").1 = .ok program ∧
    ∃ blocks, (Template.blocksOf overlappingLoops "main" {}).1 = .ok blocks ∧
      ∀ document data, ∃ enough,
        (∀ steps < enough, (program.run steps document data).root = .error .unfinished) ∧
        ∀ steps, enough ≤ steps →
          (program.run steps document data).result = Build.rooted blocks ⟨document, data⟩ := by
  obtain ⟨program, compiled⟩ := overlappingLoops_compiles
  exact ⟨program, compiled, compiled_run_eq_build compiled⟩

/-- Rendering leaves no trace in the data: however a run of a compiled program ends, at whatever
    instruction, every field holds what it held before, in the same place. -/
theorem compiled_run_data (compiled : (Registry.compile templates cache name).1 = .ok program) (steps : Nat)
    (document : Document Nat) (data : Fields Value) : (program.run steps document data).data = data := by
  obtain ⟨blocks, -, rfl⟩ := blocks_of_compile compiled
  exact ofBlocks_run_data blocks steps document data

theorem overlappingLoops_run_data : ∃ program, (Registry.compile overlappingLoops [] "main").1 = .ok program ∧
    ∀ steps, (program.run steps {} [("x_first", .null), ("xs", .array [.array [.null]]), ("x_value", .null)]).data =
      [("x_first", .null), ("xs", .array [.array [.null]]), ("x_value", .null)] := by
  obtain ⟨program, compiled⟩ := overlappingLoops_compiles
  exact ⟨program, compiled, fun steps => compiled_run_data compiled steps _ _⟩

/-- Compiled programs are well formed, and no run of one finds a register that does not hold what it
    wants or gets past the last instruction. -/
theorem compiled_wellFormed (compiled : (Registry.compile templates cache name).1 = .ok program) :
    program.WellFormed ∧ ∀ steps document data slot wanted,
      (program.run steps document data).root ≠ .error (.register slot wanted) := by
  obtain ⟨blocks, -, rfl⟩ := blocks_of_compile compiled
  refine ⟨Program.ofBlocks_wellFormed blocks, ?_⟩
  intro steps document data slot wanted failed
  obtain ⟨enough, stopped, ended⟩ := ofBlocks_run blocks document data
  by_cases few : steps < enough
  · obtain ⟨reached, same⟩ := stopped steps few
    cases failed.symm.trans (congrArg Prod.fst same)
  · have built := (congrArg Prod.fst (ended steps (by omega))).symm.trans failed
    exact (Build.rooted_tidy blocks).blameless _ _ built

theorem overlappingLoops_wellFormed : ∃ program, (Registry.compile overlappingLoops [] "main").1 = .ok program ∧
    program.WellFormed ∧ ∀ steps document data slot wanted,
      (program.run steps document data).root ≠ .error (.register slot wanted) := by
  obtain ⟨program, compiled⟩ := overlappingLoops_compiles
  exact ⟨program, compiled, compiled_wellFormed compiled⟩

/-- Every run of a compiled program ends: after finitely many steps it has made a root or has failed because of
    the data, and no further step changes what it leaves behind. -/
theorem compiled_run_ends (compiled : (Registry.compile templates cache name).1 = .ok program)
    (document : Document Nat) (data : Fields Value) :
    ∃ enough, (∀ steps < enough, (program.run steps document data).root = .error .unfinished) ∧
      ((∃ root, (program.run enough document data).root = .ok root) ∨
        ∃ e, (program.run enough document data).root = .error e ∧ e.FromData) ∧
      ∀ steps, enough ≤ steps → program.run steps document data = program.run enough document data := by
  obtain ⟨blocks, -, rfl⟩ := blocks_of_compile compiled
  obtain ⟨enough, stopped, ended⟩ := ofBlocks_run blocks document data
  have last : ((Program.ofBlocks blocks).run enough document data).root = (Build.rooted blocks ⟨document, data⟩).1 :=
    congrArg Prod.fst (ended enough (Nat.le_refl enough))
  have blameless := (Build.rooted_tidy blocks).blameless ⟨document, data⟩
  refine ⟨enough, fun steps few => ?_, ?_, fun steps many => Machine.run_of_le many ?_⟩
  · obtain ⟨reached, same⟩ := stopped steps few
    exact congrArg Prod.fst same
  · cases built : (Build.rooted blocks ⟨document, data⟩).1 with
    | ok root => exact .inl ⟨root, last.trans built⟩
    | error e => exact .inr ⟨e, last.trans built, blameless e built⟩
  · intro unfinished
    exact blameless .unfinished (last.symm.trans unfinished)

theorem overlappingLoops_run_ends : ∃ program, (Registry.compile overlappingLoops [] "main").1 = .ok program ∧
    ∀ document data, ∃ enough,
      (∀ steps < enough, (program.run steps document data).root = .error .unfinished) ∧
      ((∃ root, (program.run enough document data).root = .ok root) ∨
        ∃ e, (program.run enough document data).root = .error e ∧ e.FromData) ∧
      ∀ steps, enough ≤ steps → program.run steps document data = program.run enough document data := by
  obtain ⟨program, compiled⟩ := overlappingLoops_compiles
  exact ⟨program, compiled, compiled_run_ends compiled⟩

end compiled

end Stencil
