import Mathlib.Data.List.Basic
import Stencil.Assembler.Emission
import Stencil.Registry

/-!
Blocks that are added to a draft line by line, with jumps that are patched later, come out as they are laid out with
their addresses worked out beforehand (`assemble_eq_ofBlocks`). Whatever is added only extends the draft, at its own
depth and from its own next register on, and leaves all other drafts alone.
-/
namespace Stencil.Assembler

open Program (Laid layAction layActions layBlock layBlocks layChain rootSlot)
open Template (Action Block Chain)

theorem modify_length_add {α : Type} (before after : List α) (k : Nat) (f : α → α) :
    (before ++ after).modify (before.length + k) f = before ++ after.modify k f := by
  induction before with
  | nil => rw [List.nil_append, List.length_nil, Nat.zero_add, List.nil_append]
  | cons x before ih => rw [List.cons_append, List.length_cons, Nat.add_right_comm, List.modify_succ_cons, ih,
      List.cons_append]

theorem modify_length {α : Type} (before : List α) (x : α) (after : List α) (f : α → α) :
    (before ++ x :: after).modify before.length f = before ++ f x :: after :=
  modify_length_add before (x :: after) 0 f

/-! ### One draft -/

/-- The assembler with lines in one of its drafts. -/
def drafted (a : Assembler) (index : Nat) (lines : List Line) (next depth : Nat) : Assembler :=
  { a with drafts := a.drafts.setIfInBounds index ⟨lines.toArray, next, depth⟩ }

/-- The assembler with lines in one of its drafts, and more that are laid out behind them. -/
def extended (a : Assembler) (index : Nat) (lines : List Line) (depth : Nat) (laid : Laid) : Assembler :=
  a.drafted index (lines ++ laid.lines) laid.next depth

section drafted

variable {a : Assembler} {s : Station} {lines : List Line} {next depth : Nat}

theorem draft_drafted (known : s.draft < a.drafts.size) :
    (a.drafted s.draft lines next depth).draft s = ⟨lines.toArray, next, depth⟩ := by
  simp [draft, drafted, known]

theorem address_drafted (known : s.draft < a.drafts.size) :
    (a.drafted s.draft lines next depth).address s = lines.length := by
  rw [address, draft_drafted known, List.size_toArray]

theorem changeDraft_drafted {change : Draft → Draft} {lines' : List Line} {next' depth' : Nat}
    (changed : change ⟨lines.toArray, next, depth⟩ = ⟨lines'.toArray, next', depth'⟩) :
    (a.drafted s.draft lines next depth).changeDraft s change = a.drafted s.draft lines' next' depth' := by
  rw [changeDraft, drafted, drafted]
  congr 1
  refine Array.ext (by simp) fun i before after => ?_
  by_cases same : s.draft = i
  · subst same
    simp [Array.getElem_modify, changed]
  · have inside : i < a.drafts.size := by simpa using after
    rw [Array.getElem_modify, if_neg same, Array.getElem_setIfInBounds_ne inside same,
      Array.getElem_setIfInBounds_ne inside same]

theorem fresh_drafted (known : s.draft < a.drafts.size) :
    (a.drafted s.draft lines next depth).fresh s = (next, a.drafted s.draft lines (next + 1) depth) := by
  rw [fresh, draft_drafted known, changeDraft_drafted rfl]

theorem addLine_drafted (instr : Instr) :
    (a.drafted s.draft lines next depth).addLine instr s =
      a.drafted s.draft (lines ++ [⟨depth, instr⟩]) next depth :=
  changeDraft_drafted (by rw [List.push_toArray])

theorem addNode_drafted (slot : Nat) :
    (a.drafted s.draft lines next depth).addNode slot s =
      a.drafted s.draft (lines ++ [⟨depth, .append (s.parent.getD rootSlot) slot⟩]) next depth :=
  addLine_drafted _

theorem indent_drafted :
    (a.drafted s.draft lines next depth).indent s = a.drafted s.draft lines next (depth + 1) :=
  changeDraft_drafted rfl

theorem dedent_drafted :
    (a.drafted s.draft lines next (depth + 1)).dedent s = a.drafted s.draft lines next depth :=
  changeDraft_drafted rfl

/-- A patch changes the line at its address only. -/
theorem patch_drafted (more : List Line) (k target : Nat) :
    (a.drafted s.draft (lines ++ more) next depth).patch (lines.length + k) target s =
      a.drafted s.draft (lines ++ more.modify k fun l => { l with instr := l.instr.retarget target }) next depth :=
  changeDraft_drafted (by rw [List.modify_toArray, modify_length_add])

end drafted

/-! ### Actions and values -/

section added

variable {a : Assembler} {s : Station} (known : s.draft < a.drafts.size)
include known

theorem emitAction_drafted (node : Nat) (lines : List Line) (next depth : Nat) (action : Action) :
    emitAction node s (a.drafted s.draft lines next depth) action =
      a.extended s.draft lines depth (layAction node next depth action) := by
  cases action with
  | set name value => exact addLine_drafted _
  | setParts name parts => exact addLine_drafted _
  | listen event handler => exact addLine_drafted _
  | setIf name value =>
    simp only [emitAction, fresh_drafted known, addLine_drafted, extended, layAction, List.append_assoc,
      List.singleton_append]
  | spread value =>
    simp only [emitAction, fresh_drafted known, addLine_drafted, extended, layAction, List.append_assoc,
      List.singleton_append]

theorem emitActions_drafted (node : Nat) (actions : List Action) (lines : List Line) (next depth : Nat) :
    actions.foldl (emitAction node s) (a.drafted s.draft lines next depth) =
      a.extended s.draft lines depth (layActions node next depth actions) := by
  induction actions generalizing lines next with
  | nil => rw [layActions, extended, List.append_nil, List.foldl_nil]
  | cons action rest ih =>
    rw [List.foldl_cons, emitAction_drafted known, extended, ih, layActions, extended, extended, List.append_assoc]

/-- The value stands at the end of the draft, with a jump that is still to be patched. -/
theorem emitValue_drafted (value : Expression) (escape : Bool) (lines : List Line) (next depth : Nat) :
    (a.drafted s.draft lines next depth).emitValue value escape s =
      (lines.length + 1, a.drafted s.draft
        (lines ++ [⟨depth, .eval next value⟩, ⟨depth, .jumpAbsent next unpatched⟩,
          ⟨depth + 1, .textOf (next + 1) next escape⟩, ⟨depth + 1, .append (s.parent.getD rootSlot) (next + 1)⟩])
        (next + 2) (depth + 1)) := by
  let t := s.withEscaping escape
  have known : t.draft < a.drafts.size := known
  show (a.drafted t.draft lines next depth).emitValue value escape s = _
  simp only [emitValue, ← show t = s.withEscaping escape from rfl, fresh_drafted known, addLine_drafted,
    address_drafted known, indent_drafted, addNode_drafted, List.length_append, List.length_singleton,
    List.append_assoc, List.singleton_append]
  rfl

end added

/-! ### Blocks -/

theorem patchAll_cons (exit : Nat) (exits : List Nat) (s : Station) (a : Assembler) :
    a.patchAll (exit :: exits) s = (a.patch exit (a.address s) s).patchAll exits s :=
  rfl

-- The draft is given by its number, so that the station of an element's children can take the place of another.
mutual

/-- A block extends the draft by the lines that it is laid out as behind those that are there. -/
theorem emitBlock_drafted {a : Assembler} : ∀ (block : Block) (s : Station) (index : Nat) (lines : List Line)
    (next depth : Nat), s.draft = index → index < a.drafts.size →
      emitBlock s (a.drafted index lines next depth) block =
        a.extended index lines depth (layBlock (s.parent.getD rootSlot) next depth lines.length block)
  | .text t, s, _, lines, next, depth, rfl, known => by
    simp only [emitBlock, fresh_drafted known, addLine_drafted, addNode_drafted, extended, layBlock, List.append_assoc,
      List.singleton_append]
  | .element tag actions body, s, _, lines, next, depth, rfl, known => by
    simp only [emitBlock, fresh_drafted known, addLine_drafted, emitActions_drafted known, extended, addNode_drafted]
    -- the children stand at a station of their own, of the same draft
    rw [emitBlocks_drafted body (s.withParent next) s.draft _ _ depth rfl known, extended, layBlock]
    simp [Station.withParent, Nat.add_assoc, Nat.add_comm 1]
  | .choose chain, s, index, lines, next, depth, here, known => by
    rw [emitBlock, layBlock]
    exact emitChain_drafted chain [] s index lines next depth here known
  | .loop source name body, s, _, lines, next, depth, rfl, known => by
    simp only [emitBlock, fresh_drafted known, addLine_drafted, address_drafted known, indent_drafted]
    rw [emitBlocks_drafted body s s.draft _ _ (depth + 1) rfl known, extended, layBlock]
    simp only [addLine_drafted, dedent_drafted, address_drafted known, List.append_assoc, List.length_append,
      List.length_cons, List.length_nil, List.cons_append, List.nil_append, patch_drafted, List.modify_succ_cons,
      List.modify_zero_cons, Instr.retarget, extended]
    simp [Nat.add_assoc, Nat.add_comm 2]
  | .emit value escape, s, _, lines, next, depth, rfl, known => by
    simp only [emitBlock, emitValue_drafted known, dedent_drafted, address_drafted known, patch_drafted]
    simp [Instr.retarget, extended, layBlock]
  | .emitOr value escape fallback, s, _, lines, next, depth, rfl, known => by
    simp only [emitBlock, emitValue_drafted known, addLine_drafted, address_drafted known, List.append_assoc,
      patch_drafted]
    rw [emitBlocks_drafted fallback s s.draft _ _ (depth + 1) rfl known, extended]
    simp only [dedent_drafted, address_drafted known, List.append_assoc, List.length_append,
      List.length_cons, List.length_nil, List.cons_append, List.nil_append, patch_drafted, List.modify_succ_cons,
      List.modify_zero_cons, Instr.retarget, extended, layBlock]
    simp [Nat.add_assoc, Nat.add_comm 5]

theorem emitBlocks_drafted {a : Assembler} : ∀ (blocks : List Block) (s : Station) (index : Nat) (lines : List Line)
    (next depth : Nat), s.draft = index → index < a.drafts.size →
      emitBlocks s (a.drafted index lines next depth) blocks =
        a.extended index lines depth (layBlocks (s.parent.getD rootSlot) next depth lines.length blocks)
  | [], s, index, lines, next, depth, here, known => by
    rw [emitBlocks, layBlocks, extended, List.append_nil]
  | block :: rest, s, index, lines, next, depth, here, known => by
    rw [emitBlocks, emitBlock_drafted block s index lines next depth here known, extended,
      emitBlocks_drafted rest s index _ _ depth here known, extended, extended, layBlocks]
    simp only [List.length_append, List.append_assoc]

theorem emitChain_drafted {a : Assembler} : ∀ (chain : Chain) (exits : List Nat) (s : Station) (index : Nat)
    (lines : List Line) (next depth : Nat), s.draft = index → index < a.drafts.size →
      emitChain exits s (a.drafted index lines next depth) chain =
        patchAll exits s
          (a.extended index lines depth (layChain (s.parent.getD rootSlot) next depth lines.length chain))
  | .otherwise body, exits, s, _, lines, next, depth, rfl, known => by
    rw [emitChain, indent_drafted, emitBlocks_drafted body s _ lines next (depth + 1) rfl known, extended,
      dedent_drafted, layChain, extended]
  | .when test body rest, exits, s, _, lines, next, depth, rfl, known => by
    simp only [emitChain, addLine_drafted, indent_drafted, address_drafted known]
    rw [emitBlocks_drafted body s s.draft _ _ (depth + 1) rfl known, extended]
    simp only [addLine_drafted, dedent_drafted, address_drafted known, List.append_assoc]
    -- the test is patched before the other alternatives are there, the jump over them after
    rw [← Nat.add_zero lines.length, patch_drafted, emitChain_drafted rest _ s s.draft _ _ depth rfl known, extended,
      patchAll_cons, address_drafted known]
    simp only [List.append_assoc, List.length_append, List.length_cons, List.length_nil, List.cons_append,
      List.nil_append, patch_drafted, List.modify_succ_cons, List.modify_zero_cons, modify_length, Nat.add_zero,
      Nat.zero_add]
    simp [Instr.retarget, extended, layChain, Nat.add_assoc, Nat.add_comm 1, Nat.add_comm 2]

end

/-! ### The program -/

/-- A program put together in one pass, with placeholders for the jumps that lead ahead and a patch for each, is the
    one that is laid out with all its addresses known. -/
theorem assemble_eq_ofBlocks (blocks : List Block) : assemble blocks = Program.ofBlocks blocks := by
  let a : Assembler := (station [] {}).2
  let s : Station := (station [] {}).1
  have known : s.draft < a.drafts.size := by decide
  have empty : a = a.drafted s.draft [] (rootSlot + 1) 0 := by rfl
  have opened : a.addLine (.fragment s.fragment) s =
      a.drafted s.draft [⟨0, .fragment s.fragment⟩] (rootSlot + 1) 0 := by
    rw [empty]
    exact addLine_drafted _
  show ((emitBlocks s (a.addLine (.fragment s.fragment) s) blocks).addLine (.done s.fragment) s |>.finish s).1 = _
  rw [opened, emitBlocks_drafted blocks s s.draft _ _ 0 rfl known, extended, addLine_drafted, finish,
    draft_drafted known]
  rfl

/-- What a template is compiled to is put together in one pass over its blocks. -/
theorem compile_eq_assemble (templates : Fields Template) (cache : Expr.ScopeCache) (name : String) :
    (Registry.compile templates cache name).1 =
      (Template.blocksOf templates name { cache := cache }).1.map assemble := by
  rw [funext assemble_eq_ofBlocks]
  rfl

end Stencil.Assembler
