import Stencil.Proofs.Layout
import Stencil.Proofs.Paths

/-!
The machine does on the code for blocks what a build does on the blocks. The code may use the registers
from `next` on and finds the parent in a register below; it is entered with no loop under way in its
registers and left the same way, or it fails where the build fails. The proof goes along the layout,
with an inner induction on the items that a loop still has to go through.
-/
namespace Stencil.Machine

open Program (CodeAt layAction layActions layBlock layBlocks layChain)
open Stateful
open Template (Action Block Chain)

variable {program : Program} {m : Machine} {next higher first second stop : Nat}

/-- The machine, started in `m` at `first`, does what a build does that has the given outcome: it gets to
    `stop` with the same document and data, or it fails with the same error and document. -/
def Simulates (program : Program) (next first stop : Nat) (m : Machine) :
    Except RenderError Unit × Site → Prop
  | (.ok _, site) =>
    ∃ after, Path program (During next m) (first, m) (stop, after) ∧ After next m after ∧ after.site = site
  | (.error e, site) => Fails program (During next m) (first, m) e site.document

/-! ### Putting simulations together -/

theorem Simulates.done (idle : Idle next m) : Simulates program next first first m (.ok (), m.site) :=
  ⟨m, .refl, .refl idle, rfl⟩

/-- One instruction before what is simulated. -/
theorem Simulates.step {instr : Instr} {after : Machine} {outcome : Except RenderError Unit × Site}
    (idle : Idle next m) (found : program.instr? first = some instr)
    (ran : exec first instr m = (.ok (.goto second), after)) (kept : After next m after) (le : next ≤ higher)
    (rest : Simulates program higher second stop after outcome) : Simulates program next first stop m outcome := by
  have lift : ∀ m', During higher after m' → During next m m' := fun m' => kept.trans_during le
  have start : During next m m := (After.refl idle).during
  rcases outcome with ⟨result, site⟩
  cases result with
  | ok _ =>
    obtain ⟨last, path, keptLast, same⟩ := rest
    exact ⟨last, .step start found ran (path.mono lift), kept.trans le keptLast, same⟩
  | error e => exact Path.fails (.step start found ran .refl) (rest.mono lift)

/-- An instruction that fails and changes nothing. -/
theorem Simulates.fail {instr : Instr} {e : RenderError} (idle : Idle next m)
    (found : program.instr? first = some instr) (ran : exec first instr m = (.error e, m)) :
    Simulates program next first stop m (.error e, m.site) :=
  .here (After.refl idle).during found ran

/-- Code after other code, for one step of a build after another. -/
theorem Simulates.seq {step rest : Build Unit} (le : next ≤ higher)
    (before : Simulates program next first second m (step m.site))
    (behind : ∀ after, After next m after → Simulates program higher second stop after (rest after.site)) :
    Simulates program next first stop m ((step >>= fun _ => rest) m.site) := by
  rcases ran : step m.site with ⟨result, site⟩
  rw [ran] at before
  cases result with
  | ok _ =>
    obtain ⟨middle, path, kept, rfl⟩ := before
    have lift : ∀ m', During higher middle m' → During next m m' := fun m' => kept.trans_during le
    rw [bind_ok ran]
    have simulated := behind middle kept
    rcases last : rest middle.site with ⟨result, site⟩
    rw [last] at simulated
    cases result with
    | ok _ =>
      obtain ⟨after, path', kept', same⟩ := simulated
      exact ⟨after, path.trans (path'.mono lift), kept.trans le kept', same⟩
    | error e => exact path.fails (simulated.mono lift)
  | error e =>
    rw [bind_error ran]
    exact before

/-! ### Attributes -/

section actions

variable {slot node depth : Nat}

/-- An instruction that changes the document only. -/
theorem Simulates.change {instr : Instr} {after : Machine} (idle : Idle next m)
    (found : program.instr? first = some instr) (ran : exec first instr m = (.ok (.goto stop), after))
    (registers : after.registers = m.registers) (data : after.data = m.data) :
    Simulates program next first stop m (.ok (), after.site) := by
  have kept : After next m after := (After.refl idle).of_registers registers data
  exact .step idle found ran kept (Nat.le_refl _) (.done kept.idle)

/-- A value that is computed into a register, and an instruction that uses it on the document. -/
theorem Simulates.computed {e : Expression} {instr : Instr} {use : Value → Build Unit} {lines : List Line}
    (code : CodeAt program first (⟨depth, .eval next e⟩ :: ⟨depth, instr⟩ :: lines))
    (room : next < m.registers.size) (idle : Idle next m)
    (ran : ∀ v, (m.put next (.value v)).registers[next]? = some (.value v) → ∃ document,
      exec (first + 1) instr (m.put next (.value v)) =
        (.ok (.goto (first + 2)), (m.put next (.value v)).withDocument document) ∧
      use v m.site = (.ok (), ⟨document, m.data⟩)) :
    Simulates program next first (first + 2) m ((Build.compute e >>= use) m.site) := by
  cases computed : e.eval m.data with
  | error error =>
    rw [bind_error (compute_error (s := m.site) computed)]
    exact .fail idle code.head (exec_eval_error computed)
  | ok v =>
    obtain ⟨document, executed, used⟩ := ran v (getElem?_put_self _ room)
    have kept : After next m (m.put next (.value v)) := (After.refl idle).put (Nat.le_refl _) rfl
    rw [bind_ok (compute_ok (s := m.site) computed), used]
    exact .step idle code.head (exec_eval_ok computed room) kept (Nat.le_refl _)
      (.change kept.idle (code.tail rfl).head executed rfl rfl)

theorem layAction_simulates (action : Action) (code : CodeAt program first (layAction slot next depth action).lines)
    (held : m.registers[slot]? = some (.node node)) (below : slot < next)
    (room : (layAction slot next depth action).next ≤ m.registers.size) (idle : Idle next m) :
    Simulates program next first (first + (layAction slot next depth action).lines.length) m
      (Build.act node action m.site) := by
  have heldAfter : ∀ content, (m.put next content).registers[slot]? = some (.node node) := by
    intro content
    rw [getElem?_put_of_ne content (by omega)]
    exact held
  cases action with
  | set name value => exact .change idle code.head (exec_set name value held) rfl rfl
  | setIf name e =>
    refine .computed code room idle fun v written => ?_
    by_cases truthy : v.isTruthy = true
    · refine ⟨m.document.setAttribute node name v.toText, ?_, by rw [if_pos truthy]; rfl⟩
      rw [exec_setIf name (heldAfter _) written, if_pos truthy]
      rfl
    · refine ⟨m.document, ?_, by rw [if_neg truthy]; rfl⟩
      rw [exec_setIf name (heldAfter _) written, if_neg truthy]
      rfl
  | setParts name parts =>
    obtain ⟨result, joined, built⟩ := partsText_joined parts m
    cases result with
    | error e =>
      rw [Build.act, bind_error built]
      exact .fail idle code.head (by rw [exec, bind_error joined])
    | ok text =>
      rw [Build.act, bind_ok built]
      exact .change idle code.head (exec_setParts_ok name joined held) rfl rfl
  | spread e => exact .computed code room idle fun v written => ⟨_, exec_spread (heldAfter _) written, rfl⟩
  | listen event handler =>
    by_cases function : ∃ number, m.data.read handler = .function number
    · obtain ⟨number, read⟩ := function
      have built : Build.act node (.listen event handler) m.site =
          (.ok (), (m.withDocument (m.document.listen node event number)).site) := by
        rw [Build.act, bind_ok (get_apply m.site)]
        simp only [site, read]
        rfl
      have simulated : Simulates program next first _ m _ :=
        .change idle code.head (exec_listen_ok event handler read held) rfl rfl
      rw [built]
      exact simulated
    · have other : ∀ number, m.data.read handler ≠ .function number := fun number read => function ⟨number, read⟩
      have built : Build.act node (.listen event handler) m.site =
          (.error (.notAFunction handler (m.data.read handler).kind), m.site) := by
        rw [Build.act, bind_ok (get_apply m.site)]
        cases read : m.data.read handler with
        | function number => exact absurd read (other number)
        | _ => simp only [site, read]; rfl
      rw [built]
      exact .fail idle code.head (exec_listen_error event handler other)

theorem layActions_simulates (actions : List Action)
    (code : CodeAt program first (layActions slot next depth actions).lines)
    (held : m.registers[slot]? = some (.node node)) (below : slot < next)
    (room : (layActions slot next depth actions).next ≤ m.registers.size) (idle : Idle next m) :
    Simulates program next first (first + (layActions slot next depth actions).lines.length) m
      (Build.actAll node actions m.site) := by
  induction actions generalizing next first m with
  | nil => exact .done idle
  | cons action rest ih =>
    have le := (Program.layAction_numbered slot next depth action).le
    have le' := (Program.layActions_numbered slot (layAction slot next depth action).next depth rest).le
    rw [layActions] at code room ⊢
    simp only at room
    have one := layAction_simulates action code.left held below (by omega) idle
    rw [List.length_append, ← Nat.add_assoc]
    refine one.seq le fun after kept => ?_
    exact ih (code.right rfl) (kept.node below held) (by omega) (by rw [kept.size]; exact room) (kept.idle.mono le)

end actions

/-! ### Loops -/

/-- A loop that was entered in `start` is at its head or in its body, with its state in register `next`
    and no other loop under way behind it. -/
structure Looping (next : Nat) (start m : Machine) (l : Loop) : Prop where
  size : m.registers.size = start.registers.size
  kept : ∀ slot < next, m.registers[slot]? = start.registers[slot]?
  held : m.registers[next]? = some (.loop l)
  idle : Idle (next + 1) m
  saved : l.saved = loopSnapshot l.name start.data
  shown : Shown l.name start.data m.data

section loops

variable {start : Machine} {l : Loop}

theorem Looping.restored (looping : Looping next start m l) : restoreFields l.saved m.data = start.data := by
  rw [looping.saved]
  exact restoreFields_of_shown looping.shown

/-- Undoing the loops of the body and then the loop itself leads back to where the loop was entered. -/
theorem Looping.trans_during {later : Machine} (looping : Looping next start m l)
    (during : During (next + 1) m later) : During next start later := by
  refine ⟨during.size.trans looping.size, ?_, ?_⟩
  · intro slot below
    rw [during.kept slot (by omega), looping.kept slot below]
  · have held : later.registers[next]? = some (.loop l) := (during.kept next (by omega)).trans looping.held
    rw [undone_succ held]
    simp only [Register.loop?]
    rw [during.undone, looping.restored]

theorem Looping.during (looping : Looping next start m l) : During next start m :=
  looping.trans_during (After.refl looping.idle).during

theorem Looping.trans_after {later : Machine} (looping : Looping next start m l)
    (after : After (next + 1) m later) : Looping next start later l := by
  refine ⟨after.size.trans looping.size, ?_, (after.kept next (by omega)).trans looping.held, after.idle,
    looping.saved, after.data ▸ looping.shown⟩
  intro slot below
  rw [after.kept slot (by omega), looping.kept slot below]

theorem idle_put {content : Register} (idle : Idle (next + 1) m) : Idle (next + 1) (m.put next content) := by
  intro slot l low
  rw [getElem?_put_of_ne content (by omega)]
  exact idle slot l low

/-- A loop at its first head. -/
theorem Looping.open (name : String) (items : Array (Value × Value)) (idle : Idle next m)
    (room : next < m.registers.size) :
    Looping next m (m.put next (.loop (opened name items m.data))) (opened name items m.data) := by
  refine ⟨size_put _, ?_, getElem?_put_self _ room, idle_put (idle.mono (by omega)), rfl, .inl rfl⟩
  intro slot below
  rw [getElem?_put_of_ne _ (by omega)]

/-- A loop that shows its next item. -/
theorem Looping.advance (looping : Looping next start m l) (key value : Value) :
    Looping next start (m.advanced next l key value) { l with cursor := l.cursor + 1 } := by
  have room : next < m.registers.size := (Array.getElem?_eq_some_iff.mp looping.held).1
  refine ⟨(size_put _).trans looping.size, ?_, getElem?_put_self _ room, idle_put looping.idle, looping.saved,
    looping.shown.next l.cursor l.items.size key value⟩
  intro slot below
  exact (getElem?_put_of_ne _ (by omega)).trans (looping.kept slot below)

/-- A loop that is through. -/
theorem Looping.close (looping : Looping next start m l) :
    After next start ((m.put next .empty).withData (restoreFields l.saved m.data)) := by
  have room : next < m.registers.size := (Array.getElem?_eq_some_iff.mp looping.held).1
  refine ⟨(size_put _).trans looping.size, ?_, ?_, looping.restored⟩
  · intro slot below
    exact (getElem?_put_of_ne _ (by omega)).trans (looping.kept slot below)
  · intro slot l' low held
    by_cases same : slot = next
    · subst same
      have emptied : (m.put slot .empty).registers[slot]? = some .empty := getElem?_put_self _ room
      cases emptied.symm.trans held
    · exact idle_put looping.idle slot l' (by omega) held

/-- What a machine does from the head of a loop on, when a build has the given outcome for the items
    that are left: it gets to the exit with the loop still in its register, or it fails alike. -/
def Iterates (program : Program) (next head exit : Nat) (start m : Machine) :
    Except RenderError Unit × Site → Prop
  | (.ok _, site) => ∃ after l, Path program (During next start) (head, m) (exit, after) ∧
      Looping next start after l ∧ after.site = site
  | (.error e, site) => Fails program (During next start) (head, m) e site.document

theorem Path.iterates {head exit : Nat} {later : Machine} {outcome : Except RenderError Unit × Site}
    (path : Path program (During next start) (head, m) (head, later))
    (iterates : Iterates program next head exit start later outcome) :
    Iterates program next head exit start m outcome := by
  rcases outcome with ⟨result, site⟩
  cases result with
  | ok _ =>
    obtain ⟨after, l, rest, looping, same⟩ := iterates
    exact ⟨after, l, path.trans rest, looping, same⟩
  | error e => exact path.fails iterates

/-- The head of a loop and its body, for all items that are left. -/
theorem forItems_iterates {head exit back : Nat} {body : Build Unit} {items : List (Value × Value)}
    (isHead : program.instr? head = some (.next next exit)) (isBack : program.instr? back = some (.jump head))
    (simulated : ∀ m l, Looping next start m l → Simulates program (next + 1) (head + 1) back m (body m.site))
    (looping : Looping next start m l) (left : l.items.toList.drop l.cursor = items) :
    Iterates program next head exit start m (Build.forItems l.name l.items.size body l.cursor items m.site) := by
  -- Each time round starts from a new state of the loop, but `Looping` always refers to the same `start`.
  induction items generalizing m l with
  | nil =>
    have through : l.items[l.cursor]? = none := by
      have short := List.drop_eq_nil_iff.mp left
      exact Array.getElem?_eq_none_iff.mpr (by simpa using short)
    exact ⟨m, l, .step looping.during isHead (exec_next_none looping.held through) .refl, looping, rfl⟩
  | cons item rest ih =>
    obtain ⟨key, value⟩ := item
    have shown : l.items[l.cursor]? = some (key, value) := by
      rw [← Array.getElem?_toList, ← Nat.add_zero l.cursor, ← List.getElem?_drop, left]
      rfl
    have room : next < m.registers.size := (Array.getElem?_eq_some_iff.mp looping.held).1
    have advanced := looping.advance key value
    have showing : Build.showItem l.name l.cursor l.items.size (key, value) m.site =
        (.ok (), (m.advanced next l key value).site) := rfl
    have toBody : Path program (During next start) (head, m) (head + 1, m.advanced next l key value) :=
      .step looping.during isHead (exec_next_some looping.held shown room) .refl
    have simulatedBody := simulated _ _ advanced
    rw [Build.forItems, bind_ok showing]
    rcases ran : body (m.advanced next l key value).site with ⟨result, reached⟩
    rw [ran] at simulatedBody
    cases result with
    | error e =>
      rw [bind_error ran]
      exact toBody.fails (simulatedBody.mono fun _ => advanced.trans_during)
    | ok _ =>
      obtain ⟨after, throughBody, kept, rfl⟩ := simulatedBody
      have again := advanced.trans_after kept
      have toHead : Path program (During next start) (back, after) (head, after) :=
        .step again.during isBack (exec_jump head) .refl
      have rest_left : l.items.toList.drop (l.cursor + 1) = rest := by
        rw [← List.tail_drop, left]
        rfl
      rw [bind_ok ran]
      exact ((toBody.trans (throughBody.mono fun _ => advanced.trans_during)).trans toHead).iterates
        (ih again rest_left)

/-- The whole of a loop. The outcome for its items becomes that of the loop when the data are put back:
    by its end if it gets there, and otherwise when the failed run undoes what is under way. -/
theorem Simulates.loop {source : Expression} {name : String} {exit back : Nat} {body : Build Unit}
    (isLoop : program.instr? first = some (.loop next source name))
    (isHead : program.instr? (first + 1) = some (.next next exit))
    (isBack : program.instr? back = some (.jump (first + 1))) (isEnd : program.instr? exit = some (.endLoop next))
    (room : next < m.registers.size) (idle : Idle next m)
    (simulated : ∀ m' l, Looping next m m' l → Simulates program (next + 1) (first + 2) back m' (body m'.site)) :
    Simulates program next first (exit + 1) m
      ((Build.itemsOf source >>= fun items =>
        Build.locally (Build.forItems name items.length body 0 items)) m.site) := by
  cases computed : source.eval m.data with
  | error error =>
    have items : Build.itemsOf source m.site = (.error (.eval error), m.site) := by
      rw [Build.itemsOf, bind_error (compute_error (s := m.site) computed)]
    rw [bind_error items]
    exact .fail idle isLoop (exec_loop_uncomputed name computed)
  | ok v =>
    cases listed : loopItems v with
    | error fault =>
      have items : Build.itemsOf source m.site = (.error fault, m.site) := by
        rw [Build.itemsOf, bind_ok (compute_ok (s := m.site) computed), listed]
        rfl
      rw [bind_error items]
      exact .fail idle isLoop (exec_loop_unlisted name computed listed)
    | ok items =>
      have itemsOf : Build.itemsOf source m.site = (.ok items.toList, m.site) := by
        rw [Build.itemsOf, bind_ok (compute_ok (s := m.site) computed), listed]
        rfl
      have opening := Looping.open name items idle room
      have iterates : Iterates program next (first + 1) exit m _
          (Build.forItems name items.size body 0 items.toList m.site) :=
        forItems_iterates isHead isBack simulated opening rfl
      have start : Path program (During next m) (first, m) (first + 1, _) :=
        .step (After.refl idle).during isLoop (exec_loop_ok name computed listed room) .refl
      rw [bind_ok itemsOf, Array.length_toList, Build.locally]
      rcases ran : Build.forItems name items.size body 0 items.toList m.site with ⟨result, reached⟩
      rw [ran] at iterates
      cases result with
      | error e => exact start.fails iterates
      | ok _ =>
        obtain ⟨after, l, path, looping, rfl⟩ := iterates
        have closing : Path program (During next m) (exit, after) (exit + 1, _) :=
          .step looping.during isEnd (exec_endLoop looping.held) .refl
        refine ⟨_, (start.trans path).trans closing, looping.close, ?_⟩
        rw [site, withData, looping.restored]
        rfl

end loops

/-! ### Blocks -/

section blocks

variable {parent p depth : Nat}

/-- A new text that is appended to the parent. -/
theorem Simulates.addText {instr : Instr} {s : String} {slot outer : Nat} {lines : List Line}
    (code : CodeAt program first (⟨depth, instr⟩ :: ⟨outer, .append parent slot⟩ :: lines))
    (ran : exec first instr m = (.ok (.goto (first + 1)), m.withNode slot (.text s)))
    (held : m.registers[parent]? = some (.node p)) (below : parent < next) (low : next ≤ slot)
    (room : slot < m.registers.size) (idle : Idle next m) :
    Simulates program next first (first + 2) m (Build.addText p s m.site) := by
  have kept : After next m (m.withNode slot (.text s)) := (After.refl idle).withNode low _
  have heldChild : (m.withNode slot (.text s)).registers[slot]? = some (.node (m.document.create (.text s)).1) :=
    getElem?_put_self _ room
  exact .step idle code.head ran kept (Nat.le_refl _)
    (.change kept.idle (code.tail rfl).head (exec_append (kept.node below held) heldChild) rfl rfl)

/-- The lines that emit a value, with what follows a value that is present and one that is not. -/
theorem Simulates.emission {value : Expression} {escape : Bool} {target : Nat} {absent : Build Unit}
    (code : CodeAt program first
      [⟨depth, .eval next value⟩, ⟨depth, .jumpAbsent next target⟩,
        ⟨depth + 1, .textOf (next + 1) next escape⟩, ⟨depth + 1, .append parent (next + 1)⟩])
    (held : m.registers[parent]? = some (.node p)) (below : parent < next) (room : next + 2 ≤ m.registers.size)
    (idle : Idle next m)
    (shown : ∀ after, After next m after → Simulates program (next + 2) (first + 4) stop after (.ok (), after.site))
    (hidden : ∀ after, After next m after → Simulates program (next + 2) target stop after (absent after.site)) :
    Simulates program next first stop m
      ((Build.compute value >>= fun v => if v.isPresent then Build.addValue p escape v else absent) m.site) := by
  cases computed : value.eval m.data with
  | error error =>
    rw [bind_error (compute_error (s := m.site) computed)]
    exact .fail idle code.head (exec_eval_error computed)
  | ok v =>
    have kept : After next m (m.put next (.value v)) := (After.refl idle).put (Nat.le_refl _) rfl
    have written : (m.put next (.value v)).registers[next]? = some (.value v) := getElem?_put_self _ (by omega)
    have jump : CodeAt program (first + 1) _ := code.tail rfl
    rw [bind_ok (compute_ok (s := m.site) computed)]
    refine .step idle code.head (exec_eval_ok computed (by omega)) kept (Nat.le_refl _) ?_
    have tested : exec (first + 1) (.jumpAbsent next target) (m.put next (.value v)) = _ := exec_jumpAbsent written
    by_cases present : v.isPresent = true
    · rw [if_pos present] at tested ⊢
      refine .step kept.idle jump.head tested (.refl kept.idle) (Nat.le_refl _) ?_
      have added := Simulates.addText (jump.tail rfl) (exec_textOf escape written (by rw [size_put]; omega))
        (kept.node below held) below (by omega) (by rw [size_put]; omega) kept.idle
      have whole : Simulates program next (first + 2) stop _ ((Build.addValue p escape v >>= fun _ => pure ()) _) :=
        added.seq (by omega) fun after keptAfter => shown after (kept.trans (Nat.le_refl _) keptAfter)
      exact whole
    · rw [if_neg present] at tested ⊢
      exact .step kept.idle jump.head tested (.refl kept.idle) (by omega) (hidden _ kept)

/-- A test before the code that it guards, and the code that is taken if it does not hold. -/
theorem Simulates.branch {test : Expression} {target : Nat} {body rest : Build Unit}
    (found : program.instr? first = some (.jumpUnless test target)) (idle : Idle next m) (le : next ≤ higher)
    (inside : Simulates program next (first + 1) stop m (body m.site))
    (others : Simulates program higher target stop m (rest m.site)) :
    Simulates program next first stop m
      ((Build.compute test >>= fun v => if v.isTruthy then body else rest) m.site) := by
  cases computed : test.eval m.data with
  | error error =>
    rw [bind_error (compute_error (s := m.site) computed)]
    exact .fail idle found (exec_jumpUnless_error computed)
  | ok v =>
    have tested : exec first (.jumpUnless test target) m = _ := exec_jumpUnless_ok computed
    rw [bind_ok (compute_ok (s := m.site) computed)]
    by_cases truthy : v.isTruthy = true
    · rw [if_pos truthy] at tested ⊢
      exact .step idle found tested (.refl idle) (Nat.le_refl _) inside
    · rw [if_neg truthy] at tested ⊢
      exact .step idle found tested (.refl idle) le others

/-- A jump at the end of code. -/
theorem Simulates.jump {outcome : Except RenderError Unit × Site}
    (simulates : Simulates program next first second m outcome)
    (found : program.instr? second = some (.jump stop)) : Simulates program next first stop m outcome := by
  rcases outcome with ⟨result, site⟩
  cases result with
  | error e => exact simulates
  | ok _ =>
    obtain ⟨after, path, kept, same⟩ := simulates
    exact ⟨after, path.trans (.step kept.during found (exec_jump stop) .refl), kept, same⟩

/-- A new element: the actions on it, the element appended to the parent, and then its body under it. -/
theorem Simulates.element {tag : String} {actions : List Action} {lines : List Line} {body : Nat → Build Unit}
    (code : CodeAt program first (⟨depth, .element next tag⟩ :: (layActions next (next + 1) depth actions).lines ++
      ⟨depth, .append parent next⟩ :: lines))
    (held : m.registers[parent]? = some (.node p)) (below : parent < next)
    (room : (layActions next (next + 1) depth actions).next ≤ m.registers.size) (idle : Idle next m)
    (inside : ∀ node after, after.registers.size = m.registers.size → after.registers[next]? = some (.node node) →
      Idle (layActions next (next + 1) depth actions).next after →
      Simulates program (layActions next (next + 1) depth actions).next
        (first + 1 + (layActions next (next + 1) depth actions).lines.length + 1) stop after (body node after.site)) :
    Simulates program next first stop m
      ((do
        let node ← Build.create (.element tag [] [])
        Build.actAll node actions
        Build.change (·.append p node)
        body node : Build Unit) m.site) := by
  have le := (Program.layActions_numbered next (next + 1) depth actions).le
  have inRoom : next < m.registers.size := by omega
  have kept : After next m (m.withNode next (.element tag [] [])) := (After.refl idle).withNode (Nat.le_refl _) _
  have heldNode : (m.withNode next (.element tag [] [])).registers[next]? =
      some (.node (m.document.create (.element tag [] [])).1) := getElem?_put_self _ inRoom
  have rest : CodeAt program (first + 1 + (layActions next (next + 1) depth actions).lines.length) _ :=
    code.right (by simp; omega)
  have created : Build.create (.element tag [] []) m.site =
      (.ok (m.document.create (.element tag [] [])).1, (m.withNode next (.element tag [] [])).site) := rfl
  rw [bind_ok created]
  refine .step idle code.left.head (exec_element tag inRoom) kept (Nat.le_succ _) ?_
  have acted := layActions_simulates actions (code.left.tail rfl) heldNode (Nat.lt_succ_self _)
    (by rw [kept.size]; exact room) (kept.idle.mono (Nat.le_succ _))
  refine acted.seq le fun after keptAfter => ?_
  have heldAfter := keptAfter.node (Nat.lt_succ_self _) heldNode
  have appended : Simulates program (layActions next (next + 1) depth actions).next _ _ after _ :=
    .change (keptAfter.idle.mono le) rest.head
      (exec_append (keptAfter.node (by omega) (kept.node below held)) heldAfter) rfl rfl
  -- The register of the element lies below those of the body, so that the body finds it there.
  refine Simulates.seq (Nat.le_refl _) appended fun later keptLater => ?_
  exact inside _ later (by rw [keptLater.size, keptAfter.size, kept.size]) (keptLater.node (by omega) heldAfter)
    keptLater.idle

/-- A machine at code that was laid out for a parent, which it holds in a register. -/
structure Ready (program : Program) (parent p next address : Nat) (laid : Program.Laid) (m : Machine) : Prop where
  code : CodeAt program address laid.lines
  held : m.registers[parent]? = some (.node p)
  below : parent < next
  room : laid.next ≤ m.registers.size
  idle : Idle next m

mutual

theorem layBlock_simulates (parent next depth address : Nat) : ∀ (block : Block) {p stop : Nat} {m : Machine},
    Ready program parent p next address (layBlock parent next depth address block) m →
    stop = address + (layBlock parent next depth address block).lines.length →
    Simulates program next address stop m (Build.block p block m.site)
  | .text s, p, stop, m, ready, place => by
    have simulates := Simulates.addText ready.code (exec_text s ready.room) ready.held ready.below (Nat.le_refl _)
      ready.room ready.idle
    subst place
    exact simulates
  | .element tag actions body, p, stop, m, ⟨code, held, below, room, idle⟩, place => by
    have le := (Program.layActions_numbered next (next + 1) depth actions).le
    have leInside := (Program.layBlocks_numbered next (layActions next (next + 1) depth actions).next depth
      (address + 1 + (layActions next (next + 1) depth actions).lines.length + 1) body).le
    rw [layBlock] at code place room
    simp only [List.length_append, List.length_cons] at place room
    have rest : CodeAt program (address + 1 + (layActions next (next + 1) depth actions).lines.length) _ :=
      code.right (by simp; omega)
    refine .element code held below (by omega) idle fun node after size heldNode idleAfter => ?_
    exact layBlocks_simulates next (layActions next (next + 1) depth actions).next depth _ body
      ⟨rest.tail rfl, heldNode, by omega, by rw [size]; exact room, idleAfter⟩ (by omega)
  | .choose chain, p, stop, m, ready, place =>
    layChain_simulates parent next depth address chain ready place
  | .loop source name body, p, stop, m, ⟨code, held, below, room, idle⟩, place => by
    have leInside := (Program.layBlocks_numbered parent (next + 1) (depth + 1) (address + 2) body).le
    rw [layBlock] at code place room
    simp only [List.length_append, List.length_cons, List.length_nil] at place room
    have head : CodeAt program (address + 1) _ := code.left.tail rfl
    have ending : CodeAt program
        (address + 2 + (layBlocks parent (next + 1) (depth + 1) (address + 2) body).lines.length) _ :=
      code.right (by simp; omega)
    have stops : stop =
        address + 2 + (layBlocks parent (next + 1) (depth + 1) (address + 2) body).lines.length + 1 + 1 := by omega
    rw [stops]
    refine .loop code.left.head head.head ending.head (ending.tail rfl).head (by omega) idle fun m' l looping => ?_
    exact layBlocks_simulates parent (next + 1) (depth + 1) (address + 2) body
      ⟨head.tail rfl, (looping.kept parent below).trans held, by omega, by rw [looping.size]; exact room,
        looping.idle⟩ rfl
  | .emit value escape, p, stop, m, ⟨code, held, below, room, idle⟩, place => by
    have stops : stop = address + 4 := place
    subst stops
    exact .emission code held below room idle (fun after kept => .done (kept.idle.mono (by omega)))
      fun after kept => .done (kept.idle.mono (by omega))
  | .emitOr value escape fallback, p, stop, m, ⟨code, held, below, room, idle⟩, place => by
    have leInside := (Program.layBlocks_numbered parent (next + 2) (depth + 1) (address + 5) fallback).le
    have emission : CodeAt program address
        [⟨depth, .eval next value⟩, ⟨depth, .jumpAbsent next (address + 5)⟩,
          ⟨depth + 1, .textOf (next + 1) next escape⟩, ⟨depth + 1, .append parent (next + 1)⟩] := code.left
    have jump : CodeAt program (address + 4) _ := (((code.tail rfl).tail rfl).tail rfl).tail rfl
    simp only [layBlock, List.length_cons] at place room
    have stops :
        address + 5 + (layBlocks parent (next + 2) (depth + 1) (address + 5) fallback).lines.length = stop := by omega
    rw [stops] at jump
    refine .emission emission held below (by omega) idle ?_ ?_
    · exact fun after kept => (Simulates.done (kept.idle.mono (by omega))).jump jump.head
    · intro after kept
      exact layBlocks_simulates parent (next + 2) (depth + 1) (address + 5) fallback
        ⟨jump.tail rfl, kept.node below held, by omega, by rw [kept.size]; exact room, kept.idle.mono (by omega)⟩
        stops.symm

theorem layBlocks_simulates (parent next depth address : Nat) : ∀ (blocks : List Block) {p stop : Nat} {m : Machine},
    Ready program parent p next address (layBlocks parent next depth address blocks) m →
    stop = address + (layBlocks parent next depth address blocks).lines.length →
    Simulates program next address stop m (Build.blocks p blocks m.site)
  | [], p, stop, m, ready, place => by
    subst place
    exact .done ready.idle
  | block :: rest, p, stop, m, ⟨code, held, below, room, idle⟩, place => by
    have le := (Program.layBlock_numbered parent next depth address block).le
    have le' := (Program.layBlocks_numbered parent (layBlock parent next depth address block).next depth
      (address + (layBlock parent next depth address block).lines.length) rest).le
    rw [layBlocks] at code place room
    rw [List.length_append, ← Nat.add_assoc] at place
    simp only at room
    have first := layBlock_simulates parent next depth address block
      ⟨code.left, held, below, by omega, idle⟩ rfl
    refine first.seq le fun after kept => ?_
    exact layBlocks_simulates parent _ depth _ rest
      ⟨code.right rfl, kept.node below held, by omega, by rw [kept.size]; exact room, kept.idle.mono le⟩ place

theorem layChain_simulates (parent next depth address : Nat) : ∀ (chain : Chain) {p stop : Nat} {m : Machine},
    Ready program parent p next address (layChain parent next depth address chain) m →
    stop = address + (layChain parent next depth address chain).lines.length →
    Simulates program next address stop m (Build.chain p chain m.site)
  | .otherwise body, p, stop, m, ready, place =>
    layBlocks_simulates parent next (depth + 1) address body ready place
  | .when test body rest, p, stop, m, ⟨code, held, below, room, idle⟩, place => by
    have le := (Program.layBlocks_numbered parent next (depth + 1) (address + 1) body).le
    have le' := (Program.layChain_numbered parent (layBlocks parent next (depth + 1) (address + 1) body).next depth
      (address + 1 + (layBlocks parent next (depth + 1) (address + 1) body).lines.length + 1) rest).le
    rw [layChain] at code place room
    simp only [List.length_append, List.length_cons] at place room
    have jump : CodeAt program (address + 1 + (layBlocks parent next (depth + 1) (address + 1) body).lines.length) _ :=
      code.right (by simp; omega)
    have inside := layBlocks_simulates parent next (depth + 1) (address + 1) body
      ⟨code.left.tail rfl, held, below, by omega, idle⟩ rfl
    have stops : address + 1 + (layBlocks parent next (depth + 1) (address + 1) body).lines.length + 1 +
        (layChain parent (layBlocks parent next (depth + 1) (address + 1) body).next depth
          (address + 1 + (layBlocks parent next (depth + 1) (address + 1) body).lines.length + 1) rest).lines.length =
        stop := by omega
    rw [stops] at jump
    have others := layChain_simulates parent (layBlocks parent next (depth + 1) (address + 1) body).next depth _ rest
      ⟨jump.tail rfl, held, by omega, room, idle.mono le⟩ stops.symm
    exact .branch code.left.head idle le (inside.jump jump.head) others

end

end blocks

end Stencil.Machine
