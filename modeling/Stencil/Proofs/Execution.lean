import Stencil.Proofs.Interpreter

/-!
What each instruction does to a machine whose registers hold what it wants. Where an expression, a loop
source or a handler is at fault, the instruction fails and changes nothing.
-/
namespace Stencil.Machine

open Stateful

variable {program : Program} {m : Machine} {slot address : Nat}

/-! ### Changes of a machine -/

/-- What a build would work on in place of the machine. -/
def site (m : Machine) : Site :=
  ⟨m.document, m.data⟩

/-- The machine with a register written. -/
def put (slot : Nat) (content : Register) (m : Machine) : Machine :=
  { m with registers := m.registers.setIfInBounds slot content }

/-- The machine with another document. -/
def withDocument (document : Document Nat) (m : Machine) : Machine :=
  { m with document := document }

/-- The machine with other data. -/
def withData (data : Fields Value) (m : Machine) : Machine :=
  { m with data := data }

/-- The machine with a new node in a register. -/
def withNode (slot : Nat) (kind : NodeKind Nat) (m : Machine) : Machine :=
  (m.withDocument (m.document.create kind).2).put slot (.node (m.document.create kind).1)

theorem getElem?_put_self (content : Register) (inside : slot < m.registers.size) :
    (m.put slot content).registers[slot]? = some content := by
  simp [put, inside]

theorem getElem?_put_of_ne (content : Register) {other : Nat} (differ : other ≠ slot) :
    (m.put slot content).registers[other]? = m.registers[other]? := by
  simp [put, Ne.symm differ]

@[simp] theorem size_put (content : Register) : (m.put slot content).registers.size = m.registers.size := by
  simp [put]

/-! ### Registers and expressions -/

theorem write_apply (content : Register) (inside : slot < m.registers.size) :
    write slot content m = (.ok (), m.put slot content) := by
  simp [write, bind_apply, inside, put]

theorem node_apply {node : Nat} (held : m.registers[slot]? = some (.node node)) :
    Machine.node slot m = (.ok node, m) := by
  simp [Machine.node, bind_apply, held]

theorem value_apply {v : Value} (held : m.registers[slot]? = some (.value v)) :
    Machine.value slot m = (.ok v, m) := by
  simp [Machine.value, bind_apply, held]

theorem loop_apply {l : Loop} (held : m.registers[slot]? = some (.loop l)) :
    Machine.loop slot m = (.ok l, m) := by
  simp [Machine.loop, bind_apply, held]

theorem takeLoop_apply {l : Loop} (held : m.registers[slot]? = some (.loop l)) :
    takeLoop slot m = (.ok l, m.put slot .empty) := by
  simp [takeLoop, bind_apply, held, put]

theorem create_apply (kind : NodeKind Nat) (inside : slot < m.registers.size) :
    create slot kind m = (.ok (), m.withNode slot kind) := by
  simp only [create, bind_apply, get_apply, set_apply]
  exact write_apply _ inside

theorem eval_ok {e : Expression} {v : Value} (computed : e.eval m.data = .ok v) : eval e m = (.ok v, m) := by
  simp [eval, bind_apply, computed]

theorem eval_error {e : Expression} {error : Expr.EvalError} (failed : e.eval m.data = .error error) :
    eval e m = (.error (.eval error), m) := by
  simp [eval, bind_apply, failed]

theorem compute_ok {s : Site} {e : Expression} {v : Value} (computed : e.eval s.data = .ok v) :
    Build.compute e s = (.ok v, s) := by
  simp [Build.compute, bind_apply, computed]

theorem compute_error {s : Site} {e : Expression} {error : Expr.EvalError}
    (failed : e.eval s.data = .error error) : Build.compute e s = (.error (.eval error), s) := by
  simp [Build.compute, bind_apply, failed]

/-- Parts are put together alike by a machine and by a build, and neither changes anything. -/
theorem partsText_joined (parts : List Template.Part) (m : Machine) :
    ∃ result, partsText parts m = (result, m) ∧ Build.joined parts m.site = (result, m.site) := by
  induction parts with
  | nil => exact ⟨.ok "", rfl, rfl⟩
  | cons part rest ih =>
    obtain ⟨more, partsMore, joinedMore⟩ := ih
    cases part with
    | literal s =>
      refine ⟨more.map (s ++ ·), ?_, ?_⟩
      · rw [partsText, bind_apply, partsMore]
        cases more <;> rfl
      · rw [Build.joined, bind_apply, joinedMore]
        cases more <;> rfl
    | expr e =>
      cases computed : e.eval m.data with
      | error error =>
        exact ⟨.error (.eval error), by rw [partsText, bind_error (eval_error computed)],
          by rw [Build.joined, bind_error (compute_error (s := m.site) computed)]⟩
      | ok v =>
        refine ⟨more.map (v.toText ++ ·), ?_, ?_⟩
        · rw [partsText, bind_ok (eval_ok computed), bind_apply, partsMore]
          cases more <;> rfl
        · rw [Build.joined, bind_ok (compute_ok (s := m.site) computed), bind_apply, joinedMore]
          cases more <;> rfl

/-! ### Instructions -/

section instructions

variable {node value : Nat} {v : Value} {error : Expr.EvalError} {e : Expression} {l : Loop}

theorem exec_fragment (inside : slot < m.registers.size) :
    exec address (.fragment slot) m = (.ok (.goto (address + 1)), m.withNode slot .fragment) := by
  rw [exec, bind_ok (create_apply _ inside)]
  rfl

theorem exec_element (tag : String) (inside : slot < m.registers.size) :
    exec address (.element slot tag) m = (.ok (.goto (address + 1)), m.withNode slot (.element tag [] [])) := by
  rw [exec, bind_ok (create_apply _ inside)]
  rfl

theorem exec_text (s : String) (inside : slot < m.registers.size) :
    exec address (.text slot s) m = (.ok (.goto (address + 1)), m.withNode slot (.text s)) := by
  rw [exec, bind_ok (create_apply _ inside)]
  rfl

theorem exec_textOf (escape : Bool) (held : m.registers[value]? = some (.value v))
    (inside : slot < m.registers.size) :
    exec address (.textOf slot value escape) m =
      (.ok (.goto (address + 1)),
        m.withNode slot (.text (if escape then Text.escape v.toText else v.toText))) := by
  rw [exec, bind_ok (value_apply held), bind_ok (create_apply _ inside)]
  rfl

theorem exec_append {parent child p c : Nat} (heldParent : m.registers[parent]? = some (.node p))
    (heldChild : m.registers[child]? = some (.node c)) :
    exec address (.append parent child) m =
      (.ok (.goto (address + 1)), m.withDocument (m.document.append p c)) := by
  rw [exec, bind_ok (node_apply heldParent), bind_ok (node_apply heldChild)]
  rfl

theorem exec_set (name text : String) (held : m.registers[slot]? = some (.node node)) :
    exec address (.set slot name text) m =
      (.ok (.goto (address + 1)), m.withDocument (m.document.setAttribute node name text)) := by
  rw [exec, bind_ok (node_apply held)]
  rfl

theorem exec_eval_ok (computed : e.eval m.data = .ok v) (inside : slot < m.registers.size) :
    exec address (.eval slot e) m = (.ok (.goto (address + 1)), m.put slot (.value v)) := by
  rw [exec, bind_ok (eval_ok computed), bind_ok (write_apply _ inside)]
  rfl

theorem exec_eval_error (failed : e.eval m.data = .error error) :
    exec address (.eval slot e) m = (.error (.eval error), m) := by
  rw [exec, bind_error (eval_error failed)]

theorem exec_setIf (name : String) (held : m.registers[slot]? = some (.node node))
    (heldValue : m.registers[value]? = some (.value v)) :
    exec address (.setIf slot name value) m =
      (.ok (.goto (address + 1)),
        if v.isTruthy then m.withDocument (m.document.setAttribute node name v.toText) else m) := by
  rw [exec, bind_ok (value_apply heldValue)]
  by_cases truthy : v.isTruthy = true
  · rw [if_pos truthy, if_pos truthy, bind_ok (node_apply held)]
    rfl
  · rw [if_neg truthy, if_neg truthy]
    rfl

theorem exec_setParts_ok (name : String) {parts : List Template.Part} {text : String}
    (joined : partsText parts m = (.ok text, m)) (held : m.registers[slot]? = some (.node node)) :
    exec address (.setParts slot name parts) m =
      (.ok (.goto (address + 1)), m.withDocument (m.document.setAttribute node name text)) := by
  rw [exec, bind_ok joined, bind_ok (node_apply held)]
  rfl

theorem exec_spread (held : m.registers[slot]? = some (.node node))
    (heldValue : m.registers[value]? = some (.value v)) :
    exec address (.spread slot value) m =
      (.ok (.goto (address + 1)),
        m.withDocument ((spreadEntries v).foldl (fun doc (name, text) => doc.setAttribute node name text)
          m.document)) := by
  rw [exec, bind_ok (node_apply held), bind_ok (value_apply heldValue)]
  rfl

/-- The machine with one more record. -/
def noted (message : String) (m : Machine) : Machine :=
  { m with log := m.log ++ [⟨.trace, target, message⟩] }

theorem exec_listen_ok (event handler : String) {number : Nat} (read : m.data.read handler = .function number)
    (held : m.registers[slot]? = some (.node node)) :
    exec address (.listen slot event handler) m =
      (.ok (.goto (address + 1)),
        (m.noted ("binding `" ++ handler ++ "` to " ++ event ++ " on " ++ registerText slot)).withDocument
          (m.document.listen node event number)) := by
  rw [exec, bind_ok (get_apply m)]
  simp only [read]
  rw [bind_ok (show note _ m = (.ok (), m.noted _) from rfl), bind_ok (node_apply (m := m.noted _) held)]
  rfl

theorem exec_listen_error (event handler : String) (read : ∀ number, m.data.read handler ≠ .function number) :
    exec address (.listen slot event handler) m =
      (.error (.notAFunction handler (m.data.read handler).kind), m) := by
  rw [exec, bind_ok (get_apply m)]
  cases value : m.data.read handler with
  | function number => exact absurd value (read number)
  | _ => rfl

theorem exec_jumpUnless_ok {target : Nat} (computed : e.eval m.data = .ok v) :
    exec address (.jumpUnless e target) m =
      (.ok (.goto (if v.isTruthy then address + 1 else target)), m) := by
  rw [exec, bind_ok (eval_ok computed)]
  rfl

theorem exec_jumpUnless_error {target : Nat} (failed : e.eval m.data = .error error) :
    exec address (.jumpUnless e target) m = (.error (.eval error), m) := by
  rw [exec, bind_error (eval_error failed)]

theorem exec_jumpAbsent {target : Nat} (held : m.registers[value]? = some (.value v)) :
    exec address (.jumpAbsent value target) m =
      (.ok (.goto (if v.isPresent then address + 1 else target)), m) := by
  rw [exec, bind_ok (value_apply held)]
  rfl

theorem exec_jump (target : Nat) : exec address (.jump target) m = (.ok (.goto target), m) := rfl

/-- A loop at its start. -/
def opened (name : String) (items : Array (Value × Value)) (data : Fields Value) : Loop :=
  { name := name, items := items, saved := loopSnapshot name data }

theorem exec_loop_ok (name : String) {items : Array (Value × Value)} (computed : e.eval m.data = .ok v)
    (listed : loopItems v = .ok items) (inside : slot < m.registers.size) :
    exec address (.loop slot e name) m =
      (.ok (.goto (address + 1)), m.put slot (.loop (opened name items m.data))) := by
  have lifted : (liftM (loopItems v) : Run (Array (Value × Value))) m = (.ok items, m) := by rw [listed]; rfl
  rw [exec, bind_ok (eval_ok computed), bind_ok lifted, bind_ok (get_apply m), bind_ok (write_apply _ inside)]
  rfl

theorem exec_loop_uncomputed (name : String) (failed : e.eval m.data = .error error) :
    exec address (.loop slot e name) m = (.error (.eval error), m) := by
  rw [exec, bind_error (eval_error failed)]

theorem exec_loop_unlisted (name : String) {fault : RenderError} (computed : e.eval m.data = .ok v)
    (failed : loopItems v = .error fault) : exec address (.loop slot e name) m = (.error fault, m) := by
  have lifted : (liftM (loopItems v) : Run (Array (Value × Value))) m = (.error fault, m) := by rw [failed]; rfl
  rw [exec, bind_ok (eval_ok computed), bind_error lifted]

theorem exec_next_none {exit : Nat} (held : m.registers[slot]? = some (.loop l))
    (through : l.items[l.cursor]? = none) : exec address (.next slot exit) m = (.ok (.goto exit), m) := by
  rw [exec, bind_ok (loop_apply held)]
  simp only [through]
  rfl

/-- The machine with the next item of the loop in a register shown. -/
def advanced (slot : Nat) (l : Loop) (key value : Value) (m : Machine) : Machine :=
  (m.withData (writeFields (loopFields l.name l.cursor l.items.size key value) m.data)).put slot
    (.loop { l with cursor := l.cursor + 1 })

theorem exec_next_some {exit : Nat} {key value : Value} (held : m.registers[slot]? = some (.loop l))
    (item : l.items[l.cursor]? = some (key, value)) (inside : slot < m.registers.size) :
    exec address (.next slot exit) m = (.ok (.goto (address + 1)), m.advanced slot l key value) := by
  have written := write_apply
    (m := m.withData (writeFields (loopFields l.name l.cursor l.items.size key value) m.data))
    (.loop { l with cursor := l.cursor + 1 }) inside
  rw [exec, bind_ok (loop_apply held)]
  simp only [item]
  rw [bind_ok (show changeData _ m = (.ok (), m.withData _) from rfl), bind_ok written]
  rfl

theorem exec_endLoop (held : m.registers[slot]? = some (.loop l)) :
    exec address (.endLoop slot) m =
      (.ok (.goto (address + 1)), (m.put slot .empty).withData (restoreFields l.saved m.data)) := by
  rw [exec, bind_ok (takeLoop_apply held)]
  rfl

theorem exec_done (held : m.registers[slot]? = some (.node node)) :
    exec address (.done slot) m = (.ok (.finish node), m) := by
  rw [exec, bind_ok (node_apply held)]
  rfl

end instructions

end Stencil.Machine
