import Stencil.Assembler

/-!
Blocks added to a draft in one pass. Where a jump leads is not known when its line is added; the line
gets a placeholder for its target, and is patched once the lines up to the target are there.
-/
namespace Stencil.Assembler

open Template (Action Block Chain)

/-- The target of a jump that is still to be patched. -/
def unpatched : Nat := UInt64.size - 1

/-- Adds what an action does to the element in a register. -/
def emitAction (node : Nat) (s : Station) (a : Assembler) : Action → Assembler
  | .set name value => a.addLine (.set node name value) s
  | .setIf name value =>
    let (slot, a) := a.fresh s
    let a := a.addLine (.eval slot value) s
    a.addLine (.setIf node name slot) s
  | .setParts name parts => a.addLine (.setParts node name parts) s
  | .spread value =>
    let (slot, a) := a.fresh s
    let a := a.addLine (.eval slot value) s
    a.addLine (.spread node slot) s
  | .listen event handler => a.addLine (.listen node event handler) s

/-- Adds a value and the text of it, which is skipped if the value is absent. The result is the address
    of the jump that skips it. -/
def emitValue (value : Expression) (escape : Bool) (s : Station) (a : Assembler) : Nat × Assembler :=
  let s := s.withEscaping escape
  let (slot, a) := a.fresh s
  let a := a.addLine (.eval slot value) s
  let skip := a.address s
  let a := a.addLine (.jumpAbsent slot unpatched) s
  let a := a.indent s
  let (text, a) := a.fresh s
  let a := a.addLine (.textOf text slot s.escaping) s
  (skip, a.addNode text s)

/-- Patches jumps to the address of the next line. -/
def patchAll (exits : List Nat) (s : Station) (a : Assembler) : Assembler :=
  exits.foldl (fun a exit => a.patch exit (a.address s) s) a

mutual

/-- Adds the lines of a block. -/
def emitBlock (s : Station) (a : Assembler) : Block → Assembler
  | .text t =>
    let (slot, a) := a.fresh s
    let a := a.addLine (.text slot t) s
    a.addNode slot s
  | .element tag actions body =>
    let (slot, a) := a.fresh s
    let a := a.addLine (.element slot tag) s
    let a := actions.foldl (emitAction slot s) a
    let a := a.addNode slot s
    emitBlocks (s.withParent slot) a body
  | .choose chain => emitChain [] s a chain
  | .loop source name body =>
    let (iter, a) := a.fresh s
    let a := a.addLine (.loop iter source name) s
    let head := a.address s
    let a := a.addLine (.next iter unpatched) s
    let a := a.indent s
    let a := emitBlocks s a body
    let a := a.addLine (.jump head) s
    let a := a.dedent s
    let exit := a.address s
    let a := a.addLine (.endLoop iter) s
    a.patch head exit s
  | .emit value escape =>
    let (skip, a) := a.emitValue value escape s
    let a := a.dedent s
    a.patch skip (a.address s) s
  | .emitOr value escape fallback =>
    let (skip, a) := a.emitValue value escape s
    let done := a.address s
    let a := a.addLine (.jump unpatched) s
    let a := a.patch skip (a.address s) s
    let a := emitBlocks s a fallback
    let a := a.dedent s
    a.patch done (a.address s) s

/-- Adds the lines of blocks, one after the other. -/
def emitBlocks (s : Station) (a : Assembler) : List Block → Assembler
  | [] => a
  | block :: rest => emitBlocks s (emitBlock s a block) rest

/-- Adds the lines of alternatives. The jumps at the ends of those before them, from the last on, are
    patched once all are there. -/
def emitChain (exits : List Nat) (s : Station) (a : Assembler) : Chain → Assembler
  | .otherwise body =>
    let a := a.indent s
    let a := emitBlocks s a body
    let a := a.dedent s
    a.patchAll exits s
  | .when test body rest =>
    let jump := a.address s
    let a := a.addLine (.jumpUnless test unpatched) s
    let a := a.indent s
    let a := emitBlocks s a body
    let exit := a.address s
    let a := a.addLine (.jump unpatched) s
    let a := a.dedent s
    let a := a.patch jump (a.address s) s
    emitChain (exit :: exits) s a rest

end

/-- The program that builds blocks under a new fragment and returns it, put together at a station of
    its own. -/
def assemble (blocks : List Block) : Program :=
  let (s, a) := station [] {}
  let a := a.addLine (.fragment s.fragment) s
  let a := emitBlocks s a blocks
  let a := a.addLine (.done s.fragment) s
  (a.finish s).1

end Stencil.Assembler
