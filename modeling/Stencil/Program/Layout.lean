import Stencil.Program

/-!
Blocks laid out as instructions. Registers are numbered in the order of the blocks, and every address
follows from the sizes of the parts before it.
-/
namespace Stencil.Program

open Template (Action Block Chain)

/-- Lines from some address on, and the first register that is still free after them. -/
structure Laid where
  lines : List Line
  next : Nat

/-- What an action does to the element in a register. -/
def layAction (node next depth : Nat) : Action → Laid
  | .set name value => ⟨[⟨depth, .set node name value⟩], next⟩
  | .setIf name value => ⟨[⟨depth, .eval next value⟩, ⟨depth, .setIf node name next⟩], next + 1⟩
  | .setParts name parts => ⟨[⟨depth, .setParts node name parts⟩], next⟩
  | .spread value => ⟨[⟨depth, .eval next value⟩, ⟨depth, .spread node next⟩], next + 1⟩
  | .listen event handler => ⟨[⟨depth, .listen node event handler⟩], next⟩

/-- What actions do to the element in a register, in order. -/
def layActions (node next depth : Nat) : List Action → Laid
  | [] => ⟨[], next⟩
  | action :: rest =>
    let first := layAction node next depth action
    let others := layActions node first.next depth rest
    ⟨first.lines ++ others.lines, others.next⟩

mutual

/-- A block under the node in register `parent`, with its first line at `address`. -/
def layBlock (parent next depth address : Nat) : Block → Laid
  | .text s => ⟨[⟨depth, .text next s⟩, ⟨depth, .append parent next⟩], next + 1⟩
  | .element tag actions body =>
    let set := layActions next (next + 1) depth actions
    let inside := layBlocks next set.next depth (address + 1 + set.lines.length + 1) body
    ⟨⟨depth, .element next tag⟩ :: set.lines ++ ⟨depth, .append parent next⟩ :: inside.lines,
      inside.next⟩
  | .choose chain => layChain parent next depth address chain
  | .loop source name body =>
    let inside := layBlocks parent (next + 1) (depth + 1) (address + 2) body
    let exit := address + 2 + inside.lines.length + 1
    ⟨⟨depth, .loop next source name⟩ :: ⟨depth, .next next exit⟩ :: inside.lines ++
        [⟨depth + 1, .jump (address + 1)⟩, ⟨depth, .endLoop next⟩],
      inside.next⟩
  | .emit value escape =>
    ⟨[⟨depth, .eval next value⟩, ⟨depth, .jumpAbsent next (address + 4)⟩,
        ⟨depth + 1, .textOf (next + 1) next escape⟩, ⟨depth + 1, .append parent (next + 1)⟩],
      next + 2⟩
  | .emitOr value escape fallback =>
    let other := layBlocks parent (next + 2) (depth + 1) (address + 5) fallback
    ⟨⟨depth, .eval next value⟩ :: ⟨depth, .jumpAbsent next (address + 5)⟩ ::
        ⟨depth + 1, .textOf (next + 1) next escape⟩ :: ⟨depth + 1, .append parent (next + 1)⟩ ::
        ⟨depth + 1, .jump (address + 5 + other.lines.length)⟩ :: other.lines,
      other.next⟩

/-- Blocks one after the other. -/
def layBlocks (parent next depth address : Nat) : List Block → Laid
  | [] => ⟨[], next⟩
  | block :: rest =>
    let first := layBlock parent next depth address block
    let others := layBlocks parent first.next depth (address + first.lines.length) rest
    ⟨first.lines ++ others.lines, others.next⟩

/-- Alternatives, which all go on after the last of them. -/
def layChain (parent next depth address : Nat) : Chain → Laid
  | .otherwise body => layBlocks parent next (depth + 1) address body
  | .when test body rest =>
    let inside := layBlocks parent next (depth + 1) (address + 1) body
    let restAddress := address + 1 + inside.lines.length + 1
    let others := layChain parent inside.next depth restAddress rest
    ⟨⟨depth, .jumpUnless test restAddress⟩ :: inside.lines ++
        ⟨depth + 1, .jump (restAddress + others.lines.length)⟩ :: others.lines,
      others.next⟩

end

/-- The register that holds the root fragment. -/
def rootSlot : Nat := 1

/-- The program that builds blocks under a new fragment and returns it. -/
def ofBlocks (blocks : List Block) : Program :=
  let inside := layBlocks rootSlot (rootSlot + 1) 0 1 blocks
  let lines : List Line := ⟨0, .fragment rootSlot⟩ :: inside.lines ++ [⟨0, .done rootSlot⟩]
  ⟨lines.toArray, inside.next⟩

end Stencil.Program
