import Stencil.Template.Block
import Stencil.Text.Quoted

/-!
Programs: flat lists of instructions over numbered registers. Registers hold nodes of the document,
values and loops; an instruction is addressed by its place in the list.
-/
namespace Stencil

open Template (Part)

/-- One instruction. Registers are given by number, jumps by address. -/
inductive Instr where
  | fragment (dst : Nat)
  | element (dst : Nat) (tag : String)
  | text (dst : Nat) (s : String)
  /-- Sets an attribute. -/
  | set (node : Nat) (name value : String)
  /-- Computes a value. -/
  | eval (dst : Nat) (e : Expression)
  /-- Sets an attribute to a computed value if it is truthy. -/
  | setIf (node : Nat) (name : String) (value : Nat)
  /-- Sets an attribute to parts put together. -/
  | setParts (node : Nat) (name : String) (parts : List Part)
  /-- Sets the attributes that a computed value lists. -/
  | spread (node value : Nat)
  /-- Binds the handler in a field to an event. -/
  | listen (node : Nat) (event handler : String)
  /-- Makes a text of a computed value. -/
  | textOf (dst value : Nat) (escape : Bool)
  | append (parent child : Nat)
  /-- Jumps if an expression is not truthy. -/
  | jumpUnless (test : Expression) (target : Nat)
  /-- Jumps if a computed value is not present. -/
  | jumpAbsent (value target : Nat)
  | jump (target : Nat)
  /-- Starts a loop over the items of a value. -/
  | loop (iter : Nat) (source : Expression) (name : String)
  /-- Goes to the next item, or jumps if there is none. -/
  | next (iter exit : Nat)
  /-- Ends a loop. -/
  | endLoop (iter : Nat)
  /-- Ends the program with a node. -/
  | done (root : Nat)

/-- A register as written. -/
def registerText (slot : Nat) : String :=
  "_" ++ toString slot

/-- A part of an attribute value as written. -/
def partText : Part → String
  | .literal s => s
  | .expr e => "$\x7b" ++ e.source ++ "\x7d"

/-- The instruction as written. -/
def Instr.toText : Instr → String
  | fragment dst => registerText dst ++ " = fragment()"
  | element dst tag => registerText dst ++ " = element(" ++ Text.quoted tag ++ ")"
  | text dst s => registerText dst ++ " = text(" ++ Text.quoted s ++ ")"
  | set node name value =>
    registerText node ++ ".set(" ++ Text.quoted name ++ ", " ++ Text.quoted value ++ ")"
  | eval dst e => registerText dst ++ " = " ++ e.source
  | setIf node name value =>
    "if " ++ registerText value ++ ": " ++ registerText node ++ ".set(" ++ Text.quoted name ++
      ", " ++ registerText value ++ ")"
  | setParts node name parts =>
    registerText node ++ ".set(" ++ Text.quoted name ++ ", `" ++
      String.join (parts.map partText) ++ "`)"
  | spread node value => registerText node ++ ".spread(" ++ registerText value ++ ")"
  | listen node event handler =>
    registerText node ++ ".on(" ++ Text.quoted event ++ ", context[" ++ Text.quoted handler ++ "])"
  | textOf dst value true => registerText dst ++ " = text(escape(" ++ registerText value ++ "))"
  | textOf dst value false => registerText dst ++ " = text(" ++ registerText value ++ ")"
  | append parent child => registerText parent ++ ".append(" ++ registerText child ++ ")"
  | jumpUnless test target => "unless " ++ test.source ++ " goto " ++ toString target
  | jumpAbsent value target =>
    "unless present " ++ registerText value ++ " goto " ++ toString target
  | jump target => "goto " ++ toString target
  | loop iter source name => registerText iter ++ " = iter " ++ source.source ++ " as " ++ name
  | next iter exit => "next " ++ registerText iter ++ " else goto " ++ toString exit
  | endLoop iter => "end " ++ registerText iter
  | done root => "return " ++ registerText root

/-- The instruction with another target, if it is a jump. -/
def Instr.retarget (target : Nat) : Instr → Instr
  | jump _ => jump target
  | jumpUnless test _ => jumpUnless test target
  | jumpAbsent value _ => jumpAbsent value target
  | next iter _ => next iter target
  | instr => instr

/-- An instruction and how deep it is indented in a listing. -/
structure Line where
  depth : Nat
  instr : Instr

/-- A list of instructions and the number of registers that they need. -/
structure Program where
  lines : Array Line := #[]
  slots : Nat := 0
  deriving Inhabited

namespace Program

/-- The number of instructions. -/
def size (program : Program) : Nat :=
  program.lines.size

/-- The instruction at an address. -/
def instr? (program : Program) (address : Nat) : Option Instr :=
  program.lines[address]?.map Line.instr

/-- A number at the right end of a field. -/
def padLeft (width n : Nat) : String :=
  let digits := toString n
  "".pushn ' ' (width - digits.length) ++ digits

/-- The line at an address as written. -/
def lineText (width address : Nat) (line : Line) : String :=
  padLeft width address ++ "  " ++ "".pushn ' ' (2 * line.depth) ++ line.instr.toText ++ "\n"

/-- The program as written: one numbered and indented line for each instruction. -/
def listing (program : Program) : String :=
  let width := (toString (program.size - 1)).length
  String.join (program.lines.toList.mapIdx (lineText width))

end Program

end Stencil
