/-!
Records of what the library does while it works.
-/
namespace Stencil

/-- How much a record matters. -/
inductive Level where
  | error
  | warn
  | info
  | debug
  | trace
  deriving Repr, DecidableEq

/-- The level as written. -/
def Level.text : Level → String
  | error => "ERROR"
  | warn => "WARN"
  | info => "INFO"
  | debug => "DEBUG"
  | trace => "TRACE"

/-- How detailed a level is: a filter lets through what is no more detailed than itself. -/
def Level.detail : Level → Nat
  | error => 1
  | warn => 2
  | info => 3
  | debug => 4
  | trace => 5

/-- One record: its level, the part of the program it comes from, and what it says. -/
structure Record where
  level : Level
  target : String
  message : String
  deriving Repr, DecidableEq

/-- Records in the order in which they were made. -/
abbrev Log := List Record

end Stencil
