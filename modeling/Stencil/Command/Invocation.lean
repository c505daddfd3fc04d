import Stencil.Number.Read
import Stencil.Text.Search

/-!
Invocations: what the arguments of the command ask for. Options come before, between or after the
files, and each at most once.
-/
namespace Stencil.Command

/-- An option that has a value. -/
inductive Setting where
  /-- The filter on records. -/
  | log
  /-- The template to use. -/
  | name
  /-- The data context. -/
  | context
  /-- How often to click. -/
  | clicks
  deriving Repr, DecidableEq

/-- A task of the command. -/
inductive Task where
  | render
  | listing
  | counter
  deriving Repr, DecidableEq

/-- Why there is no invocation. -/
inductive Refusal where
  /-- The arguments make no sense. -/
  | usage
  /-- Help was asked for. -/
  | help
  /-- The version was asked for. -/
  | version
  deriving Repr, DecidableEq

/-- The files to load and the template to use. -/
structure Sources where
  files : List String
  name : Option String := none
  deriving Repr, DecidableEq

/-- What to do. -/
inductive Action where
  | render (sources : Sources) (context : Option String)
  | listing (sources : Sources)
  | counter (clicks : Nat)
  deriving Repr, DecidableEq

/-- What to do, and which records to show. -/
structure Invocation where
  log : Option String
  action : Action
  deriving Repr, DecidableEq

/-- The task of a name. -/
def Task.ofName? : String → Option Task
  | "render" => some .render
  | "listing" => some .listing
  | "counter" => some .counter
  | _ => none

/-- The options that are known after a task, or before any. -/
def settingsOf : Option Task → List Setting
  | none => [.log]
  | some .render => [.log, .name, .context]
  | some .listing => [.log, .name]
  | some .counter => [.log, .clicks]

namespace Setting

/-- The option as written after two dashes. -/
def long : Setting → String
  | log => "log"
  | name => "name"
  | context => "context"
  | clicks => "clicks"

/-- The option as written after one dash. -/
def short? : Setting → Option Char
  | name => some 'n'
  | context => some 'c'
  | _ => none

end Setting

/-- One argument on its own. -/
inductive Argument where
  /-- An option with its value. -/
  | given (setting : Setting) (value : String)
  /-- An option whose value is the next argument. -/
  | opens (setting : Setting)
  /-- The mark after which every argument is plain. -/
  | mark
  | plain (s : String)
  deriving Repr, DecidableEq

/-- The argument that follows two dashes. -/
def longArgument (task : Option Task) (s : String) : Except Refusal Argument :=
  let parts := s.splitOn "="
  let name := parts.headD ""
  let value : Option String := if parts.length < 2 then none else some ("=".intercalate parts.tail)
  match (settingsOf task).find? (·.long = name), value with
  | some setting, some value => .ok (.given setting value)
  | some setting, none => .ok (.opens setting)
  | none, some _ => .error .usage
  | none, none =>
    if name = "help" then .error .help
    else if name = "version" && task.isNone then .error .version
    else .error .usage

/-- The argument that follows one dash. -/
def shortArgument (task : Option Task) : List Char → Except Refusal Argument
  | [] => .error .usage
  | c :: value =>
    match (settingsOf task).find? (·.short? = some c) with
    | some setting =>
      match value with
      | [] => .ok (.opens setting)
      | '=' :: value => .ok (.given setting (String.ofList value))
      | value => .ok (.given setting (String.ofList value))
    | none =>
      if c = 'h' then .error .help
      else if c = 'V' && task.isNone then .error .version
      else .error .usage

/-- An argument as it stands. A dash alone is plain. -/
def Argument.of (task : Option Task) (s : String) : Except Refusal Argument :=
  match s.toList with
  | ['-', '-'] => .ok .mark
  | '-' :: '-' :: rest => longArgument task (String.ofList rest)
  | ['-'] => .ok (.plain s)
  | '-' :: rest => shortArgument task rest
  | _ => .ok (.plain s)

/-- The options and plain arguments that were read. -/
structure Reading where
  settings : List (Setting × String) := []
  plain : List String := []
  deriving Repr, DecidableEq

namespace Reading

/-- The value of an option. -/
def value? (setting : Setting) (r : Reading) : Option String :=
  (r.settings.find? (·.1 = setting)).map Prod.snd

/-- Adds an option, which must be new. -/
def give (setting : Setting) (value : String) (r : Reading) : Except Refusal Reading :=
  if (r.value? setting).isSome then .error .usage
  else .ok { r with settings := r.settings ++ [(setting, value)] }

/-- Adds a plain argument. -/
def add (s : String) (r : Reading) : Reading :=
  { r with plain := r.plain ++ [s] }

end Reading

/-- Reads the arguments after a task, where `pending` is the option that waits for its value. -/
def readArguments (task : Task) (pending : Option Setting) (r : Reading) :
    List String → Except Refusal Reading
  | [] => if pending.isSome then .error .usage else .ok r
  | s :: rest => do
    match pending, Argument.of task s with
    | some setting, .ok (.plain value) => readArguments task none (← r.give setting value) rest
    | some _, _ => throw .usage
    | none, .ok (.given setting value) => readArguments task none (← r.give setting value) rest
    | none, .ok (.opens setting) => readArguments task (some setting) r rest
    | none, .ok .mark => return rest.foldl (fun r s => r.add s) r
    | none, .ok (.plain s) => readArguments task none (r.add s) rest
    | none, .error refusal => throw refusal

/-- What a request for help comes to: it may name one task, or help itself. -/
def helpRefusal : List String → Refusal
  | [] => .help
  | [name] => if name = "help" || (Task.ofName? name).isSome then .help else .usage
  | _ => .usage

/-- Reads the arguments before the task: the options, the task, and what follows it. -/
def readTask (pending : Option Setting) (r : Reading) :
    List String → Except Refusal (Reading × Task × List String)
  | [] => .error .usage
  | s :: rest => do
    match pending, Argument.of none s with
    | some setting, .ok (.plain value) => readTask none (← r.give setting value) rest
    | some _, _ => throw .usage
    | none, .ok (.given setting value) => readTask none (← r.give setting value) rest
    | none, .ok (.opens setting) => readTask (some setting) r rest
    | none, .ok .mark => throw .usage
    | none, .ok (.plain name) =>
      match Task.ofName? name with
      | some task => return (r, task, rest)
      | none => throw (if name = "help" then helpRefusal rest else .usage)
    | none, .error refusal => throw refusal

/-- The greatest number of clicks. -/
def maxClicks : Nat := Nat.pow 2 32 - 1

/-- The number of clicks when none is given. -/
def defaultClicks : Nat := 3

/-- A number of clicks as written, perhaps with a sign. -/
def readClicks? (s : String) : Option Nat :=
  match s.toList with
  | '-' :: '+' :: _ => none
  | '-' :: digits => (Number.readNat? digits).filter (· = 0)
  | cs => (Number.readNat? cs).filter (· ≤ maxClicks)

/-- The files to load, of which there must be one at least. -/
def sourcesOf (r : Reading) : Except Refusal Sources :=
  if r.plain.isEmpty || r.plain.any (· = "") then .error .usage
  else .ok { files := r.plain, name := r.value? .name }

/-- What to do for a task with its arguments. -/
def actionOf (r : Reading) : Task → Except Refusal Action
  | .render => do return .render (← sourcesOf r) (r.value? .context)
  | .listing => do return .listing (← sourcesOf r)
  | .counter =>
    if !r.plain.isEmpty then .error .usage
    else match r.value? .clicks with
      | none => .ok (.counter defaultClicks)
      | some s =>
        match readClicks? s with
        | some clicks => .ok (.counter clicks)
        | none => .error .usage

/-- The invocation that arguments stand for. A filter given after the task counts before one given in
    front of it, and `fallback` counts if there is none. -/
def Invocation.parse (fallback : Option String) (arguments : List String) :
    Except Refusal Invocation := do
  let (before, task, rest) ← readTask none {} arguments
  let after ← readArguments task none {} rest
  let action ← actionOf after task
  return ⟨after.value? .log <|> before.value? .log <|> fallback, action⟩

end Stencil.Command
