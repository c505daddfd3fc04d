import Stencil.Command.Invocation
import Stencil.Command.Path
import Stencil.Json
import Stencil.Log.Filter
import Stencil.Registry

/-!
The command: it loads templates from files and renders or lists one of them, or shows a counter that
is clicked. What it does depends on its arguments, two variables of the environment, and the files.
-/
namespace Stencil.Command

/-- Why the command fails, and perhaps what led to it. -/
structure Report where
  message : String
  cause : Option String := none
  deriving Repr, DecidableEq

/-- The report as lines. The lines of the cause are indented. -/
def Report.lines (report : Report) : List String :=
  ("Error: " ++ report.message).splitOn "\n" ++
    match report.cause with
    | none => []
    | some cause => "" :: "Caused by:" :: (cause.splitOn "\n").map ("    " ++ ·)

/-- What the command has shown so far. -/
structure Session where
  output : String := ""
  log : Log := []

/-- A step of the command. What it has shown outlives a failure. -/
abbrev Work := ExceptT Report (StateM Session)

/-- The target of the records that the command makes. -/
def target : String := "quill"

/-- Shows a text. -/
def write (s : String) : Work Unit :=
  modify fun session => { session with output := session.output ++ s }

/-- Shows a text on a line. -/
def showLine (s : String) : Work Unit :=
  write (s ++ "\n")

/-- Adds records. -/
def record (log : Log) : Work Unit :=
  modify fun session => { session with log := session.log ++ log }

/-- The result of a step, or a report with its error as the cause. -/
def orReport {ε α : Type} (message : String) (cause : ε → String) : Except ε α → Work α
  | .ok a => return a
  | .error e => throw ⟨message, some (cause e)⟩

/-- A way to read files. -/
abbrev Reader := String → Except FileError String

/-- The registry with a file under the stem of its path, and that stem. -/
def loadFile (read : Reader) (registry : Registry) (path : String) : Work (Registry × String) := do
  match pathStem? path with
  | none => throw { message := "cannot derive a template name from " ++ path }
  | some name =>
    let markup ← orReport ("failed to read " ++ path) FileError.message (read path)
    let (added, log) := registry.add name markup
    let registry ← orReport ("invalid template " ++ path) Template.CompileError.message added
    record (log ++ [⟨.info, target, "loaded `" ++ name ++ "` from " ++ path⟩])
    return (registry, name)

/-- The registry with files under the stems of their paths, and those stems. -/
def loadFiles (read : Reader) (registry : Registry) : List String → Work (Registry × List String)
  | [] => return (registry, [])
  | path :: rest => do
    let (registry, name) ← loadFile read registry path
    let (registry, names) ← loadFiles read registry rest
    return (registry, name :: names)

/-- The registry of the sources, and the name of the template to use: the one that was asked for, or
    that of the first file. -/
def load (read : Reader) (sources : Sources) : Work (Registry × String) := do
  let (registry, names) ← loadFiles read {} sources.files
  match sources.name with
  | some name =>
    if registry.templates.has name then return (registry, name)
    else throw { message := "no template named `" ++ name ++ "` was loaded" }
  | none =>
    match names with
    | name :: _ => return (registry, name)
    | [] => throw { message := "no template files given" }

/-- The text of a data context: as given, or in the file after an at sign. -/
def contextText (read : Reader) (given : String) : Work String :=
  match Text.after? ['@'] given.toList with
  | none => return given
  | some path =>
    let path := String.ofList path
    orReport ("failed to read context file " ++ path) FileError.message (read path)

/-- A data context, which must be an object. -/
def contextOf (read : Reader) (given : String) : Work (Fields Value) := do
  match Json.parse? (← contextText read given) with
  | none => throw { message := "context is not valid JSON" }
  | some (.object fields) => return fields
  | some _ => throw { message := "context must be a JSON object" }

/-- Shows the markup of a template. -/
def render (read : Reader) (sources : Sources) (context : Option String) : Work Unit := do
  let (registry, name) ← load read sources
  let data ← match context with
    | some given => contextOf read given
    | none => pure []
  let (result, _, _, log) := registry.renderToString name data
  record log
  showLine (← orReport ("failed to render `" ++ name ++ "`") RenderFailure.message result)

/-- Shows the listing of a template. -/
def list (read : Reader) (sources : Sources) : Work Unit := do
  let (registry, name) ← load read sources
  let (result, _, log) := registry.listing name
  record log
  write (← orReport ("failed to compile `" ++ name ++ "`") Template.CompileError.message result)

/-- The name of the counter, both of the template and of the field that counts. -/
def counterName : String := "counter"

/-- The markup of the counter. -/
def counterMarkup : String :=
  "<div class=\"counter\">\n" ++
  "    <button t-on-click=\"decrement\">-</button>\n" ++
  "    <span>Value: <t t-esc=\"counter\"/></span>\n" ++
  "    <button t-on-click=\"increment\">+</button>\n" ++
  "</div>\n"

/-- What the functions of the counter do. -/
def counterHandlers : Array Handler :=
  #[.add counterName 1, .add counterName (-1)]

/-- The data of the counter at its start. -/
def counterData : Fields Value :=
  [(counterName, .number 0), ("increment", .function 0), ("decrement", .function 1)]

/-- A failure of the counter as a report. -/
def orFail {ε α : Type} (message : ε → String) : Except ε α → Work α
  | .ok a => return a
  | .error e => throw { message := message e }

/-- Runs what listens to an event, one function after the other. -/
def callAll (event : Event) (data : Fields Value) : List Nat → Work (Fields Value)
  | [] => return data
  | number :: rest => do
    let data := ((counterHandlers[number]?).getD .idle).run event data
    record [⟨.debug, target,
      "counter -> " ++ Number.plainText (data.read counterName).toNumber⟩]
    callAll event data rest

/-- Clicks at a node so many times and shows the counter after each. -/
def clickTimes (registry : Registry) (node : Nat) (data : Fields Value) : Nat → Work Unit
  | 0 => return ()
  | clicks + 1 => do
    let click : Event := ⟨"click", none⟩
    let listeners := registry.document.listeners node click.name
    let data ← callAll click data listeners
    record [Document.firedRecord click listeners.length]
    let (result, registry, data, log) := registry.renderToString counterName data
    record log
    showLine (← orFail RenderFailure.message result)
    clickTimes registry node data clicks

/-- Shows the counter, then clicks at its last button. -/
def count (clicks : Nat) : Work Unit := do
  let (added, log) := Registry.add counterName counterMarkup {}
  record log
  let registry ← orFail Template.CompileError.message added
  let (result, registry, data, log) := registry.render counterName counterData
  record log
  let root ← orFail RenderFailure.message result
  showLine (registry.document.markup root)
  match (registry.document.findByTag root "button").getLast? with
  | some button => clickTimes registry button data clicks
  | none => throw { message := "counter template has no button" }

/-- Does what was asked for. -/
def act (read : Reader) : Action → Work Unit
  | .render sources context => render read sources context
  | .listing sources => list read sources
  | .counter clicks => count clicks

/-- The variables of the environment that the command looks at. -/
structure Environment where
  /-- Stands in for the filter of the arguments. -/
  filter : Option String := none
  /-- Counts if there is no other filter. -/
  level : Option String := none
  deriving Repr, DecidableEq

/-- The filter in effect, unless it is blank. -/
def filterText (given level : Option String) : Option String :=
  (given <|> level).filter fun s => !Text.isBlankText s

/-- The filter that a text stands for; without one, records up to those of information are shown. -/
def filterOf : Option String → LogFilter
  | some s => .ofText s
  | none => [⟨"", Level.info.detail⟩]

/-- The record of the filter in effect. -/
def filterRecord (text : Option String) : Record :=
  let shown := match text with
    | some s => "Some(" ++ Text.quoted s ++ ")"
    | none => "None"
  ⟨.debug, "quill_engine::logging::init", "logging initialized (" ++ shown ++ ")"⟩

/-- What the command leaves behind. -/
structure Outcome where
  exit : Nat
  output : String := ""
  /-- The lines of the report, if it failed. -/
  report : List String := []
  /-- The records that the filter let through. -/
  log : Log := []

/-- Carries out an invocation. -/
def Invocation.run (read : Reader) (level : Option String) (invocation : Invocation) : Outcome :=
  let text := filterText invocation.log level
  let (result, session) := act read invocation.action { log := [filterRecord text] }
  let log := session.log.filter (filterOf text).admits
  match result with
  | .ok () => { exit := 0, output := session.output, log := log }
  | .error report => { exit := 1, output := session.output, report := report.lines, log := log }

/-- The name and version of the command. -/
def versionText : String := "quill 0.1.0\n"

/-- How the command is used. -/
def helpText : String :=
  "Render and inspect quill templates\n\n" ++
  "Usage: quill [--log FILTER] render FILE... [--name NAME] [--context JSON|@FILE]\n" ++
  "       quill [--log FILTER] listing FILE... [--name NAME]\n" ++
  "       quill [--log FILTER] counter [--clicks N]\n"

/-- What the command does with its arguments. -/
def run (read : Reader) (environment : Environment) (arguments : List String) : Outcome :=
  match Invocation.parse environment.filter arguments with
  | .ok invocation => invocation.run read environment.level
  | .error .usage => { exit := 2, report := ["error: the arguments make no sense; see --help"] }
  | .error .help => { exit := 0, output := helpText }
  | .error .version => { exit := 0, output := versionText }

end Stencil.Command
