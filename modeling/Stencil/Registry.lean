import Stencil.Document.Dispatch
import Stencil.Document.Tree
import Stencil.Machine
import Stencil.Template.Expansion

/-!
Registries: templates by name, with programs that are compiled when they are first needed and kept
until a template is added. Rendering takes place in the document of the registry, or in one of its own
when only the markup is wanted.
-/
namespace Stencil

/-- A compiled template. The number tells it from any other one that the registry has compiled. -/
structure Routine where
  number : Nat
  program : Program
  deriving Inhabited

/-- Named templates and what has been made of them. -/
structure Registry where
  templates : Fields Template := []
  routines : Fields Routine := []
  /-- How many routines have been compiled. -/
  compiled : Nat := 0
  cache : Expr.ScopeCache := []
  document : Document Nat := {}
  logListings : Bool := true
  deriving Inhabited

/-- Why a template cannot be rendered. -/
inductive RenderFailure where
  | compile (error : Template.CompileError)
  | render (error : RenderError)

/-- The failure in words. -/
def RenderFailure.message : RenderFailure → String
  | compile error => error.message
  | render error => error.message

namespace Registry

/-- The target of the records that a registry makes. -/
def target : String := "quill_template::registry"

/-- Registers a template, which makes all routines stale. One that cannot be parsed is refused, and
    the registry stays as it is. -/
def register (name markup : String) (registry : Registry) (reader : Markup.Reader := Markup.read) :
    Except Template.CompileError Unit × Registry × Log :=
  match Template.parse name markup reader with
  | .error e => (.error e, registry, [])
  | .ok template =>
    (.ok (), { registry with routines := [], templates := registry.templates.set name template },
      [⟨.debug, target,
        "registered template `" ++ name ++ "` (" ++ toString markup.utf8ByteSize ++ " bytes)"⟩])

/-- The registry with a template, or why there is none. -/
def add (name markup : String) (registry : Registry) :
    Except Template.CompileError Registry × Log :=
  let (result, registry, log) := registry.register name markup
  (result.map fun () => registry, log)

/-- The names of the templates, sorted. -/
def names (registry : Registry) : List String :=
  registry.templates.names.mergeSort fun a b => !(b < a)

/-- The program of a template and what was kept track of while it was compiled. -/
def compile (templates : Fields Template) (cache : Expr.ScopeCache) (name : String) :
    Except Template.CompileError Program × Template.Progress :=
  let (blocks, progress) := Template.blocksOf templates name { cache := cache }
  (blocks.map Program.ofBlocks, progress)

/-- The routine of a template, compiled now unless it was compiled before. -/
def routine (name : String) (registry : Registry) :
    Except Template.CompileError Routine × Registry × Log :=
  match registry.routines.get? name with
  | some routine => (.ok routine, registry, [])
  | none =>
    let (result, progress) := compile registry.templates registry.cache name
    let registry := { registry with cache := progress.cache }
    match result with
    | .error e => (.error e, registry, progress.log)
    | .ok program =>
      let routine : Routine := ⟨registry.compiled, program⟩
      let registry := { registry with
        routines := registry.routines.set name routine
        compiled := registry.compiled + 1 }
      let summary : Record := ⟨.debug, target,
        "compiled template `" ++ name ++ "`: " ++ toString program.size ++ " instruction(s)"⟩
      let listing : Log :=
        if registry.logListings then
          [⟨.trace, target, "listing for `" ++ name ++ "`:\n" ++ program.listing⟩]
        else []
      (.ok routine, registry, progress.log ++ summary :: listing)

/-- The listing of a template. -/
def listing (name : String) (registry : Registry) :
    Except Template.CompileError String × Registry × Log :=
  let (result, registry, log) := registry.routine name
  (result.map (·.program.listing), registry, log)

/-- Runs a routine in the document of the registry. -/
def runRoutine (routine : Routine) (data : Fields Value) (registry : Registry) :
    Except RenderError Nat × Registry × Fields Value × Log :=
  let outcome := routine.program.run routine.program.stepsAllowed registry.document data
  (outcome.root, { registry with document := outcome.document }, outcome.data, outcome.log)

/-- Renders a template in the document of the registry and gives the root of what was built. -/
def render (name : String) (data : Fields Value) (registry : Registry) :
    Except RenderFailure Nat × Registry × Fields Value × Log :=
  match registry.routine name with
  | (.error e, registry, log) => (.error (.compile e), registry, data, log)
  | (.ok routine, registry, log) =>
    let (result, registry, data, more) := registry.runRoutine routine data
    (result.mapError .render, registry, data, log ++ more)

/-- The markup of a template, rendered in a document of its own. -/
def renderToString (name : String) (data : Fields Value) (registry : Registry) :
    Except RenderFailure String × Registry × Fields Value × Log :=
  match registry.routine name with
  | (.error e, registry, log) => (.error (.compile e), registry, data, log)
  | (.ok routine, registry, log) =>
    let outcome := routine.program.run routine.program.stepsAllowed {} data
    let markup := outcome.root.map outcome.document.markup
    (markup.mapError .render, registry, outcome.data, log ++ outcome.log)

/-- The registry with an empty document. -/
def clear (registry : Registry) : Registry × Log :=
  let (document, cleared) := registry.document.clear
  ({ registry with document := document }, [cleared])

end Registry

end Stencil
