import Stencil.Log
import Stencil.Template
import Stencil.Template.Block
import Stencil.Template.Interpolation
import Stencil.Template.Scope

/-!
Templates expanded to blocks. Every node is visited once in source order; bound names, inclusions and
the content that a call passes to the included template are resolved on the way.

The nodes of one tree are walked by structural recursion. What leaves the tree, an included template,
passed content or captured content, goes through the function `descend`, and `expand` bounds how
often that can be nested.
-/
namespace Stencil.Template

open Markup (Attribute Element Node)

/-- What an expansion keeps track of. -/
structure Progress where
  scope : Scope := {}
  cache : Expr.ScopeCache := []
  log : Log := []
  deriving Inhabited

/-- A step of an expansion. What it has kept track of outlives a failure. -/
abbrev Expand := ExceptT CompileError (StateM Progress)

/-- What surrounds the nodes that are expanded. -/
structure Surroundings where
  /-- The registered templates. -/
  templates : Fields Template
  /-- The templates that are being expanded, from the innermost on. -/
  calls : List String
  /-- The elements that called them, from the innermost on. -/
  callers : List Node

/-- A function that expands nodes in their surroundings. -/
abbrev Descend := Surroundings → List Node → Expand (List Block)

/-- The target of the records that an expansion makes. -/
def expansionTarget : String := "quill_template::compile"

/-- Adds a record. -/
def record (level : Level) (target message : String) : Expand Unit :=
  modify fun p => { p with log := p.log ++ [⟨level, target, message⟩] }

/-- Binds a name in the innermost layer. -/
def bindName (name : String) (binding : Binding) : Expand Unit :=
  modify fun p => { p with scope := p.scope.bind name binding }

/-- Runs a step in a scope of its own and gives the scope that it ends with. -/
def isolated {α : Type} (step : Expand α) : Expand (α × Scope) := fun p =>
  let (result, q) := step { p with scope := {} }
  (result.map (·, q.scope), { q with scope := p.scope })

/-- Runs a step under a new layer of bindings, which is dropped afterwards. -/
def withLayer {α : Type} (bindings : Bindings) (step : Expand α) : Expand α := fun p =>
  let (result, q) := step { p with scope := p.scope.push bindings }
  (result, { q with scope := q.scope.pop })

/-- The expression that a text spells once its bare words are scoped. -/
def expression (source : String) : Expand Expression := do
  let p ← get
  let (form, cache) := p.cache.scopedText source
  set { p with cache := cache }
  match Expression.ofScopedText form with
  | .ok e => return e
  | .error e => throw (.invalidExpression source e)

/-- The parts of an interpolated attribute value. -/
def attributeParts : List Piece → Expand (List Part)
  | [] => return []
  | .literal s :: rest => do
    let parts ← attributeParts rest
    return .literal (String.ofList s) :: parts
  | .expr s :: rest => do
    let e ← expression (String.ofList s)
    let parts ← attributeParts rest
    return .expr e :: parts

/-- What an attribute does to a new element. -/
def attributeAction (a : Attribute) : Expand (Option Action) :=
  match AttributeKind.of a with
  | .static name value => return some (.set name value)
  | .dynamic name expr => do
    let e ← expression expr
    return some (.setIf name e)
  | .template name template => do
    let parts ← attributeParts (pieces template.toList)
    return some (.setParts name parts)
  | .spread expr => do
    let e ← expression expr
    return some (.spread e)
  | .event event handler => return some (.listen event handler)
  | .directive => return none

/-- What the attributes do to a new element, in order. -/
def attributeActions : List Attribute → Expand (List Action)
  | [] => return []
  | a :: rest => do
    let action ← attributeAction a
    let actions ← attributeActions rest
    return action.toList ++ actions

/-- The test of an alternative. A name that stands for content is tested as it is written. -/
def conditionOf (condition : String) : Expand Expression := do
  let p ← get
  match p.scope.resolve condition with
  | .expr source => expression source
  | .content _ => expression condition

/-- The emission that stands for the content passed by a call. -/
def passedContent : String := "0"

/-- The element of a call without the directives that the call itself uses. -/
def callSite (el : Element) : Element :=
  branchNames.foldl (fun el name => el.removeAttr name) (el.removeAttr callName)

/-- Binds the name that an element sets, if it sets one. -/
def bindFrom (el : Element) : Expand Unit :=
  match el.attr? setName with
  | none => return ()
  | some name =>
    match el.attr? valueName with
    | some value =>
      if value = "" then bindName name (.content el.children) else bindName name (.expr value)
    | none => bindName name (.content el.children)

/-- The blocks of an included template. The bindings that the call makes when it is expanded by
    itself are a new layer for the template; nothing that the template binds is kept. -/
def inclusion (descend : Descend) (around : Surroundings) (el : Element) (target : String) :
    Expand (List Block) := do
  match around.templates.get? target with
  | none => throw (.unresolvedInclusion target)
  | some template =>
    if target ∈ around.calls then throw (.structure (.includesItself target))
    let site := (callSite el).toNode
    let (_, scope) ← isolated (descend { around with callers := [] } [site])
    let bindings := scope.innermost
    record .trace expansionTarget
      ("t-call `" ++ target ++ "` with " ++ toString bindings.length ++ " binding(s)")
    withLayer bindings
      (descend
        { around with calls := target :: around.calls, callers := site :: around.callers }
        [template.root.toNode])

/-- The element whose content an expression stands for, and the callers outside it. -/
def callerOf (around : Surroundings) (source : String) : Option (Node × List Node) :=
  if Text.trim source = passedContent then
    match around.callers with
    | caller :: outer => some (caller, outer)
    | [] => none
  else none

/-- The blocks that emit a value. Captured and passed content is expanded in place of the emission;
    any other value is emitted as text, with `fallback` for one that is absent. -/
def emission (descend : Descend) (around : Surroundings) (escape : Bool)
    (fallback : Option (Expand (List Block))) (source : String) : Expand (List Block) := do
  let p ← get
  match p.scope.resolve source with
  | .content nodes => descend around nodes
  | .expr source =>
    match callerOf around source with
    | some (caller, outer) => descend { around with callers := outer } [caller]
    | none =>
      let value ← expression source
      match fallback with
      | none => return [.emit value escape]
      | some fallback =>
        let blocks ← fallback
        return [.emitOr value escape blocks]

/-- The blocks of the values that an element emits: first as text, then as they are. -/
def emissions (descend : Descend) (around : Surroundings)
    (fallback : Option (Expand (List Block))) (el : Element) : Expand (List Block) := do
  let escaped ← match el.attr? escName with
    | some source => emission descend around true fallback source
    | none => pure []
  let raw ← match el.attr? rawName with
    | some source => emission descend around false fallback source
    | none => pure []
  return escaped ++ raw

/-- The place of a node in a chain of alternatives. A repetition has none. -/
def Branch.ofNode? (node : Node) : Option Branch :=
  match node.element? with
  | some el => if el.hasAttr foreachName then none else Branch.of? el
  | none => none

/-- The blocks of siblings: `chain` are the alternatives by which the first of them continue a chain
    that is open before them, and `blocks` is what follows. -/
structure Row where
  chain : Chain := .otherwise []
  blocks : List Block := []

mutual

/-- The blocks of siblings; `opened` says whether a chain is open before them. -/
def siblings (descend : Descend) (around : Surroundings) (opened : Bool) :
    List Node → Expand Row
  | [] => return {}
  | node :: rest =>
    match Branch.ofNode? node with
    | none => do
      let blocks ← nodeBlocks descend around node
      let row ← siblings descend around false rest
      return ⟨.otherwise [], blocks ++ row.blocks⟩
    | some (.first condition) => do
      let test ← conditionOf condition
      let body ← nodeBlocks descend around node
      let row ← siblings descend around true rest
      return ⟨.otherwise [], .choose (.when test body row.chain) :: row.blocks⟩
    | some (.next condition) => do
      if !opened then throw (.structure .unchained)
      let test ← conditionOf condition
      let body ← nodeBlocks descend around node
      let row ← siblings descend around true rest
      return ⟨.when test body row.chain, row.blocks⟩
    | some .last => do
      if !opened then throw (.structure .unchained)
      let body ← nodeBlocks descend around node
      let row ← siblings descend around false rest
      return ⟨.otherwise body, row.blocks⟩

/-- The blocks of a node, its place in a chain apart. A repetition comes first, then a call, then a
    bound name, then the element itself with its body and the values that it emits. -/
def nodeBlocks (descend : Descend) (around : Surroundings) : Node → Expand (List Block)
  | .text s => return [.text s]
  | .element name attributes children => do
    let el : Element := ⟨name, attributes, children⟩
    let body : Expand (List Block) := do
      let row ← siblings descend around false children
      return row.blocks
    let fallback := if children.isEmpty then none else some body
    match el.attr? foreachName with
    | some source =>
      match el.attr? asName with
      | none => throw (.structure .loopWithoutName)
      | some item =>
        let e ← expression source
        let blocks ← body
        return [.loop e item blocks]
    | none =>
      match el.attr? callName with
      | some target => inclusion descend around el target
      | none =>
        bindFrom el
        if name = wrapper then
          let emitted ← emissions descend around fallback el
          if emitsValue el || el.hasAttr setName then return emitted
          else
            let blocks ← body
            return emitted ++ blocks
        else
          let actions ← attributeActions attributes
          let blocks ← if emitsValue el then pure [] else body
          let emitted ← emissions descend around fallback el
          return [.element name actions (blocks ++ emitted)]
  | node => throw (.unknownNodeKind node.kind)

end

/-- The blocks of nodes in their surroundings, where trees may be left `depth` times. -/
def expand : (depth : Nat) → Descend
  | 0, _, _ => throw .endlessContent
  | depth + 1, around, nodes => do
    let row ← siblings (expand depth) around false nodes
    return row.blocks

/-- A bound on how deep inclusions, passed content and captured content can be nested, unless some
    content contains itself. -/
def expansionDepth (templates : Fields Template) : Nat :=
  let size := templates.foldr (fun entry total => entry.2.root.toNode.size + total) 0
  (size + 2) * (size + 2) * (2 * templates.length + 2)

/-- The blocks of a registered template. -/
def blocksOf (templates : Fields Template) (name : String) : Expand (List Block) :=
  match templates.get? name with
  | none => throw (.templateNotFound name)
  | some template =>
    expand (expansionDepth templates) ⟨templates, [name], []⟩ [template.root.toNode]

end Stencil.Template
