import Stencil.Proofs.Fields
import Stencil.Proofs.Stateful

/-!
The meaning of blocks, read off their structure. A build goes through blocks in order and appends to a
parent what they stand for; it knows no registers, no addresses and no jumps. A loop shows its current
item in six fields of the data, and the data that were there before it come back however it ends.
-/
namespace Stencil

open Template (Action Block Chain Part)

/-- What a build works on: the nodes of a document and the fields that expressions read. -/
structure Site where
  document : Document Nat
  data : Fields Value

/-- A step of a build. What it has changed outlives a failure. -/
abbrev Build := ExceptT RenderError (StateM Site)

/-- A failure for which the data are at fault, and not the way in which blocks are built. -/
def RenderError.FromData : RenderError → Prop
  | .eval _ | .notAFunction _ _ | .notIterable _ | .invalidCount _ => True
  | .register _ _ | .unfinished => False

theorem loopItems_fromData {v : Value} {e : RenderError} (failed : loopItems v = .error e) : e.FromData := by
  cases v with
  | number x =>
    rw [loopItems] at failed
    split at failed
    · cases failed
    · cases failed
      trivial
  | undefined | null => cases failed; trivial
  | _ => cases failed

namespace Build

open Stateful

/-- The value of an expression. -/
def compute (e : Expression) : Build Value := do
  let site ← get
  match e.eval site.data with
  | .ok v => return v
  | .error error => throw (.eval error)

/-- Changes the document. -/
def change (f : Document Nat → Document Nat) : Build Unit :=
  modify fun site => { site with document := f site.document }

/-- A new node. -/
def create (kind : NodeKind Nat) : Build Nat := do
  let site ← get
  set { site with document := (site.document.create kind).2 }
  return (site.document.create kind).1

/-- Appends a new text to a parent. -/
def addText (parent : Nat) (s : String) : Build Unit := do
  let node ← create (.text s)
  change (·.append parent node)

/-- Appends the text of a value to a parent, with its special characters escaped or as it is. -/
def addValue (parent : Nat) (escape : Bool) (v : Value) : Build Unit :=
  addText parent (if escape then Text.escape v.toText else v.toText)

/-- The parts of an attribute value put together. -/
def joined : List Part → Build String
  | [] => return ""
  | .literal s :: rest => do
    let more ← joined rest
    return s ++ more
  | .expr e :: rest => do
    let v ← compute e
    let more ← joined rest
    return v.toText ++ more

/-- Does an action to an element. -/
def act (node : Nat) : Action → Build Unit
  | .set name value => change (·.setAttribute node name value)
  | .setIf name e => do
    let v ← compute e
    if v.isTruthy then change (·.setAttribute node name v.toText)
  | .setParts name parts => do
    let text ← joined parts
    change (·.setAttribute node name text)
  | .spread e => do
    let v ← compute e
    change fun doc =>
      (Machine.spreadEntries v).foldl (fun doc (name, text) => doc.setAttribute node name text) doc
  | .listen event handler => do
    let site ← get
    match site.data.read handler with
    | .function number => change (·.listen node event number)
    | v => throw (.notAFunction handler v.kind)

/-- Does actions to an element, in order. -/
def actAll (node : Nat) : List Action → Build Unit
  | [] => return ()
  | action :: rest => do
    act node action
    actAll node rest

/-- The items that a loop goes through: keys and values. -/
def itemsOf (e : Expression) : Build (List (Value × Value)) := do
  let v ← compute e
  match loopItems v with
  | .ok items => return items.toList
  | .error error => throw error

/-- Shows item number `index` of `count` in the fields of a loop. -/
def showItem (name : String) (index count : Nat) (item : Value × Value) : Build Unit :=
  modify fun site => { site with
    data := site.data
      |>.set (name ++ "_first") (.bool (index = 0))
      |>.set (name ++ "_last") (.bool (index + 1 = count))
      |>.set (name ++ "_parity") (.string (if index % 2 = 0 then "even" else "odd"))
      |>.set (name ++ "_index") (.number (Float.ofNat index))
      |>.set name item.1
      |>.set (name ++ "_value") item.2 }

/-- Does a step for each item of a loop, of which the first is number `index` of `count`. -/
def forItems (name : String) (count : Nat) (body : Build Unit) :
    (index : Nat) → List (Value × Value) → Build Unit
  | _, [] => return ()
  | index, item :: rest => do
    showItem name index count item
    body
    forItems name count body (index + 1) rest

/-- Does a step after which the data are what they were before it, whether it fails or not. -/
def locally (step : Build Unit) : Build Unit := fun site =>
  let (result, after) := step site
  (result, { after with data := site.data })

mutual

/-- Builds a block under a parent. -/
def block (parent : Nat) : Block → Build Unit
  | .text s => addText parent s
  | .element tag actions body => do
    let node ← create (.element tag [] [])
    actAll node actions
    change (·.append parent node)
    blocks node body
  | .choose alternatives => chain parent alternatives
  | .loop source name body => do
    let items ← itemsOf source
    locally (forItems name items.length (blocks parent body) 0 items)
  | .emit value escape => do
    let v ← compute value
    if v.isPresent then addValue parent escape v
  | .emitOr value escape fallback => do
    let v ← compute value
    if v.isPresent then addValue parent escape v else blocks parent fallback

/-- Builds blocks under a parent, in order. -/
def blocks (parent : Nat) : List Block → Build Unit
  | [] => return ()
  | first :: rest => do
    block parent first
    blocks parent rest

/-- Builds the first alternative whose test holds; no test after it is computed. -/
def chain (parent : Nat) : Chain → Build Unit
  | .otherwise body => blocks parent body
  | .when test body rest => do
    let v ← compute test
    if v.isTruthy then blocks parent body else chain parent rest

end

/-- Builds blocks under a new fragment, and gives the fragment. -/
def rooted (bs : List Block) : Build Nat := do
  let root ← create .fragment
  blocks root bs
  return root

/-! ### Failures -/

/-- A step that fails only because of the data. -/
def Blameless {α : Type} (step : Build α) : Prop :=
  ∀ site e, (step site).1 = .error e → e.FromData

theorem Blameless.bind {α β : Type} {step : Build α} {next : α → Build β} (first : Blameless step)
    (second : ∀ a, Blameless (next a)) : Blameless (step >>= next) := by
  intro site e failed
  rcases ran : step site with ⟨result, after⟩
  cases result with
  | error error =>
    rw [bind_error ran] at failed
    cases failed
    exact first site e (by rw [ran])
  | ok a =>
    rw [bind_ok ran] at failed
    exact second a after e failed

theorem Blameless.of_ok {α : Type} {step : Build α} (succeeds : ∀ site, ∃ a, (step site).1 = .ok a) :
    Blameless step := by
  intro site e failed
  obtain ⟨a, done⟩ := succeeds site
  rw [done] at failed
  cases failed

theorem Blameless.forItems {body : Build Unit} (step : Blameless body) (name : String) (count index : Nat)
    (items : List (Value × Value)) : Blameless (forItems name count body index items) := by
  induction items generalizing index with
  | nil => exact .of_ok fun _ => ⟨(), rfl⟩
  | cons item rest ih =>
    have shown : Blameless (showItem name index count item) := .of_ok fun _ => ⟨(), rfl⟩
    exact shown.bind fun _ => step.bind fun _ => ih (index + 1)

/-! ### Data -/

/-- A step that leaves the data as they are, however it ends, and fails only because of them. -/
structure Tidy {α : Type} (step : Build α) : Prop where
  keeps : ∀ site, (step site).2.data = site.data
  blameless : Blameless step

theorem Tidy.bind {α β : Type} {step : Build α} {next : α → Build β} (first : Tidy step)
    (second : ∀ a, Tidy (next a)) : Tidy (step >>= next) := by
  refine ⟨?_, first.blameless.bind fun a => (second a).blameless⟩
  intro site
  have kept := first.keeps site
  rcases ran : step site with ⟨result, after⟩
  rw [ran] at kept
  cases result with
  | error error =>
    rw [bind_error ran]
    exact kept
  | ok a =>
    rw [bind_ok ran]
    exact ((second a).keeps after).trans kept

theorem Tidy.pure {α : Type} (a : α) : Tidy (pure a : Build α) :=
  ⟨fun _ => rfl, .of_ok fun _ => ⟨a, rfl⟩⟩

theorem Tidy.throw {α : Type} {e : RenderError} (fromData : e.FromData) : Tidy (throw e : Build α) :=
  ⟨fun _ => rfl, fun _ _ failed => by cases failed; exact fromData⟩

theorem Tidy.get : Tidy (get : Build Site) :=
  ⟨fun _ => rfl, .of_ok fun site => ⟨site, rfl⟩⟩

theorem Tidy.ite {α : Type} {c : Prop} [Decidable c] {yes no : Build α} (first : Tidy yes) (second : Tidy no) :
    Tidy (if c then yes else no) := by
  split
  · exact first
  · exact second

theorem Tidy.locally {step : Build Unit} (blameless : Blameless step) : Tidy (locally step) :=
  ⟨fun _ => rfl, blameless⟩

theorem compute_tidy (e : Expression) : Tidy (compute e) := by
  refine Tidy.get.bind fun site => ?_
  split
  · exact .pure _
  · exact .throw trivial

theorem change_tidy (f : Document Nat → Document Nat) : Tidy (change f) :=
  ⟨fun _ => rfl, .of_ok fun _ => ⟨(), rfl⟩⟩

theorem create_tidy (kind : NodeKind Nat) : Tidy (create kind) :=
  ⟨fun _ => rfl, .of_ok fun _ => ⟨_, rfl⟩⟩

theorem addText_tidy (parent : Nat) (s : String) : Tidy (addText parent s) :=
  (create_tidy _).bind fun _ => change_tidy _

theorem joined_tidy (parts : List Part) : Tidy (joined parts) := by
  induction parts with
  | nil => exact .pure ""
  | cons part rest ih =>
    cases part with
    | literal s => exact ih.bind fun _ => .pure _
    | expr e => exact (compute_tidy e).bind fun _ => ih.bind fun _ => .pure _

theorem act_tidy (node : Nat) (action : Action) : Tidy (act node action) := by
  cases action with
  | set name value => exact change_tidy _
  | setIf name e => exact (compute_tidy e).bind fun v => .ite (change_tidy _) (.pure ())
  | setParts name parts => exact (joined_tidy parts).bind fun text => change_tidy _
  | spread e => exact (compute_tidy e).bind fun v => change_tidy _
  | listen event handler =>
    refine Tidy.get.bind fun site => ?_
    split
    · exact change_tidy _
    · exact .throw trivial

theorem actAll_tidy (node : Nat) (actions : List Action) : Tidy (actAll node actions) := by
  induction actions with
  | nil => exact .pure ()
  | cons action rest ih => exact (act_tidy node action).bind fun _ => ih

theorem itemsOf_tidy (e : Expression) : Tidy (itemsOf e) := by
  refine (compute_tidy e).bind fun v => ?_
  split
  case h_1 items listed => exact .pure _
  case h_2 fault failed => exact .throw (loopItems_fromData failed)

mutual

theorem block_tidy (parent : Nat) : ∀ block : Block, Tidy (Build.block parent block)
  | .text s => addText_tidy parent s
  | .element _ actions body =>
    (create_tidy _).bind fun node => (actAll_tidy node actions).bind fun _ => (change_tidy _).bind fun _ =>
      blocks_tidy node body
  | .choose alternatives => chain_tidy parent alternatives
  | .loop source name body =>
    (itemsOf_tidy source).bind fun items =>
      .locally ((blocks_tidy parent body).blameless.forItems name items.length 0 items)
  | .emit value _ => (compute_tidy value).bind fun _ => .ite (addText_tidy _ _) (.pure ())
  | .emitOr value _ fallback =>
    (compute_tidy value).bind fun _ => .ite (addText_tidy _ _) (blocks_tidy parent fallback)

theorem blocks_tidy (parent : Nat) : ∀ blocks : List Block, Tidy (Build.blocks parent blocks)
  | [] => .pure ()
  | first :: rest => (block_tidy parent first).bind fun _ => blocks_tidy parent rest

theorem chain_tidy (parent : Nat) : ∀ alternatives : Chain, Tidy (Build.chain parent alternatives)
  | .otherwise body => blocks_tidy parent body
  | .when test body rest =>
    (compute_tidy test).bind fun _ => .ite (blocks_tidy parent body) (chain_tidy parent rest)

end

theorem rooted_tidy (bs : List Block) : Tidy (rooted bs) :=
  (create_tidy _).bind fun root => (blocks_tidy root bs).bind fun _ => .pure root

end Build

end Stencil
