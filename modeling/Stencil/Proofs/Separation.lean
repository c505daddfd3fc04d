import Stencil.Proofs.Caches
import Stencil.Proofs.Forest
import Stencil.Proofs.Twins

/-!
Renders in one document. What a render builds hangs together under a new root and stands beside the nodes
that were there before, of which none is touched, whether the render succeeds or fails. Each of its nodes is
reached from the root in one way, and its markup is what it would be in a document of its own.
-/
namespace Stencil

open Stateful
open Template (Action Block Chain Part)

namespace Document

variable {ℓ : Type} {doc held : Document ℓ} {parent node : Nat}

/-! ### Ways down -/

/-- The node that is reached from another by going down to the child at each of some positions. -/
def follow (doc : Document ℓ) : Nat → List Nat → Option Nat
  | node, [] => some node
  | node, position :: rest => (doc.children node)[position]?.bind fun child => doc.follow child rest

theorem follow_concat (path : List Nat) (position node : Nat) :
    doc.follow node (path ++ [position]) = (doc.follow node path).bind fun last => (doc.children last)[position]? := by
  induction path generalizing node with
  | nil => simp [follow]
  | cons first rest ih =>
    rw [List.cons_append, follow, follow, Option.bind_assoc]
    exact congrArg _ (funext ih)

theorem follow_beside (path : List Nat) (node : Nat) :
    (held.beside doc).follow (node + held.size) path = (doc.follow node path).map (· + held.size) := by
  induction path generalizing node with
  | nil => rfl
  | cons position rest ih =>
    rw [follow, children_beside, List.getElem?_map, Option.bind_map, follow, Option.map_bind]
    exact congrArg _ (funext ih)

/-! ### Documents that have grown from a root -/

/-- Nodes that hang together under a fragment with number 0, apart from some that are loose. Each was created
    after its parent. -/
structure Grown (loose : List Nat) (doc : Document ℓ) : Prop extends doc.WellLinked where
  root : doc.isFragment 0
  later : ∀ node parent, doc.parent? node = some parent → parent < node
  attached : ∀ node < doc.size, node ∈ loose ∨ (doc.parent? node).isSome

/-- A node that has just been created, is no fragment and will be a child of an older one. -/
structure Pending (parent node : Nat) (doc : Document ℓ) : Prop where
  grown : doc.Grown [node, 0]
  newer : parent < node
  inside : node < doc.size
  solid : ¬doc.isFragment node

theorem grown_fragment : Grown [0] (({} : Document ℓ).create .fragment).2 := by
  refine ⟨wellLinked_empty.create (by rintro _ _ _ ⟨⟩), rfl, fun node parent has => ?_, fun node inside => ?_⟩
  · rw [parent?_create, parent?_of_size_le (Nat.zero_le node)] at has
    cases has
  · rw [size_create] at inside
    exact .inl (List.mem_singleton.mpr (Nat.lt_one_iff.mp inside))

theorem Grown.create {kind : NodeKind ℓ} (grown : doc.Grown [0]) (inside : parent < doc.size)
    (solid : kind ≠ .fragment)
    (new : ∀ tag attributes listeners, kind = .element tag attributes listeners → attributes.names.Nodup) :
    Pending parent doc.size (doc.create kind).2 := by
  have created : (doc.create kind).2.kind? doc.size = some kind := by rw [kind?_create, if_pos rfl]
  refine ⟨⟨grown.toWellLinked.create new, ?_, fun n p has => ?_, fun n old => ?_⟩, inside, ?_, ?_⟩
  · have root := isFragment_iff.mp grown.root
    rw [isFragment_iff, kind?_create, if_neg (by omega)]
    exact root
  · rw [parent?_create] at has
    exact grown.later n p has
  · rw [size_create] at old
    rw [parent?_create]
    rcases Nat.lt_succ_iff_lt_or_eq.mp old with old | new
    · exact (grown.attached n old).imp_left (List.mem_cons_of_mem _)
    · exact .inl (new ▸ List.mem_cons_self)
  · rw [size_create]
    exact Nat.lt_succ_self _
  · rw [isFragment_iff, created]
    exact fun same => solid (Option.some.inj same)

theorem Pending.append (pending : doc.Pending parent node) : (doc.append parent node).Grown [0] := by
  have carries : doc.carried node = [node] := if_neg pending.solid
  have inside := pending.newer.trans pending.inside
  have parents (n : Nat) : (doc.append parent node).parent? n = if n = node then some parent else doc.parent? n := by
    rw [pending.grown.parent?_append pending.inside, carries]
    simp only [List.mem_singleton]
  refine ⟨pending.grown.toWellLinked.append inside pending.inside, ?_, fun n p has => ?_, fun n old => ?_⟩
  · rw [isFragment_append]
    exact pending.grown.root
  · rw [parents] at has
    split at has
    case isTrue same =>
      cases has
      exact same ▸ pending.newer
    case isFalse => exact pending.grown.later n p has
  · rw [size_append] at old
    rw [parents]
    by_cases same : n = node
    · exact .inr (by rw [if_pos same]; rfl)
    · rw [if_neg same]
      exact (pending.grown.attached n old).imp_left fun loose => (List.mem_cons.mp loose).resolve_left same

/-- Changing the attributes or listeners of an element, of which no links depend. -/
theorem Pending.update {change : DocumentNode ℓ → DocumentNode ℓ} {place : Nat} (pending : doc.Pending parent node)
    (well : (doc.update place change).WellLinked) (parents : ∀ n, (change n).parent = n.parent)
    (fragments : ∀ n, (change n).kind = .fragment ↔ n.kind = .fragment) :
    (doc.update place change).Pending parent node := by
  refine ⟨⟨well, ?_, fun n p => ?_, fun n => ?_⟩, pending.newer, ?_, ?_⟩
  · rw [isFragment_update fragments]
    exact pending.grown.root
  · rw [parent?_update parents]
    exact pending.grown.later n p
  · rw [size_update, parent?_update parents]
    exact pending.grown.attached n
  · rw [size_update]
    exact pending.inside
  · rw [isFragment_update fragments]
    exact pending.solid

theorem Pending.setAttribute (pending : doc.Pending parent node) (name value : String) :
    (doc.setAttribute node name value).Pending parent node := by
  refine pending.update (pending.grown.setAttribute node name value) (fun n => ?_) fun n => ?_
  · split <;> rfl
  · split <;> simp_all

theorem Pending.listen (pending : doc.Pending parent node) (event : String) (listener : ℓ) :
    (doc.listen node event listener).Pending parent node := by
  refine pending.update (pending.grown.listen node event listener) (fun n => ?_) fun n => ?_
  · split <;> rfl
  · split <;> simp_all

theorem Grown.parent?_of_ne (grown : doc.Grown [0]) (inside : node < doc.size) (differ : node ≠ 0) :
    ∃ parent, doc.parent? node = some parent :=
  Option.isSome_iff_exists.mp ((grown.attached node inside).resolve_left (by simpa using differ))

/-- The last step of a way down leads from the parent. -/
theorem WellLinked.follow_concat_eq_some (well : doc.WellLinked) {path : List Nat} {position : Nat} :
    doc.follow 0 (path ++ [position]) = some node ↔
      ∃ parent, doc.parent? node = some parent ∧ doc.follow 0 path = some parent ∧
        (doc.children parent)[position]? = some node := by
  rw [follow_concat, Option.bind_eq_some_iff]
  constructor
  · rintro ⟨last, followed, child⟩
    exact ⟨last, (well.linked last node).mp (List.mem_of_getElem? child), followed, child⟩
  · rintro ⟨last, -, followed, child⟩
    exact ⟨last, followed, child⟩

theorem Grown.existsUnique_follow (grown : doc.Grown [0]) :
    ∀ node < doc.size, ∃! path, doc.follow 0 path = some node := by
  have orphan : doc.parent? 0 = none := (grown.fragment 0 grown.root).1
  intro node
  induction node using Nat.strongRecOn with
  | ind node ih =>
    intro inside
    by_cases top : node = 0
    · subst top
      refine ⟨[], rfl, fun path followed => ?_⟩
      rcases List.eq_nil_or_concat' path with rfl | ⟨path, position, rfl⟩
      · rfl
      · obtain ⟨parent, has, -⟩ := grown.follow_concat_eq_some.mp followed
        rw [orphan] at has
        cases has
    · obtain ⟨parent, has⟩ := grown.parent?_of_ne inside top
      have older := grown.later node parent has
      obtain ⟨path, followed, only⟩ := ih parent older (older.trans inside)
      obtain ⟨position, child⟩ := List.mem_iff_getElem?.mp ((grown.linked parent node).mpr has)
      refine ⟨path ++ [position], grown.follow_concat_eq_some.mpr ⟨parent, has, followed, child⟩,
        fun other reached => ?_⟩
      rcases List.eq_nil_or_concat' other with rfl | ⟨before, last, rfl⟩
      · exact absurd (Option.some.inj reached).symm top
      · obtain ⟨parent', has', followed', child'⟩ := grown.follow_concat_eq_some.mp reached
        obtain rfl := Option.some.inj (has.symm.trans has')
        have bound : position < (doc.children parent).length := (List.getElem?_eq_some_iff.mp child).1
        have same := (List.getElem?_inj bound (grown.nodup parent)).mp (child.trans child'.symm)
        rw [only before followed', same]

/-- The markup of a node is the same beside other nodes. -/
theorem Grown.markup_beside {loose : List Nat} (grown : doc.Grown loose) (held : Document ℓ) (node : Nat) :
    (held.beside doc).markup (node + held.size) = doc.markup node := by
  -- Nodes are nested less deep than there are nodes that are as new.
  have absent : ∀ n, doc.size - n = 0 → doc.size ≤ n := fun n => Nat.le_of_sub_eq_zero
  have falls : ∀ n, ∀ c ∈ doc.children n, doc.size - c < doc.size - n := by
    intro n c member
    have newer := grown.later c n ((grown.linked n c).mp member)
    have inside := lt_of_mem_children member
    omega
  have deep (depth : Nat) (enough : doc.size ≤ depth) :
      doc.treeWithin depth node = doc.treeWithin (doc.size - node) node :=
    treeWithin_of_rank_le absent falls depth node (by omega)
  rw [markup, tree, treeWithin_beside, markup, tree, size_beside, deep _ (Nat.le_add_left _ _), deep _ (Nat.le_refl _)]

end Document

open Document

namespace Build

/-! ### What steps lead to -/

/-- A step that starts in a document with a property and succeeds leads to one with another property. -/
def Leads {α : Type} (pre : Document Nat → Prop) (step : Build α) (post : α → Document Nat → Prop) : Prop :=
  ∀ site a after, pre site.document → step site = (.ok a, after) → post a after.document

namespace Leads

variable {α β : Type} {pre : Document Nat → Prop} {step : Build α}

theorem bind {mid : α → Document Nat → Prop} {post : β → Document Nat → Prop} {next : α → Build β}
    (first : Leads pre step mid) (second : ∀ a, Leads (mid a) (next a) post) : Leads pre (step >>= next) post := by
  intro site b after holds ran
  rcases done : step site with ⟨result, between⟩
  cases result with
  | error e =>
    rw [bind_error done] at ran
    cases ran
  | ok a =>
    rw [bind_ok done] at ran
    exact second a between b after (first site a between holds done) ran

theorem mono {post post' : α → Document Nat → Prop} (leads : Leads pre step post)
    (weaker : ∀ a doc, post a doc → post' a doc) : Leads pre step post' :=
  fun site a after holds ran => weaker a _ (leads site a after holds ran)

/-- What the property of the document says of other things may be taken for granted. -/
theorem given {post : α → Document Nat → Prop} {fact : Prop} (known : ∀ doc, pre doc → fact)
    (leads : fact → Leads pre step post) : Leads pre step post :=
  fun site a after holds => leads (known _ holds) site a after holds

theorem throw {post : α → Document Nat → Prop} (e : RenderError) : Leads pre (throw e : Build α) post := by
  rintro site a after - ⟨⟩

/-- A step that leaves the document as it is. -/
theorem of_keeps (keeps : ∀ site, (step site).2.document = site.document) : Leads pre step fun _ => pre := by
  intro site a after holds ran
  have kept := keeps site
  rw [ran] at kept
  rwa [kept]

theorem pure (a : α) : Leads pre (pure a : Build α) fun _ => pre :=
  of_keeps fun _ => rfl

theorem get : Leads pre (get : Build Site) fun _ => pre :=
  of_keeps fun _ => rfl

theorem ite {post : α → Document Nat → Prop} {c : Prop} [Decidable c] {yes no : Build α}
    (first : Leads pre yes post) (second : Leads pre no post) : Leads pre (if c then yes else no) post := by
  split
  · exact first
  · exact second

theorem change {post : Document Nat → Prop} {f : Document Nat → Document Nat}
    (changed : ∀ doc, pre doc → post (f doc)) : Leads pre (change f) fun _ => post := by
  rintro site a after holds ⟨⟩
  exact changed _ holds

theorem create {post : Nat → Document Nat → Prop} {kind : NodeKind Nat}
    (created : ∀ doc, pre doc → post doc.size (doc.create kind).2) : Leads pre (create kind) post := by
  rintro site a after holds ⟨⟩
  exact created _ holds

theorem locally {step : Build Unit} {post : Unit → Document Nat → Prop} (leads : Leads pre step post) :
    Leads pre (locally step) post := by
  intro site a after holds ran
  rcases done : step site with ⟨result, between⟩
  rw [Build.locally, done] at ran
  cases ran
  exact leads site a between holds done

theorem forItems {body : Build Unit} (step : Leads pre body fun _ => pre) (name : String) (count index : Nat)
    (items : List (Value × Value)) : Leads pre (forItems name count body index items) fun _ => pre := by
  induction items generalizing index with
  | nil => exact .pure ()
  | cons item rest ih =>
    have shown : Leads pre (showItem name index count item) fun _ => pre := .of_keeps fun _ => rfl
    exact shown.bind fun _ => step.bind fun _ => ih (index + 1)

end Leads

section keeps

variable {pre : Document Nat → Prop}

theorem compute_leads (e : Expression) : Leads pre (compute e) fun _ => pre := by
  refine Leads.get.bind fun site => ?_
  split
  · exact .pure _
  · exact .throw _

theorem joined_leads (parts : List Part) : Leads pre (joined parts) fun _ => pre := by
  induction parts with
  | nil => exact .pure ""
  | cons part rest ih =>
    cases part with
    | literal s => exact ih.bind fun _ => .pure _
    | expr e => exact (compute_leads e).bind fun _ => ih.bind fun _ => .pure _

theorem itemsOf_leads (e : Expression) : Leads pre (itemsOf e) fun _ => pre := by
  refine (compute_leads e).bind fun v => ?_
  split
  · exact .pure _
  · exact .throw _

end keeps

/-! ### What a build grows -/

/-- A grown document in which a node exists that blocks are built under. -/
def Ready (parent : Nat) (doc : Document Nat) : Prop :=
  doc.Grown [0] ∧ parent < doc.size

section pending

variable {parent : Nat} (node : Nat)

theorem act_leads (action : Action) : Leads (Pending parent node) (act node action) fun _ => Pending parent node := by
  cases action with
  | set name value => exact .change fun doc pending => pending.setAttribute name value
  | setIf name e =>
    exact (compute_leads e).bind fun v => .ite (.change fun doc pending => pending.setAttribute name _) (.pure ())
  | setParts name parts =>
    exact (joined_leads parts).bind fun text => .change fun doc pending => pending.setAttribute name text
  | spread e =>
    refine (compute_leads e).bind fun v => .change fun doc pending => ?_
    generalize Machine.spreadEntries v = entries
    induction entries generalizing doc with
    | nil => exact pending
    | cons entry rest ih => exact ih _ (pending.setAttribute entry.1 entry.2)
  | listen event handler =>
    refine Leads.get.bind fun site => ?_
    split
    · exact .change fun doc pending => pending.listen event _
    · exact .throw _

theorem actAll_leads (actions : List Action) :
    Leads (Pending parent node) (actAll node actions) fun _ => Pending parent node := by
  induction actions with
  | nil => exact .pure ()
  | cons action rest ih => exact (act_leads node action).bind fun _ => ih

theorem append_leads : Leads (Pending parent node) (change (·.append parent node)) fun _ => Ready node := by
  refine .change fun doc pending => ⟨pending.append, ?_⟩
  rw [size_append]
  exact pending.inside

end pending

variable (parent : Nat)

theorem createElement_leads (tag : String) : Leads (Ready parent) (create (.element tag [] [])) (Pending parent) := by
  refine .create fun doc ready => ready.1.create ready.2 (by rintro ⟨⟩) ?_
  rintro _ _ _ ⟨⟩
  exact List.nodup_nil

theorem addText_leads (s : String) : Leads (Ready parent) (addText parent s) fun _ => Ready parent := by
  have created : Leads (Ready parent) (create (.text s)) (Pending parent) :=
    .create fun doc ready => ready.1.create ready.2 (by rintro ⟨⟩) (by rintro _ _ _ ⟨⟩)
  refine created.bind fun node => .given (fun doc pending => pending.newer) fun newer => ?_
  exact (append_leads node).mono fun _ doc ready => ⟨ready.1, newer.trans ready.2⟩

mutual

theorem block_leads (parent : Nat) :
    ∀ block : Block, Leads (Ready parent) (Build.block parent block) fun _ => Ready parent
  | .text s => addText_leads parent s
  | .element tag actions body => by
    refine (createElement_leads parent tag).bind fun node => .given (fun doc pending => pending.newer) fun newer => ?_
    refine (actAll_leads node actions).bind fun _ => (append_leads node).bind fun _ => ?_
    exact (blocks_leads node body).mono fun _ doc ready => ⟨ready.1, newer.trans ready.2⟩
  | .choose alternatives => chain_leads parent alternatives
  | .loop source name body =>
    (itemsOf_leads source).bind fun items => .locally (.forItems (blocks_leads parent body) name items.length 0 items)
  | .emit value _ => (compute_leads value).bind fun _ => .ite (addText_leads parent _) (.pure ())
  | .emitOr value _ fallback =>
    (compute_leads value).bind fun _ => .ite (addText_leads parent _) (blocks_leads parent fallback)

theorem blocks_leads (parent : Nat) :
    ∀ blocks : List Block, Leads (Ready parent) (Build.blocks parent blocks) fun _ => Ready parent
  | [] => .pure ()
  | first :: rest => (block_leads parent first).bind fun _ => blocks_leads parent rest

theorem chain_leads (parent : Nat) :
    ∀ alternatives : Chain, Leads (Ready parent) (Build.chain parent alternatives) fun _ => Ready parent
  | .otherwise body => blocks_leads parent body
  | .when test body rest =>
    (compute_leads test).bind fun _ => .ite (blocks_leads parent body) (chain_leads parent rest)

end

theorem rooted_leads (bs : List Block) : Leads (· = {}) (rooted bs) fun root doc => root = 0 ∧ doc.Grown [0] := by
  have created : Leads (· = {}) (create .fragment) fun root doc => Ready root doc ∧ root = 0 := by
    refine .create fun doc empty => ?_
    subst empty
    exact ⟨⟨grown_fragment, Nat.lt_succ_self _⟩, rfl⟩
  refine created.bind fun root => .given (fun doc ready => ready.2) fun first => ?_
  subst first
  refine Leads.bind (fun site a after ready => blocks_leads 0 bs site a after ready.1) fun _ => ?_
  rintro site root after ready ⟨⟩
  exact ⟨rfl, ready.1⟩

end Build

/-! ### Compiled programs -/

section compiled

variable {templates : Fields Template} {cache : Expr.ScopeCache} {name : String} {program : Program}

theorem compiled_run_grown (compiled : (Registry.compile templates cache name).1 = .ok program) {steps root : Nat}
    {data : Fields Value} (ran : (program.run steps {} data).root = .ok root) :
    root = 0 ∧ (program.run steps {} data).document.Grown [0] := by
  obtain ⟨blocks, -, rfl⟩ := blocks_of_compile compiled
  obtain ⟨enough, stopped, ended⟩ := ofBlocks_run blocks {} data
  by_cases few : steps < enough
  · obtain ⟨reached, same⟩ := stopped steps few
    cases ran.symm.trans (congrArg Prod.fst same)
  · have result := ended steps (by omega)
    rw [Outcome.result, ran] at result
    exact Build.rooted_leads blocks ⟨{}, data⟩ root _ rfl result.symm

/-- A run in a document that holds other nodes: its markup, its root and the ways down to its nodes are those of
    a run in an empty document. -/
theorem compiled_run_beside (compiled : (Registry.compile templates cache name).1 = .ok program) (steps : Nat)
    (held : Document Nat) (data : Fields Value) :
    let own := program.run steps {} data
    let run := program.run steps held data
    run.root.map run.document.markup = own.root.map own.document.markup ∧
      (∀ node < held.size, run.document.nodes[node]? = held.nodes[node]?) ∧
      ∀ root, run.root = .ok root → held.size ≤ root ∧ run.document.isFragment root ∧
        ∀ node, held.size ≤ node → node < run.document.size → ∃! path, run.document.follow root path = some node := by
  intro own run
  obtain ⟨root, document⟩ : run.root = own.root.map (· + held.size) ∧ run.document = held.beside own.document :=
    run_beside (fun _ _ => rfl) steps held
  refine ⟨?_, fun node old => ?_, fun top finished => ?_⟩
  · cases ended : own.root with
    | error e => rw [root, ended]; rfl
    | ok first =>
      obtain ⟨-, grown⟩ := compiled_run_grown compiled ended
      rw [root, ended, document]
      exact congrArg Except.ok (grown.markup_beside held first)
  · rw [document]
    exact getElem?_beside_of_lt old
  · rw [root] at finished
    cases ended : own.root with
    | error e =>
      rw [ended] at finished
      cases finished
    | ok first =>
      obtain ⟨rfl, grown⟩ := compiled_run_grown compiled ended
      rw [ended] at finished
      obtain rfl : 0 + held.size = top := Except.ok.inj finished
      rw [document]
      refine ⟨Nat.le_add_left _ _, (isFragment_beside 0).trans grown.root, fun node new inside => ?_⟩
      obtain ⟨node, rfl⟩ := Nat.exists_eq_add_of_le' new
      rw [size_beside, Nat.add_comm held.size] at inside
      have same (path : List Nat) : (held.beside own.document).follow (0 + held.size) path = some (node + held.size) ↔
          own.document.follow 0 path = some node := by
        rw [follow_beside, Option.map_eq_some_iff]
        simp
      simp only [same]
      exact grown.existsUnique_follow node (Nat.lt_of_add_lt_add_right inside)

end compiled

/-! ### Registries -/

namespace Registry

theorem document_routine (registry : Registry) (name : String) :
    (registry.routine name).2.1.document = registry.document := by
  rw [Registry.routine]
  cases registry.routines.get? name with
  | some routine => rfl
  | none =>
    rcases compile registry.templates registry.cache name with ⟨result, progress⟩
    cases result with
    | error e => rfl
    | ok program => rfl

theorem render_eq (registry : Registry) (name : String) (data : Fields Value) :
    ((registry.render name data).1, (registry.render name data).2.1.document) =
      match (registry.routine name).1.map (·.program) with
      | .error e => (.error (.compile e), registry.document)
      | .ok program =>
        let outcome := program.run program.stepsAllowed registry.document data
        (outcome.root.mapError .render, outcome.document) := by
  have kept := document_routine registry name
  rw [Registry.render]
  rcases asked : registry.routine name with ⟨result, later, log⟩
  rw [asked] at kept
  cases result with
  | error e => exact congrArg (Prod.mk _) kept
  | ok routine =>
    rw [← kept]
    rfl

theorem document_renderToString (registry : Registry) (name : String) (data : Fields Value) :
    (registry.renderToString name data).2.1.document = registry.document := by
  have kept := document_routine registry name
  rw [Registry.renderToString]
  rcases asked : registry.routine name with ⟨result, later, log⟩
  rw [asked] at kept
  cases result with
  | error e => exact kept
  | ok routine => exact kept

/-- Both ways to render fail where the template does not compile, and run the same program otherwise. -/
theorem Current.render_cases {registry : Registry} (current : registry.Current) (name : String) (data : Fields Value) :
    (∃ e, (registry.render name data).1 = .error (.compile e) ∧
      (registry.render name data).2.1.document = registry.document ∧
      (registry.renderToString name data).1 = .error (.compile e)) ∨
    ∃ program, (compile registry.templates [] name).1 = .ok program ∧
      let run := program.run program.stepsAllowed registry.document data
      let own := program.run program.stepsAllowed {} data
      (registry.render name data).1 = run.root.mapError .render ∧
        (registry.render name data).2.1.document = run.document ∧
        (registry.renderToString name data).1 = (own.root.map own.document.markup).mapError .render := by
  have rendered := render_eq registry name data
  have markup := renderToString_eq registry name data
  rw [(current.routine name).1] at rendered markup
  cases compiled : (compile registry.templates [] name).1 with
  | error e =>
    rw [compiled] at rendered markup
    obtain ⟨failed, kept⟩ := Prod.mk.inj rendered
    exact .inl ⟨e, failed, kept, markup⟩
  | ok program =>
    rw [compiled] at rendered markup
    obtain ⟨ended, built⟩ := Prod.mk.inj rendered
    exact .inr ⟨program, rfl, ended, built, markup⟩

/-- Renders do not disturb each other. After any calls, and whatever nodes the document of the registry holds, the
    markup of what is rendered there is the markup that is rendered on its own, and a failure is the same failure.
    The nodes that were there stay as they are even then. Every new node is reached from the new root, which is a
    fragment, in exactly one way. -/
theorem history_render_separate (document : Document Nat) (logListings : Bool) (calls : List Call)
    (held : Document Nat) (name : String) (data : Fields Value) :
    let registry := { history document logListings calls with document := held }
    let rendered := registry.render name data
    let after := rendered.2.1.document
    rendered.1.map after.markup = (registry.renderToString name data).1 ∧
      (registry.renderToString name data).2.1.document = held ∧
      (∀ node < held.size, after.nodes[node]? = held.nodes[node]?) ∧
      ∀ root, rendered.1 = .ok root → held.size ≤ root ∧ after.isFragment root ∧
        ∀ node, held.size ≤ node → node < after.size → ∃! path, after.follow root path = some node := by
  intro registry rendered after
  have current : registry.Current := (history_current document logListings calls).withDocument held
  have untouched := document_renderToString registry name data
  rcases current.render_cases name data with ⟨e, failed, kept, markup⟩ | ⟨program, compiled, ended, built, markup⟩
  · refine ⟨?_, untouched, fun node _ => congrArg (·.nodes[node]?) kept, fun root finished => ?_⟩
    · rw [failed, markup]
      rfl
    · cases failed.symm.trans finished
  · obtain ⟨same, old, ways⟩ := compiled_run_beside compiled program.stepsAllowed held data
    have result : rendered.1 = (program.run program.stepsAllowed held data).root.mapError .render := ended
    have left : after = (program.run program.stepsAllowed held data).document := built
    rw [result, left, markup, ← same]
    cases ran : (program.run program.stepsAllowed held data).root with
    | error e => exact ⟨rfl, untouched, old, fun root finished => by cases finished⟩
    | ok top =>
      refine ⟨rfl, untouched, old, fun root finished => ?_⟩
      cases finished
      exact ways top ran

end Registry

end Stencil
