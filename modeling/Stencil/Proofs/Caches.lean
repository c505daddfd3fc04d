import Stencil.Proofs.Expansion
import Stencil.Registry

/-!
The caches of a registry. Whatever calls were made to it, a routine that it keeps is the one that a
first compilation of the current templates would give, and a scoped text that it keeps is the scoped
form of its source. What it answers therefore depends on the markup under each name only.
-/
namespace Stencil

theorem Template.source_of_parse {name markup : String} {template : Template}
    (parsed : Template.parse name markup = .ok template) : template.source = markup := by
  rw [Template.parse] at parsed
  split at parsed
  · cases parsed
  · simp only [bind, Except.bind] at parsed
    split at parsed
    · cases parsed
    · split at parsed
      · cases parsed
      · cases parsed
        rfl

theorem Template.parse_ok {name markup : String} {reader : Markup.Reader} {root valid : Markup.Element}
    (shown : Text.isBlankText markup = false) (read : Markup.parse markup reader = .ok root)
    (validated : Template.validate root = .ok valid) :
    Template.parse name markup reader = .ok ⟨markup, valid⟩ := by
  rw [Template.parse, shown, read]
  show (Template.validate root).mapError Template.CompileError.structure >>= _ = _
  rw [validated]
  rfl

namespace Registry

/-! ### Compilation -/

section compile

variable {templates templates' : Fields Template} {cache cache' : Expr.ScopeCache}

/-- The program of a template does not depend on what is in the cache, nor on the order of templates. -/
theorem compile_congr (distinct : templates.names.Nodup) (distinct' : templates'.names.Nodup)
    (same : ∀ name, templates.get? name = templates'.get? name) (faithful : cache.Faithful)
    (faithful' : cache'.Faithful) (name : String) :
    (compile templates cache name).1 = (compile templates' cache' name).1 := by
  have alike := Template.blocksOf_alike distinct distinct' same name { cache := cache } { cache := cache' }
    ⟨rfl, faithful, faithful'⟩
  exact congrArg (Except.map Program.ofBlocks) alike.1

theorem compile_faithful (distinct : templates.names.Nodup) (faithful : cache.Faithful) (name : String) :
    (compile templates cache name).2.cache.Faithful :=
  (Template.blocksOf_alike distinct distinct (fun _ => rfl) name { cache := cache } { cache := cache }
    ⟨rfl, faithful, faithful⟩).2.left

end compile

/-! ### Calls -/

/-- A call to a registry. -/
inductive Call where
  | add (name markup : String)
  | routine (name : String)
  | listing (name : String)
  | render (name : String) (data : Fields Value)
  | renderToString (name : String) (data : Fields Value)

/-- The registry after a call. -/
def perform (registry : Registry) : Call → Registry
  | .add name markup => (registry.register name markup).2.1
  | .routine name => (registry.routine name).2.1
  | .listing name => (registry.listing name).2.1
  | .render name data => (registry.render name data).2.1
  | .renderToString name data => (registry.renderToString name data).2.1

/-- A new registry after calls, in order. -/
def history (document : Document Nat) (logListings : Bool) (calls : List Call) : Registry :=
  calls.foldl perform { document := document, logListings := logListings }

/-- The markup that is registered under a name. -/
def markup? (name : String) (registry : Registry) : Option String :=
  (registry.templates.get? name).map Template.source

/-- The markup that a call registers under a name. -/
def Call.markup? (name : String) : Call → Option String
  | .add other markup => if other = name then (Template.parse name markup).toOption.map Template.source else none
  | _ => none

/-- What a registry keeps is what it would work out now. -/
structure Current (registry : Registry) : Prop where
  distinct : registry.templates.names.Nodup
  parsed : ∀ entry ∈ registry.templates, Template.parse entry.1 entry.2.source = .ok entry.2
  routines : ∀ entry ∈ registry.routines, (compile registry.templates [] entry.1).1 = .ok entry.2.program
  cache : registry.cache.Faithful

section calls

variable {registry : Registry}

theorem Current.compile_eq (current : registry.Current) (name : String) :
    (compile registry.templates registry.cache name).1 = (compile registry.templates [] name).1 :=
  compile_congr current.distinct current.distinct (fun _ => rfl) current.cache Expr.ScopeCache.faithful_nil name

/-- A registry that refuses a template stays as it is. -/
theorem register_refused {name markup : String} {reader : Markup.Reader} {e : Template.CompileError}
    (refused : (registry.register name markup reader).1 = .error e) :
    (registry.register name markup reader).2.1 = registry := by
  unfold register at refused ⊢
  split at refused
  · rfl
  · cases refused

theorem Current.add (current : registry.Current) (name markup : String) :
    (registry.perform (.add name markup)).Current := by
  rw [perform, Registry.register]
  cases parsed : Template.parse name markup with
  | error e => exact current
  | ok template =>
    refine ⟨Fields.nodup_names_set current.distinct, ?_, by simp, current.cache⟩
    intro entry member
    rcases Fields.mem_of_mem_set member with rfl | member
    · rw [Template.source_of_parse parsed]
      exact parsed
    · exact current.parsed entry member

/-- A registry answers with what a first compilation of the template gives, and stays current. -/
theorem Current.routine (current : registry.Current) (name : String) :
    (registry.routine name).1.map (·.program) = (compile registry.templates [] name).1 ∧
      (registry.routine name).2.1.Current := by
  rw [Registry.routine]
  cases found : registry.routines.get? name with
  | some routine => exact ⟨(current.routines _ (Fields.mem_of_get? found)).symm, current⟩
  | none =>
    have faithful := compile_faithful current.distinct current.cache name
    have same := current.compile_eq name
    rcases compiled : compile registry.templates registry.cache name with ⟨result, progress⟩
    rw [compiled] at faithful same
    cases result with
    | error e => exact ⟨same, current.distinct, current.parsed, current.routines, faithful⟩
    | ok program =>
      refine ⟨same, current.distinct, current.parsed, ?_, faithful⟩
      intro entry member
      rcases Fields.mem_of_mem_set member with rfl | member
      · exact same.symm
      · exact current.routines entry member

theorem Current.withDocument (current : registry.Current) (document : Document Nat) :
    Current { registry with document := document } :=
  ⟨current.distinct, current.parsed, current.routines, current.cache⟩

/-- A call that adds no template asks for a routine, and changes nothing else but the document. -/
theorem perform_cases (registry : Registry) (call : Call) :
    (∃ name markup, call = .add name markup) ∨
      (∀ name, call.markup? name = none) ∧
        ∃ name document, registry.perform call = { (registry.routine name).2.1 with document := document } := by
  cases call with
  | add name markup => exact .inl ⟨name, markup, rfl⟩
  | routine name => exact .inr ⟨fun _ => rfl, name, _, rfl⟩
  | listing name => exact .inr ⟨fun _ => rfl, name, _, rfl⟩
  | render name data =>
    refine .inr ⟨fun _ => rfl, name, ?_⟩
    rw [perform, Registry.render]
    rcases registry.routine name with ⟨result, later, log⟩
    cases result with
    | error e => exact ⟨later.document, rfl⟩
    | ok routine => exact ⟨_, rfl⟩
  | renderToString name data =>
    refine .inr ⟨fun _ => rfl, name, ?_⟩
    rw [perform, Registry.renderToString]
    rcases registry.routine name with ⟨result, later, log⟩
    cases result with
    | error e => exact ⟨later.document, rfl⟩
    | ok routine => exact ⟨later.document, rfl⟩

theorem Current.perform (current : registry.Current) (call : Call) : (registry.perform call).Current := by
  rcases registry.perform_cases call with ⟨name, markup, rfl⟩ | ⟨-, name, document, same⟩
  · exact current.add name markup
  · rw [same]
    exact (current.routine name).2.withDocument document

theorem history_current (document : Document Nat) (logListings : Bool) (calls : List Call) :
    (history document logListings calls).Current := by
  -- The calls that are left start from any registry that is current, not from a new one.
  have kept : ∀ registry : Registry, registry.Current → (calls.foldl perform registry).Current := by
    induction calls with
    | nil => exact fun _ current => current
    | cons call rest ih => exact fun _ current => ih _ (current.perform call)
  exact kept _ ⟨by simp [Fields.names], by simp, by simp, Expr.ScopeCache.faithful_nil⟩

/-! ### Registered markup -/

theorem templates_routine (registry : Registry) (name : String) :
    (registry.routine name).2.1.templates = registry.templates := by
  rw [Registry.routine]
  cases registry.routines.get? name with
  | some routine => rfl
  | none =>
    rcases compile registry.templates registry.cache name with ⟨result, progress⟩
    cases result with
    | error e => rfl
    | ok program => rfl

theorem markup?_add (registry : Registry) (other markup name : String) :
    (registry.perform (.add other markup)).markup? name =
      ((Call.add other markup).markup? name).or (registry.markup? name) := by
  rw [perform, Registry.register, Call.markup?]
  by_cases same : other = name
  · subst same
    rw [if_pos rfl]
    cases Template.parse other markup with
    | error e => rfl
    | ok template => exact congrArg (Option.map Template.source) Fields.get?_set_self
  · rw [if_neg same]
    cases Template.parse other markup with
    | error e => rfl
    | ok template => exact congrArg (Option.map Template.source) (Fields.get?_set_of_ne (Ne.symm same))

theorem markup?_perform (registry : Registry) (call : Call) (name : String) :
    (registry.perform call).markup? name = (call.markup? name).or (registry.markup? name) := by
  rcases registry.perform_cases call with ⟨other, markup, rfl⟩ | ⟨none, other, document, same⟩
  · exact markup?_add registry other markup name
  · have templates : (registry.perform call).templates = registry.templates := by
      rw [same]
      exact templates_routine registry other
    rw [none, markup?, templates]
    rfl

/-- Under a name stands the markup that was last registered under it. -/
theorem markup?_history (document : Document Nat) (logListings : Bool) (calls : List Call) (name : String) :
    (history document logListings calls).markup? name = calls.reverse.findSome? (Call.markup? name) := by
  have last : ∀ registry : Registry, (calls.foldl perform registry).markup? name =
      (calls.reverse.findSome? (Call.markup? name)).or (registry.markup? name) := by
    induction calls with
    | nil => exact fun _ => rfl
    | cons call rest ih =>
      intro registry
      rw [List.foldl_cons, ih, markup?_perform, List.reverse_cons, List.findSome?_append, Option.or_assoc,
        List.findSome?_singleton]
  rw [history, last]
  exact Option.or_none

/-! ### Answers -/

/-- Registries that give the same program, listing and markup for a template. -/
structure SameAnswers (name : String) (registry other : Registry) : Prop where
  routine : (registry.routine name).1.map (·.program) = (other.routine name).1.map (·.program)
  listing : (registry.listing name).1 = (other.listing name).1
  renderToString : ∀ data, (registry.renderToString name data).1 = (other.renderToString name data).1

theorem listing_eq (registry : Registry) (name : String) :
    (registry.listing name).1 = ((registry.routine name).1.map (·.program)).map Program.listing := by
  rw [Registry.listing]
  rcases registry.routine name with ⟨result, later, log⟩
  cases result with
  | error e => rfl
  | ok routine => rfl

theorem renderToString_eq (registry : Registry) (name : String) (data : Fields Value) :
    (registry.renderToString name data).1 =
      match (registry.routine name).1.map (·.program) with
      | .error e => .error (.compile e)
      | .ok program =>
        let outcome := program.run program.stepsAllowed {} data
        (outcome.root.map outcome.document.markup).mapError .render := by
  rw [Registry.renderToString]
  rcases registry.routine name with ⟨result, later, log⟩
  cases result with
  | error e => rfl
  | ok routine => rfl

theorem SameAnswers.of_routine {other : Registry} {name : String}
    (same : (registry.routine name).1.map (·.program) = (other.routine name).1.map (·.program)) :
    SameAnswers name registry other := by
  refine ⟨same, ?_, fun data => ?_⟩
  · rw [listing_eq, listing_eq, same]
  · rw [renderToString_eq, renderToString_eq, same]

/-- Under the same markup stands the same template. -/
theorem Current.get?_eq {other : Registry} (current : registry.Current) (current' : other.Current)
    (same : ∀ name, registry.markup? name = other.markup? name) (name : String) :
    registry.templates.get? name = other.templates.get? name := by
  have markup := same name
  rw [markup?, markup?] at markup
  cases found : registry.templates.get? name with
  | none =>
    rw [found] at markup
    exact (Option.map_eq_none_iff.mp markup.symm).symm
  | some template =>
    rw [found] at markup
    obtain ⟨template', found', sources⟩ := Option.map_eq_some_iff.mp markup.symm
    have parsed := current.parsed _ (Fields.mem_of_get? found)
    have parsed' := current'.parsed _ (Fields.mem_of_get? found')
    simp only at parsed parsed'
    rw [sources, parsed] at parsed'
    cases parsed'
    exact found'.symm

theorem Current.sameAnswers {other : Registry} (current : registry.Current) (current' : other.Current)
    (same : ∀ name, registry.markup? name = other.markup? name) (name : String) :
    SameAnswers name registry other := by
  refine .of_routine ?_
  rw [(current.routine name).1, (current'.routine name).1]
  exact compile_congr current.distinct current'.distinct (current.get?_eq current' same)
    Expr.ScopeCache.faithful_nil Expr.ScopeCache.faithful_nil name

end calls

/-- The caches of a registry are never stale. After any calls, every routine that is kept is what a first
    compilation of the current templates gives, and every scoped text that is kept is that of its source.
    Under each name stands what was last registered, and another history that has led to the same markup
    makes no difference to an answer. A template that is refused changes nothing. -/
theorem history_never_stale (document : Document Nat) (logListings : Bool) (calls : List Call) :
    (∀ entry ∈ (history document logListings calls).routines,
      (compile (history document logListings calls).templates [] entry.1).1 = .ok entry.2.program) ∧
    (∀ entry ∈ (history document logListings calls).cache, entry.2 = Expr.scopedText entry.1) ∧
    (∀ name, (history document logListings calls).markup? name =
      calls.reverse.findSome? (Call.markup? name)) ∧
    (∀ document' logListings' calls',
      (∀ name, (history document logListings calls).markup? name =
        (history document' logListings' calls').markup? name) →
      ∀ name, SameAnswers name (history document logListings calls) (history document' logListings' calls')) ∧
    ∀ name markup e, ((history document logListings calls).register name markup).1 = .error e →
      history document logListings (calls ++ [.add name markup]) = history document logListings calls := by
  have current := history_current document logListings calls
  refine ⟨current.routines, current.cache, markup?_history document logListings calls, ?_, ?_⟩
  · intro document' logListings' calls' same
    exact current.sameAnswers (history_current document' logListings' calls') same
  · intro name markup e refused
    rw [history, List.foldl_append]
    exact register_refused refused

/-- A template that took the place of another, after the other was compiled and a third was refused. -/
def replaced : List Call :=
  [.add "x" "<i/>", .routine "x", .add "x" "<b>", .add "x" "<b t-esc='y'/>", .routine "x"]

theorem replaced_never_stale :
    (∃ entry ∈ (history {} true replaced).routines,
      (compile (history {} true replaced).templates [] entry.1).1 = .ok entry.2.program) ∧
    (∃ entry ∈ (history {} true replaced).cache, entry.2 = Expr.scopedText entry.1) ∧
    (∀ name, SameAnswers name (history {} true replaced) (history {} true [.add "x" "<b t-esc='y'/>"])) ∧
    history {} true (replaced ++ [.add "x" "<b>"]) = history {} true replaced := by
  have parsed : Template.parse "x" "<i/>" = .ok ⟨"<i/>", ⟨"i", [], []⟩⟩ :=
    Template.parse_ok (by decide +kernel) rfl (by simp only [Template.validate, Template.validateFrom]; rfl)
  have parsed' : Template.parse "x" "<b t-esc='y'/>" = .ok ⟨"<b t-esc='y'/>", ⟨"b", [⟨"t-esc", "y"⟩], []⟩⟩ :=
    Template.parse_ok (by decide +kernel) rfl (by simp only [Template.validate, Template.validateFrom]; rfl)
  have refused : Template.parse "x" "<b>" = .error (.malformedMarkup "x" ⟨.unclosedElement "b", ⟨1, 4⟩⟩) := rfl
  have filled : (history {} true replaced).routines.isEmpty = false ∧
      (history {} true replaced).cache.isEmpty = false := by
    simp only [history, replaced, List.foldl_cons, List.foldl_nil, perform, register, parsed, parsed', refused]
    decide +kernel
  obtain ⟨routines, cache, markup, answers, unchanged⟩ := history_never_stale {} true replaced
  obtain ⟨routine, keptRoutine⟩ := List.isEmpty_eq_false_iff_exists_mem.mp filled.1
  obtain ⟨form, keptForm⟩ := List.isEmpty_eq_false_iff_exists_mem.mp filled.2
  refine ⟨⟨routine, keptRoutine, routines routine keptRoutine⟩, ⟨form, keptForm, cache form keptForm⟩, ?_, ?_⟩
  · refine answers {} true [.add "x" "<b t-esc='y'/>"] fun name => ?_
    rw [markup, (history_never_stale {} true [.add "x" "<b t-esc='y'/>"]).2.2.1]
    by_cases same : "x" = name
    · subst same
      simp [replaced, List.findSome?_cons, Call.markup?, parsed', Except.toOption]
    · simp [replaced, Call.markup?, same]
  · exact unchanged "x" "<b>" _ (by rw [register, refused])

end Registry

end Stencil
