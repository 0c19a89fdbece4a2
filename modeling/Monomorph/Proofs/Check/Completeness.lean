import Monomorph.Proofs.Check.Accepted

/-!
# What the checker accepts

The converse of `Check.wellFormed_of_check`: each round of the checker is silent about a file that is in
order. New and distinct names are declared without a word, every node of a body passes, and a call that
the search reports would lead back along calls of the file. Together the two directions say that the
checker accepts the well-formed files and no others.
-/

namespace Monomorph

namespace Check

/-! ## Declarations -/

/-- Definitions with new and distinct names are declared without an error. -/
theorem noErrors_declareAll {scope : Scope} {items : List Item}
    (hnodup : (items.map fun item => item.definition.name).Nodup)
    (hnew : ∀ item ∈ items, scope.declared.lookup item.definition.name = none ∧
      scope.arities.lookup item.definition.name = none) :
    hasErrors (scope.declareAll items).2 = false := by
  induction items generalizing scope with
  | nil => rfl
  | cons item rest ih =>
    obtain ⟨hname, hnodup⟩ := List.nodup_cons.1 hnodup
    obtain ⟨⟨hdeclared, harity⟩, hrest⟩ := List.forall_mem_cons.1 hnew
    have hscope : scope.declare item =
        (⟨(item.definition.name, item.definition.arity) :: scope.arities,
          (item.definition.name, item.span) :: scope.declared⟩, []) := by
      simp [Scope.declare, hdeclared, harity]
    have hother : ∀ other ∈ rest, (other.definition.name == item.definition.name) = false := by
      intro other hother
      exact beq_eq_false_iff_ne.2 fun heq => hname (List.mem_map.2 ⟨other, hother, heq⟩)
    simp only [Scope.declareAll, hscope, List.map_nil, List.nil_append]
    refine ih hnodup fun other hmem => ?_
    simp only [List.lookup_cons, hother other hmem]
    exact hrest other hmem

/-! ## Definitions -/

theorem repetitions_eq_nil {seen params : List String} (hnodup : params.Nodup)
    (hnew : ∀ param ∈ params, param ∉ seen) : repetitions seen params = [] := by
  induction params generalizing seen with
  | nil => rfl
  | cons param rest ih =>
    obtain ⟨hparam, hnodup⟩ := List.nodup_cons.1 hnodup
    obtain ⟨hfresh, hrest⟩ := List.forall_mem_cons.1 hnew
    simp only [repetitions, hfresh, if_false]
    refine ih hnodup fun other hother => ?_
    simp only [List.mem_cons, not_or]
    exact ⟨fun heq => hparam (heq ▸ hother), hrest other hother⟩

/-- There is nothing wrong with a definition that binds its variables and applies known names. -/
theorem noErrors_definition {arities : List (String × Nat)} {d : TypeDef} (hparams : d.params.Nodup)
    (hbound : d.body.varNames ⊆ d.params) (hknown : ∀ name args a, .named name args a ∈ d.body.subterms →
      arities.lookup name = some args.length) :
    ∀ p ∈ definitionProblems arities d, p.severity ≠ .error := by
  have hnode : ∀ t ∈ d.body.subterms, nodeProblem? arities d t = none := by
    intro t ht
    cases t with
    | var name a =>
      have hname : name ∈ d.params := hbound (List.mem_filterMap.2 ⟨_, ht, rfl⟩)
      simp [nodeProblem?, hname]
    | named name args a => simp [nodeProblem?, hknown name args a ht]
    | _ => rfl
  intro p hp
  simp only [definitionProblems, repetitions_eq_nil hparams fun _ _ => List.not_mem_nil, List.map_nil,
    List.nil_append, List.mem_append, List.mem_filterMap, List.mem_map] at hp
  obtain ⟨t, ht, hproblem⟩ | ⟨param, -, rfl⟩ := hp
  · rw [hnode t ht] at hproblem
    cases hproblem
  · simp [Problem.severity]

/-! ## Recursion -/

variable {items : List Item}

/-- The call graph holds applications of generics in generics of the file, and nothing else. -/
theorem exists_of_mem_calls {name : String} {call : Application}
    (h : call ∈ (callGraph items).calls name) : ∃ d ∈ items.map Item.definition, d.name = name ∧
      d.params ≠ [] ∧ call ∈ d.body.applications ∧ Calls (items.map Item.definition) name call.callee := by
  unfold CallGraph.calls at h
  cases hlookup : (callGraph items).lookup name with
  | none => simp [hlookup] at h
  | some applications =>
    simp only [hlookup, Option.getD_some] at h
    have hmem : (name, applications) ∈ callGraph items := Association.mem_of_lookup hlookup
    obtain ⟨d, hd, hentry⟩ := List.mem_map.1 (List.mem_reverse.1 hmem)
    obtain ⟨rfl, rfl⟩ := Prod.mk.inj hentry
    obtain ⟨happlication, hcallee⟩ := List.mem_filter.1 h
    obtain ⟨e, he, hname⟩ := List.mem_map.1 (List.contains_iff_mem.1 hcallee)
    obtain ⟨hmem, hparams⟩ := mem_generics.1 hd
    obtain ⟨hcalled, hgeneric⟩ := mem_generics.1 he
    exact ⟨d, hmem, rfl, hparams, happlication,
      ⟨d, hmem, rfl, hparams, call, happlication, rfl⟩, e, hcalled, hname, hgeneric⟩

theorem calls_of_leads {x y : String} (h : (callGraph items).Leads x y) :
    Relation.ReflTransGen (Calls (items.map Item.definition)) x y := by
  induction h with
  | refl => exact .refl
  | tail _ hcallee ih =>
    obtain ⟨call, hcall, rfl⟩ := List.mem_map.1 hcallee
    obtain ⟨-, -, -, -, -, hcalls⟩ := exists_of_mem_calls hcall
    exact ih.tail hcalls

/-- Nothing is reported of a generic that passes on nothing that grows. -/
theorem recursionProblems_eq_nil {catalogue : List Builtin}
    (h : WellFormed catalogue (items.map Item.definition)) (name : String) :
    recursionProblems (callGraph items) name = [] := by
  refine List.filterMap_eq_nil_iff.2 fun call hcall => if_neg fun hreported => ?_
  obtain ⟨hreaches, hgrowing⟩ := Bool.and_eq_true_iff.1 hreported
  obtain ⟨arg, harg, hgrowing⟩ := List.any_eq_true.1 hgrowing
  obtain ⟨d, hd, rfl, hparams, happlication, hcalls⟩ := exists_of_mem_calls hcall
  have hleads := calls_of_leads (CallGraph.leads_of_reaches hreaches)
  have hflat := h.regular d hd hparams call happlication hcalls hleads arg harg
  rw [hflat] at hgrowing
  cases hgrowing

/-! ## The three rounds together -/

/-- A known name is found with its arity, where no two definitions or built-ins share a name. -/
theorem lookup_of_hasArity {catalogue : List Builtin}
    (hcatalogue : (catalogue.map Builtin.name).Nodup)
    (h : WellFormed catalogue (items.map Item.definition)) {name : String} {arity : Nat}
    (hknown : HasArity catalogue (items.map Item.definition) name arity) :
    ((items.map fun item => (item.definition.name, item.definition.arity)).reverse ++
      (Scope.ofCatalogue catalogue).arities).lookup name = some arity := by
  have hkeys : ((items.map fun item => (item.definition.name, item.definition.arity)).reverse ++
      (Scope.ofCatalogue catalogue).arities).map Prod.fst =
        ((items.map Item.definition).map TypeDef.name).reverse ++ (catalogue.map Builtin.name).reverse := by
    simp [Scope.ofCatalogue, Function.comp_def]
  refine Association.lookup_of_mem ?_ ?_
  · rw [hkeys, List.nodup_append, List.nodup_reverse, List.nodup_reverse]
    refine ⟨h.names, hcatalogue, ?_⟩
    intro x hx y hy heq
    obtain ⟨d, hd, rfl⟩ := List.mem_map.1 (List.mem_reverse.1 hx)
    exact h.fresh d hd (heq ▸ List.mem_reverse.1 hy)
  · obtain ⟨d, hd, rfl, rfl⟩ | ⟨b, hb, rfl, rfl⟩ := hknown
    · obtain ⟨item, hitem, rfl⟩ := List.mem_map.1 hd
      exact List.mem_append_left _ (List.mem_reverse.2 (List.mem_map.2 ⟨item, hitem, rfl⟩))
    · exact List.mem_append_right _ (List.mem_reverse.2 (List.mem_map.2 ⟨b, hb, rfl⟩))

/-- A file that is in order is checked without an error. -/
theorem noErrors_of_wellFormed {catalogue : List Builtin}
    (hcatalogue : (catalogue.map Builtin.name).Nodup)
    (h : WellFormed catalogue (items.map Item.definition)) :
    hasErrors (check catalogue items) = false := by
  have hnames : (items.map fun item => item.definition.name).Nodup := by
    have hnodup := h.names
    rwa [List.map_map] at hnodup
  have hnew : ∀ item ∈ items, (Scope.ofCatalogue catalogue).arities.lookup item.definition.name = none := by
    intro item hitem
    refine List.lookup_eq_none_iff.2 fun entry hentry => ?_
    obtain ⟨b, hb, rfl⟩ := List.mem_map.1 (List.mem_reverse.1 hentry)
    refine bne_iff_ne.2 fun heq => h.fresh item.definition (List.mem_map_of_mem hitem) ?_
    exact heq ▸ List.mem_map_of_mem hb
  have hdeclarations := noErrors_declareAll hnames fun item hitem => ⟨rfl, hnew item hitem⟩
  obtain ⟨harities, -, -⟩ := declareAll_of_noErrors hdeclarations
  simp only [check, hasErrors_append, hasErrors_flatMap, hasErrors_problems]
  refine ⟨⟨hdeclarations, fun item hitem => ?_⟩, fun item hitem p hp => ?_⟩
  · have hd : item.definition ∈ items.map Item.definition := List.mem_map_of_mem hitem
    refine noErrors_definition (h.params _ hd) (h.bound _ hd) fun name args a hmem => ?_
    rw [harities]
    exact lookup_of_hasArity hcatalogue h (h.known _ hd name args a hmem)
  · rw [recursionProblems_eq_nil h] at hp
    cases hp

/-- The checker finds no error in exactly the files that are in order: names are distinct and new,
parameters are listed once, variables are parameters, every applied name is known, before or after its use,
and has the right number of arguments, and no generic hands an argument that grows to a generic that leads
back to it. -/
theorem noErrors_iff_wellFormed (items : List Item) :
    hasErrors (check Catalogue.standard items) = false ↔
      WellFormed Catalogue.standard (items.map Item.definition) :=
  ⟨wellFormed_of_check, noErrors_of_wellFormed nodup_standard⟩

end Check

end Monomorph
