import Mathlib.Tactic.ByContra
import Monomorph.Check
import Monomorph.Proofs.Association
import Monomorph.Proofs.Check.Reachability

/-!
# What the checker guarantees

`WellFormed` says what it means for the definitions of a file to be in order, without diagnostics,
scopes or searches. A file without errors is well formed: `Check.wellFormed_of_check` collects what each
round of the checker contributes.
-/

namespace Monomorph

/-- A name stands for a definition or a built-in with this number of parameters. -/
def HasArity (catalogue : List Builtin) (definitions : List TypeDef) (name : String) (arity : Nat) :
    Prop :=
  (∃ d ∈ definitions, d.name = name ∧ d.arity = arity) ∨ ∃ b ∈ catalogue, b.name = name ∧ b.arity = arity

instance (catalogue : List Builtin) (definitions : List TypeDef) (name : String) (arity : Nat) :
    Decidable (HasArity catalogue definitions name arity) :=
  inferInstanceAs (Decidable (_ ∨ _))

/-- A generic of the file applies another one, or itself. -/
def Calls (definitions : List TypeDef) (caller callee : String) : Prop :=
  (∃ d ∈ definitions, d.name = caller ∧ d.params ≠ [] ∧
    ∃ call ∈ d.body.applications, call.callee = callee) ∧
  ∃ d ∈ definitions, d.name = callee ∧ d.params ≠ []

/-- The definitions of a file are in order. -/
structure WellFormed (catalogue : List Builtin) (definitions : List TypeDef) : Prop where
  names : (definitions.map TypeDef.name).Nodup
  fresh : ∀ d ∈ definitions, d.name ∉ catalogue.map Builtin.name
  params : ∀ d ∈ definitions, d.params.Nodup
  bound : ∀ d ∈ definitions, d.body.varNames ⊆ d.params
  known : ∀ d ∈ definitions, ∀ name args a, .named name args a ∈ d.body.subterms →
    HasArity catalogue definitions name args.length
  regular : ∀ d ∈ definitions, d.params ≠ [] → ∀ call ∈ d.body.applications,
    Calls definitions d.name call.callee →
    Relation.ReflTransGen (Calls definitions) call.callee d.name →
    ∀ arg ∈ call.args, Check.isGrowing arg = false

/-- Definitions are in order wherever they stand. -/
theorem WellFormed.perm {catalogue : List Builtin} {definitions permuted : List TypeDef}
    (h : WellFormed catalogue definitions) (hperm : definitions.Perm permuted) :
    WellFormed catalogue permuted := by
  have hmem : ∀ {d}, d ∈ permuted ↔ d ∈ definitions := hperm.mem_iff.symm
  have hcalls : Calls permuted = Calls definitions := by
    funext caller callee
    simp only [Calls, hmem]
  constructor
  · exact (hperm.map TypeDef.name).nodup h.names
  · exact fun d hd => h.fresh d (hmem.1 hd)
  · exact fun d hd => h.params d (hmem.1 hd)
  · exact fun d hd => h.bound d (hmem.1 hd)
  · intro d hd name args a hnode
    have harity := h.known d (hmem.1 hd) name args a hnode
    simp only [HasArity, hmem] at harity ⊢
    exact harity
  · rw [hcalls]
    exact fun d hd => h.regular d (hmem.1 hd)

namespace Check

/-! ## Errors among diagnostics -/

@[simp] theorem hasErrors_append (ds es : List Diagnostic) :
    hasErrors (ds ++ es) = false ↔ hasErrors ds = false ∧ hasErrors es = false := by
  simp [hasErrors]

theorem hasErrors_problems (span : Span) (problems : List Problem) :
    hasErrors (problems.map (Problem.diagnostic span)) = false ↔
      ∀ p ∈ problems, p.severity ≠ .error := by
  simp [hasErrors, Diagnostic.isError, Problem.diagnostic]

theorem hasErrors_flatMap {α : Type} (f : α → List Diagnostic) (items : List α) :
    hasErrors (items.flatMap f) = false ↔ ∀ x ∈ items, hasErrors (f x) = false := by
  simp only [hasErrors, List.any_flatMap, List.any_eq_false, Bool.not_eq_true]

/-! ## Declarations -/

/-- A definition that is declared without an error has a new name. -/
theorem declare_of_noErrors {scope : Scope} {item : Item}
    (h : ∀ p ∈ (scope.declare item).2, p.severity ≠ .error) :
    scope.arities.lookup item.definition.name = none ∧ (scope.declare item).1.arities =
      (item.definition.name, item.definition.arity) :: scope.arities := by
  unfold Scope.declare at h ⊢
  cases hdeclared : scope.declared.lookup item.definition.name with
  | some first => exact absurd rfl (h (.duplicateType item.definition.name first) (by simp [hdeclared]))
  | none =>
    cases harity : scope.arities.lookup item.definition.name with
    | some arity =>
      exact absurd rfl (h (.redeclaredBuiltin item.definition.name) (by simp [hdeclared, harity]))
    | none => simp [hdeclared, harity]

/-- Definitions that are declared without an error have new and distinct names. -/
theorem declareAll_of_noErrors {scope : Scope} {items : List Item}
    (h : hasErrors (scope.declareAll items).2 = false) :
    (scope.declareAll items).1.arities =
        (items.map fun item => (item.definition.name, item.definition.arity)).reverse ++ scope.arities ∧
      (items.map fun item => item.definition.name).Nodup ∧
      ∀ item ∈ items, scope.arities.lookup item.definition.name = none := by
  induction items generalizing scope with
  | nil => exact ⟨rfl, List.nodup_nil, nofun⟩
  | cons item rest ih =>
    rw [Scope.declareAll, hasErrors_append, hasErrors_problems] at h
    obtain ⟨hnew, harities⟩ := declare_of_noErrors h.1
    obtain ⟨ihArities, ihNodup, ihNew⟩ := ih h.2
    have hrest : ∀ other ∈ rest, item.definition.name ≠ other.definition.name ∧
        scope.arities.lookup other.definition.name = none := by
      intro other hother
      have hlookup := ihNew other hother
      rw [harities, List.lookup_cons] at hlookup
      split at hlookup
      · cases hlookup
      · next hne => exact ⟨Ne.symm (beq_eq_false_iff_ne.1 hne), hlookup⟩
    refine ⟨?_, List.nodup_cons.2 ⟨fun hmem => ?_, ihNodup⟩, List.forall_mem_cons.2
      ⟨hnew, fun other hother => (hrest other hother).2⟩⟩
    · rw [Scope.declareAll, List.map_cons, List.reverse_cons, List.append_assoc]
      exact ihArities.trans (congrArg _ harities)
    · obtain ⟨other, hother, heq⟩ := List.mem_map.1 hmem
      exact (hrest other hother).1 heq.symm

/-! ## Definitions -/

theorem nodup_of_repetitions {seen params : List String} (h : repetitions seen params = []) :
    params.Nodup ∧ ∀ param ∈ params, param ∉ seen := by
  induction params generalizing seen with
  | nil => exact ⟨List.nodup_nil, nofun⟩
  | cons param rest ih =>
    rw [repetitions] at h
    split at h
    · cases h
    · next hparam =>
      obtain ⟨hnodup, hfresh⟩ := ih h
      refine ⟨List.nodup_cons.2 ⟨fun hmem => hfresh param hmem List.mem_cons_self, hnodup⟩,
        List.forall_mem_cons.2 ⟨hparam, fun other hother hseen => ?_⟩⟩
      exact hfresh other hother (List.mem_cons_of_mem _ hseen)

theorem severity_of_nodeProblem? {arities : List (String × Nat)} {d : TypeDef} {t : TypeExpr}
    {p : Problem} (h : nodeProblem? arities d t = some p) : p.severity = .error := by
  unfold nodeProblem? at h
  split at h
  · split at h
    · cases h
    · obtain rfl := Option.some.inj h
      rfl
  · split at h
    · obtain rfl := Option.some.inj h
      rfl
    · split at h
      · cases h
      · obtain rfl := Option.some.inj h
        rfl
  · cases h

/-- What a definition without errors looks like. -/
theorem definition_of_noErrors {arities : List (String × Nat)} {d : TypeDef}
    (h : ∀ p ∈ definitionProblems arities d, p.severity ≠ .error) :
    d.params.Nodup ∧ d.body.varNames ⊆ d.params ∧ ∀ name args a,
      .named name args a ∈ d.body.subterms → arities.lookup name = some args.length := by
  unfold definitionProblems at h
  simp only [List.mem_append] at h
  have hnode : ∀ t ∈ d.body.subterms, nodeProblem? arities d t = none := by
    intro t ht
    cases hp : nodeProblem? arities d t with
    | none => rfl
    | some p =>
      exact absurd (severity_of_nodeProblem? hp)
        (h p (Or.inl (Or.inr (List.mem_filterMap.2 ⟨t, ht, hp⟩))))
  refine ⟨(@nodup_of_repetitions [] d.params ?_).1, fun name hname => ?_, fun name args a hmem => ?_⟩
  · apply List.eq_nil_iff_forall_not_mem.2
    intro param hparam
    exact absurd rfl (h _ (Or.inl (Or.inl (List.mem_map_of_mem hparam))))
  · obtain ⟨t, ht, hvar⟩ := List.mem_filterMap.1 hname
    obtain ⟨a, rfl⟩ := TypeExpr.var?_eq_some.1 hvar
    by_contra hparam
    have hnone := hnode _ ht
    rw [nodeProblem?, if_neg hparam] at hnone
    cases hnone
  · have hnone := hnode _ hmem
    simp only [nodeProblem?] at hnone
    split at hnone
    · cases hnone
    · next expected hlookup =>
      split at hnone
      · next hlength => rw [hlookup, hlength]
      · cases hnone

/-! ## Recursion -/

variable {items : List Item}

theorem mem_generics {d : TypeDef} :
    d ∈ generics items ↔ d ∈ items.map Item.definition ∧ d.params ≠ [] := by
  simp [generics]

theorem nodup_keys_callGraph (hnodup : ((items.map Item.definition).map TypeDef.name).Nodup) :
    ((callGraph items).map Prod.fst).Nodup := by
  have hnames : (callGraph items).map Prod.fst = ((generics items).map TypeDef.name).reverse := by
    rw [callGraph, List.map_reverse, List.map_map]
    rfl
  rw [hnames]
  exact List.pairwise_reverse.2 ((hnodup.sublist (List.filter_sublist.map _)).imp Ne.symm)

/-- The calls of a generic are its applications of generics. -/
theorem calls_callGraph (hnodup : ((items.map Item.definition).map TypeDef.name).Nodup) {d : TypeDef}
    (hd : d ∈ generics items) : (callGraph items).calls d.name =
      d.body.applications.filter fun a => ((generics items).map TypeDef.name).contains a.callee := by
  rw [CallGraph.calls, Association.lookup_of_mem (nodup_keys_callGraph hnodup)]
  · rfl
  · exact List.mem_reverse.2 (List.mem_map_of_mem hd)

theorem mem_callees_of_calls (hnodup : ((items.map Item.definition).map TypeDef.name).Nodup)
    {caller callee : String} (h : Calls (items.map Item.definition) caller callee) :
    callee ∈ (callGraph items).callees caller := by
  obtain ⟨⟨d, hd, rfl, hparams, call, hcall, rfl⟩, e, he, hname, heparams⟩ := h
  rw [CallGraph.callees, calls_callGraph hnodup (mem_generics.2 ⟨hd, hparams⟩)]
  refine List.mem_map_of_mem (List.mem_filter.2 ⟨hcall, ?_⟩)
  rw [List.contains_iff_mem, ← hname]
  exact List.mem_map_of_mem (mem_generics.2 ⟨he, heparams⟩)

theorem leads_of_calls (hnodup : ((items.map Item.definition).map TypeDef.name).Nodup) {x y : String}
    (h : Relation.ReflTransGen (Calls (items.map Item.definition)) x y) :
    (callGraph items).Leads x y := by
  induction h with
  | refl => exact .refl
  | tail _ hcalls ih => exact ih.tail (mem_callees_of_calls hnodup hcalls)

/-- A generic without errors passes nothing that grows to calls that can lead back to it. -/
theorem regular_of_noErrors (hnodup : ((items.map Item.definition).map TypeDef.name).Nodup)
    {d : TypeDef} (hd : d ∈ items.map Item.definition) (hparams : d.params ≠ [])
    (h : ∀ p ∈ recursionProblems (callGraph items) d.name, p.severity ≠ .error) {call : Application}
    (hcall : call ∈ d.body.applications) (hcalls : Calls (items.map Item.definition) d.name call.callee)
    (hleads : Relation.ReflTransGen (Calls (items.map Item.definition)) call.callee d.name) :
    ∀ arg ∈ call.args, isGrowing arg = false := by
  intro arg harg
  by_contra hgrowing
  have hmem : call ∈ (callGraph items).calls d.name := by
    obtain ⟨-, e, he, hname, heparams⟩ := hcalls
    rw [calls_callGraph hnodup (mem_generics.2 ⟨hd, hparams⟩)]
    refine List.mem_filter.2 ⟨hcall, ?_⟩
    rw [List.contains_iff_mem, ← hname]
    exact List.mem_map_of_mem (mem_generics.2 ⟨he, heparams⟩)
  have hreaches := CallGraph.reaches_of_leads (leads_of_calls hnodup hleads)
  have hany : call.args.any isGrowing = true :=
    List.any_eq_true.2 ⟨arg, harg, by simpa using hgrowing⟩
  refine absurd rfl (h (.growingRecursion call.callee d.name) ?_)
  exact List.mem_filterMap.2 ⟨call, hmem, by simp [hreaches, hany]⟩

/-! ## The three rounds together -/

theorem lookup_ofCatalogue {catalogue : List Builtin} {name : String}
    (h : (Scope.ofCatalogue catalogue).arities.lookup name = none) :
    name ∉ catalogue.map Builtin.name := by
  intro hmem
  obtain ⟨b, hb, rfl⟩ := List.mem_map.1 hmem
  have hentry : (b.name, b.arity) ∈ (Scope.ofCatalogue catalogue).arities :=
    List.mem_reverse.2 (List.mem_map_of_mem hb)
  have hne := List.lookup_eq_none_iff.1 h _ hentry
  simp at hne

theorem hasArity_of_lookup {catalogue : List Builtin} {name : String} {arity : Nat}
    (h : ((items.map fun item => (item.definition.name, item.definition.arity)).reverse ++
      (Scope.ofCatalogue catalogue).arities).lookup name = some arity) :
    HasArity catalogue (items.map Item.definition) name arity := by
  obtain hmem | hmem := List.mem_append.1 (Association.mem_of_lookup h)
  · obtain ⟨item, hitem, heq⟩ := List.mem_map.1 (List.mem_reverse.1 hmem)
    obtain ⟨rfl, rfl⟩ := Prod.mk.inj heq
    exact Or.inl ⟨item.definition, List.mem_map_of_mem hitem, rfl, rfl⟩
  · obtain ⟨b, hb, heq⟩ := List.mem_map.1 (List.mem_reverse.1 hmem)
    obtain ⟨rfl, rfl⟩ := Prod.mk.inj heq
    exact Or.inr ⟨b, hb, rfl, rfl⟩

/-- The definitions of a file without errors are in order. -/
theorem wellFormed_of_check {catalogue : List Builtin} {items : List Item}
    (h : hasErrors (check catalogue items) = false) :
    WellFormed catalogue (items.map Item.definition) := by
  unfold check at h
  simp only [hasErrors_append, hasErrors_flatMap, hasErrors_problems] at h
  obtain ⟨⟨hdeclarations, hdefinitions⟩, hrecursion⟩ := h
  obtain ⟨harities, hnames, hnew⟩ := declareAll_of_noErrors hdeclarations
  have hnodup : ((items.map Item.definition).map TypeDef.name).Nodup := by
    rw [List.map_map]
    exact hnames
  have hdefinition := fun item hitem => definition_of_noErrors (hdefinitions item hitem)
  constructor
  · exact hnodup
  · rintro d hd
    obtain ⟨item, hitem, rfl⟩ := List.mem_map.1 hd
    exact lookup_ofCatalogue (hnew item hitem)
  · rintro d hd
    obtain ⟨item, hitem, rfl⟩ := List.mem_map.1 hd
    exact (hdefinition item hitem).1
  · rintro d hd
    obtain ⟨item, hitem, rfl⟩ := List.mem_map.1 hd
    exact (hdefinition item hitem).2.1
  · rintro d hd name args a hmem
    obtain ⟨item, hitem, rfl⟩ := List.mem_map.1 hd
    have hlookup := (hdefinition item hitem).2.2 name args a hmem
    rw [harities] at hlookup
    exact hasArity_of_lookup hlookup
  · rintro d hd hparams call hcall hcalls hleads
    obtain ⟨item, hitem, rfl⟩ := List.mem_map.1 hd
    exact regular_of_noErrors hnodup hd hparams (hrecursion item hitem) hcall hcalls hleads

end Check

end Monomorph
