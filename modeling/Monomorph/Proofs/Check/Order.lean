import Mathlib.Data.List.Perm.Basic
import Monomorph.Proofs.Check.WellFormed

/-!
# The checker and the order of definitions

What the checker says of a definition depends on the other definitions only through what it looks up in
them: whether a name is taken, the arity of a name, and the calls of a generic. Where no two definitions
share a name, each of these is the same in whatever order the definitions stand, so a file and a permuted
one get the same diagnostics, each once for each time that the other gets it.
-/

namespace Monomorph

namespace CallGraph

/-- What leads where depends on the calls of the generics, not on how a graph lists them. -/
theorem reaches_congr {graph other : CallGraph} (h : ∀ name, graph.calls name = other.calls name)
    (source target : String) : graph.reaches source target = other.reaches source target := by
  have hleads : graph.Leads = other.Leads := by
    have hcallees : graph.callees = other.callees := funext fun name => by rw [callees, callees, h]
    rw [Leads, Leads, hcallees]
  apply Bool.eq_iff_iff.2
  constructor
  · exact fun hreaches => reaches_of_leads (hleads ▸ leads_of_reaches hreaches)
  · exact fun hreaches => reaches_of_leads (hleads ▸ leads_of_reaches hreaches)

end CallGraph

namespace Check

variable {catalogue : List Builtin} {items permuted : List Item}

/-! ## Declarations -/

/-- What is said of a declaration depends on what is known of its name. -/
theorem declare_congr {scope other : Scope} {item : Item}
    (hdeclared : scope.declared.lookup item.definition.name = other.declared.lookup item.definition.name)
    (harity : scope.arities.lookup item.definition.name = other.arities.lookup item.definition.name) :
    (scope.declare item).2 = (other.declare item).2 := by
  simp only [Scope.declare, hdeclared, harity]
  split
  · rfl
  · split <;> rfl

/-- To declare a definition changes what is known of no other name. -/
theorem lookup_declare (scope : Scope) {item : Item} {name : String} (h : name ≠ item.definition.name) :
    (scope.declare item).1.declared.lookup name = scope.declared.lookup name ∧
      (scope.declare item).1.arities.lookup name = scope.arities.lookup name := by
  have hname : (name == item.definition.name) = false := beq_eq_false_iff_ne.2 h
  cases hdeclared : scope.declared.lookup item.definition.name with
  | some first => simp [Scope.declare, hdeclared]
  | none =>
    cases harity : scope.arities.lookup item.definition.name with
    | some arity => simp [Scope.declare, hdeclared, harity]
    | none => simp [Scope.declare, hdeclared, harity, List.lookup_cons, hname]

theorem scope_declareAll_cons (scope : Scope) (item : Item) (rest : List Item) :
    (scope.declareAll (item :: rest)).1 = ((scope.declare item).1.declareAll rest).1 := rfl

theorem diagnostics_declareAll_cons (scope : Scope) (item : Item) (rest : List Item) :
    (scope.declareAll (item :: rest)).2 = (scope.declare item).2.map (Problem.diagnostic item.span) ++
      ((scope.declare item).1.declareAll rest).2 := rfl

/-- Where no two definitions share a name, each is declared as if it were alone. -/
theorem diagnostics_declareAll (scope : Scope)
    (hnames : (items.map fun item => item.definition.name).Nodup) :
    (scope.declareAll items).2 =
      items.flatMap fun item => (scope.declare item).2.map (Problem.diagnostic item.span) := by
  induction items generalizing scope with
  | nil => rfl
  | cons item rest ih =>
    obtain ⟨hname, hnames⟩ := List.nodup_cons.1 hnames
    have hrest : ∀ other ∈ rest, ((scope.declare item).1.declare other).2 = (scope.declare other).2 := by
      intro other hother
      have hne : other.definition.name ≠ item.definition.name := by
        intro heq
        exact hname (List.mem_map.2 ⟨other, hother, heq⟩)
      exact declare_congr (lookup_declare scope hne).1 (lookup_declare scope hne).2
    rw [diagnostics_declareAll_cons, List.flatMap_cons, ih _ hnames]
    exact congrArg _ (List.flatMap_congr fun other hother => by rw [hrest other hother])

/-- After all declarations a name has the arity that it had before, or else that of the definition. -/
theorem lookup_declareAll {scope : Scope} (hnames : (items.map fun item => item.definition.name).Nodup)
    (hnew : ∀ item ∈ items, scope.declared.lookup item.definition.name = none) (name : String) :
    (scope.declareAll items).1.arities.lookup name = (scope.arities.lookup name).or
      ((items.map fun item => (item.definition.name, item.definition.arity)).lookup name) := by
  induction items generalizing scope with
  | nil => exact (Option.or_none).symm
  | cons item rest ih =>
    obtain ⟨hname, hnames⟩ := List.nodup_cons.1 hnames
    obtain ⟨hdeclared, hnew⟩ := List.forall_mem_cons.1 hnew
    have hne : ∀ other ∈ rest, other.definition.name ≠ item.definition.name := by
      intro other hother heq
      exact hname (List.mem_map.2 ⟨other, hother, heq⟩)
    rw [scope_declareAll_cons, ih hnames fun other hother =>
      (lookup_declare scope (hne other hother)).1.trans (hnew other hother)]
    by_cases heq : name = item.definition.name
    · subst heq
      cases harity : scope.arities.lookup item.definition.name with
      | some arity => simp [Scope.declare, hdeclared, harity]
      | none => simp [Scope.declare, hdeclared, harity]
    · rw [(lookup_declare scope heq).2, List.map_cons, List.lookup_cons, beq_eq_false_iff_ne.2 heq]

/-! ## Definitions -/

/-- What is wrong with a definition depends on the arities of names, not on how a scope lists them. -/
theorem definitionProblems_congr {arities other : List (String × Nat)}
    (h : ∀ name, arities.lookup name = other.lookup name) (d : TypeDef) :
    definitionProblems arities d = definitionProblems other d := by
  have hnode : nodeProblem? arities d = nodeProblem? other d := by
    funext t
    cases t with
    | named name args a => simp only [nodeProblem?, h]
    | _ => rfl
  rw [definitionProblems, definitionProblems, hnode]

/-! ## Recursion -/

/-- A generic has the same calls in whatever order the definitions stand. -/
theorem calls_callGraph_perm (hnames : ((items.map Item.definition).map TypeDef.name).Nodup)
    (h : items.Perm permuted) (name : String) :
    (callGraph items).calls name = (callGraph permuted).calls name := by
  have hgenerics : (generics items).Perm (generics permuted) := (h.map Item.definition).filter _
  have hcallee : (fun call : Application => ((generics items).map TypeDef.name).contains call.callee) =
      fun call => ((generics permuted).map TypeDef.name).contains call.callee := by
    funext call
    apply Bool.eq_iff_iff.2
    simp only [List.contains_iff_mem, (hgenerics.map TypeDef.name).mem_iff]
  have hgraph : (callGraph items).Perm (callGraph permuted) := by
    simp only [callGraph, hcallee]
    exact ((List.reverse_perm _).trans (hgenerics.map _)).trans (List.reverse_perm _).symm
  rw [CallGraph.calls, CallGraph.calls, Association.lookup_eq_of_perm (nodup_keys_callGraph hnames) hgraph]

/-- What is wrong with the recursion of a generic depends on calls, not on how a graph lists them. -/
theorem recursionProblems_congr {graph other : CallGraph}
    (h : ∀ name, graph.calls name = other.calls name) (caller : String) :
    recursionProblems graph caller = recursionProblems other caller := by
  rw [recursionProblems, recursionProblems, h]
  exact List.filterMap_congr fun call _ => by rw [CallGraph.reaches_congr h]

/-! ## The three rounds together -/

/-- Where no two definitions share a name, a file and a permuted one get the same diagnostics, up to their
order, whatever else is wrong with the definitions. -/
theorem check_perm (catalogue : List Builtin)
    (hnames : (items.map fun item => item.definition.name).Nodup) (h : items.Perm permuted) :
    (check catalogue items).Perm (check catalogue permuted) := by
  have hnames' : (permuted.map fun item => item.definition.name).Nodup := (h.map _).nodup hnames
  have harity : ∀ name, ((Scope.ofCatalogue catalogue).declareAll items).1.arities.lookup name =
      ((Scope.ofCatalogue catalogue).declareAll permuted).1.arities.lookup name := by
    intro name
    rw [lookup_declareAll hnames fun _ _ => rfl, lookup_declareAll hnames' fun _ _ => rfl]
    refine congrArg _ (Association.lookup_eq_of_perm ?_ (h.map _) name)
    rwa [List.map_map]
  have hcalls : ∀ name, (callGraph items).calls name = (callGraph permuted).calls name := by
    refine calls_callGraph_perm ?_ h
    rwa [List.map_map]
  simp only [check, diagnostics_declareAll _ hnames, diagnostics_declareAll _ hnames',
    definitionProblems_congr harity, recursionProblems_congr hcalls]
  exact ((h.flatMap_right _).append (h.flatMap_right _)).append (h.flatMap_right _)

/-- Definitions that refer to each other in both directions, with something wrong in each round. -/
def tangle : List Item :=
  [⟨⟨"list", [], ∅, .named "even" [.atom "int"] ∅⟩, ⟨0, 20⟩⟩,
    ⟨⟨"even", ["a"], ∅, .sum [⟨"Nil", none⟩,
      ⟨"Cons", some (.tuple [.var "a" ∅, .named "odd" [.var "a" ∅] ∅] ∅)⟩] ∅⟩, ⟨21, 60⟩⟩,
    ⟨⟨"odd", ["b"], ∅, .record [.labelled "next" (.named "even" [.container .list (.var "b" ∅) ∅] ∅),
      .labelled "gone" (.named "missing" [.var "c" ∅] ∅)] ∅⟩, ⟨61, 110⟩⟩,
    ⟨⟨"twin", ["a", "a"], ∅, .named "even" [.atom "int", .atom "list"] ∅⟩, ⟨111, 140⟩⟩]

/-- The diagnostics of `tangle` and of its definitions in reverse come in different orders. -/
theorem check_perm_tangle :
    (tangle.map fun item => item.definition.name).Nodup ∧ tangle.Perm tangle.reverse ∧
    (check Catalogue.standard tangle).map (fun d => (d.code.getD "", d.span.start)) =
      [("E0100", 0), ("E0103", 61), ("E0102", 61), ("E0101", 111), ("E0104", 111), ("E0104", 111),
        ("W0100", 111), ("W0100", 111), ("E0105", 61)] ∧
    check Catalogue.standard tangle ≠ check Catalogue.standard tangle.reverse ∧
    (check Catalogue.standard tangle).Perm (check Catalogue.standard tangle.reverse) := by
  have hnames : (tangle.map fun item => item.definition.name).Nodup := by decide
  have hperm : tangle.Perm tangle.reverse := (List.reverse_perm tangle).symm
  exact ⟨hnames, hperm, by decide +kernel, by decide +kernel, check_perm Catalogue.standard hnames hperm⟩

end Check

end Monomorph
