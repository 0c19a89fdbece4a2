import Monomorph.TypeExpr.Traversal

/-!
# Calls between generics

A generic calls another where its body applies it to arguments. `reaches` asks whether one generic
leads to another along calls, by a search that expands each generic at most once. `weight_cons_add`
is the reason why the search is never cut short: expanding a generic adds fewer pending names than
it takes from the calls that are left.
-/

namespace Monomorph

/-- The application of a name to at least one argument. -/
structure Application where
  callee : String
  args : List TypeExpr
deriving DecidableEq, Repr

/-- The application that an expression is at its root. -/
def TypeExpr.application? : TypeExpr → Option Application
  | named name (arg :: args) _ => some ⟨name, arg :: args⟩
  | _ => none

/-- All applications in an expression, in the order of reading. -/
def TypeExpr.applications (t : TypeExpr) : List Application := t.subterms.filterMap application?

/-- The applications in the body of each generic. Of two entries for a name the first one holds. -/
abbrev CallGraph := List (String × List Application)

namespace CallGraph

/-- The applications in the body of a generic. -/
def calls (graph : CallGraph) (name : String) : List Application := (graph.lookup name).getD []

/-- The names that a generic applies. -/
def callees (graph : CallGraph) (name : String) : List String :=
  (graph.calls name).map Application.callee

/-- The number of calls from generics that are not in `seen`. -/
def weight : CallGraph → List String → Nat
  | [], _ => 0
  | (key, applications) :: graph, seen =>
    (if key ∈ seen then 0 else applications.length) + weight graph seen

/-- Whether `target` is among the pending names or those they lead to, where the generics in `seen`
have been expanded; `fuel` bounds the number of names looked at. -/
def search (graph : CallGraph) (target : String) :
    Nat → List String → List String → Bool
  | 0, _, _ => false
  | _ + 1, _, [] => false
  | fuel + 1, seen, name :: pending =>
    if name = target then true
    else if name ∈ seen then search graph target fuel seen pending
    else search graph target fuel (name :: seen) (graph.callees name ++ pending)

/-- Whether calls lead from one generic to another, in any number of steps, none included. -/
def reaches (graph : CallGraph) (source target : String) : Bool :=
  search graph target (graph.weight [] + 1) [] [source]

theorem weight_cons (key : String) (applications : List Application) (graph : CallGraph)
    (seen : List String) : weight ((key, applications) :: graph) seen =
      (if key ∈ seen then 0 else applications.length) + weight graph seen := rfl

theorem calls_cons (key name : String) (applications : List Application) (graph : CallGraph) :
    calls ((key, applications) :: graph) name =
      if name = key then applications else graph.calls name := by
  by_cases h : name = key
  · subst h
    simp [calls]
  · have : (name == key) = false := beq_eq_false_iff_ne.2 h
    simp [calls, List.lookup_cons, this, h]

theorem weight_cons_le (graph : CallGraph) (name : String) (seen : List String) :
    graph.weight (name :: seen) ≤ graph.weight seen := by
  induction graph with
  | nil => exact Nat.le_refl 0
  | cons entry graph ih =>
    obtain ⟨key, applications⟩ := entry
    by_cases h : key ∈ seen
    · simpa [weight_cons, h] using ih
    · simp only [weight_cons, List.mem_cons, h, or_false, ↓reduceIte]
      split <;> omega

/-- Expanding a generic for the first time uses up at least as many calls as it makes pending. -/
theorem weight_cons_add (graph : CallGraph) {seen : List String} {name : String}
    (h : name ∉ seen) :
    graph.weight (name :: seen) + (graph.callees name).length ≤ graph.weight seen := by
  induction graph with
  | nil => exact Nat.le_refl 0
  | cons entry graph ih =>
    obtain ⟨key, applications⟩ := entry
    simp only [weight_cons, callees, calls_cons, List.mem_cons, List.length_map] at ih ⊢
    by_cases hkey : name = key
    · subst hkey
      have := weight_cons_le graph name seen
      simp only [h, ↓reduceIte, true_or]
      omega
    · simp only [hkey, Ne.symm hkey, ↓reduceIte, false_or]
      omega

end CallGraph

end Monomorph
