import Mathlib.Logic.Relation
import Monomorph.CallGraph

/-!
# Reachability along calls

A search keeps the generics that it has expanded apart from the names it has still to look at. Every turn
uses up a pending name or a call that is left, so no search goes on forever. What is expanded leads only to
what is expanded or pending, so a search that ends without its target leaves behind a set of generics that
calls do not lead out of, and the target is not in it.

None of this depends on the order in which the callees of a generic become pending. The search of `reaches`
is one of many, and its fuel outlasts its turns, so `reaches` answers what every other search would.
-/

namespace Monomorph

namespace CallGraph

variable {graph : CallGraph} {source target : String}

/-- Calls lead from one generic to another, in any number of steps. -/
def Leads (graph : CallGraph) : String → String → Prop :=
  Relation.ReflTransGen fun x y => y ∈ graph.callees x

/-- Calls do not lead out of a set that is closed under them. -/
theorem Leads.mem_of_closed {inside : String → Prop}
    (hclosed : ∀ x, inside x → ∀ y ∈ graph.callees x, inside y) {x y : String} (h : graph.Leads x y)
    (hx : inside x) : inside y := by
  induction h with
  | refl => exact hx
  | tail _ hstep ih => exact hclosed _ ih _ hstep

/-- A search under way: the generics that have been expanded, and the names to look at, the next one
first. -/
structure Search where
  seen : List String
  pending : List String

namespace Search

variable {s next : Search} {found : Bool}

/-- The search from one generic. -/
def start (source : String) : Search := ⟨[], [source]⟩

/-- The search has come across a name. -/
def Meets (s : Search) (name : String) : Prop := name ∈ s.seen ∨ name ∈ s.pending

/-- A search ends where its target is next, and where nothing is pending. -/
inductive Ends (target : String) : Search → Bool → Prop
  | found {seen pending : List String} : Ends target ⟨seen, target :: pending⟩ true
  | exhausted {seen : List String} : Ends target ⟨seen, []⟩ false

/-- A turn of the search drops the next name or expands it. The callees of a generic become pending in any
order. -/
inductive Turn (graph : CallGraph) (target : String) : Search → Search → Prop
  | skip {name : String} {seen pending : List String} (hname : name ≠ target) (hseen : name ∈ seen) :
      Turn graph target ⟨seen, name :: pending⟩ ⟨seen, pending⟩
  | expand {name : String} {seen pending callees : List String} (hname : name ≠ target)
      (hseen : name ∉ seen) (hcallees : callees.Perm (graph.callees name)) :
      Turn graph target ⟨seen, name :: pending⟩ ⟨name :: seen, callees ++ pending⟩

/-- Some turns lead to the end of the search, with this answer. -/
def Answers (graph : CallGraph) (target : String) (s : Search) (found : Bool) : Prop :=
  ∃ last, Relation.ReflTransGen (Turn graph target) s last ∧ last.Ends target found

/-! ## Searches end -/

/-- What the search can still look at: the pending names and the calls that are left. -/
def remaining (graph : CallGraph) (s : Search) : Nat := graph.weight s.seen + s.pending.length

theorem Turn.remaining_lt (h : Turn graph target s next) : next.remaining graph < s.remaining graph := by
  cases h with
  | skip _ _ =>
    simp only [remaining, List.length_cons]
    omega
  | expand _ hseen hcallees =>
    have hweight := graph.weight_cons_add hseen
    simp only [remaining, List.length_cons, List.length_append, hcallees.length_eq]
    omega

theorem wellFounded_turn (graph : CallGraph) (target : String) :
    WellFounded fun next s => Turn graph target s next :=
  Subrelation.wf Turn.remaining_lt (measure (remaining graph)).wf

/-- A search that has not ended goes on. -/
theorem ends_or_turn (graph : CallGraph) (target : String) (s : Search) :
    (∃ found, s.Ends target found) ∨ ∃ next, Turn graph target s next := by
  obtain ⟨seen, _ | ⟨name, pending⟩⟩ := s
  · exact Or.inl ⟨false, .exhausted⟩
  · by_cases hname : name = target
    · exact Or.inl ⟨true, hname ▸ .found⟩
    · by_cases hseen : name ∈ seen
      · exact Or.inr ⟨_, .skip hname hseen⟩
      · exact Or.inr ⟨_, .expand hname hseen (.refl _)⟩

theorem Answers.of_turn (h : Turn graph target s next) (hanswers : next.Answers graph target found) :
    s.Answers graph target found := by
  obtain ⟨last, hrun, hends⟩ := hanswers
  exact ⟨last, .head h hrun, hends⟩

theorem Answers.of_ends (h : s.Ends target found) : s.Answers graph target found := ⟨s, .refl, h⟩

/-- Fuel for all that remains is enough. -/
theorem answers_search {fuel : Nat} (hfuel : s.remaining graph ≤ fuel) :
    s.Answers graph target (search graph target fuel s.seen s.pending) := by
  induction fuel generalizing s with
  | zero =>
    obtain ⟨seen, pending⟩ := s
    have hpending : pending.length ≤ 0 := Nat.le_trans (Nat.le_add_left _ _) hfuel
    obtain rfl := List.eq_nil_of_length_eq_zero (Nat.eq_zero_of_le_zero hpending)
    exact .of_ends .exhausted
  | succ fuel ih =>
    obtain ⟨seen, _ | ⟨name, pending⟩⟩ := s
    · exact .of_ends .exhausted
    · -- One unit of fuel pays for one turn, and what is left is enough for what then remains.
      have hstep : ∀ {next}, Turn graph target ⟨seen, name :: pending⟩ next →
          Answers graph target ⟨seen, name :: pending⟩ (search graph target fuel next.seen next.pending) :=
        fun h => .of_turn h (ih (Nat.le_of_lt_succ (Nat.lt_of_lt_of_le h.remaining_lt hfuel)))
      rw [search]
      by_cases hname : name = target
      · rw [if_pos hname]
        exact .of_ends (hname ▸ .found)
      rw [if_neg hname]
      by_cases hseen : name ∈ seen
      · rw [if_pos hseen]
        exact hstep (.skip hname hseen)
      · rw [if_neg hseen]
        exact hstep (.expand hname hseen (.refl _))

/-! ## Answers are right -/

/-- What a search for a target from a source keeps: it has come across its source, calls lead to all that is
pending, the target has not been expanded, and what has been expanded leads only to names it has come
across. -/
structure Explores (graph : CallGraph) (source target : String) (s : Search) : Prop where
  started : s.Meets source
  leads : ∀ name ∈ s.pending, graph.Leads source name
  missed : target ∉ s.seen
  closed : ∀ name ∈ s.seen, ∀ callee ∈ graph.callees name, s.Meets callee

theorem explores_start (graph : CallGraph) (source target : String) :
    Explores graph source target (start source) where
  started := Or.inr (List.mem_singleton_self source)
  leads _ hname := List.mem_singleton.1 hname ▸ .refl
  missed := List.not_mem_nil
  closed := nofun

/-- A turn forgets no name. -/
theorem Turn.meets (h : Turn graph target s next) {name : String} (hname : s.Meets name) :
    next.Meets name := by
  cases h with
  | skip _ hseen =>
    obtain hname | hname := hname
    · exact Or.inl hname
    · obtain rfl | hname := List.mem_cons.1 hname
      · exact Or.inl hseen
      · exact Or.inr hname
  | expand _ _ _ =>
    obtain hname | hname := hname
    · exact Or.inl (List.mem_cons_of_mem _ hname)
    · obtain rfl | hname := List.mem_cons.1 hname
      · exact Or.inl List.mem_cons_self
      · exact Or.inr (List.mem_append_right _ hname)

theorem Explores.turn (h : Explores graph source target s) (hturn : Turn graph target s next) :
    Explores graph source target next := by
  have hmeets := fun name hname callee hcallee => hturn.meets (h.closed name hname callee hcallee)
  have hstarted := hturn.meets h.started
  cases hturn with
  | skip _ _ => exact ⟨hstarted, (List.forall_mem_cons.1 h.leads).2, h.missed, hmeets⟩
  | expand hname _ hcallees =>
    obtain ⟨hlead, hleads⟩ := List.forall_mem_cons.1 h.leads
    refine ⟨hstarted, List.forall_mem_append.2 ⟨fun callee hcallee => ?_, hleads⟩, ?_,
      List.forall_mem_cons.2 ⟨fun callee hcallee => ?_, hmeets⟩⟩
    · exact hlead.tail (hcallees.mem_iff.1 hcallee)
    · rw [List.mem_cons, not_or]
      exact ⟨Ne.symm hname, h.missed⟩
    · exact Or.inr (List.mem_append_left _ (hcallees.mem_iff.2 hcallee))

theorem Explores.run (h : Explores graph source target s)
    (hrun : Relation.ReflTransGen (Turn graph target) s next) : Explores graph source target next := by
  induction hrun with
  | refl => exact h
  | tail _ hturn ih => exact ih.turn hturn

theorem Explores.ends (h : Explores graph source target s) (hends : s.Ends target found) :
    found = true ↔ graph.Leads source target := by
  cases hends with
  | found => exact iff_of_true rfl (h.leads target List.mem_cons_self)
  | @exhausted seen =>
    -- With nothing pending, the expanded generics are closed under calls.
    have hmem : ∀ {name}, Meets ⟨seen, []⟩ name → name ∈ seen := fun hname =>
      hname.resolve_right List.not_mem_nil
    refine iff_of_false Bool.false_ne_true fun hleads => h.missed ?_
    exact hleads.mem_of_closed (fun x hx y hy => hmem (h.closed x hx y hy)) (hmem h.started)

theorem Answers.eq_true_iff (h : (start source).Answers graph target found) :
    found = true ↔ graph.Leads source target := by
  obtain ⟨last, hrun, hends⟩ := h
  exact ((explores_start graph source target).run hrun).ends hends

end Search

/-! ## The search of `reaches` -/

theorem answers_reaches (graph : CallGraph) (source target : String) :
    (Search.start source).Answers graph target (graph.reaches source target) :=
  Search.answers_search (Nat.le_refl _)

/-- The search finds whatever calls lead to. -/
theorem reaches_of_leads (h : graph.Leads source target) : graph.reaches source target = true :=
  (answers_reaches graph source target).eq_true_iff.2 h

/-- The search finds nothing but what calls lead to. -/
theorem leads_of_reaches (h : graph.reaches source target = true) : graph.Leads source target :=
  (answers_reaches graph source target).eq_true_iff.1 h

/-- All searches agree. -/
theorem Search.Answers.eq_reaches {found : Bool} (h : (start source).Answers graph target found) :
    graph.reaches source target = found :=
  Bool.eq_iff_iff.2 ((answers_reaches graph source target).eq_true_iff.trans h.eq_true_iff.symm)

/-- Every search ends, in whatever order names become pending, and answers whether calls lead from its source
to its target. `reaches` gives this answer, and more fuel would not change it. -/
theorem reaches_decides (graph : CallGraph) (source target : String) :
    (WellFounded fun next s => Search.Turn graph target s next) ∧
    (∀ s : Search, (∃ found, s.Ends target found) ∨ ∃ next, Search.Turn graph target s next) ∧
    (∀ found, (Search.start source).Answers graph target found ↔ graph.reaches source target = found) ∧
    (∀ more, search graph target (graph.weight [] + 1 + more) [] [source] =
      graph.reaches source target) ∧
    (graph.reaches source target = true ↔ graph.Leads source target) := by
  refine ⟨Search.wellFounded_turn graph target, Search.ends_or_turn graph target, fun found => ?_,
    fun more => ?_, leads_of_reaches, reaches_of_leads⟩
  · exact ⟨Search.Answers.eq_reaches, fun h => h ▸ answers_reaches graph source target⟩
  · have hfuel : (Search.start source).remaining graph ≤ graph.weight [] + 1 + more :=
      Nat.le_add_right _ more
    exact (Search.Answers.eq_reaches (Search.answers_search hfuel)).symm

/-- A generic that applies itself and, twice, a name without an entry; nothing leads back from there. -/
example :
    let graph : CallGraph := [("tree", [⟨"leaf", []⟩, ⟨"tree", []⟩, ⟨"leaf", []⟩])]
    graph.reaches "tree" "leaf" = true ∧ graph.reaches "leaf" "tree" = false := by decide

end CallGraph

end Monomorph
