import Monomorph.Proofs.Expansion.Step

/-!
# The order in which specializations are begun

Which specializations an expansion makes, and in which order it begins them, depends on nothing but the
definitions of the generics and the uses that are met. `Visits` says so without a table or an engine:
a use whose specialization has been begun is passed over, any other one is followed at once by the
uses that its own body leads to.

The specializations that are begun in the end are closed under the uses that they lead to, each of them
is begun once, and whatever holds of the uses at hand and is handed down holds of all of them.
-/

namespace Monomorph

/-- The definitions that specializations are made from. None of them is a specialization itself. -/
structure Library where
  find : String → Option TypeDef
  plain : ∀ {name d}, find name = some d → isSynthetic name = false

/-- The names of the specializations for some uses. -/
def Use.names (uses : List Use) : List String := uses.map Use.name

theorem Use.name_mem_names {u : Use} {uses : List Use} (h : u ∈ uses) : u.name ∈ names uses :=
  List.mem_map_of_mem h

@[simp] theorem Use.names_append (us vs : List Use) : names (us ++ vs) = names us ++ names vs :=
  List.map_append ..

/-- Where specializations for the uses in `seen` have been begun, some further uses begin those in
`added`, in this order. -/
inductive Visits (library : Library) : List Use → List Use → List Use → Prop
  | done {seen : List Use} : Visits library seen [] []
  | known {seen : List Use} {u : Use} {rest added : List Use} (hseen : u.name ∈ Use.names seen)
      (hrest : Visits library seen rest added) : Visits library seen (u :: rest) added
  | fresh {seen : List Use} {u : Use} {declared : TypeDef} {rest inner outer : List Use}
      (hseen : u.name ∉ Use.names seen) (hdeclared : library.find u.generic = some declared)
      (hinner : Visits library (seen ++ [u]) (u.nested declared) inner)
      (houter : Visits library (seen ++ u :: inner) rest outer) :
      Visits library seen (u :: rest) (u :: inner ++ outer)

/-- What holds of uses that can be specialized, and is handed down to the uses they lead to. -/
structure Library.Supports (library : Library) (Q : Use → Prop) : Prop where
  declared : ∀ {u}, Q u → ∃ d, library.find u.generic = some d ∧ d.arity = u.args.length
  nested : ∀ {u d v}, Q u → library.find u.generic = some d → v ∈ u.nested d → Q v

namespace Visits

variable {library : Library} {seen uses added : List Use}

theorem append {more further : List Use} (hfirst : Visits library seen uses added)
    (hsecond : Visits library (seen ++ added) more further) :
    Visits library seen (uses ++ more) (added ++ further) := by
  induction hfirst with
  | done => simpa using hsecond
  | known hseen _ ih => exact .known hseen (ih hsecond)
  | fresh hseen hdeclared hinner _ _ ihOuter =>
    rw [List.cons_append, List.append_assoc]
    refine .fresh hseen hdeclared hinner (ihOuter ?_)
    simpa using hsecond

/-- What is begun does not depend on anything else. -/
theorem unique {added' : List Use} (h : Visits library seen uses added)
    (h' : Visits library seen uses added') : added = added' := by
  induction h generalizing added' with
  | done =>
    cases h'
    rfl
  | known hseen _ ih =>
    cases h' with
    | known _ hrest => exact ih hrest
    | fresh hfresh => exact absurd hseen hfresh
  | fresh hseen hdeclared _ _ ihInner ihOuter =>
    cases h' with
    | known hknown => exact absurd hknown hseen
    | fresh _ hdeclared' hinner houter =>
      obtain rfl := Option.some.inj (hdeclared.symm.trans hdeclared')
      obtain rfl := ihInner hinner
      rw [ihOuter houter]

/-- Every use that is met has a specialization in the end. -/
theorem covers (h : Visits library seen uses added) :
    ∀ u ∈ uses, u.name ∈ Use.names (seen ++ added) := by
  induction h with
  | done => nofun
  | known hseen _ ih =>
    rintro v (_ | ⟨_, hv⟩)
    · rw [Use.names_append]
      exact List.mem_append_left _ hseen
    · exact ih v hv
  | fresh _ _ _ _ _ ihOuter =>
    rintro v (_ | ⟨_, hv⟩)
    · exact Use.name_mem_names (by simp)
    · simpa using ihOuter v hv

/-- The uses that a specialization leads to have specializations. -/
theorem closed (h : Visits library seen uses added) {u : Use} (hu : u ∈ added) {declared : TypeDef}
    (hdeclared : library.find u.generic = some declared) :
    ∀ v ∈ u.nested declared, v.name ∈ Use.names (seen ++ added) := by
  induction h with
  | done => cases hu
  | known _ _ ih => exact ih hu
  | @fresh seen w declared' rest inner outer _ hdeclared' hinner _ ihInner ihOuter =>
    intro v hv
    have hsubset : seen ++ [w] ++ inner ⊆ seen ++ (w :: inner ++ outer) := by
      intro x hx
      simp only [List.mem_append, List.mem_cons, List.not_mem_nil, or_false] at hx ⊢
      tauto
    have hwiden := List.map_subset Use.name hsubset
    obtain hu | hu := List.mem_append.1 hu
    · obtain rfl | hu := List.mem_cons.1 hu
      · obtain rfl := Option.some.inj (hdeclared.symm.trans hdeclared')
        exact hwiden (hinner.covers v hv)
      · exact hwiden (ihInner hu v hv)
    · simpa using ihOuter hu v hv

/-- No specialization is begun twice. -/
theorem nodup (h : Visits library seen uses added) (hseen : (Use.names seen).Nodup) :
    (Use.names (seen ++ added)).Nodup := by
  induction h with
  | done => simpa using hseen
  | known _ _ ih => exact ih hseen
  | @fresh seen w declared' rest inner outer hfresh _ _ _ ihInner ihOuter =>
    have hbegun : (Use.names (seen ++ [w])).Nodup := by
      rw [Use.names_append, List.nodup_append]
      refine ⟨hseen, List.pairwise_singleton _ _, ?_⟩
      rintro x hx y hy rfl
      rw [List.mem_singleton.1 hy] at hx
      exact hfresh hx
    have hinner := ihInner hbegun
    rw [List.append_assoc, List.singleton_append] at hinner
    have houter := ihOuter hinner
    rwa [List.append_assoc] at houter

/-- What the uses at hand hand down holds of all uses that are begun. -/
theorem all {Q : Use → Prop} (h : Visits library seen uses added)
    (hnested : ∀ {u d v}, Q u → library.find u.generic = some d → v ∈ u.nested d → Q v)
    (huses : ∀ u ∈ uses, Q u) : ∀ u ∈ added, Q u := by
  induction h with
  | done => nofun
  | known _ _ ih => exact ih fun u hu => huses u (List.mem_cons_of_mem _ hu)
  | fresh _ hdeclared _ _ ihInner ihOuter =>
    have hu := huses _ List.mem_cons_self
    intro v hv
    obtain hv | hv := List.mem_append.1 hv
    · obtain rfl | hv := List.mem_cons.1 hv
      · exact hu
      · exact ihInner (fun w hw => hnested hu hdeclared hw) v hv
    · exact ihOuter (fun w hw => huses w (List.mem_cons_of_mem _ hw)) v hv

end Visits

end Monomorph
