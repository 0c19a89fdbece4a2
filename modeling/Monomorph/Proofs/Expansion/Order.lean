import Monomorph.Proofs.Expansion.Parts
import Monomorph.Proofs.Expansion.Proper

/-!
# The order of specializations

Substitution goes through the arguments of an application before it calls for the application, so
that the arguments of a use only refer to specializations that are begun earlier. `Use.Ordered` says
so of a list of uses, given the specializations that are begun before the list. The uses in an
expression are ordered, and so are the uses that are begun for ordered uses: `Visits.ordered` is the
induction.
-/

namespace Monomorph

namespace TypeExpr

/-- If the root refers to a specialization, then to one of these. -/
def RefersAtRoot (names : List String) : TypeExpr → Prop
  | named name _ _ => isSynthetic name = true → name ∈ names
  | _ => True

/-- Only these specializations are referred to. -/
def RefersTo (names : List String) (t : TypeExpr) : Prop := ∀ u ∈ t.subterms, u.RefersAtRoot names

variable {names more : List String} {t : TypeExpr}

theorem refersTo_iff :
    t.RefersTo names ↔ t.RefersAtRoot names ∧ ∀ c ∈ t.children, c.RefersTo names :=
  forall_mem_subterms

theorem RefersTo.mono (h : t.RefersTo names) (hsubset : names ⊆ more) : t.RefersTo more := by
  intro u hu
  have hroot := h u hu
  cases u with
  | named name args a => exact fun hsynthetic => hsubset (hroot hsynthetic)
  | _ => trivial

theorem RefersTo.annotate (h : t.RefersTo names) (a : Annots) : (t.annotate a).RefersTo names := by
  refine forall_mem_subterms_annotate h fun hroot => ?_
  cases t <;> exact hroot

theorem RefersTo.renameVars (h : t.RefersTo names) (f : String → String) :
    (t.renameVars f).RefersTo names := by
  intro u hu
  rw [subterms_renameVars] at hu
  obtain ⟨part, hpart, rfl⟩ := List.mem_map.1 hu
  have hroot := h part hpart
  cases part with
  | named name args a =>
    rw [renameVars_named]
    exact hroot
  | _ => simp [RefersAtRoot]

theorem refersTo_var (name : String) (a : Annots) : (var name a).RefersTo names :=
  refersTo_iff.2 ⟨trivial, List.forall_mem_nil _⟩

theorem refersTo_reference {u : Use} (h : u.name ∈ names) : u.reference.RefersTo names := by
  rw [u.reference_eq]
  refine refersTo_iff.2 ⟨fun _ => h, fun c hc => ?_⟩
  obtain ⟨name, -, rfl⟩ := List.mem_map.1 hc
  exact refersTo_var name ∅

/-- A source text refers to no specialization. -/
theorem refersAtRoot_of_plain (h : t.WrittenIn .plain) {u : TypeExpr} (hu : u ∈ t.subterms) :
    u.RefersAtRoot names := by
  cases u with
  | named name args a =>
    intro hsynthetic
    have hplain := (writtenIn_iff.1 (h.of_mem_subterms hu)).1 name (List.mem_singleton_self name)
    rw [isSynthetic_of_isIdentifier hplain.1] at hsynthetic
    cases hsynthetic
  | _ => trivial

theorem refersAtRoot_mapChildren {f : TypeExpr → TypeExpr} (h : t.RefersAtRoot names) :
    (t.mapChildren f).RefersAtRoot names := by
  cases t <;> exact h

/-- Substitution refers to what the environment refers to and to the uses that it meets. -/
theorem refersTo_substituteBy {env : Environment} (hwritten : t.WrittenIn .plain)
    (henv : ∀ {name v}, env name = some v → v.RefersTo names)
    (huses : Use.names (t.uses Use.reference env) ⊆ names) :
    (t.substituteBy Use.reference env).RefersTo names := by
  apply forall_mem_subterms_substituteBy
  case hvar =>
    intro name a _
    exact Environment.occurrence_induct (refersTo_var name a) fun v hv => (henv hv).annotate a
  case huse => exact fun u hu => refersTo_reference (huses (Use.name_mem_names hu))
  case hnode =>
    exact fun node hnode _ _ => refersAtRoot_mapChildren (refersAtRoot_of_plain hwritten hnode)

end TypeExpr

namespace Use

variable {known more : List String} {us vs : List Use}

/-- The arguments of each use only refer to known specializations and to those of earlier uses. -/
def Ordered (known : List String) : List Use → Prop
  | [] => True
  | u :: rest => (∀ arg ∈ u.args, arg.RefersTo known) ∧ Ordered (known ++ [u.name]) rest

theorem Ordered.mono (h : Ordered known us) (hsubset : known ⊆ more) : Ordered more us := by
  induction us generalizing known more with
  | nil => trivial
  | cons u rest ih =>
    refine ⟨fun arg harg => (h.1 arg harg).mono hsubset, ih h.2 ?_⟩
    exact List.append_subset.2
      ⟨List.Subset.trans hsubset (List.subset_append_left _ _), List.subset_append_right _ _⟩

theorem ordered_append :
    Ordered known (us ++ vs) ↔ Ordered known us ∧ Ordered (known ++ names us) vs := by
  induction us generalizing known with
  | nil => simp [Ordered, names]
  | cons u rest ih =>
    have hnames : known ++ [u.name] ++ names rest = known ++ names (u :: rest) := by simp [names]
    rw [List.cons_append, Ordered, Ordered, ih, hnames, and_assoc]

theorem ordered_flatMap {α : Type} {f : α → List Use} {items : List α}
    (h : ∀ x ∈ items, Ordered known (f x)) : Ordered known (items.flatMap f) := by
  induction items with
  | nil => trivial
  | cons x rest ih =>
    obtain ⟨hx, hrest⟩ := List.forall_mem_cons.1 h
    exact ordered_append.2 ⟨hx, (ih hrest).mono (List.subset_append_left _ _)⟩

/-- Before a use that is begun stand the specializations that its arguments refer to. -/
theorem Ordered.refersTo {u : Use} (h : Ordered known (us ++ u :: vs)) :
    ∀ arg ∈ u.args, arg.RefersTo (known ++ names us) := (ordered_append.1 h).2.1

end Use

/-- The uses in an expression are ordered, those in the arguments of a use before it. -/
theorem TypeExpr.ordered_uses {known : List String} {env : Environment} {t : TypeExpr}
    (hwritten : t.WrittenIn .plain) (henv : ∀ {name v}, env name = some v → v.RefersTo known) :
    Use.Ordered known (t.uses Use.reference env) := by
  induction t using children_induct with
  | node t ih =>
    have hchildren := (writtenIn_iff.1 hwritten).2.2.2
    rw [uses_eq, Use.ordered_append]
    refine ⟨Use.ordered_flatMap fun c hc => ih c hc (hchildren c hc), ?_⟩
    cases huse : t.use? Use.reference env with
    | none => trivial
    | some u =>
      refine ⟨fun arg harg => ?_, trivial⟩
      rw [(use?_eq_some _ _ huse).1] at harg
      obtain ⟨c, hc, rfl⟩ := List.mem_map.1 harg
      refine refersTo_substituteBy (hchildren c hc) ?_ ?_
      · exact fun hv => (henv hv).mono (List.subset_append_left _ _)
      · refine List.Subset.trans (List.map_subset _ ?_) (List.subset_append_right _ _)
        exact fun v hv => List.mem_flatMap.2 ⟨c, hc, hv⟩

/-- The uses that are begun for ordered uses are ordered. -/
theorem Visits.ordered {library : Library} {seen uses added : List Use} (hwritten : library.Written)
    (h : Visits library seen uses added) (huses : Use.Ordered (Use.names seen) uses) :
    Use.Ordered (Use.names seen) added := by
  induction h with
  | done => trivial
  | @known seen u rest added hseen _ ih =>
    refine ih (huses.2.mono ?_)
    exact List.append_subset.2 ⟨List.Subset.refl _, List.cons_subset.2 ⟨hseen, List.nil_subset _⟩⟩
  | @fresh seen u declared rest inner outer _ hdeclared _ _ ihInner ihOuter =>
    have hbegun : Use.names (seen ++ [u]) = Use.names seen ++ [u.name] := Use.names_append seen [u]
    have hargs : ∀ arg ∈ u.wanted.args, arg.RefersTo (Use.names (seen ++ [u])) :=
      Use.forall_wanted (fun ht => ht.renameVars _) fun arg harg =>
        (huses.1 arg harg).mono (hbegun ▸ List.subset_append_left _ _)
    have hnested : Use.Ordered (Use.names (seen ++ [u])) (u.nested declared) := by
      unfold Use.nested
      split
      · trivial
      · refine TypeExpr.ordered_uses (hwritten hdeclared).1 fun hv => ?_
        exact hargs _ (Use.mem_of_environment hv)
    have hinner := ihInner hnested
    have houter : Use.Ordered (Use.names (seen ++ u :: inner)) outer := by
      refine ihOuter (huses.2.mono ?_)
      rw [List.append_cons seen u inner, Use.names_append, hbegun]
      exact List.subset_append_left _ _
    rw [hbegun] at hinner
    rw [Use.names_append] at houter
    exact Use.ordered_append.2 ⟨⟨huses.1, hinner⟩, houter⟩

end Monomorph
