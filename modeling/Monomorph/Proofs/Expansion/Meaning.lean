import Monomorph.Proofs.Check.Accepted
import Monomorph.Proofs.Expansion.Reading

/-!
# Expansion preserves meaning

The specializations that an expansion begins are a meaning of their names, `Meaning.of`. Every demanded
use has the name of one of them, and with it the canonical form, so references can be read. Up to erasure,
the kept definitions are then those of the file, and a specialization is the body of its generic with the
arguments in place of the parameters: `Source.expand_preserves`.
-/

namespace Monomorph

/-! ## The specializations of an expansion -/

/-- The names of some specializations stand for the canonical forms of the uses that begin them. -/
def Meaning.of (added : List Use) : Meaning := fun name =>
  (added.find? fun u => u.name == name).map Use.canonical

namespace Meaning

variable {added : List Use} {name : String}

theorem of_eq_some {v : Use} (h : Meaning.of added name = some v) :
    ∃ u ∈ added, u.name = name ∧ v = u.canonical := by
  obtain ⟨u, hfind, rfl⟩ := Option.map_eq_some_iff.1 h
  exact ⟨u, List.mem_of_find?_eq_some hfind, beq_iff_eq.1 (List.find?_some hfind :), rfl⟩

theorem exists_of_mem (h : name ∈ Use.names added) :
    ∃ u ∈ added, u.name = name ∧ Meaning.of added name = some u.canonical := by
  obtain ⟨w, hw, rfl⟩ := List.mem_map.1 h
  cases hmeaning : Meaning.of added w.name with
  | some v =>
    obtain ⟨u, hu, hname, rfl⟩ := of_eq_some hmeaning
    exact ⟨u, hu, hname, rfl⟩
  | none =>
    have hnone := List.find?_eq_none.1 (Option.map_eq_none_iff.1 hmeaning) w hw
    simp at hnone

theorem faithful_of (added : List Use) : (Meaning.of added).Faithful := by
  intro name v h
  obtain ⟨u, -, rfl, rfl⟩ := of_eq_some h
  rfl

end Meaning

section Reads

variable {library : Library} {roots added : List Use}

/-- The uses that are begun are demanded. -/
theorem Visits.demanded (h : Visits library [] roots added) : ∀ u ∈ added, Demanded library roots u :=
  h.all Demanded.nested fun _ => Demanded.root

/-- Every demanded use has a specialization in the end. -/
theorem Visits.covers_demanded (h : Visits library [] roots added) (hwritten : library.Written)
    (hroots : library.Roots roots) {u : Use} (hu : Demanded library roots u) :
    u.name ∈ Use.names added := by
  induction hu with
  | root hroot => exact h.covers _ hroot
  | @nested u v d hdemanded hd hnested ih =>
    obtain ⟨w, hw, hname⟩ := List.mem_map.1 ih
    have hproper := (h.demanded w hw).proper hwritten hroots
    have hcanonical := Use.canonical_eq_of_name_eq hproper (hdemanded.proper hwritten hroots) hname
    have hgeneric : w.generic = u.generic := (Use.mk.inj hcanonical).1
    apply h.closed hw (hgeneric ▸ hd) v
    rwa [Use.nested_eq_of_canonical_eq hcanonical]

/-- The specializations of an expansion tell what the names of demanded uses stand for. -/
theorem Visits.reads (h : Visits library [] roots added) (hwritten : library.Written)
    (hroots : library.Roots roots) : Reads (Demanded library roots) (Meaning.of added) where
  proper hu := hu.proper hwritten hroots
  demanded {u} hu := by
    obtain ⟨w, hw, hname, hmeaning⟩ := Meaning.exists_of_mem (h.covers_demanded hwritten hroots hu)
    have hproper := (h.demanded w hw).proper hwritten hroots
    rw [hmeaning, Use.canonical_eq_of_name_eq hproper (hu.proper hwritten hroots) hname]
  plain {name} hplain := by
    apply Option.eq_none_iff_forall_ne_some.2
    intro v hv
    obtain ⟨u, -, rfl, -⟩ := Meaning.of_eq_some hv
    rw [u.isSynthetic_name] at hplain
    cases hplain

end Reads

/-! ## Definitions up to erasure -/

section Erasure

variable {library : Library} {roots : List Use} {meaning : Meaning} {erase : TypeExpr → TypeExpr}

theorem Environment.map_bind (f : TypeExpr → TypeExpr) (params : List String) (args : List TypeExpr)
    (name : String) : (bind params args name).map f = bind params (args.map f) name := by
  have hlookup : ∀ pairs : List (String × TypeExpr),
      (pairs.lookup name).map f = (pairs.map (Prod.map id f)).lookup name := by
    intro pairs
    induction pairs with
    | nil => rfl
    | cons pair rest ih =>
      obtain ⟨key, t⟩ := pair
      rw [List.map_cons, Prod.map_apply, id_eq, List.lookup_cons, List.lookup_cons]
      cases name == key with
      | false => exact ih
      | true => rfl
  rw [bind, bind, ofPairs, ofPairs, hlookup, List.map_reverse, List.zip_map_right]

theorem TypeExpr.replaceVars_empty (t : TypeExpr) : t.replaceVars Environment.empty = t := renameVars_id t

variable (hreads : Reads (Demanded library roots) meaning) (herase : Erases meaning erase)

include hreads herase

/-- The uses in a definition leave nothing behind. -/
theorem erase_expanded {d : TypeDef} (hwritten : d.body.WrittenIn .plain) (hnormal : d.body.IsNormal)
    (huses : ∀ u ∈ d.body.uses Use.reference Environment.empty, Demanded library roots u) :
    erase d.expanded.body = d.body.normalize := by
  have hbody : d.expanded.body = d.body.substituteBy Use.reference Environment.empty := by
    rw [TypeDef.expanded, TypeExpr.normalize_eq_self hnormal]
  have henv : ∀ {name v}, Environment.empty name = some v → v.Proper (Demanded library roots) := by
    intro name v hbind
    cases hbind
  rw [hbody, TypeExpr.erase_substituteBy_reference hreads herase henv hwritten hnormal huses,
    TypeExpr.normalize_eq_self hnormal]
  exact TypeExpr.replaceVars_empty _

/-- The body of a specialization is that of the generic, with the arguments in place of the parameters. -/
theorem erase_specialization {u : Use} (hu : Demanded library roots u) {d : TypeDef}
    (hd : library.find u.generic = some d) (hwritten : library.Written) :
    erase (u.specialization d).body =
      if d.body.isAbstract then .named u.generic (u.canonical.args.map erase) u.annots
      else (d.body.replaceVars (Environment.bind d.params (u.canonical.args.map erase))).annotate
        u.annots := by
  obtain ⟨hbody, hnormal⟩ := hwritten hd
  have henv : ∀ {name v}, u.environment d name = some v → v.Proper (Demanded library roots) :=
    fun hbind => (hreads.proper hu).wanted _ (Use.mem_of_environment hbind)
  have hbind : (fun name => (u.environment d name).map erase) =
      Environment.bind d.params (u.canonical.args.map erase) :=
    funext fun name => Environment.map_bind erase d.params u.wanted.args name
  show erase ((u.body d).annotate u.annots) = _
  rw [Use.body]
  split
  · have hplain := hreads.plain (isSynthetic_of_isIdentifier (hreads.proper hu).generic)
    rw [TypeExpr.annotate, TypeExpr.mapAnnots, Annots.empty_union, herase.named _ _ _ hplain]
    rfl
  · next habstract =>
    have huses : ∀ v ∈ d.body.uses Use.reference (u.environment d), Demanded library roots v := by
      intro v hv
      refine .nested hu hd ?_
      rwa [Use.nested_of_not_isAbstract habstract]
    dsimp only
    split
    · rw [TypeExpr.erase_annotate hreads herase (TypeExpr.proper_replaceVars henv hbody hnormal),
        TypeExpr.erase_replaceVars hreads herase henv hbody hnormal, hbind]
    · rw [TypeExpr.erase_annotate hreads herase (TypeExpr.proper_substituteBy henv hbody hnormal
          fun v hv => TypeExpr.proper_reference (huses v hv)),
        TypeExpr.erase_substituteBy_reference hreads herase henv hbody hnormal huses, hbind]

end Erasure

end Monomorph
