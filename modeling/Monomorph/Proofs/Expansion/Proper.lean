import Monomorph.Proofs.Expansion.Demand

/-!
# Expressions that occur in an expansion

What an expansion puts in place of variables is written in admissible words, in normal form, and refers to
specializations in one way only: the name is that of a demanded use, and the arguments are as many
variables as the arguments of that use have. `TypeExpr.Proper` says so of an expression, part by part.

Substitution and renaming keep expressions proper, so all demanded uses are. Proper uses with the same
name are the same but for the names of their variables.
-/

namespace Monomorph

/-- The canonical form of a use. -/
def Use.canonical (u : Use) : Use := ⟨u.generic, u.wanted.args, u.annots⟩

/-- The number of different variables of a use. -/
def Use.width (u : Use) : Nat := (Instance.occurrences u.args).eraseDups.length

namespace TypeExpr

/-- What a part of an expression has to be like where the uses in `D` are demanded. -/
structure ProperRoot (D : Use → Prop) (t : TypeExpr) : Prop where
  names : ∀ name ∈ t.rootNames, Admissible name
  var : ∀ name ∈ t.var?, IsVariable name
  annots : ∀ a ∈ t.annots.toList, a.WrittenIn .admissible
  normal : ∀ {name args a}, t = named name args a → ContainerKind.ofName? name = none ∨ args.length ≠ 1
  reference : ∀ {name args a}, t = named name args a → isSynthetic name = true →
    ∃ u, D u ∧ u.name = name ∧ ∃ vars : List String, args = vars.map (.var · ∅) ∧ vars.length = u.width

/-- Every part of an expression is as it has to be. -/
def Proper (D : Use → Prop) (t : TypeExpr) : Prop := ∀ u ∈ t.subterms, ProperRoot D u

end TypeExpr

/-- A use of a generic that can be written, with proper arguments. -/
structure Use.Proper (D : Use → Prop) (u : Use) : Prop where
  generic : IsIdentifier u.generic
  args : ∀ arg ∈ u.args, arg.Proper D
  annots : ∀ b ∈ u.annots.toList, b.WrittenIn .admissible

namespace TypeExpr

variable {D : Use → Prop} {t : TypeExpr}

theorem proper_iff : t.Proper D ↔ t.ProperRoot D ∧ ∀ c ∈ t.children, c.Proper D := forall_mem_subterms

theorem Proper.writtenIn (h : t.Proper D) : t.WrittenIn .admissible where
  names name hname := by
    obtain ⟨u, hu, hname⟩ := List.mem_flatMap.1 hname
    exact (h u hu).names name hname
  vars name hname := by
    obtain ⟨u, hu, hname⟩ := List.mem_filterMap.1 hname
    exact (h u hu).var name hname
  annots a ha := by
    obtain ⟨u, hu, ha⟩ := List.mem_flatMap.1 ha
    exact (h u hu).annots a ha

theorem Proper.isNormal (h : t.Proper D) : t.IsNormal := fun _ _ _ hmem => (h _ hmem).normal rfl

/-- Expressions of a source text are proper, and they refer to no specialization. -/
theorem proper_of_plain (hwritten : t.WrittenIn .plain) (hnormal : t.IsNormal) : t.Proper D := by
  intro u hu
  have hname : ∀ name ∈ u.rootNames, IsIdentifier name := fun name hname =>
    (hwritten.names name (List.mem_flatMap.2 ⟨u, hu, hname⟩)).1
  refine ⟨fun name h => .identifier (hname name h), fun name h => ?_, fun a ha => ?_, ?_, ?_⟩
  · exact hwritten.vars name (List.mem_filterMap.2 ⟨u, hu, h⟩)
  · have hplain := hwritten.annots a (List.mem_flatMap.2 ⟨u, hu, ha⟩)
    exact ⟨hplain.1.1, hplain.2.1⟩
  · rintro name args a rfl
    exact hnormal name args a hu
  · rintro name args a rfl hsynthetic
    have hidentifier := hname name (List.mem_singleton_self name)
    rw [isSynthetic_of_isIdentifier hidentifier] at hsynthetic
    cases hsynthetic

theorem Proper.annotate (h : t.Proper D) {a : Annots} (ha : ∀ b ∈ a.toList, b.WrittenIn .admissible) :
    (t.annotate a).Proper D := by
  obtain ⟨hroot, hchildren⟩ := proper_iff.1 h
  refine proper_iff.2 ⟨⟨?_, ?_, fun b hb => ?_, fun heq => ?_, fun heq => ?_⟩, ?_⟩
  · rw [rootNames_annotate]
    exact hroot.names
  · rw [var?_annotate]
    exact hroot.var
  · rw [annots_annotate] at hb
    obtain hb | hb := Annots.mem_union.1 hb
    · exact hroot.annots b hb
    · exact ha b hb
  · cases t <;> cases heq
    exact hroot.normal rfl
  · cases t <;> cases heq
    exact hroot.reference rfl
  · rw [children_annotate]
    exact hchildren

theorem Proper.renameVars (h : t.Proper D) {f : String → String} (hf : ∀ name, IsVariable (f name)) :
    (t.renameVars f).Proper D := by
  induction t using children_induct with
  | node t ih =>
    obtain ⟨hroot, hchildren⟩ := proper_iff.1 h
    refine proper_iff.2 ⟨⟨?_, fun name hname => ?_, ?_, fun heq => ?_, fun heq => ?_⟩, fun c hc => ?_⟩
    · rw [rootNames_renameVars]
      exact hroot.names
    · rw [var?_renameVars] at hname
      obtain ⟨v, -, rfl⟩ := Option.map_eq_some_iff.1 hname
      exact hf v
    · rw [annots_renameVars]
      exact hroot.annots
    · cases t <;> simp at heq
      obtain ⟨rfl, rfl, rfl⟩ := heq
      rw [List.length_map]
      exact hroot.normal rfl
    · cases t <;> simp at heq
      obtain ⟨rfl, rfl, rfl⟩ := heq
      intro hsynthetic
      obtain ⟨u, hu, hname, vars, rfl, hlength⟩ := hroot.reference rfl hsynthetic
      refine ⟨u, hu, hname, vars.map f, ?_, by rw [List.length_map, hlength]⟩
      simp
    · rw [children_renameVars] at hc
      obtain ⟨part, hpart, rfl⟩ := List.mem_map.1 hc
      exact ih part hpart (hchildren part hpart)

theorem proper_var {name : String} (h : IsVariable name) {a : Annots}
    (ha : ∀ b ∈ a.toList, b.WrittenIn .admissible) : (var name a).Proper D := by
  refine proper_iff.2 ⟨⟨nofun, fun x hx => ?_, ha, nofun, nofun⟩, nofun⟩
  rwa [← Option.some.inj hx]

/-- The reference to a demanded use is proper. -/
theorem proper_reference {u : Use} (hu : D u) (h : u.Proper D) : u.reference.Proper D := by
  have hadmissible : Admissible u.name :=
    Instance.admissible_name_of h.generic (fun arg harg => (h.args arg harg).writtenIn) h.annots
  rw [u.reference_eq]
  refine proper_iff.2 ⟨⟨fun name hname => ?_, nofun, h.annots, fun heq => Or.inl ?_, fun heq _ => ?_⟩,
    fun c hc => ?_⟩
  · rwa [List.mem_singleton.1 hname]
  · obtain ⟨rfl, -, -⟩ := named.inj heq
    apply Option.eq_none_iff_forall_ne_some.2
    intro kind hkind
    have hsynthetic := u.isSynthetic_name
    rw [← ContainerKind.ofName?_eq_some.1 hkind,
      isSynthetic_of_isIdentifier (isIdentifier_container kind)] at hsynthetic
    cases hsynthetic
  · obtain ⟨rfl, rfl, -⟩ := named.inj heq
    exact ⟨u, hu, rfl, _, rfl, rfl⟩
  · obtain ⟨x, hx, rfl⟩ := List.mem_map.1 hc
    obtain ⟨arg, harg, hx⟩ := List.mem_flatMap.1 (List.mem_eraseDups.1 hx)
    exact proper_var ((h.args arg harg).writtenIn.vars x hx) nofun

/-- A proper use is proper as an application. -/
theorem proper_apply {u : Use} (h : u.Proper D) : (apply u.generic u.args u.annots).Proper D := by
  refine proper_iff.2 ⟨⟨fun name hname => ?_, fun name hname => ?_, ?_, fun heq => ?_,
    fun heq hsynthetic => ?_⟩, ?_⟩
  · rw [List.mem_singleton.1 (rootNames_apply_subset _ _ _ hname)]
    exact .identifier h.generic
  · rw [var?_apply] at hname
    cases hname
  · rw [annots_apply]
    exact h.annots
  · obtain ⟨kind, element, -, -, happly⟩ | ⟨hne, happly⟩ := apply_cases u.generic u.args u.annots
    · rw [happly] at heq
      cases heq
    · obtain ⟨rfl, rfl, -⟩ := named.inj (happly.symm.trans heq)
      exact hne
  · have hname := rootNames_apply_subset u.generic u.args u.annots
    rw [heq] at hname
    rw [List.mem_singleton.1 (hname List.mem_cons_self), isSynthetic_of_isIdentifier h.generic] at hsynthetic
    cases hsynthetic
  · rw [children_apply]
    exact h.args

theorem isIdentifier_of_use? {result : Use → TypeExpr} {env : Environment} (h : t.WrittenIn .plain)
    {u : Use} (hu : t.use? result env = some u) : IsIdentifier u.generic := by
  cases t with
  | container kind element a =>
    simp only [use?] at hu
    split at hu
    · cases hu
    · obtain rfl := Option.some.inj hu
      exact isIdentifier_container kind
  | named name args a =>
    simp only [use?] at hu
    split at hu
    · cases hu
    · obtain rfl := Option.some.inj hu
      exact ((writtenIn_iff.1 h).1 name (List.mem_singleton_self name)).1
  | _ => cases hu

/-- Substitution in the text of a source gives proper expressions, if proper uses give them. -/
theorem proper_substituteBy {result : Use → TypeExpr} {env : Environment}
    (henv : ∀ {name v}, env name = some v → v.Proper D) (hwritten : t.WrittenIn .plain)
    (hnormal : t.IsNormal) (hresult : ∀ u ∈ t.uses result env, u.Proper D → (result u).Proper D) :
    (t.substituteBy result env).Proper D := by
  induction t using children_induct with
  | node t ih =>
    have hplain : t.Proper D := proper_of_plain hwritten hnormal
    have hroot := (proper_iff.1 hplain).1
    obtain ⟨-, -, -, hwrittens⟩ := writtenIn_iff.1 hwritten
    have hchild : ∀ c ∈ t.children, (c.substituteBy result env).Proper D := by
      intro c hc
      refine ih c hc (hwrittens c hc) ((isNormal_iff.1 hnormal).2 c hc) fun u hu => hresult u ?_
      exact uses_subset (subterms_child hc (self_mem_subterms c)) hu
    obtain ⟨name, a, rfl, heq⟩ | ⟨u, huse, heq⟩ | habove := t.substituteBy_cases result env
    · rw [heq]
      cases hbind : env name with
      | none =>
        rw [Environment.occurrence_of_eq_none hbind]
        exact proper_var (hroot.var name rfl) hroot.annots
      | some v =>
        rw [Environment.occurrence_of_eq_some hbind]
        exact (henv hbind).annotate hroot.annots
    · rw [heq]
      obtain ⟨hargs, hannots⟩ := use?_eq_some _ _ huse
      refine hresult u ?_ ⟨isIdentifier_of_use? hwritten huse, fun arg harg => ?_, ?_⟩
      · rw [uses_eq, huse]
        exact List.mem_append_right _ List.mem_cons_self
      · rw [hargs] at harg
        obtain ⟨c, hc, rfl⟩ := List.mem_map.1 harg
        exact hchild c hc
      · rw [hannots]
        exact hroot.annots
    · refine proper_iff.2 ⟨⟨?_, ?_, ?_, fun hnamed => ?_, fun hnamed hsynthetic => ?_⟩, fun c hc => ?_⟩
      · rw [habove.rootNames]
        exact hroot.names
      · rw [habove.isVar]
        nofun
      · rw [habove.annots]
        exact hroot.annots
      · obtain ⟨args', rfl, rfl⟩ := habove.named hnamed
        rw [List.length_map]
        exact hroot.normal rfl
      · obtain ⟨args', rfl, rfl⟩ := habove.named hnamed
        have hplain := ((writtenIn_iff.1 hwritten).1 _ (List.mem_singleton_self _)).1
        rw [isSynthetic_of_isIdentifier hplain] at hsynthetic
        cases hsynthetic
      · rw [habove.children] at hc
        obtain ⟨part, hpart, rfl⟩ := List.mem_map.1 hc
        exact hchild part hpart

/-- The replacement of variables in the text of a source gives proper expressions. -/
theorem proper_replaceVars {env : Environment} (henv : ∀ {name v}, env name = some v → v.Proper D)
    (hwritten : t.WrittenIn .plain) (hnormal : t.IsNormal) : (t.replaceVars env).Proper D := by
  rw [← substituteBy_apply env hnormal]
  exact proper_substituteBy henv hwritten hnormal fun u _ hproper => proper_apply hproper

end TypeExpr

/-! ## Demanded uses -/

/-- The uses in the text of a source are proper. -/
theorem TypeExpr.proper_of_mem_uses {D : Use → Prop} {t : TypeExpr} {env : Environment}
    (henv : ∀ {name v}, env name = some v → v.Proper D) (hwritten : t.WrittenIn .plain)
    (hnormal : t.IsNormal) (huses : ∀ u ∈ t.uses Use.reference env, D u) {u : Use}
    (hu : u ∈ t.uses Use.reference env) : u.Proper D := by
  obtain ⟨node, hmem, huse⟩ := List.mem_filterMap.1 hu
  have hnode := mem_postorder.1 hmem
  obtain ⟨hargs, hannots⟩ := use?_eq_some _ _ huse
  refine ⟨isIdentifier_of_use? (hwritten.of_mem_subterms hnode) huse, fun arg harg => ?_, fun b hb => ?_⟩
  · rw [hargs] at harg
    obtain ⟨c, hc, rfl⟩ := List.mem_map.1 harg
    have hpart : c ∈ t.subterms := subset_subterms hnode (subterms_child hc (self_mem_subterms c))
    exact proper_substituteBy henv (hwritten.of_mem_subterms hpart)
      (fun name args a hname => hnormal name args a (subset_subterms hpart hname))
      fun v hv => proper_reference (huses v (uses_subset hpart hv))
  · rw [hannots] at hb
    have hplain := hwritten.annots b (List.mem_flatMap.2 ⟨node, hnode, hb⟩)
    exact ⟨hplain.1.1, hplain.2.1⟩

/-- The definitions of a library are those of a source text. -/
def Library.Written (library : Library) : Prop :=
  ∀ {name d}, library.find name = some d → d.body.WrittenIn .plain ∧ d.body.IsNormal

/-- The arguments of a specialization are proper. -/
theorem Use.Proper.wanted {D : Use → Prop} {u : Use} (h : u.Proper D) :
    ∀ t ∈ u.wanted.args, t.Proper D := by
  intro t ht
  obtain ⟨arg, harg, rfl⟩ := List.mem_map.1 ht
  exact (h.args arg harg).renameVars fun name => Instance.isVariable_canonical _ name

theorem Use.nested_of_not_isAbstract {u : Use} {d : TypeDef} (h : ¬ d.body.isAbstract = true) :
    u.nested d = d.body.uses reference (u.environment d) := if_neg h

/-- Demanded uses are proper. -/
theorem Demanded.proper {library : Library} {roots : List Use} (hwritten : library.Written)
    (hroots : library.Roots roots) {u : Use} (h : Demanded library roots u) :
    u.Proper (Demanded library roots) := by
  induction h with
  | @root u hroot =>
    obtain ⟨name, d, hd, hu, hall⟩ := hroots u hroot
    obtain ⟨hbody, hnormal⟩ := hwritten hd
    refine TypeExpr.proper_of_mem_uses (fun hbind => ?_) hbody hnormal (fun v hv => .root (hall hv)) hu
    cases hbind
  | @nested u v d hdemanded hd hnested ih =>
    obtain ⟨hbody, hnormal⟩ := hwritten hd
    have habstract : ¬ d.body.isAbstract = true := by
      intro habstract
      rw [Use.nested, if_pos habstract] at hnested
      cases hnested
    refine TypeExpr.proper_of_mem_uses (fun hbind => ?_) hbody hnormal (fun w hw => ?_)
      (Use.mem_uses_of_nested hnested)
    · exact ih.wanted _ (Use.mem_of_environment hbind)
    · exact .nested hdemanded hd (by rwa [Use.nested_of_not_isAbstract habstract])

/-- The name is that of the specialization for this application, in words that an expansion can use. -/
structure Denotes (name generic : String) (args : List TypeExpr) (a : Annots) : Prop where
  written : (TypeExpr.named generic args a).WrittenIn .admissible
  spelled : name = "@(" ++ TypeExpr.signature generic args a ++ ")"

/-- A name denotes at most one application, but for the way in which containers are spelled. -/
theorem Denotes.inj {name generic generic' : String} {args args' : List TypeExpr} {a a' : Annots}
    (h : Denotes name generic args a) (h' : Denotes name generic' args' a') :
    generic = generic' ∧ args.map TypeExpr.normalize = args'.map TypeExpr.normalize ∧ a = a' := by
  have hspelled := h.spelled.symm.trans h'.spelled
  rw [String.append_left_inj, String.append_right_inj] at hspelled
  exact (TypeExpr.signature_inj h.written h'.written).1 hspelled

/-- The name of a proper use denotes its canonical form. -/
theorem Use.Proper.denotes {D : Use → Prop} {u : Use} (h : u.Proper D) :
    Denotes u.name u.generic u.wanted.args u.annots where
  written := Instance.writtenIn_application h.generic (fun arg harg => (h.args arg harg).writtenIn) h.annots
  spelled := rfl

/-- The arguments of a specialization are in normal form. -/
theorem Use.Proper.map_normalize {D : Use → Prop} {u : Use} (h : u.Proper D) :
    u.wanted.args.map TypeExpr.normalize = u.wanted.args := by
  refine (List.map_congr_left fun t ht => ?_).trans (List.map_id _)
  exact TypeExpr.normalize_eq_self (h.wanted t ht).isNormal

/-- Proper uses with the same name have the same canonical form. -/
theorem Use.canonical_eq_of_name_eq {D : Use → Prop} {u v : Use} (hu : u.Proper D) (hv : v.Proper D)
    (h : u.name = v.name) : u.canonical = v.canonical := by
  obtain ⟨hgeneric, hargs, hannots⟩ := hu.denotes.inj (h ▸ hv.denotes)
  rw [hu.map_normalize, hv.map_normalize] at hargs
  rw [canonical, canonical, hgeneric, hargs, hannots]

end Monomorph
