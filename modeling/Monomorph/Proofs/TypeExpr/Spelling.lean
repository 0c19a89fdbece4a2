import Monomorph.Proofs.Surface.Reading
import Monomorph.Proofs.TypeExpr.Vocabulary
import Monomorph.TypeExpr.Printer

/-!
# The surface tree of a type expression

`spell` chooses the surface tree that the printer writes down. Reading a tree back is `interpret`,
with two choices left open: what a single expression in parentheses is, and what a bare name is. The
meaning of surface trees is one such choice, `meaning_eq_interpret`; another one also finds tuples
of fewer than two items again, which the grammar has no place for.

`interpret_spell` says that any choice which does right by the nodes of an expression gives the
expression back, up to its normal form.
-/

namespace Monomorph

open Surface

/-! ## Groups of annotations -/

/-- An annotation inside the brackets of its group. -/
def Annot.entry (a : Annot) : Surface.Entry := ⟨a.key, a.value⟩

namespace Annots

/-- Consecutive annotations of one group, taken together. -/
def groupsOf : List Annot → List Group
  | [] => []
  | a :: rest =>
    match groupsOf rest with
    | [] => [⟨a.group, [], a.entry⟩]
    | g :: groups =>
      if g.name = a.group then { g with before := a.entry :: g.before } :: groups
      else ⟨a.group, [], a.entry⟩ :: g :: groups

/-- The groups of a set of annotations, in order. -/
def groups (s : Annots) : List Group := groupsOf s.toList

theorem flatMap_meaning_groupsOf (entries : List Annot) :
    (groupsOf entries).flatMap Group.meaning = entries := by
  induction entries with
  | nil => rfl
  | cons a rest ih =>
    rw [groupsOf]
    split
    · next hrest =>
      rw [hrest, List.flatMap_nil] at ih
      rw [← ih]
      rfl
    · next g groups hrest =>
      rw [hrest] at ih
      split
      · next hname =>
        rw [← ih]
        simp [Group.meaning, Group.entries, Annot.entry, hname]
      · rw [List.flatMap_cons, ih]
        rfl

@[simp] theorem flatMap_meaning_groups (s : Annots) :
    s.groups.flatMap Group.meaning = s.toList := flatMap_meaning_groupsOf s.toList

theorem ofList_append (l m : List Annot) : ofList (l ++ m) = ofList l ∪ ofList m :=
  ext_mem (by simp)

end Annots

namespace Surface.Expr

/-! ## Interpretations of surface trees -/

/-- Groups of annotations after an expression, one after the other. -/
def withGroups (e : Expr) (groups : List Group) : Expr := groups.foldl annotated e

theorem tokens_withGroups (e : Expr) (groups : List Group) :
    (e.withGroups groups).tokens = e.tokens ++ groups.flatMap Group.tokens := by
  induction groups generalizing e with
  | nil => simp [withGroups]
  | cons g groups ih =>
    rw [withGroups, List.foldl_cons, ← withGroups, ih, tokens, List.flatMap_cons,
      List.append_assoc]

/-- How the two forms are read that do not stand for a node of their own: a single expression in
parentheses and a name without arguments. -/
structure Interpretation where
  single : TypeExpr → TypeExpr
  atom : String → TypeExpr

mutual

/-- The type expression that a surface expression stands for under an interpretation. -/
def interpret (i : Interpretation) : Expr → TypeExpr
  | var name => .var name ∅
  | ref name => i.atom name
  | sum _ variants => .sum (interpretVariants i variants) ∅
  | record fields => .record (interpretFields i fields) ∅
  | terminated before last => .record (interpretFields i before ++ [interpretLine i last]) ∅
  | application first middle last name =>
    .named name (interpret i first :: interpretAll i middle ++ [interpret i last]) ∅
  | product first [] => i.single (interpret i first)
  | product first (second :: rest) =>
    .tuple (interpret i first :: interpret i second :: interpretAll i rest) ∅
  | applied arg name => .named name [interpret i arg] ∅
  | annotated inner group => (interpret i inner).annotate (.ofList group.meaning)

/-- `interpret` on the payloads of a list of variants. -/
def interpretVariants (i : Interpretation) : List (Variant Expr) → List (Variant TypeExpr)
  | [] => []
  | ⟨tag, none⟩ :: rest => ⟨tag, none⟩ :: interpretVariants i rest
  | ⟨tag, some payload⟩ :: rest => ⟨tag, some (interpret i payload)⟩ :: interpretVariants i rest

/-- `interpret` on the types of a list of record lines. -/
def interpretFields (i : Interpretation) : List (Field Expr) → List (Field TypeExpr)
  | [] => []
  | line :: rest => interpretLine i line :: interpretFields i rest

/-- `interpret` on the type of a record line. -/
def interpretLine (i : Interpretation) : Field Expr → Field TypeExpr
  | .labelled label type => .labelled label (interpret i type)
  | .inherit type => .inherit (interpret i type)

/-- `interpret` on a list of expressions. -/
def interpretAll (i : Interpretation) : List Expr → List TypeExpr
  | [] => []
  | e :: rest => interpret i e :: interpretAll i rest

end

section Interpret

variable (i : Interpretation)

theorem interpretVariants_eq_map (variants : List (Variant Expr)) :
    interpretVariants i variants = variants.map (Variant.map (interpret i)) := by
  induction variants with
  | nil => rfl
  | cons v rest ih =>
    obtain ⟨tag, payload⟩ := v
    cases payload <;> simp [interpretVariants, Variant.map, ih]

theorem interpretLine_eq_map (line : Field Expr) :
    interpretLine i line = line.map (interpret i) := by
  cases line <;> rfl

theorem interpretFields_eq_map (fields : List (Field Expr)) :
    interpretFields i fields = fields.map (Field.map (interpret i)) := by
  induction fields with
  | nil => rfl
  | cons f rest ih => simp [interpretFields, interpretLine_eq_map, ih]

theorem interpretAll_eq_map (items : List Expr) :
    interpretAll i items = items.map (interpret i) := by
  induction items with
  | nil => rfl
  | cons e rest ih => simp [interpretAll, ih]

theorem interpret_withGroups (e : Expr) (s : Annots) :
    interpret i (e.withGroups s.groups) = (interpret i e).annotate s := by
  have hgroups : ∀ (groups : List Group) (e : Expr), interpret i (e.withGroups groups) =
      (interpret i e).annotate (.ofList (groups.flatMap Group.meaning)) := by
    intro groups
    induction groups with
    | nil => exact fun e => (TypeExpr.annotate_empty _).symm
    | cons g groups ih =>
      intro e
      rw [withGroups, List.foldl_cons, ← withGroups, ih, interpret, TypeExpr.annotate_annotate,
        List.flatMap_cons, Annots.ofList_append]
  rw [hgroups, Annots.flatMap_meaning_groups, Annots.ofList_toList]

end Interpret

/-- A single expression in parentheses is its content, and a bare name is a parameterless type. -/
def Interpretation.grouping : Interpretation := ⟨id, TypeExpr.atom⟩

theorem variantsMeaning_eq_map (variants : List (Variant Expr)) :
    variantsMeaning variants = variants.map (Variant.map meaning) := by
  induction variants with
  | nil => rfl
  | cons v rest ih =>
    obtain ⟨tag, payload⟩ := v
    cases payload <;> simp [variantsMeaning, Variant.map, ih]

theorem lineMeaning_eq_map (line : Field Expr) : lineMeaning line = line.map meaning := by
  cases line <;> rfl

theorem fieldsMeaning_eq_map (fields : List (Field Expr)) :
    fieldsMeaning fields = fields.map (Field.map meaning) := by
  induction fields with
  | nil => rfl
  | cons f rest ih => simp [fieldsMeaning, lineMeaning_eq_map, ih]

theorem allMeaning_eq_map (items : List Expr) : allMeaning items = items.map meaning := by
  induction items with
  | nil => rfl
  | cons e rest ih => simp [allMeaning, ih]

/-- The meaning of surface expressions is one of the interpretations. -/
theorem meaning_eq_interpret (e : Expr) : e.meaning = e.interpret .grouping := by
  induction e with
  | var name => rfl
  | ref name => rfl
  | sum lead variants ih =>
    rw [meaning, interpret, variantsMeaning_eq_map, interpretVariants_eq_map,
      Variant.map_congr ih]
  | record fields ih =>
    rw [meaning, interpret, fieldsMeaning_eq_map, interpretFields_eq_map, Field.map_congr ih]
  | terminated before last ihBefore ihLast =>
    have hlast : last.map meaning = last.map (interpret .grouping) := by
      cases last <;> exact congrArg _ ihLast
    rw [meaning, interpret, fieldsMeaning_eq_map, interpretFields_eq_map, lineMeaning_eq_map,
      interpretLine_eq_map, Field.map_congr ihBefore, hlast]
  | application first middle last name ihFirst ihMiddle ihLast =>
    rw [meaning, interpret, allMeaning_eq_map, interpretAll_eq_map, ihFirst, ihLast,
      List.map_congr_left ihMiddle]
  | product first rest ihFirst ihRest =>
    cases rest with
    | nil => rw [meaning, interpret, ihFirst]; rfl
    | cons second rest =>
      obtain ⟨ihSecond, ihRest⟩ := List.forall_mem_cons.1 ihRest
      rw [meaning, interpret, allMeaning_eq_map, interpretAll_eq_map, ihFirst, ihSecond,
        List.map_congr_left ihRest]
  | applied arg name ih => rw [meaning, interpret, ih]
  | annotated inner group ih => rw [meaning, interpret, ih]

end Surface.Expr

/-! ## The tree of an expression -/

namespace TypeExpr

/-- The name that stands for the tuple without items, which no source text can spell. -/
def emptyTuple : String := "()"

/-- The surface tree of a tuple with given items. -/
def spellTuple : List Expr → Expr
  | [] => .ref emptyTuple
  | first :: rest => .product first rest

/-- The surface tree of the application of a name to given arguments. -/
def spellApplication (name : String) : List Expr → Expr
  | [] => .ref name
  | [arg] => .applied arg name
  | first :: second :: rest =>
    .application first (second :: rest).dropLast
      ((second :: rest).getLast (List.cons_ne_nil second rest)) name

mutual

/-- The surface tree that the printer writes down for an expression. -/
def spell : TypeExpr → Expr
  | sum variants a => (Expr.sum false (spellVariants variants)).withGroups a.groups
  | record fields a => (Expr.record (spellFields fields)).withGroups a.groups
  | tuple items a => (spellTuple (spellAll items)).withGroups a.groups
  | container kind element a => (Expr.applied (spell element) kind.name).withGroups a.groups
  | var name a => (Expr.var name).withGroups a.groups
  | named name args a => (spellApplication name (spellAll args)).withGroups a.groups

/-- `spell` on the payloads of a list of variants. -/
def spellVariants : List (Variant TypeExpr) → List (Variant Expr)
  | [] => []
  | ⟨tag, none⟩ :: rest => ⟨tag, none⟩ :: spellVariants rest
  | ⟨tag, some t⟩ :: rest => ⟨tag, some (spell t)⟩ :: spellVariants rest

/-- `spell` on the types of a list of record lines. -/
def spellFields : List (Field TypeExpr) → List (Field Expr)
  | [] => []
  | .labelled label t :: rest => .labelled label (spell t) :: spellFields rest
  | .inherit t :: rest => .inherit (spell t) :: spellFields rest

/-- `spell` on a list of expressions. -/
def spellAll : List TypeExpr → List Expr
  | [] => []
  | t :: rest => spell t :: spellAll rest

end

theorem spellVariants_eq_map (variants : List (Variant TypeExpr)) :
    spellVariants variants = variants.map (Variant.map spell) := by
  induction variants with
  | nil => rfl
  | cons v rest ih =>
    obtain ⟨tag, payload⟩ := v
    cases payload <;> simp [spellVariants, Variant.map, ih]

theorem spellFields_eq_map (fields : List (Field TypeExpr)) :
    spellFields fields = fields.map (Field.map spell) := by
  induction fields with
  | nil => rfl
  | cons f rest ih => cases f <;> simp [spellFields, Field.map, ih]

theorem spellAll_eq_map (items : List TypeExpr) : spellAll items = items.map spell := by
  induction items with
  | nil => rfl
  | cons t rest ih => simp [spellAll, ih]

/-- An interpretation does right by a node: it does not confuse the node with another one. -/
def InterpretedBy (i : Expr.Interpretation) : TypeExpr → Prop
  | tuple [] _ => i.atom emptyTuple = tuple [] ∅
  | tuple [_] _ => ∀ t, i.single t = tuple [t] ∅
  | named name [] _ => i.atom name = atom name
  | _ => True

theorem normalize_annotate (t : TypeExpr) (a : Annots) :
    (t.annotate a).normalize = t.normalize.annotate a := by
  cases t with
  | named name args b =>
    simp only [annotate, mapAnnots, normalize, rebuild_named, apply]
    split <;> rfl
  | _ => simp [annotate, mapAnnots, normalize]

section Interpret

variable {i : Expr.Interpretation}

theorem interpret_spellTuple {items : List TypeExpr} {a : Annots}
    (h : InterpretedBy i (tuple items a)) :
    (spellTuple (items.map spell)).interpret i =
      tuple (items.map fun t => t.spell.interpret i) ∅ := by
  match items with
  | [] => exact h
  | [t] => exact h _
  | first :: second :: rest =>
    simp [spellTuple, Expr.interpret, Expr.interpretAll_eq_map]

theorem interpret_spellApplication {name : String} {args : List TypeExpr} {a : Annots}
    (h : InterpretedBy i (named name args a)) :
    (spellApplication name (args.map spell)).interpret i =
      named name (args.map fun t => t.spell.interpret i) ∅ := by
  match args with
  | [] => exact h
  | [t] => rfl
  | first :: second :: rest =>
    have hlast := List.dropLast_concat_getLast
      (List.cons_ne_nil second.spell (rest.map spell))
    have hall := congrArg (List.map (Expr.interpret i)) hlast
    simp only [List.map_append, List.map_cons, List.map_nil, List.map_map] at hall
    simp only [spellApplication, List.map_cons, Expr.interpret, Expr.interpretAll_eq_map,
      List.cons_append]
    rw [hall]
    rfl

/-- The tree of an expression gives the expression back, up to its normal form. -/
theorem interpret_spell {t : TypeExpr} (h : ∀ u ∈ t.subterms, InterpretedBy i u) :
    (t.spell.interpret i).normalize = t.normalize := by
  induction t with
  | sum variants a ih =>
    have hchild := (forall_mem_subterms.1 h).2
    rw [spell, Expr.interpret_withGroups, normalize_annotate, spellVariants_eq_map,
      Expr.interpret, Expr.interpretVariants_eq_map]
    simp only [normalize, rebuild_sum, List.map_map, Variant.map_comp_map, annotate, mapAnnots,
      Annots.empty_union]
    exact congrArg (sum · a) (Variant.map_congr fun v hv t ht =>
      ih v hv t ht (hchild t (List.mem_filterMap.2 ⟨v, hv, ht⟩)))
  | record fields a ih =>
    have hchild := (forall_mem_subterms.1 h).2
    rw [spell, Expr.interpret_withGroups, normalize_annotate, spellFields_eq_map,
      Expr.interpret, Expr.interpretFields_eq_map]
    simp only [normalize, rebuild_record, List.map_map, Field.map_comp_map, annotate, mapAnnots,
      Annots.empty_union]
    exact congrArg (record · a) (Field.map_congr fun f hf =>
      ih f hf (hchild _ (List.mem_map.2 ⟨f, hf, rfl⟩)))
  | tuple items a ih =>
    obtain ⟨hroot, hchild⟩ := forall_mem_subterms.1 h
    rw [spell, Expr.interpret_withGroups, normalize_annotate, spellAll_eq_map,
      interpret_spellTuple hroot]
    simp only [normalize, rebuild_tuple, List.map_map, annotate, mapAnnots, Annots.empty_union]
    exact congrArg (tuple · a) (List.map_congr_left fun t ht => ih t ht (hchild t ht))
  | container kind element a ih =>
    have helement := (forall_mem_subterms.1 h).2 element (List.mem_singleton_self element)
    rw [spell, Expr.interpret_withGroups, Expr.interpret]
    simp only [annotate, mapAnnots, Annots.empty_union]
    rw [normalize, rebuild_named, rebuild_container]
    exact (apply_name kind _ a).trans (congrArg (container kind · a) (ih helement))
  | var name a =>
    rw [spell, Expr.interpret_withGroups, normalize_annotate, Expr.interpret]
    simp [normalize, annotate, mapAnnots]
  | named name args a ih =>
    obtain ⟨hroot, hchild⟩ := forall_mem_subterms.1 h
    have hargs : (args.map fun t => t.spell.interpret i).map normalize = args.map normalize := by
      rw [List.map_map]
      exact List.map_congr_left fun t ht => ih t ht (hchild t ht)
    rw [spell, Expr.interpret_withGroups, spellAll_eq_map, interpret_spellApplication hroot]
    simp only [annotate, mapAnnots, Annots.empty_union]
    rw [normalize, rebuild_named, rebuild_named]
    exact congrArg (apply name · a) hargs

end Interpret

end TypeExpr

end Monomorph
