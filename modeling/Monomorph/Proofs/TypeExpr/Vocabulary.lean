import Monomorph.Token.Lexer
import Monomorph.TypeExpr.Traversal

/-!
# The words of a type expression

What can be written in a source text depends on the words that occur in it: names of types, tags and
labels; type variables; groups and keys of annotations. `TypeExpr.WrittenIn` says that all of them
belong to a vocabulary, and `writtenIn_iff` splits it into what the root and the children use.

Type variables are the same in every vocabulary. Names and keys differ: an identifier may or may not
be a keyword, and the name of a specialization is no identifier at all.
-/

namespace Monomorph

namespace Lexer

/-- A letter or underscore, then letters, digits and underscores. -/
def isWord : List Char → Bool
  | [] => false
  | c :: rest => isWordStart c && rest.all isWordPart

/-- A lower-case letter or underscore, then letters, digits and underscores. -/
def isVarName : List Char → Bool
  | [] => false
  | c :: rest => isVarStart c && rest.all isWordPart

theorem isWordPart_of_isWordStart {c : Char} (h : isWordStart c = true) : isWordPart c = true := by
  simp only [isWordStart, isWordPart, Char.isAlphanum, Bool.or_eq_true] at h ⊢
  obtain h | h := h
  · exact Or.inl (Or.inl h)
  · exact Or.inr h

theorem isWordStart_of_isVarStart {c : Char} (h : isVarStart c = true) : isWordStart c = true := by
  have halpha : c.isAlpha = (c.isUpper || c.isLower) := rfl
  simp only [isVarStart, isWordStart, halpha, Bool.or_eq_true] at h ⊢
  obtain h | h := h
  · exact Or.inl (Or.inr h)
  · exact Or.inr h

end Lexer

/-- A letter or underscore, then letters, digits and underscores; keywords are not excluded. -/
def IsIdentifier (name : String) : Prop := Lexer.isWord name.toList = true

/-- A name that can follow the apostrophe of a type variable. -/
def IsVariable (name : String) : Prop := Lexer.isVarName name.toList = true

/-- An identifier that is no keyword, so that a source text can use it as a name. -/
def IsPlain (name : String) : Prop := IsIdentifier name ∧ Mark.ofWord? name = none

instance (name : String) : Decidable (IsIdentifier name) := inferInstanceAs (Decidable (_ = true))

instance (name : String) : Decidable (IsVariable name) := inferInstanceAs (Decidable (_ = true))

instance (name : String) : Decidable (IsPlain name) := inferInstanceAs (Decidable (_ ∧ _))

theorem IsIdentifier.exists_cons {name : String} (h : IsIdentifier name) :
    ∃ c text, name.toList = c :: text ∧ Lexer.isWordStart c = true ∧
      text.all Lexer.isWordPart = true := by
  rw [IsIdentifier] at h
  cases htext : name.toList with
  | nil => simp [htext, Lexer.isWord] at h
  | cons c text =>
    rw [htext] at h
    obtain ⟨hc, htail⟩ := Bool.and_eq_true_iff.1 h
    exact ⟨c, text, rfl, hc, htail⟩

theorem IsVariable.exists_cons {name : String} (h : IsVariable name) :
    ∃ c text, name.toList = c :: text ∧ Lexer.isVarStart c = true ∧
      text.all Lexer.isWordPart = true := by
  rw [IsVariable] at h
  cases htext : name.toList with
  | nil => simp [htext, Lexer.isVarName] at h
  | cons c text =>
    rw [htext] at h
    obtain ⟨hc, htail⟩ := Bool.and_eq_true_iff.1 h
    exact ⟨c, text, rfl, hc, htail⟩

/-- Variables are identifiers. -/
theorem IsVariable.isIdentifier {name : String} (h : IsVariable name) : IsIdentifier name := by
  obtain ⟨c, text, htext, hc, htail⟩ := h.exists_cons
  rw [IsIdentifier, htext]
  exact Bool.and_eq_true_iff.2 ⟨Lexer.isWordStart_of_isVarStart hc, htail⟩

theorem IsIdentifier.all_isWordPart {name : String} (h : IsIdentifier name) :
    name.toList.all Lexer.isWordPart = true := by
  obtain ⟨c, text, htext, hc, htail⟩ := h.exists_cons
  rw [htext]
  exact Bool.and_eq_true_iff.2 ⟨Lexer.isWordPart_of_isWordStart hc, htail⟩

theorem isIdentifier_container (kind : ContainerKind) : IsIdentifier kind.name := by
  cases kind <;> decide

/-- A choice of names, for types, tags and labels, and of keys, for groups and annotations. -/
structure Vocabulary where
  name : String → Prop
  key : String → Prop

/-- The words of source texts. -/
def Vocabulary.plain : Vocabulary := ⟨IsPlain, IsPlain⟩

/-- The group and the key of an annotation belong to a vocabulary. -/
def Annot.WrittenIn (V : Vocabulary) (a : Annot) : Prop := V.key a.group ∧ V.key a.key

instance (name : String) : Decidable (Vocabulary.plain.name name) :=
  inferInstanceAs (Decidable (IsPlain name))

instance (a : Annot) : Decidable (a.WrittenIn .plain) :=
  inferInstanceAs (Decidable (IsPlain a.group ∧ IsPlain a.key))

namespace TypeExpr

/-- The names that the root of an expression shows: tags, labels, the name of a type. -/
def rootNames : TypeExpr → List String
  | sum variants _ => variants.map Variant.tag
  | record fields _ => fields.filterMap fun
    | .labelled label _ => some label
    | .inherit _ => none
  | named name _ _ => [name]
  | tuple _ _ | container _ _ _ | var _ _ => []

/-- All names of types, tags and labels in an expression. -/
def names (t : TypeExpr) : List String := t.subterms.flatMap rootNames

/-- All annotations in an expression. -/
def annotations (t : TypeExpr) : List Annot := t.subterms.flatMap fun u => u.annots.toList

theorem names_eq (t : TypeExpr) : t.names = t.rootNames ++ t.children.flatMap names := by
  rw [names, subterms_eq, List.flatMap_cons, List.flatMap_assoc]
  rfl

theorem varNames_eq (t : TypeExpr) : t.varNames = t.var?.toList ++ t.children.flatMap varNames := by
  rw [varNames, subterms_eq, List.filterMap_cons, List.filterMap_flatMap]
  cases t.var? <;> rfl

theorem annotations_eq (t : TypeExpr) :
    t.annotations = t.annots.toList ++ t.children.flatMap annotations := by
  rw [annotations, subterms_eq, List.flatMap_cons, List.flatMap_assoc]
  rfl

/-- What holds throughout an expression holds at the root and throughout every child. -/
theorem forall_mem_subterms {P : TypeExpr → Prop} {t : TypeExpr} :
    (∀ u ∈ t.subterms, P u) ↔ P t ∧ ∀ c ∈ t.children, ∀ u ∈ c.subterms, P u := by
  rw [subterms_eq]
  simp only [List.forall_mem_cons, List.mem_flatMap, forall_exists_index, and_imp]
  exact and_congr_right fun _ =>
    ⟨fun h c hc u hu => h u c hc hu, fun h u c hc hu => h c hc u hu⟩

/-- All words of an expression belong to a vocabulary. -/
structure WrittenIn (V : Vocabulary) (t : TypeExpr) : Prop where
  names : ∀ name ∈ t.names, V.name name
  vars : ∀ name ∈ t.varNames, IsVariable name
  annots : ∀ a ∈ t.annotations, a.WrittenIn V

/-- The words of an expression are those of its root and those of its children. -/
theorem writtenIn_iff {V : Vocabulary} {t : TypeExpr} : t.WrittenIn V ↔
    (∀ name ∈ t.rootNames, V.name name) ∧ (∀ name ∈ t.var?, IsVariable name) ∧
      (∀ a ∈ t.annots.toList, a.WrittenIn V) ∧ ∀ u ∈ t.children, u.WrittenIn V := by
  constructor
  · rintro ⟨hnames, hvars, hannots⟩
    rw [names_eq] at hnames
    rw [varNames_eq] at hvars
    rw [annotations_eq] at hannots
    simp only [List.mem_append, List.mem_flatMap, Option.mem_toList] at hnames hvars hannots
    exact ⟨fun name h => hnames name (Or.inl h), fun name h => hvars name (Or.inl h),
      fun a h => hannots a (Or.inl h), fun u hu =>
        ⟨fun name h => hnames name (Or.inr ⟨u, hu, h⟩),
          fun name h => hvars name (Or.inr ⟨u, hu, h⟩),
          fun a h => hannots a (Or.inr ⟨u, hu, h⟩)⟩⟩
  · rintro ⟨hnames, hvars, hannots, hchildren⟩
    refine ⟨?_, ?_, ?_⟩
    · intro name h
      rw [names_eq, List.mem_append, List.mem_flatMap] at h
      obtain h | ⟨u, hu, h⟩ := h
      · exact hnames name h
      · exact (hchildren u hu).names name h
    · intro name h
      rw [varNames_eq, List.mem_append, List.mem_flatMap, Option.mem_toList] at h
      obtain h | ⟨u, hu, h⟩ := h
      · exact hvars name h
      · exact (hchildren u hu).vars name h
    · intro a h
      rw [annotations_eq, List.mem_append, List.mem_flatMap] at h
      obtain h | ⟨u, hu, h⟩ := h
      · exact hannots a h
      · exact (hchildren u hu).annots a h

/-- No tuple in an expression has fewer than two items. -/
def IsWide (t : TypeExpr) : Prop := ∀ items a, tuple items a ∈ t.subterms → 2 ≤ items.length

theorem isWide_iff {t : TypeExpr} : t.IsWide ↔
    (∀ items a, t = tuple items a → 2 ≤ items.length) ∧ ∀ u ∈ t.children, u.IsWide := by
  constructor
  · intro h
    refine ⟨fun items a heq => h items a (heq ▸ self_mem_subterms _), fun u hu items a hmem => ?_⟩
    apply h items a
    rw [subterms_eq]
    exact List.mem_cons_of_mem t (List.mem_flatMap.2 ⟨u, hu, hmem⟩)
  · rintro ⟨hroot, hchildren⟩ items a hmem
    rw [subterms_eq, List.mem_cons, List.mem_flatMap] at hmem
    obtain heq | ⟨u, hu, hmem⟩ := hmem
    · exact hroot items a heq.symm
    · exact hchildren u hu items a hmem

/-! ## More annotations at the root -/

@[simp] theorem children_annotate (t : TypeExpr) (a : Annots) :
    (t.annotate a).children = t.children := by
  cases t <;> rfl

@[simp] theorem rootNames_annotate (t : TypeExpr) (a : Annots) :
    (t.annotate a).rootNames = t.rootNames := by
  cases t <;> rfl

@[simp] theorem varNames_annotate (t : TypeExpr) (a : Annots) : (t.annotate a).varNames = t.varNames := by
  rw [varNames_eq, varNames_eq t, var?_annotate, children_annotate]

theorem WrittenIn.annotate {V : Vocabulary} {t : TypeExpr} (h : t.WrittenIn V) {a : Annots}
    (ha : ∀ b ∈ a.toList, b.WrittenIn V) : (t.annotate a).WrittenIn V := by
  obtain ⟨hnames, hvars, hannots, hchildren⟩ := writtenIn_iff.1 h
  rw [writtenIn_iff, rootNames_annotate, var?_annotate, annots_annotate, children_annotate]
  refine ⟨hnames, hvars, fun b hb => ?_, hchildren⟩
  obtain hb | hb := Annots.mem_union.1 hb
  · exact hannots b hb
  · exact ha b hb

theorem IsWide.annotate {t : TypeExpr} (h : t.IsWide) (a : Annots) : (t.annotate a).IsWide := by
  obtain ⟨hroot, hchildren⟩ := isWide_iff.1 h
  rw [isWide_iff, children_annotate]
  refine ⟨fun items b heq => ?_, hchildren⟩
  cases t with
  | tuple items' b' =>
    obtain ⟨rfl, -⟩ := tuple.inj heq
    exact hroot _ b' rfl
  | _ => cases heq

end TypeExpr

end Monomorph
