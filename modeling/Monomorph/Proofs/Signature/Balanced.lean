import Monomorph.Proofs.Surface.Reading
import Monomorph.Proofs.TypeExpr.Variables
import Monomorph.TypeExpr.Printer

/-!
# Balanced text

The name of a specialization ends with the parenthesis that closes its first one. `closing` looks for
that parenthesis; parentheses between double quotes do not count, and a backslash between quotes
hides the character after it. `Balanced` text is what such a search passes over, at any depth, and
printed expressions are balanced if their names are.
-/

namespace Monomorph

namespace Signature

/-- Where the search stands: outside of quotes, between them, or after a backslash between them. -/
inductive Quoting where
  | outside
  | inside
  | escaped
deriving DecidableEq, Repr

/-- The text up to the parenthesis that closes `depth + 1` open ones, and the text after it. -/
def closing : Quoting → Nat → List Char → List Char × List Char
  | _, _, [] => ([], [])
  | .escaped, depth, c :: rest => (closing .inside depth rest).map (c :: ·) id
  | .inside, depth, c :: rest =>
    let next : Quoting := if c = '"' then .outside else if c = '\\' then .escaped else .inside
    (closing next depth rest).map (c :: ·) id
  | .outside, depth, c :: rest =>
    if c = '"' then (closing .inside depth rest).map (c :: ·) id
    else if c = '(' then (closing .outside (depth + 1) rest).map (c :: ·) id
    else if c = ')' then
      match depth with
      | 0 => ([c], rest)
      | depth + 1 => (closing .outside depth rest).map (c :: ·) id
    else (closing .outside depth rest).map (c :: ·) id

/-- Text that the search passes over without a change of depth. -/
def Balanced (text : List Char) : Prop := ∀ depth rest,
  closing .outside depth (text ++ rest) = (closing .outside depth rest).map (text ++ ·) id

theorem Balanced.nil : Balanced [] := fun _ _ => rfl

theorem Balanced.append {text more : List Char} (htext : Balanced text) (hmore : Balanced more) :
    Balanced (text ++ more) := by
  intro depth rest
  rw [List.append_assoc, htext, hmore]
  simp [Prod.map, List.append_assoc]

/-- Neither a quote nor a parenthesis. -/
def isInert (c : Char) : Bool := c != '"' && c != '(' && c != ')'

theorem Balanced.of_inert {text : List Char} (h : text.all isInert = true) : Balanced text := by
  induction text with
  | nil => exact Balanced.nil
  | cons c text ih =>
    obtain ⟨hc, htext⟩ := Bool.and_eq_true_iff.1 h
    simp only [isInert, Bool.and_eq_true, bne_iff_ne] at hc
    intro depth rest
    simp [closing, hc, ih htext depth rest, Prod.map]

theorem Balanced.parens {text : List Char} (h : Balanced text) :
    Balanced ('(' :: (text ++ [')'])) := by
  intro depth rest
  have hclose : closing .outside (depth + 1) (')' :: rest) =
      (closing .outside depth rest).map (')' :: ·) id := rfl
  have hopen : closing .outside depth ('(' :: (text ++ ')' :: rest)) =
      (closing .outside (depth + 1) (text ++ ')' :: rest)).map ('(' :: ·) id := rfl
  rw [List.cons_append, List.append_assoc, List.singleton_append, hopen, h, hclose]
  simp [Prod.map]

theorem closing_encode (value : List Char) (depth : Nat) (rest : List Char) :
    closing .inside depth (Text.Quoted.encode value ++ '"' :: rest) =
      (closing .outside depth rest).map (Text.Quoted.encode value ++ '"' :: ·) id := by
  induction value with
  | nil => rfl
  | cons c value ih =>
    rw [Text.Quoted.encode]
    split
    · simp [closing, ih, Prod.map]
    · next hc =>
      rw [not_or] at hc
      simp [closing, hc, ih, Prod.map]

theorem Balanced.write (value : String) : Balanced (Text.Quoted.write value).toList := by
  intro depth rest
  have hwrite : (Text.Quoted.write value).toList ++ rest =
      '"' :: (Text.Quoted.encode value.toList ++ '"' :: rest) := by
    simp [Text.Quoted.write]
  have hopen : ∀ tail, closing .outside depth ('"' :: tail) =
    (closing .inside depth tail).map ('"' :: ·) id := fun _ => rfl
  rw [hwrite, hopen, closing_encode]
  simp [Text.Quoted.write, Prod.map]

theorem Balanced.flatMap {α : Type} {parts : List α} {text : α → List Char}
    (h : ∀ part ∈ parts, Balanced (text part)) : Balanced (parts.flatMap text) := by
  induction parts with
  | nil => exact Balanced.nil
  | cons part parts ih =>
    obtain ⟨hpart, hparts⟩ := List.forall_mem_cons.1 h
    exact hpart.append (ih hparts)

/-- Balanced parts with a separator between every two. -/
theorem Balanced.intercalate {separator : String} (hseparator : Balanced separator.toList)
    {parts : List String} (h : ∀ part ∈ parts, Balanced part.toList) :
    Balanced (separator.toList.intercalate (parts.map String.toList)) := by
  cases parts with
  | nil => exact Balanced.nil
  | cons first parts =>
    obtain ⟨hfirst, hparts⟩ := List.forall_mem_cons.1 h
    rw [List.map_cons, Surface.intercalate_cons, List.flatMap_map]
    exact hfirst.append (Balanced.flatMap fun part hpart => hseparator.append (hparts part hpart))

/-! ## Printed expressions -/

theorem isInert_of_isWordPart {c : Char} (h : Lexer.isWordPart c = true) : isInert c = true := by
  simp only [isInert, Bool.and_eq_true, bne_iff_ne]
  refine ⟨⟨?_, ?_⟩, ?_⟩ <;> rintro rfl <;> revert h <;> decide

theorem Balanced.of_word {text : List Char} (h : text.all Lexer.isWordPart = true) :
    Balanced text :=
  Balanced.of_inert (List.all_eq_true.2 fun c hc => isInert_of_isWordPart (List.all_eq_true.1 h c hc))

/-- Names that are balanced, and keys that are identifiers. -/
def vocabulary : Vocabulary := ⟨fun name => Balanced name.toList, IsIdentifier⟩

theorem Balanced.renderFrom {entries : List Annot} (h : ∀ a ∈ entries, a.WrittenIn vocabulary)
    (current : Option String) : Balanced (Annots.renderFrom current entries).toList := by
  induction entries generalizing current with
  | nil =>
    cases current with
    | none => exact Balanced.nil
    | some group => exact Balanced.of_inert (rfl : ">".toList.all isInert = true)
  | cons a entries ih =>
    obtain ⟨ha, hentries⟩ := List.forall_mem_cons.1 h
    have hgroup := Balanced.of_word ha.1.all_isWordPart
    have hkey := Balanced.of_word ha.2.all_isWordPart
    have hentry : Balanced a.render.toList := by
      rw [Annot.render]
      split
      · exact hkey
      · rw [String.toList_append, String.toList_append]
        exact (hkey.append (Balanced.of_inert rfl)).append (Balanced.write _)
    have hrest := (Balanced.of_inert (rfl : " ".toList.all isInert = true)).append
      (hentry.append (ih hentries (some a.group)))
    simp only [Annots.renderFrom, String.toList_append, List.append_assoc]
    split
    · exact hrest
    · split
      · rw [String.toList_append, List.append_assoc]
        exact (Balanced.of_inert rfl).append (hgroup.append hrest)
      · rw [String.toList_append, List.append_assoc]
        exact (Balanced.of_inert rfl).append (hgroup.append hrest)

theorem Balanced.annots {s : Annots} (h : ∀ a ∈ s.toList, a.WrittenIn vocabulary) :
    Balanced s.render.toList := Balanced.renderFrom h none

theorem Balanced.renderBlock {left right separator : String} (hleft : Balanced left.toList)
    (hright : Balanced right.toList) (hseparator : Balanced separator.toList) {parts : List String}
    (hparts : ∀ part ∈ parts, Balanced part.toList) :
    Balanced (TypeExpr.renderBlock left right separator parts).toList := by
  have hblank : Balanced " ".toList := Balanced.of_inert rfl
  cases parts with
  | nil =>
    rw [TypeExpr.renderBlock, String.toList_append, String.toList_append]
    exact (hleft.append hblank).append hright
  | cons first parts =>
    simp only [TypeExpr.renderBlock, String.toList_append, String.toList_intercalate]
    exact (((hleft.append hblank).append (hseparator.intercalate hparts)).append hblank).append hright

theorem Balanced.renderApplication {name : String} (hname : Balanced name.toList)
    {parts : List String} (hparts : ∀ part ∈ parts, Balanced part.toList) :
    Balanced (TypeExpr.renderApplication name parts).toList := by
  match parts with
  | [] => exact hname
  | [part] =>
    rw [TypeExpr.renderApplication, String.toList_append, String.toList_append]
    exact ((hparts part List.mem_cons_self).append (Balanced.of_inert rfl)).append hname
  | first :: second :: rest =>
    have hlist : Balanced (", ".toList.intercalate ((first :: second :: rest).map String.toList)) :=
      Balanced.intercalate (Balanced.of_inert rfl) hparts
    have hblank : Balanced (' ' :: name.toList) :=
      (Balanced.of_inert (rfl : [' '].all isInert = true)).append hname
    have htext : (TypeExpr.renderApplication name (first :: second :: rest)).toList =
        '(' :: (", ".toList.intercalate ((first :: second :: rest).map String.toList) ++ [')']) ++
          ' ' :: name.toList := by
      simp [TypeExpr.renderApplication, String.toList_intercalate]
    rw [htext]
    exact hlist.parens.append hblank

theorem Balanced.renderVariant {v : Variant TypeExpr} (htag : Balanced v.tag.toList)
    (hpayload : ∀ t ∈ v.payload, Balanced t.render.toList) :
    Balanced (TypeExpr.renderVariant v).toList := by
  rw [TypeExpr.renderVariant]
  split
  · exact htag
  · next t ht =>
    rw [String.toList_append, String.toList_append]
    exact (htag.append (Balanced.of_inert rfl)).append (hpayload t ht)

theorem Balanced.renderField {f : Field TypeExpr}
    (hlabel : ∀ label t, f = .labelled label t → Balanced label.toList)
    (htype : Balanced f.type.render.toList) : Balanced (TypeExpr.renderField f).toList := by
  cases f with
  | labelled label t =>
    rw [TypeExpr.renderField, String.toList_append, String.toList_append]
    exact ((hlabel label t rfl).append (Balanced.of_inert rfl)).append htype
  | inherit t =>
    rw [TypeExpr.renderField, String.toList_append]
    exact (Balanced.of_inert rfl).append htype

/-- Printed expressions are balanced if their names are. -/
theorem Balanced.render {t : TypeExpr} (h : t.WrittenIn vocabulary) :
    Balanced t.render.toList := by
  induction t using TypeExpr.children_induct with
  | node t ih =>
    obtain ⟨hnames, hvar, hannots, hwritten⟩ := TypeExpr.writtenIn_iff.1 h
    have hchildren : ∀ u ∈ t.children, Balanced u.render.toList := fun u hu => ih u hu (hwritten u hu)
    have hrendered : ∀ part ∈ t.children.map TypeExpr.render, Balanced part.toList :=
      List.forall_mem_map.2 hchildren
    cases t with
    | sum variants a =>
      rw [TypeExpr.render, TypeExpr.renderVariants_eq_map, String.toList_append]
      refine (Balanced.renderBlock (Balanced.of_inert rfl) (Balanced.of_inert rfl)
        (Balanced.of_inert rfl) (List.forall_mem_map.2 fun v hv => ?_)).append (Balanced.annots hannots)
      exact Balanced.renderVariant (hnames v.tag (List.mem_map.2 ⟨v, hv, rfl⟩)) fun t ht =>
        hchildren t (List.mem_filterMap.2 ⟨v, hv, ht⟩)
    | record fields a =>
      rw [TypeExpr.render, TypeExpr.renderFields_eq_map, String.toList_append]
      refine (Balanced.renderBlock (Balanced.of_inert rfl) (Balanced.of_inert rfl)
        (Balanced.of_inert rfl) (List.forall_mem_map.2 fun f hf => ?_)).append (Balanced.annots hannots)
      refine Balanced.renderField ?_ (hchildren f.type (List.mem_map.2 ⟨f, hf, rfl⟩))
      rintro label t rfl
      exact hnames label (List.mem_filterMap.2 ⟨.labelled label t, hf, rfl⟩)
    | tuple items a =>
      have hitems : Balanced (" * ".toList.intercalate ((items.map TypeExpr.render).map String.toList)) :=
        Balanced.intercalate (Balanced.of_inert rfl) hrendered
      have htext : (TypeExpr.tuple items a).render.toList = '(' :: (" * ".toList.intercalate
          ((items.map TypeExpr.render).map String.toList) ++ [')']) ++ a.render.toList := by
        simp [TypeExpr.render, TypeExpr.renderAll_eq_map, String.toList_intercalate]
      rw [htext]
      exact hitems.parens.append (Balanced.annots hannots)
    | container kind element a =>
      have hkind : Balanced kind.name.toList := by
        cases kind <;> exact Balanced.of_inert rfl
      rw [TypeExpr.render, String.toList_append]
      exact (hkind.renderApplication hrendered).append (Balanced.annots hannots)
    | var name a =>
      rw [TypeExpr.render, String.toList_append, String.toList_append]
      exact ((Balanced.of_inert rfl).append
        (Balanced.of_word (hvar name rfl).isIdentifier.all_isWordPart)).append (Balanced.annots hannots)
    | named name args a =>
      have hname : Balanced name.toList := hnames name (List.mem_singleton_self name)
      rw [TypeExpr.render, TypeExpr.renderAll_eq_map, String.toList_append]
      exact (hname.renderApplication hrendered).append (Balanced.annots hannots)

end Signature

end Monomorph
