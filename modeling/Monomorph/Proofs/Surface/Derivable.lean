import Monomorph.Proofs.Printing.Legality
import Monomorph.Proofs.Surface.Phrases

/-!
# Reading is derivation

The reader returns the surface trees of the tokens it is given. A source text is therefore read without
an error exactly if its tokens can be derived, they can then be derived in one way only, and the
definitions that are read are what the derivation stands for.

`typeOf` says what a surface expression stands for in normal form, form by form.
-/

namespace Monomorph

namespace Surface.Grammar

/-! ## What surface trees stand for -/

/-- The type that a surface expression stands for, in normal form. -/
def typeOf (e : Expr) : TypeExpr := e.meaning.normalize

theorem typeOf_var (name : String) : typeOf (.var name) = .var name ∅ := by
  rw [typeOf, Expr.meaning, TypeExpr.normalize, TypeExpr.rebuild_var]

theorem typeOf_ref (name : String) : typeOf (.ref name) = .atom name := by
  rw [typeOf, Expr.meaning, TypeExpr.normalize, TypeExpr.atom, TypeExpr.rebuild_named]
  exact TypeExpr.apply_eq_named ∅ (Or.inr Nat.zero_ne_one)

theorem typeOf_sum (lead : Bool) (variants : List (Variant Expr)) :
    typeOf (.sum lead variants) = .sum (variants.map (Variant.map typeOf)) ∅ := by
  rw [typeOf, Expr.meaning, Expr.variantsMeaning_eq_map, TypeExpr.normalize, TypeExpr.rebuild_sum,
    List.map_map, Variant.map_comp_map]
  rfl

theorem typeOf_record (fields : List (Field Expr)) :
    typeOf (.record fields) = .record (fields.map (Field.map typeOf)) ∅ := by
  rw [typeOf, Expr.meaning, Expr.fieldsMeaning_eq_map, TypeExpr.normalize, TypeExpr.rebuild_record,
    List.map_map, Field.map_comp_map]
  rfl

theorem typeOf_terminated (before : List (Field Expr)) (last : Field Expr) :
    typeOf (.terminated before last) = .record ((before ++ [last]).map (Field.map typeOf)) ∅ := by
  rw [← typeOf_record, typeOf, typeOf, Expr.meaning, Expr.meaning, Expr.fieldsMeaning_eq_map,
    Expr.fieldsMeaning_eq_map, Expr.lineMeaning_eq_map, List.map_append, List.map_singleton]

theorem typeOf_application (first : Expr) (middle : List Expr) (last : Expr) (name : String) :
    typeOf (.application first middle last name) =
      .named name ((first :: (middle ++ [last])).map typeOf) ∅ := by
  rw [typeOf, Expr.meaning, Expr.allMeaning_eq_map, TypeExpr.normalize, TypeExpr.rebuild_named]
  refine (TypeExpr.apply_eq_named ∅ (Or.inr (by simp))).trans ?_
  simp [typeOf, TypeExpr.normalize]

theorem typeOf_group (first : Expr) : typeOf (.product first []) = typeOf first := by
  rw [typeOf, Expr.meaning, typeOf]

theorem typeOf_product (first second : Expr) (rest : List Expr) :
    typeOf (.product first (second :: rest)) = .tuple ((first :: second :: rest).map typeOf) ∅ := by
  rw [typeOf, Expr.meaning, Expr.allMeaning_eq_map, TypeExpr.normalize, TypeExpr.rebuild_tuple]
  simp [typeOf, TypeExpr.normalize]

theorem typeOf_applied (arg : Expr) (name : String) :
    typeOf (.applied arg name) = applied (typeOf arg) name := by
  rw [typeOf, Expr.meaning, TypeExpr.normalize, TypeExpr.rebuild_named]
  unfold applied
  cases hname : ContainerKind.ofName? name with
  | some kind => simp [TypeExpr.apply, hname, typeOf, TypeExpr.normalize]
  | none => exact TypeExpr.apply_eq_named ∅ (Or.inl hname)

theorem typeOf_annotated (inner : Expr) (group : Group) :
    typeOf (.annotated inner group) = (typeOf inner).annotate (.ofList group.meaning) := by
  rw [typeOf, Expr.meaning, TypeExpr.normalize_annotate, typeOf]

/-- What a part of a surface tree stands for. -/
def reading : ∀ name, Phrase name → Meaning name
  | .file, defs => defs.map Def.meaning
  | .definition, d => d.meaning
  | .params, params => (paramsPhrase (some params)).meaning
  | .expr, e => typeOf e
  | .atom, e => typeOf e.1
  | .sum, (lead, variants) => typeOf (.sum lead variants)
  | .variant, v => v.map typeOf
  | .record, .inl fields => typeOf (.record fields)
  | .record, .inr (before, last) => typeOf (.terminated before last)
  | .field, f => f.map typeOf
  | .annot, g => g.meaning

theorem map_snd_map {α β : Type} (f : α → β) (rest : List (Unit × α)) :
    (rest.map (Prod.map id f)).map Prod.snd = (rest.map Prod.snd).map f := by
  simp

theorem map_separated {α β : Type} (f : α → β) (items : Option (α × List (Unit × α))) :
    (separated items).map f = separated (items.map (Prod.map f (List.map (Prod.map id f)))) := by
  cases items with
  | none => rfl
  | some items => exact congrArg (f items.1 :: ·) (map_snd_map f items.2).symm

theorem meaning_paramsPhrase (params : Option (String ⊕ String × List String)) :
    (paramsPhrase params).meaning = (params.map (reading .params)).getD [] := by
  cases params <;> rfl

theorem meaning_definition (params : Option (String ⊕ String × List String)) (name : String)
    (annots : List Group) (body : Expr) :
    (Def.mk (paramsPhrase params) name annots body).meaning =
      ⟨name, (params.map (reading .params)).getD [], .ofList (annots.map Group.meaning).flatten,
        typeOf body⟩ := by
  rw [Def.meaning, meaning_paramsPhrase, List.flatMap_def, typeOf]

theorem typeOf_postfixes (e : Expr) (postfixes : List (String ⊕ Group)) :
    typeOf (postfixes.foldl postfixPhrase e) =
      (postfixes.map (Sum.map id Group.meaning)).foldl postfixMeaning (typeOf e) := by
  induction postfixes generalizing e with
  | nil => rfl
  | cons p rest ih =>
    have hstep : typeOf (postfixPhrase e p) = postfixMeaning (typeOf e) (p.map id Group.meaning) := by
      cases p with
      | inl name => exact typeOf_applied e name
      | inr group => exact typeOf_annotated e group
    rw [List.foldl_cons, ih, hstep, List.map_cons, List.foldl_cons]

theorem typeOf_arguments (first second : Expr) (rest : List (Unit × Expr)) (name : String) :
    typeOf (.application first (splitLast second (rest.map Prod.snd)).1
        (splitLast second (rest.map Prod.snd)).2 name) =
      .named name (typeOf first :: typeOf second :: (rest.map (Prod.map id typeOf)).map Prod.snd) ∅ := by
  rw [typeOf_application, append_splitLast, map_snd_map]
  rfl

theorem typeOf_items (first : Expr) (second : Unit × Expr) (rest : List (Unit × Expr)) :
    typeOf (.product first ((second :: rest).map Prod.snd)) =
      .tuple (typeOf first :: ((second :: rest).map (Prod.map id typeOf)).map Prod.snd) ∅ := by
  rw [map_snd_map]
  exact typeOf_product first second.2 (rest.map Prod.snd)

theorem typeOf_lines (first : Field Expr) (rest : List (Unit × Field Expr)) :
    typeOf (.record (first :: rest.map Prod.snd)) =
      .record (first.map typeOf :: (rest.map (Prod.map id (Field.map typeOf))).map Prod.snd) ∅ := by
  rw [typeOf_record, map_snd_map, List.map_cons]

theorem typeOf_terminatedLines (first : Field Expr) (rest : List (Unit × Field Expr)) :
    typeOf (.terminated (splitLast first (rest.map Prod.snd)).1
        (splitLast first (rest.map Prod.snd)).2) =
      .record (first.map typeOf :: (rest.map (Prod.map id (Field.map typeOf))).map Prod.snd) ∅ := by
  rw [typeOf_terminated, append_splitLast, map_snd_map, List.map_cons]

theorem map_entryRule (entry : String × Option (Unit × String)) :
    entryRule.map reading entry = entry := by
  obtain ⟨key, value⟩ := entry
  cases value <;> rfl

theorem meaning_group (name : String) (first : String × Option (Unit × String))
    (rest : List (String × Option (Unit × String))) :
    (Group.mk name (splitLast (entryPhrase first) (rest.map entryPhrase)).1
        (splitLast (entryPhrase first) (rest.map entryPhrase)).2).meaning =
      (first :: rest).map fun (key, value) => ⟨name, key, value.map Prod.snd⟩ := by
  rw [Group.meaning, Group.entries, append_splitLast, ← List.map_cons, List.map_map]
  rfl

/-- A derivation stands for what its surface tree stands for. -/
theorem reading_phrase (name : Symbol) (value : (rules name).Value Phrase) :
    reading name (phrase name value) = meaning name ((rules name).map reading value) := by
  match name, value with
  | .file, _ => rfl
  | .definition, (_, params, name, annots, _, body) => exact meaning_definition params name annots body
  | .params, .inl name => rfl
  | .params, .inr (_, first, rest, _) =>
    exact congrArg (first :: ·) ((List.map_id _).symm.trans (map_snd_map id rest).symm)
  | .expr, (head, postfixes) => exact typeOf_postfixes head.1 postfixes
  | .atom, .inl name => exact typeOf_var name
  | .atom, .inr (.inl name) => exact typeOf_ref name
  | .atom, .inr (.inr (.inl (lead, variants))) => rfl
  | .atom, .inr (.inr (.inr (.inl (.inl fields)))) => rfl
  | .atom, .inr (.inr (.inr (.inl (.inr (before, last))))) => rfl
  | .atom, .inr (.inr (.inr (.inr (.inl (_, first, ((_, second), rest), _, name))))) =>
    exact typeOf_arguments first second rest name
  | .atom, .inr (.inr (.inr (.inr (.inr (_, first, [], _))))) => exact typeOf_group first
  | .atom, .inr (.inr (.inr (.inr (.inr (_, first, second :: rest, _))))) =>
    exact typeOf_items first second rest
  | .sum, (_, bar, variants, _) =>
    exact (typeOf_sum bar.isSome (separated variants)).trans
      (congrArg (TypeExpr.sum · ∅) (map_separated (Variant.map typeOf) variants))
  | .variant, (tag, payload) => cases payload <;> rfl
  | .record, (_, none, _) => exact typeOf_record []
  | .record, (_, some (first, rest, none), _) => exact typeOf_lines first rest
  | .record, (_, some (first, rest, some _), _) => exact typeOf_terminatedLines first rest
  | .field, .inl (label, _, type) => rfl
  | .field, .inr (_, type) => rfl
  | .annot, (_, name, (first, rest), _) =>
    exact (meaning_group name first rest).trans
      (congrArg (List.map _) (List.map_id'' map_entryRule (first :: rest)).symm)

/-- The definitions that a derivation stands for are read off its surface trees. -/
theorem definitions_eq_map (d : Derivation rules (.symbol .file)) :
    definitions d = (trees d).map Def.meaning :=
  (d.map_value reading_phrase).symm

end Surface.Grammar

namespace Source

open Surface.Grammar

theorem diagnostics_eq_nil_iff {source : String} (hlex : (Lexed.ofSource source).unmatched = []) :
    (parse source).diagnostics = [] ↔ ∃ defs, Surface.parse (Lexed.ofSource source).tokens = .ok defs := by
  simp only [parse, Parsed.diagnostics, hlex, List.map_nil, List.nil_append]
  cases Surface.parse (Lexed.ofSource source).tokens with
  | ok defs => simp
  | error e => simp

/-- A text without unmatched parts is read without an error exactly if its tokens can be derived from the
grammar. The derivation is then the only one, and the definitions that are read are what it stands
for. -/
theorem parse_eq_derivation {source : String} (hlex : (Lexed.ofSource source).unmatched = []) :
    ((parse source).diagnostics = [] ↔
      ∃ d : Derivation rules (.symbol .file), d.yield = (Lexed.ofSource source).tokens) ∧
    ∀ d : Derivation rules (.symbol .file), d.yield = (Lexed.ofSource source).tokens →
      (∀ d' : Derivation rules (.symbol .file), d'.yield = (Lexed.ofSource source).tokens → d' = d) ∧
      ∃ items, (parse source).items? = some items ∧ items.map Item.definition = definitions d := by
  refine ⟨?_, fun d hd => ⟨fun d' hd' => eq_of_yield_eq (hd'.trans hd.symm), ?_⟩⟩
  · rw [diagnostics_eq_nil_iff hlex]
    constructor
    · rintro ⟨defs, hdefs⟩
      obtain ⟨d, rfl⟩ := exists_trees_eq defs
      exact ⟨d, (tokens_trees d).symm.trans (Surface.parse_eq_ok.1 hdefs)⟩
    · rintro ⟨d, hd⟩
      exact ⟨trees d, Surface.parse_eq_ok.2 ((tokens_trees d).trans hd)⟩
  · have hparse : Surface.parse (Lexed.ofSource source).tokens = .ok (trees d) :=
      Surface.parse_eq_ok.2 ((tokens_trees d).trans hd)
    refine ⟨locate (trees d) (Lexed.ofSource source).lexemes, ?_, ?_⟩
    · simp only [parse, Parsed.items?, hparse]
    · rw [map_definition_locate, definitions_eq_map]

/-- Both forms in parentheses, one inside the other, every kind of postfix, and an empty sum. -/
def nested : String :=
  "type ('k, 'v) t <doc note> = ((('k, []) pair * 'v list <m key = \"x\">) option) wrap\n" ++
    "type u = \x7b a : [ | A of (string) | B ]; inherit u; \x7d"

/-- The text is read as the two definitions of its derivation, which there is. -/
theorem parse_eq_derivation_nested : (Lexed.ofSource nested).unmatched = [] ∧
    ∃ d : Derivation rules (.symbol .file), d.yield = (Lexed.ofSource nested).tokens ∧
      ∃ items, (parse nested).items? = some items ∧ items.map Item.definition = definitions d ∧
        items.length = 2 := by
  have hlex : (Lexed.ofSource nested).unmatched = [] := by decide +kernel
  have hclean : (parse nested).diagnostics = [] := by decide +kernel
  have hlength : (parse nested).items?.map List.length = some 2 := by decide +kernel
  obtain ⟨d, hd⟩ := (parse_eq_derivation hlex).1.1 hclean
  obtain ⟨_, items, hitems, heq⟩ := (parse_eq_derivation hlex).2 d hd
  rw [hitems] at hlength
  exact ⟨hlex, d, hd, items, hitems, heq, Option.some.inj hlength⟩

end Source

end Monomorph
