import Mathlib.Data.List.Induction
import Monomorph.Proofs.Surface.Grammar

/-!
# Derivations and surface trees

A derivation has the tokens of its surface tree and is determined by it, and every surface tree is that
of a derivation. So surface trees and derivations are the same thing, and the uniqueness of the one is
that of the other.

`tokens_phrase` and `phrase_injective` are about one rule at a time, `derived_expr` is an induction over
surface expressions.
-/

namespace Monomorph

namespace Surface.Grammar

/-! ## Tokens -/

/-- The tokens of a part of a surface tree. -/
def tokens : ∀ name, Phrase name → List Token
  | .file, defs => defs.flatMap Def.tokens
  | .definition, d => d.tokens
  | .params, params => (paramsPhrase (some params)).tokens
  | .expr, e => e.tokens
  | .atom, e => e.1.tokens
  | .sum, (lead, variants) => (Expr.sum lead variants).tokens
  | .variant, v => Parser.variantTokens v
  | .record, .inl fields => (Expr.record fields).tokens
  | .record, .inr (before, last) => (Expr.terminated before last).tokens
  | .field, f => Expr.lineTokens f
  | .annot, g => g.tokens

theorem tokens_params (params : Option (String ⊕ String × List String)) :
    (paramsPhrase params).tokens = (Rule.optional (.symbol Symbol.params)).spell tokens params := by
  cases params <;> rfl

theorem tokens_definition (params : Option (String ⊕ String × List String)) (name : String)
    (annots : List Group) (body : Expr) :
    (Def.mk (paramsPhrase params) name annots body).tokens =
      [Token.mark .type] ++ ((Rule.optional (.symbol Symbol.params)).spell tokens params ++
        ([Token.ident name] ++ (annots.flatMap Group.tokens ++
          ([Token.mark .equals] ++ body.tokens)))) := by
  simp [Def.tokens, ← tokens_params]

theorem tokens_listed (first : String) (rest : List (Unit × String)) :
    (Params.listed first (rest.map Prod.snd)).tokens =
      [Token.mark .leftParen] ++ ([Token.var first] ++
        (rest.flatMap (fun p => [Token.mark .comma] ++ [Token.var p.2]) ++
          [Token.mark .rightParen])) := by
  simp [Params.tokens, List.flatMap_map]

theorem tokens_postfixes (e : Expr) (postfixes : List (String ⊕ Group)) :
    (postfixes.foldl postfixPhrase e).tokens =
      e.tokens ++ postfixes.flatMap ((Rule.either ident (.symbol .annot)).spell tokens) := by
  induction postfixes generalizing e with
  | nil => exact (List.append_nil _).symm
  | cons p rest ih =>
    have hstep : (postfixPhrase e p).tokens =
        e.tokens ++ (Rule.either ident (.symbol .annot)).spell tokens p := by
      cases p <;> exact Expr.tokens.eq_def _
    rw [List.foldl_cons, ih, hstep, List.append_assoc]
    rfl

theorem tokens_arguments (first second : Expr) (rest : List (Unit × Expr)) (name : String) :
    (Expr.application first (splitLast second (rest.map Prod.snd)).1
        (splitLast second (rest.map Prod.snd)).2 name).tokens =
      [Token.mark .leftParen] ++ (first.tokens ++ ((([Token.mark .comma] ++ second.tokens) ++
        rest.flatMap fun p => [Token.mark .comma] ++ p.2.tokens) ++
          ([Token.mark .rightParen] ++ [Token.ident name]))) := by
  rw [Parser.tokens_application, append_splitLast]
  simp [Parser.listTokens, List.flatMap_map]

theorem tokens_items (first : Expr) (rest : List (Unit × Expr)) :
    (Expr.product first (rest.map Prod.snd)).tokens =
      [Token.mark .leftParen] ++ (first.tokens ++
        (rest.flatMap (fun p => [Token.mark .star] ++ p.2.tokens) ++ [Token.mark .rightParen])) := by
  rw [Parser.tokens_product]
  simp [Parser.listTokens, List.flatMap_map]

theorem tokens_variants (bar : Option Unit)
    (variants : Option (Variant Expr × List (Unit × Variant Expr))) :
    (Expr.sum bar.isSome (separated variants)).tokens =
      [Token.mark .leftBracket] ++ ((Rule.optional (mark .bar)).spell tokens bar ++
        ((variants.elim [] fun (first, rest) => Parser.variantTokens first ++
          rest.flatMap fun p => [Token.mark .bar] ++ Parser.variantTokens p.2) ++
            [Token.mark .rightBracket])) := by
  have hbar : (if bar.isSome then [Token.mark .bar] else []) =
      (Rule.optional (mark .bar)).spell tokens bar := by
    cases bar <;> rfl
  rw [Expr.tokens, Expr.variantTokens_eq_map, hbar]
  cases variants with
  | none => simp [separated]
  | some variants =>
    rw [separated, List.map_cons, intercalate_cons]
    simp [Parser.variantTokens, List.flatMap_map]

theorem tokens_lines (first : Field Expr) (rest : List (Unit × Field Expr)) :
    (Expr.record (first :: rest.map Prod.snd)).tokens =
      [Token.mark .leftBrace] ++ ((Expr.lineTokens first ++
        (rest.flatMap (fun p => [Token.mark .semicolon] ++ Expr.lineTokens p.2) ++ [])) ++
          [Token.mark .rightBrace]) := by
  rw [Expr.tokens, Expr.fieldTokens_eq_map, List.map_cons, intercalate_cons]
  simp [List.flatMap_map]

theorem tokens_terminatedLines (first : Field Expr) (rest : List (Unit × Field Expr)) :
    (Expr.terminated (splitLast first (rest.map Prod.snd)).1
        (splitLast first (rest.map Prod.snd)).2).tokens =
      [Token.mark .leftBrace] ++ ((Expr.lineTokens first ++
        (rest.flatMap (fun p => [Token.mark .semicolon] ++ Expr.lineTokens p.2) ++
          [Token.mark .semicolon])) ++ [Token.mark .rightBrace]) := by
  have hlines := congrArg (fun lines => [Token.mark .semicolon].intercalate (lines.map Expr.lineTokens))
    (append_splitLast first (rest.map Prod.snd))
  simp only [List.map_append, List.map_cons, List.map_nil, intercalate_concat, intercalate_cons,
    List.flatMap_map] at hlines
  rw [Expr.tokens, Expr.fieldTokens_eq_map, List.flatMap_map, List.cons_append, hlines]
  simp

/-- A key with or without a value. -/
def entryRule : Rule Symbol := .seq ident (.optional (.seq (mark .equals) (.token .text)))

theorem tokens_entry (entry : String × Option (Unit × String)) :
    (entryPhrase entry).tokens = entryRule.spell tokens entry := by
  obtain ⟨key, value⟩ := entry
  cases value <;> rfl

theorem tokens_group (name : String) (first : String × Option (Unit × String))
    (rest : List (String × Option (Unit × String))) :
    (Group.mk name (splitLast (entryPhrase first) (rest.map entryPhrase)).1
        (splitLast (entryPhrase first) (rest.map entryPhrase)).2).tokens =
      [Token.mark .less] ++ ([Token.ident name] ++ ((entryRule.spell tokens first ++
        rest.flatMap (entryRule.spell tokens)) ++ [Token.mark .greater])) := by
  have hentry : (fun entry => (entryPhrase entry).tokens) = entryRule.spell tokens :=
    funext tokens_entry
  rw [Group.tokens, Group.entries, append_splitLast, List.flatMap_cons, List.flatMap_map, hentry,
    tokens_entry]
  rfl

/-- A derivation and its surface tree have the same tokens. -/
theorem tokens_phrase (name : Symbol) (value : (rules name).Value Phrase) :
    tokens name (phrase name value) = (rules name).spell tokens value := by
  match name, value with
  | .file, _ => rfl
  | .definition, (_, params, name, annots, _, body) => exact tokens_definition params name annots body
  | .params, .inl name => rfl
  | .params, .inr (_, first, rest, _) => exact tokens_listed first rest
  | .expr, (head, postfixes) => exact tokens_postfixes head.1 postfixes
  | .atom, .inl name => exact Parser.tokens_var name
  | .atom, .inr (.inl name) => exact Parser.tokens_ref name
  | .atom, .inr (.inr (.inl (lead, variants))) => rfl
  | .atom, .inr (.inr (.inr (.inl (.inl fields)))) => rfl
  | .atom, .inr (.inr (.inr (.inl (.inr (before, last))))) => rfl
  | .atom, .inr (.inr (.inr (.inr (.inl (_, first, ((_, second), rest), _, name))))) =>
    exact tokens_arguments first second rest name
  | .atom, .inr (.inr (.inr (.inr (.inr (_, first, rest, _))))) => exact tokens_items first rest
  | .sum, (_, bar, none, _) => exact tokens_variants bar none
  | .sum, (_, bar, some (first, rest), _) => exact tokens_variants bar (some (first, rest))
  | .variant, (tag, payload) => cases payload <;> rfl
  | .record, (_, none, _) => rfl
  | .record, (_, some (first, rest, none), _) => exact tokens_lines first rest
  | .record, (_, some (first, rest, some _), _) => exact tokens_terminatedLines first rest
  | .field, .inl (label, _, type) => rfl
  | .field, .inr (_, type) => rfl
  | .annot, (_, name, (first, rest), _) => exact tokens_group name first rest

/-! ## Surface trees determine derivations -/

theorem snd_injective {α : Type} : Function.Injective (Prod.snd : Unit × α → α) :=
  fun _ _ h => Prod.ext rfl h

theorem map_snd_injective {α : Type} : Function.Injective (List.map (Prod.snd : Unit × α → α)) :=
  List.map_injective_iff.2 snd_injective

theorem splitLast_inj {α : Type} {first first' : α} {rest rest' : List α} :
    splitLast first rest = splitLast first' rest' ↔ first = first' ∧ rest = rest' := by
  constructor
  · intro h
    rw [← List.cons.injEq, ← append_splitLast, h, append_splitLast]
  · rintro ⟨rfl, rfl⟩
    rfl

theorem separated_injective {α : Type} :
    Function.Injective (separated : Option (α × List (Unit × α)) → List α) := by
  rintro (_ | ⟨first, rest⟩) (_ | ⟨first', rest'⟩) h
  · rfl
  · cases h
  · cases h
  · obtain ⟨hfirst, hrest⟩ := List.cons.inj h
    exact congrArg some (Prod.ext hfirst (map_snd_injective hrest))

theorem paramsPhrase_injective : Function.Injective paramsPhrase := by
  rintro (_ | _ | ⟨_, _⟩) (_ | _ | ⟨_, _⟩) h <;> simp_all [paramsPhrase]

theorem entryPhrase_injective : Function.Injective entryPhrase := by
  rintro ⟨key, value⟩ ⟨key', value'⟩ h
  obtain ⟨hkey, hvalue⟩ := Entry.mk.inj h
  exact Prod.ext hkey (Option.map_injective snd_injective hvalue)

/-- An atom and the postfixes after it can be told apart. -/
theorem foldl_postfixPhrase_inj {e e' : Expr} (he : isAtom e = true) (he' : isAtom e' = true)
    {postfixes postfixes' : List (String ⊕ Group)}
    (h : postfixes.foldl postfixPhrase e = postfixes'.foldl postfixPhrase e') :
    e = e' ∧ postfixes = postfixes' := by
  have hpostfix : ∀ e p, isAtom (postfixPhrase e p) = false := by rintro e (name | group) <;> rfl
  induction postfixes using List.reverseRecOn generalizing postfixes' with
  | nil =>
    obtain rfl | ⟨before, p, rfl⟩ := postfixes'.eq_nil_or_concat
    · exact ⟨h, rfl⟩
    · rw [List.concat_eq_append, List.foldl_concat, List.foldl_nil] at h
      rw [h, hpostfix] at he
      cases he
  | append_singleton before p ih =>
    obtain rfl | ⟨before', p', rfl⟩ := postfixes'.eq_nil_or_concat
    · rw [List.foldl_concat, List.foldl_nil] at h
      rw [← h, hpostfix] at he'
      cases he'
    · rw [List.concat_eq_append, List.foldl_concat, List.foldl_concat] at h
      have hlast : before.foldl postfixPhrase e = before'.foldl postfixPhrase e' ∧ p = p' := by
        cases p <;> cases p' <;> simp_all [postfixPhrase]
      obtain ⟨rfl, rfl⟩ := ih hlast.1
      rw [hlast.2, List.concat_eq_append]
      exact ⟨rfl, rfl⟩

theorem phrase_atom_injective : Function.Injective (phrase .atom) := by
  intro value value' h
  have heq := congrArg Subtype.val h
  -- Different alternatives give different forms.
  rcases value with name | name | sum | (fields | lines) | args | items <;>
    rcases value' with name' | name' | sum' | (fields' | lines') | args' | items' <;>
    try (cases heq; done)
  · cases heq
    rfl
  · cases heq
    rfl
  · obtain ⟨hlead, hvariants⟩ := Expr.sum.inj heq
    obtain rfl : sum = sum' := Prod.ext hlead hvariants
    rfl
  · cases heq
    rfl
  · obtain ⟨hbefore, hlast⟩ := Expr.terminated.inj heq
    obtain rfl : lines = lines' := Prod.ext hbefore hlast
    rfl
  · obtain ⟨_, first, ⟨⟨_, second⟩, rest⟩, _, name⟩ := args
    obtain ⟨_, first', ⟨⟨_, second'⟩, rest'⟩, _, name'⟩ := args'
    obtain ⟨rfl, hmiddle, hlast, rfl⟩ := Expr.application.inj heq
    obtain ⟨rfl, hrest⟩ := splitLast_inj.1 (Prod.ext hmiddle hlast)
    obtain rfl := map_snd_injective hrest
    rfl
  · obtain ⟨_, first, rest, _⟩ := items
    obtain ⟨_, first', rest', _⟩ := items'
    obtain ⟨rfl, hrest⟩ := Expr.product.inj heq
    obtain rfl := map_snd_injective hrest
    rfl

theorem phrase_record_injective : Function.Injective (phrase .record) := by
  rintro ⟨_, lines, _⟩ ⟨_, lines', _⟩ h
  rcases lines with _ | ⟨first, rest, _ | _⟩ <;> rcases lines' with _ | ⟨first', rest', _ | _⟩ <;>
    try (cases h; done)
  · rfl
  · obtain ⟨rfl, hrest⟩ := List.cons.inj (Sum.inl.inj h)
    obtain rfl := map_snd_injective hrest
    rfl
  · obtain ⟨rfl, hrest⟩ := splitLast_inj.1 (Sum.inr.inj h)
    obtain rfl := map_snd_injective hrest
    rfl

/-- A surface tree determines the parts that make it. -/
theorem phrase_injective (name : Symbol) : Function.Injective (phrase name) := by
  intro value value' h
  match name, value, value' with
  | .file, _, _ => exact h
  | .definition, (_, params, name, annots, _, body), (_, params', name', annots', _, body') =>
    obtain ⟨hparams, hname, hannots, hbody⟩ := Def.mk.inj h
    exact Prod.ext rfl (Prod.ext (paramsPhrase_injective hparams)
      (Prod.ext hname (Prod.ext hannots (Prod.ext rfl hbody))))
  | .params, .inl name, .inl name' => exact congrArg Sum.inl (Sum.inl.inj h)
  | .params, .inr (_, first, rest, _), .inr (_, first', rest', _) =>
    obtain ⟨hfirst, hrest⟩ := Prod.mk.inj (Sum.inr.inj h)
    exact congrArg Sum.inr (Prod.ext rfl (Prod.ext hfirst (Prod.ext (map_snd_injective hrest) rfl)))
  | .expr, (head, postfixes), (head', postfixes') =>
    obtain ⟨hhead, hpostfixes⟩ := foldl_postfixPhrase_inj head.2 head'.2 h
    exact Prod.ext (Subtype.ext hhead) hpostfixes
  | .atom, _, _ => exact phrase_atom_injective h
  | .sum, (_, bar, variants, _), (_, bar', variants', _) =>
    obtain ⟨hbar, hvariants⟩ := Prod.mk.inj h
    have hbar : bar = bar' := by
      cases bar <;> cases bar' <;> first | rfl | cases hbar
    exact Prod.ext rfl (Prod.ext hbar (Prod.ext (separated_injective hvariants) rfl))
  | .variant, (tag, payload), (tag', payload') =>
    obtain ⟨htag, hpayload⟩ := Variant.mk.inj h
    exact Prod.ext htag (Option.map_injective snd_injective hpayload)
  | .record, _, _ => exact phrase_record_injective h
  | .field, .inl (label, _, type), .inl (label', _, type') =>
    obtain ⟨hlabel, htype⟩ := Field.labelled.inj h
    exact congrArg Sum.inl (Prod.ext hlabel (Prod.ext rfl htype))
  | .field, .inr (_, type), .inr (_, type') =>
    exact congrArg Sum.inr (Prod.ext rfl (Field.inherit.inj h))
  | .annot, (_, name, (first, rest), _), (_, name', (first', rest'), _) =>
    obtain ⟨hname, hbefore, hlast⟩ := Group.mk.inj h
    obtain ⟨hfirst, hrest⟩ := splitLast_inj.1 (Prod.ext hbefore hlast)
    exact Prod.ext rfl (Prod.ext hname (Prod.ext (Prod.ext (entryPhrase_injective hfirst)
      (List.map_injective_iff.2 entryPhrase_injective hrest)) rfl))

/-! ## Every surface tree is derived -/

/-- A phrase is derived if its parts are. -/
theorem derived_symbol (name : Symbol) (parts : (rules name).Value Phrase) {p : Phrase name}
    (hp : phrase name parts = p) (h : Derived phrase (rules name) parts) :
    Derived phrase (.symbol name) p :=
  hp ▸ .symbol h

theorem derived_mark (m : Mark) : Derived phrase (mark m) () := .token (.mark m) ()

/-- Values with a sign before each. -/
theorem derived_many {r : Rule Symbol} (m : Mark) {values : List (r.Value Phrase)}
    (h : ∀ value ∈ values, Derived phrase r value) :
    Derived phrase (.many (.seq (mark m) r)) (values.map (Prod.mk ())) := by
  refine .many fun part hpart => ?_
  obtain ⟨value, hvalue, rfl⟩ := List.mem_map.1 hpart
  exact .seq (derived_mark m) (h value hvalue)

theorem map_snd_mk {α : Type} (items : List α) : (items.map (Prod.mk ())).map Prod.snd = items := by
  rw [List.map_map]
  exact List.map_id items

/-- Every list with a last element is split off another one. -/
theorem exists_splitLast {α : Type} (before : List α) (last : α) :
    ∃ first rest, first :: rest = before ++ [last] ∧ splitLast first rest = (before, last) := by
  cases before with
  | nil => exact ⟨last, [], rfl, rfl⟩
  | cons first before => exact ⟨first, before ++ [last], rfl, by simp [splitLast, List.dropLast]⟩

theorem derived_entry (entry : Entry) :
    ∃ value : String × Option (Unit × String), entryPhrase value = entry ∧
      Derived phrase entryRule value := by
  obtain ⟨key, value⟩ := entry
  cases value with
  | none => exact ⟨(key, none), rfl, .seq (.token .ident key) .absent⟩
  | some value =>
    exact ⟨(key, some ((), value)), rfl,
      .seq (.token .ident key) (.present (.seq (derived_mark .equals) (.token .text value)))⟩

theorem derived_entries (entries : List Entry) :
    ∃ values : List (String × Option (Unit × String)), values.map entryPhrase = entries ∧
      ∀ value ∈ values, Derived phrase entryRule value := by
  choose value hvalue hderived using derived_entry
  refine ⟨entries.map value, ?_, ?_⟩
  · rw [List.map_map]
    exact List.map_id'' hvalue entries
  · intro v hv
    obtain ⟨entry, _, rfl⟩ := List.mem_map.1 hv
    exact hderived entry

theorem derived_annot (group : Group) : Derived phrase (.symbol .annot) group := by
  obtain ⟨name, before, last⟩ := group
  obtain ⟨first, rest, _, hsplit⟩ := exists_splitLast before last
  obtain ⟨first, rfl, hfirst⟩ := derived_entry first
  obtain ⟨rest, rfl, hrest⟩ := derived_entries rest
  refine derived_symbol .annot ((), name, (first, rest), ()) ?_ (.seq (derived_mark .less)
    (.seq (.token .ident name) (.seq (.seq hfirst (.many hrest)) (derived_mark .greater))))
  exact congrArg (fun parts : List Entry × Entry => Group.mk name parts.1 parts.2) hsplit

theorem derived_params (params : Params) :
    ∃ value, paramsPhrase value = params ∧ Derived phrase (.optional (.symbol .params)) value := by
  cases params with
  | absent => exact ⟨none, rfl, .absent⟩
  | bare name =>
    exact ⟨some (.inl name), rfl,
      .present (derived_symbol .params (.inl name) rfl (.left (.token .var name)))⟩
  | listed first rest =>
    refine ⟨some (.inr (first, rest)), rfl, .present (derived_symbol .params
      (.inr ((), first, rest.map (Prod.mk ()), ())) ?_ (.right (.seq (derived_mark .leftParen)
        (.seq (.token .var first) (.seq (derived_many .comma fun param _ => .token .var param)
          (derived_mark .rightParen))))))⟩
    exact congrArg (fun rest => Sum.inr (first, rest)) (map_snd_mk rest)

/-- An atom is an expression without postfixes. -/
theorem derived_of_atom {e : Expr} (he : isAtom e = true) (h : Derived phrase (.symbol .atom) ⟨e, he⟩) :
    Derived phrase (.symbol .expr) e :=
  derived_symbol .expr (⟨e, he⟩, []) rfl (.seq h (.many fun _ hp => absurd hp List.not_mem_nil))

/-- An expression can have one more postfix. -/
theorem derived_postfix {e : Expr} (h : Derived phrase (.symbol .expr) e) {p : String ⊕ Group}
    (hp : Derived phrase (.either ident (.symbol .annot)) p) :
    Derived phrase (.symbol .expr) (postfixPhrase e p) := by
  obtain ⟨⟨head, (postfixes : List (String ⊕ Group))⟩, hparts, rfl⟩ := h.of_symbol
  obtain ⟨hhead, hpostfixes⟩ := hparts.of_seq
  refine derived_symbol .expr (head, postfixes ++ [p]) (List.foldl_concat ..) (.seq hhead (.many ?_))
  exact List.forall_mem_append.2 ⟨hpostfixes.of_many, List.forall_mem_singleton.2 hp⟩

theorem derived_variant {v : Variant Expr} (h : ∀ e ∈ v.payload, Derived phrase (.symbol .expr) e) :
    Derived phrase (.symbol .variant) v := by
  obtain ⟨tag, payload⟩ := v
  cases payload with
  | none => exact derived_symbol .variant (tag, none) rfl (.seq (.token .ident tag) .absent)
  | some e =>
    exact derived_symbol .variant (tag, some ((), e)) rfl
      (.seq (.token .ident tag) (.present (.seq (derived_mark .of) (h e rfl))))

theorem derived_field {f : Field Expr} (h : Derived phrase (.symbol .expr) f.type) :
    Derived phrase (.symbol .field) f := by
  cases f with
  | labelled label type =>
    exact derived_symbol .field (.inl (label, (), type)) rfl
      (.left (.seq (.token .ident label) (.seq (derived_mark .colon) h)))
  | inherit type =>
    exact derived_symbol .field (.inr ((), type)) rfl (.right (.seq (derived_mark .inherit) h))

theorem derived_sum (lead : Bool) {variants : List (Variant Expr)}
    (h : ∀ v ∈ variants, Derived phrase (.symbol .variant) v) :
    Derived phrase (.symbol .sum) (lead, variants) := by
  have hbar : ∃ bar : Option Unit, bar.isSome = lead ∧ Derived phrase (.optional (mark .bar)) bar := by
    cases lead with
    | false => exact ⟨none, rfl, .absent⟩
    | true => exact ⟨some (), rfl, .present (derived_mark .bar)⟩
  obtain ⟨bar, rfl, hbar⟩ := hbar
  cases variants with
  | nil =>
    exact derived_symbol .sum ((), bar, none, ()) rfl (.seq (derived_mark .leftBracket)
      (.seq hbar (.seq .absent (derived_mark .rightBracket))))
  | cons first rest =>
    obtain ⟨hfirst, hrest⟩ := List.forall_mem_cons.1 h
    refine derived_symbol .sum ((), bar, some (first, rest.map (Prod.mk ())), ()) ?_
      (.seq (derived_mark .leftBracket) (.seq hbar
        (.seq (.present (.seq hfirst (derived_many .bar hrest))) (derived_mark .rightBracket))))
    exact congrArg (fun rest => (bar.isSome, first :: rest)) (map_snd_mk rest)

theorem derived_record {fields : List (Field Expr)}
    (h : ∀ f ∈ fields, Derived phrase (.symbol .field) f) :
    Derived phrase (.symbol .record) (.inl fields) := by
  cases fields with
  | nil =>
    exact derived_symbol .record ((), none, ()) rfl
      (.seq (derived_mark .leftBrace) (.seq .absent (derived_mark .rightBrace)))
  | cons first rest =>
    obtain ⟨hfirst, hrest⟩ := List.forall_mem_cons.1 h
    refine derived_symbol .record ((), some (first, rest.map (Prod.mk ()), none), ()) ?_
      (.seq (derived_mark .leftBrace) (.seq (.present (.seq hfirst
        (.seq (derived_many .semicolon hrest) .absent))) (derived_mark .rightBrace)))
    exact congrArg (fun rest => Sum.inl (first :: rest)) (map_snd_mk rest)

theorem derived_terminated {before : List (Field Expr)} {last : Field Expr}
    (h : ∀ f ∈ before ++ [last], Derived phrase (.symbol .field) f) :
    Derived phrase (.symbol .record) (.inr (before, last)) := by
  obtain ⟨first, rest, hall, hsplit⟩ := exists_splitLast before last
  obtain ⟨hfirst, hrest⟩ := List.forall_mem_cons.1 (hall ▸ h)
  refine derived_symbol .record ((), some (first, rest.map (Prod.mk ()), some ()), ()) ?_
    (.seq (derived_mark .leftBrace) (.seq (.present (.seq hfirst (.seq (derived_many .semicolon hrest)
      (.present (derived_mark .semicolon))))) (derived_mark .rightBrace)))
  exact congrArg Sum.inr ((congrArg (splitLast first) (map_snd_mk rest)).trans hsplit)

theorem derived_application {first : Expr} {middle : List Expr} {last : Expr} (name : String)
    (hfirst : Derived phrase (.symbol .expr) first)
    (h : ∀ e ∈ middle ++ [last], Derived phrase (.symbol .expr) e) :
    Derived phrase (.symbol .atom) ⟨.application first middle last name, rfl⟩ := by
  obtain ⟨second, rest, hall, hsplit⟩ := exists_splitLast middle last
  obtain ⟨hsecond, hrest⟩ := List.forall_mem_cons.1 (hall ▸ h)
  refine derived_symbol .atom (.inr (.inr (.inr (.inr (.inl
    ((), first, (((), second), rest.map (Prod.mk ())), (), name)))))) ?_
      (.right (.right (.right (.right (.left (.seq (derived_mark .leftParen) (.seq hfirst
        (.seq (.seq (.seq (derived_mark .comma) hsecond) (derived_many .comma hrest))
          (.seq (derived_mark .rightParen) (.token .ident name))))))))))
  have hparts := (congrArg (splitLast second) (map_snd_mk rest)).trans hsplit
  exact Subtype.ext (congrArg (fun parts : List Expr × Expr =>
    Expr.application first parts.1 parts.2 name) hparts)

theorem derived_product {first : Expr} {rest : List Expr}
    (hfirst : Derived phrase (.symbol .expr) first)
    (hrest : ∀ e ∈ rest, Derived phrase (.symbol .expr) e) :
    Derived phrase (.symbol .atom) ⟨.product first rest, rfl⟩ := by
  refine derived_symbol .atom (.inr (.inr (.inr (.inr (.inr
    ((), first, rest.map (Prod.mk ()), ())))))) ?_
      (.right (.right (.right (.right (.right (.seq (derived_mark .leftParen) (.seq hfirst
        (.seq (derived_many .star hrest) (derived_mark .rightParen)))))))))
  exact Subtype.ext (congrArg (Expr.product first) (map_snd_mk rest))

/-- Every surface expression is that of a derivation. -/
theorem derived_expr (e : Expr) : Derived phrase (.symbol .expr) e := by
  induction e with
  | var name => exact derived_of_atom rfl (derived_symbol .atom (.inl name) rfl (.left (.token .var name)))
  | ref name =>
    exact derived_of_atom rfl
      (derived_symbol .atom (.inr (.inl name)) rfl (.right (.left (.token .ident name))))
  | sum lead variants ih =>
    have hsum := derived_sum lead fun v hv => derived_variant (ih v hv)
    exact derived_of_atom rfl
      (derived_symbol .atom (.inr (.inr (.inl (lead, variants)))) rfl (.right (.right (.left hsum))))
  | record fields ih =>
    have hrecord := derived_record fun f hf => derived_field (ih f hf)
    exact derived_of_atom rfl (derived_symbol .atom (.inr (.inr (.inr (.inl (.inl fields))))) rfl
      (.right (.right (.right (.left hrecord)))))
  | terminated before last ihBefore ihLast =>
    have hrecord := derived_terminated (List.forall_mem_append.2
      ⟨fun f hf => derived_field (ihBefore f hf), List.forall_mem_singleton.2 (derived_field ihLast)⟩)
    exact derived_of_atom rfl (derived_symbol .atom (.inr (.inr (.inr (.inl (.inr (before, last)))))) rfl
      (.right (.right (.right (.left hrecord)))))
  | application first middle last name ihFirst ihMiddle ihLast =>
    exact derived_of_atom rfl (derived_application name ihFirst
      (List.forall_mem_append.2 ⟨ihMiddle, List.forall_mem_singleton.2 ihLast⟩))
  | product first rest ihFirst ihRest => exact derived_of_atom rfl (derived_product ihFirst ihRest)
  | applied arg name ih => exact derived_postfix ih (p := .inl name) (.left (.token .ident name))
  | annotated inner group ih =>
    exact derived_postfix ih (p := .inr group) (.right (derived_annot group))

theorem derived_definition (d : Def) : Derived phrase (.symbol .definition) d := by
  obtain ⟨params, name, annots, body⟩ := d
  obtain ⟨params, rfl, hparams⟩ := derived_params params
  exact derived_symbol .definition ((), params, name, annots, (), body) rfl
    (.seq (derived_mark .type) (.seq hparams (.seq (.token .ident name)
      (.seq (.many fun group _ => derived_annot group)
        (.seq (derived_mark .equals) (derived_expr body))))))

/-! ## Files -/

theorem tokens_trees (d : Derivation rules (.symbol .file)) : (trees d).flatMap Def.tokens = d.yield :=
  (d.yield_eq_spell tokens_phrase).symm

/-- Every list of surface definitions is that of a derivation. -/
theorem exists_trees_eq (defs : List Def) : ∃ d, trees d = defs :=
  derived_symbol .file defs rfl (.many fun d _ => derived_definition d)

/-- The grammar is unambiguous. -/
theorem eq_of_yield_eq {d d' : Derivation rules (.symbol .file)} (h : d.yield = d'.yield) : d = d' := by
  have hparse := parse_tokens (trees d)
  rw [tokens_trees, h, ← tokens_trees, parse_tokens] at hparse
  exact Derivation.value_injective phrase_injective d d' (Except.ok.inj hparse).symm

end Surface.Grammar

end Monomorph
