import Monomorph.Proofs.Printing.RoundTrip
import Monomorph.Proofs.Surface.Soundness
import Monomorph.Proofs.TypeExpr.Variables

/-!
# What a source text can contain

The lexer only makes identifiers and variables of the right form, the reader only builds trees of
the tokens it gets, and the meaning of a tree only uses words of the tree. So all definitions of a
text without errors are `TypeDef.Writable`, the converse of reading printed definitions back.
-/

namespace Monomorph

open Surface

/-! ## Tokens -/

/-- The word in a token is of the form that its kind requires. -/
def Token.IsLegal : Token → Prop
  | .ident name => IsPlain name
  | .var name => IsVariable name
  | .mark _ | .text _ => True

namespace Lexer

/-- What the characters of an open segment have in common with a word, where the mode promises one. -/
def Mode.Holds : Mode → List Char → Prop
  | word, text => isWord text = true
  | apostrophe, text => text = ['\'']
  | var, text => ∃ name, text = '\'' :: name ∧ isVarName name = true
  | _, _ => True

theorem isWord_append {text : List Char} (h : isWord text = true) {c : Char}
    (hc : isWordPart c = true) : isWord (text ++ [c]) = true := by
  cases text with
  | nil => cases h
  | cons first text =>
    obtain ⟨hfirst, htext⟩ := Bool.and_eq_true_iff.1 h
    rw [List.cons_append, isWord, List.all_append, hfirst, htext]
    simp [hc]

theorem isVarName_append {text : List Char} (h : isVarName text = true) {c : Char}
    (hc : isWordPart c = true) : isVarName (text ++ [c]) = true := by
  cases text with
  | nil => cases h
  | cons first text =>
    obtain ⟨hfirst, htext⟩ := Bool.and_eq_true_iff.1 h
    rw [List.cons_append, isVarName, List.all_append, hfirst, htext]
    simp [hc]

theorem Mode.holds_start (c : Char) : (Mode.start c).Holds [c] := by
  unfold start
  split
  · trivial
  · split
    · next hc => simp [Holds, isWord, hc]
    · split
      · trivial
      · split
        · next hc => exact congrArg ([·]) hc
        · split
          · trivial
          · split <;> trivial

theorem Mode.holds_extend {mode next : Mode} {text : List Char} {c : Char} (h : mode.Holds text)
    (hextend : mode.extend c = some next) : next.Holds (text ++ [c]) := by
  cases mode with
  | word =>
    obtain ⟨hc, hnext⟩ := Option.ite_none_right_eq_some.1 hextend
    obtain rfl := Option.some.inj hnext
    exact isWord_append h hc
  | apostrophe =>
    obtain ⟨hc, hnext⟩ := Option.ite_none_right_eq_some.1 hextend
    obtain rfl := Option.some.inj hnext
    obtain rfl : text = ['\''] := h
    exact ⟨[c], rfl, by simp [isVarName, hc]⟩
  | var =>
    obtain ⟨hc, hnext⟩ := Option.ite_none_right_eq_some.1 hextend
    obtain rfl := Option.some.inj hnext
    obtain ⟨name, rfl, hname⟩ := h
    exact ⟨name ++ [c], rfl, isVarName_append hname hc⟩
  | blank =>
    obtain ⟨-, hnext⟩ := Option.ite_none_right_eq_some.1 hextend
    obtain rfl := Option.some.inj hnext
    trivial
  | comment | escape =>
    obtain ⟨-, hnext⟩ := Option.ite_none_left_eq_some.1 hextend
    obtain rfl := Option.some.inj hnext
    trivial
  | quote =>
    obtain rfl := Option.some.inj hextend
    split
    · trivial
    · split <;> trivial
  | quoted | sign _ | stray => cases hextend

theorem isLegal_ofWord {text : List Char} (h : isWord text = true) :
    (Token.ofWord (String.ofList text)).IsLegal := by
  unfold Token.ofWord
  split
  · trivial
  · next hmark =>
    have hidentifier : IsIdentifier (String.ofList text) := by
      rw [IsIdentifier, String.toList_ofList]
      exact h
    exact ⟨hidentifier, hmark⟩

theorem Mode.isLegal_of_mem_finish {mode : Mode} {text part : List Char} {token : Token}
    (h : mode.Holds text) (hmem : .token token part ∈ mode.finish text) : token.IsLegal := by
  cases mode with
  | word =>
    obtain ⟨rfl, -⟩ := Segment.token.inj (List.mem_singleton.1 hmem)
    exact isLegal_ofWord h
  | var =>
    obtain ⟨name, rfl, hname⟩ := h
    obtain ⟨rfl, -⟩ := Segment.token.inj (List.mem_singleton.1 hmem)
    rw [Token.IsLegal, IsVariable, String.toList_ofList]
    exact hname
  | quoted =>
    simp only [finish] at hmem
    split at hmem
    · obtain ⟨rfl, -⟩ := Segment.token.inj (List.mem_singleton.1 hmem)
      trivial
    · simp at hmem
  | sign mark =>
    obtain ⟨rfl, -⟩ := Segment.token.inj (List.mem_singleton.1 hmem)
    trivial
  | _ => simp [finish] at hmem

theorem isLegal_of_mem_scan {mode : Mode} {text rest part : List Char} {token : Token}
    (h : mode.Holds text.reverse) (hmem : .token token part ∈ scan mode text rest) :
    token.IsLegal := by
  induction rest generalizing mode text with
  | nil => exact Mode.isLegal_of_mem_finish h hmem
  | cons c rest ih =>
    rw [scan] at hmem
    split at hmem
    · next next hextend =>
      refine ih ?_ hmem
      rw [List.reverse_cons]
      exact Mode.holds_extend h hextend
    · obtain hmem | hmem := List.mem_append.1 hmem
      · exact Mode.isLegal_of_mem_finish h hmem
      · exact ih (Mode.holds_start c) hmem

/-- All tokens of a text are of the form that their kind requires. -/
theorem isLegal_of_mem_tokens {source : String} {token : Token}
    (hmem : token ∈ (Lexed.ofSource source).tokens) : token.IsLegal := by
  rw [Lexed.tokens_ofSource, List.mem_filterMap] at hmem
  obtain ⟨word, hword, rfl⟩ := hmem
  obtain ⟨segment, hsegment, hword⟩ := List.mem_filterMap.1 hword
  cases segment with
  | token token part =>
    obtain rfl := Option.some.inj (Option.some.inj hword)
    cases htext : source.toList with
    | nil => rw [htext] at hsegment; cases hsegment
    | cons c rest =>
      rw [htext] at hsegment
      exact isLegal_of_mem_scan (Mode.holds_start c) hsegment
  | _ => cases hword

end Lexer

/-! ## Trees -/

namespace Surface

/-- All tokens are of the form that their kind requires. -/
def Legal (tokens : List Token) : Prop := ∀ token ∈ tokens, token.IsLegal

theorem legal_append {tokens more : List Token} :
    Legal (tokens ++ more) ↔ Legal tokens ∧ Legal more := List.forall_mem_append

theorem legal_cons {token : Token} {tokens : List Token} :
    Legal (token :: tokens) ↔ token.IsLegal ∧ Legal tokens := List.forall_mem_cons

theorem Legal.of_subset {tokens part : List Token} (h : Legal tokens) (hpart : part ⊆ tokens) :
    Legal part := fun token hmem => h token (hpart hmem)

theorem Legal.of_mem_intercalate {separator : List Token} {parts : List (List Token)}
    (h : Legal (separator.intercalate parts)) {part : List Token} (hpart : part ∈ parts) :
    Legal part := by
  cases parts with
  | nil => cases hpart
  | cons first rest =>
    rw [intercalate_cons, legal_append] at h
    obtain rfl | hpart := List.mem_cons.1 hpart
    · exact h.1
    · refine h.2.of_subset fun token hmem => List.mem_flatMap.2 ⟨part, hpart, ?_⟩
      exact List.mem_append_right _ hmem

theorem Group.writtenIn_of_mem_meaning {g : Group} (h : Legal g.tokens) {a : Annot}
    (ha : a ∈ g.meaning) : a.WrittenIn .plain := by
  obtain ⟨e, he, rfl⟩ := List.mem_map.1 ha
  have hgroup : IsPlain g.name := h (.ident g.name) (by simp [Group.tokens])
  have hentry : Token.ident e.key ∈ e.tokens := by
    unfold Entry.tokens
    split <;> exact List.mem_cons_self
  have hkey : IsPlain e.key := h (.ident e.key) (by
    simp only [Group.tokens, List.mem_cons, List.mem_append, List.mem_flatMap]
    exact Or.inr (Or.inr (Or.inl ⟨e, he, hentry⟩)))
  exact ⟨hgroup, hkey⟩

theorem writtenIn_of_mem_ofList {groups : List Group} (h : ∀ g ∈ groups, Legal g.tokens) {a : Annot}
    (ha : a ∈ (Annots.ofList (groups.flatMap Group.meaning)).toList) : a.WrittenIn .plain := by
  rw [← Annots.mem_def, Annots.mem_ofList] at ha
  obtain ⟨g, hg, ha⟩ := List.mem_flatMap.1 ha
  exact g.writtenIn_of_mem_meaning (h g hg) ha

/-- A type expression that a source text can spell, but for the form of its containers. -/
structure Spells (t : TypeExpr) : Prop where
  words : t.WrittenIn .plain
  wide : t.IsWide

theorem spells_iff {t : TypeExpr} : Spells t ↔
    (∀ name ∈ t.rootNames, IsPlain name) ∧ (∀ name ∈ t.var?, IsVariable name) ∧
      (∀ a ∈ t.annots.toList, a.WrittenIn .plain) ∧
      (∀ items a, t = .tuple items a → 2 ≤ items.length) ∧ ∀ u ∈ t.children, Spells u := by
  constructor
  · rintro ⟨hwords, hwide⟩
    obtain ⟨hnames, hvars, hannots, hchildren⟩ := TypeExpr.writtenIn_iff.1 hwords
    obtain ⟨hroot, hwide⟩ := TypeExpr.isWide_iff.1 hwide
    exact ⟨hnames, hvars, hannots, hroot, fun u hu => ⟨hchildren u hu, hwide u hu⟩⟩
  · rintro ⟨hnames, hvars, hannots, hroot, hchildren⟩
    exact ⟨TypeExpr.writtenIn_iff.2 ⟨hnames, hvars, hannots, fun u hu => (hchildren u hu).words⟩,
      TypeExpr.isWide_iff.2 ⟨hroot, fun u hu => (hchildren u hu).wide⟩⟩

/-- A node that is no variable and has no annotations. -/
theorem spells_node {t : TypeExpr} (hnames : ∀ name ∈ t.rootNames, IsPlain name) (hvar : t.var? = none)
    (hannots : t.annots = ∅) (hroot : ∀ items a, t = .tuple items a → 2 ≤ items.length)
    (hchildren : ∀ u ∈ t.children, Spells u) : Spells t := by
  refine spells_iff.2 ⟨hnames, fun name hname => ?_, fun a ha => ?_, hroot, hchildren⟩
  · rw [hvar] at hname
    cases hname
  · rw [hannots] at ha
    cases ha

/-- An application without annotations. -/
theorem spells_named {name : String} {args : List TypeExpr} (hname : IsPlain name)
    (hargs : ∀ arg ∈ args, Spells arg) : Spells (.named name args ∅) := by
  refine spells_node (fun n hn => ?_) rfl rfl (fun _ _ heq => by cases heq) hargs
  rw [List.mem_singleton.1 hn]
  exact hname

theorem spells_variants {variants : List (Variant Expr)}
    (h : ∀ v ∈ variants, Legal (.ident v.tag :: Expr.payloadTokens v) ∧
      ∀ e ∈ v.payload, Legal e.tokens → Spells e.meaning) :
    Spells (.sum (variants.map (Variant.map Expr.meaning)) ∅) := by
  refine spells_node (fun name hname => ?_) rfl rfl (fun _ _ heq => by cases heq) fun u hu => ?_
  · obtain ⟨w, hw, rfl⟩ := List.mem_map.1 hname
    obtain ⟨v, hv, rfl⟩ := List.mem_map.1 hw
    exact (legal_cons.1 (h v hv).1).1
  · obtain ⟨w, hw, hu⟩ := List.mem_filterMap.1 hu
    obtain ⟨v, hv, rfl⟩ := List.mem_map.1 hw
    obtain ⟨e, he, rfl⟩ := Option.map_eq_some_iff.1 hu
    have hpayload := (legal_cons.1 (h v hv).1).2
    rw [Expr.payloadTokens, he, legal_cons] at hpayload
    exact (h v hv).2 e he hpayload.2

theorem spells_lines {fields : List (Field Expr)}
    (h : ∀ f ∈ fields, Legal (Expr.lineTokens f) ∧ (Legal f.type.tokens → Spells f.type.meaning)) :
    Spells (.record (fields.map (Field.map Expr.meaning)) ∅) := by
  refine spells_node (fun name hname => ?_) rfl rfl (fun _ _ heq => by cases heq) fun u hu => ?_
  · obtain ⟨line, hline, hname⟩ := List.mem_filterMap.1 hname
    obtain ⟨f, hf, rfl⟩ := List.mem_map.1 hline
    cases f with
    | labelled label e =>
      obtain rfl := Option.some.inj hname
      exact (legal_cons.1 (h (.labelled label e) hf).1).1
    | inherit e => cases hname
  · obtain ⟨line, hline, rfl⟩ := List.mem_map.1 hu
    obtain ⟨f, hf, rfl⟩ := List.mem_map.1 hline
    rw [Field.type_map]
    refine (h f hf).2 ((h f hf).1.of_subset fun token hmem => ?_)
    cases f with
    | labelled label e => exact List.mem_cons_of_mem _ (List.mem_cons_of_mem _ hmem)
    | inherit e => exact List.mem_cons_of_mem _ hmem

/-- The meaning of an expression only uses its words. -/
theorem Expr.spells_meaning {e : Expr} (h : Legal e.tokens) : Spells e.meaning := by
  induction e with
  | var name =>
    rw [tokens, legal_cons] at h
    rw [meaning]
    refine spells_iff.2 ⟨fun n hn => ?_, fun n hn => ?_, fun a ha => ?_, fun items a heq => ?_, fun u hu => ?_⟩
    · cases hn
    · rw [← Option.some.inj hn]
      exact h.1
    · cases ha
    · cases heq
    · cases hu
  | ref name =>
    rw [tokens, legal_cons] at h
    rw [meaning]
    exact spells_named h.1 (List.forall_mem_nil _)
  | sum lead variants ih =>
    rw [tokens, variantTokens_eq_map, legal_append, legal_append] at h
    rw [meaning, variantsMeaning_eq_map]
    exact spells_variants fun v hv =>
      ⟨Legal.of_mem_intercalate h.1.2 (List.mem_map_of_mem hv), ih v hv⟩
  | record fields ih =>
    rw [tokens, fieldTokens_eq_map, legal_append, legal_cons] at h
    rw [meaning, fieldsMeaning_eq_map]
    exact spells_lines fun f hf =>
      ⟨Legal.of_mem_intercalate h.1.2 (List.mem_map_of_mem hf), ih f hf⟩
  | terminated before last ihBefore ihLast =>
    rw [tokens, fieldTokens_eq_map, List.flatMap_map, legal_append, legal_append, legal_cons] at h
    have hlines : fieldsMeaning before ++ [lineMeaning last] =
        (before ++ [last]).map (Field.map meaning) := by
      rw [fieldsMeaning_eq_map, lineMeaning_eq_map, List.map_append, List.map_singleton]
    rw [meaning, hlines]
    apply spells_lines
    intro f hf
    obtain hf | hf := List.mem_append.1 hf
    · refine ⟨h.1.1.2.of_subset fun token hmem => ?_, ihBefore f hf⟩
      exact List.mem_flatMap.2 ⟨f, hf, List.mem_append_left _ hmem⟩
    · obtain rfl := List.mem_singleton.1 hf
      exact ⟨h.1.2, ihLast⟩
  | application first middle last name ihFirst ihMiddle ihLast =>
    rw [tokens, allTokens_eq_map, List.flatMap_map] at h
    simp only [legal_append, legal_cons] at h
    rw [meaning, allMeaning_eq_map]
    refine spells_named h.2.2.1 fun arg harg => ?_
    simp only [List.cons_append, List.mem_cons, List.mem_append, List.mem_map, List.not_mem_nil,
      or_false] at harg
    obtain rfl | ⟨e, he, rfl⟩ | rfl := harg
    · exact ihFirst h.1.1.1.2
    · refine ihMiddle e he (h.1.1.2.of_subset fun token hmem => ?_)
      exact List.mem_flatMap.2 ⟨e, he, List.mem_cons_of_mem _ hmem⟩
    · exact ihLast h.1.2.2
  | product first rest ihFirst ihRest =>
    rw [tokens, allTokens_eq_map, List.flatMap_map] at h
    simp only [legal_append, legal_cons] at h
    have hrest : ∀ e ∈ rest, Spells e.meaning := fun e he =>
      ihRest e he (h.1.2.of_subset fun token hmem =>
        List.mem_flatMap.2 ⟨e, he, List.mem_cons_of_mem _ hmem⟩)
    cases rest with
    | nil =>
      rw [meaning]
      exact ihFirst h.1.1.2
    | cons second rest =>
      rw [meaning, allMeaning_eq_map]
      refine spells_node (fun n hn => ?_) rfl rfl (fun items a heq => ?_) fun u hu => ?_
      · cases hn
      · obtain ⟨rfl, -⟩ := TypeExpr.tuple.inj heq
        simp
      · obtain rfl | hu := List.mem_cons.1 hu
        · exact ihFirst h.1.1.2
        · rw [← List.map_cons] at hu
          obtain ⟨e, he, rfl⟩ := List.mem_map.1 hu
          exact hrest e he
  | applied arg name ih =>
    rw [tokens, legal_append, legal_cons] at h
    rw [meaning]
    exact spells_named h.2.1 (List.forall_mem_singleton.2 (ih h.1))
  | annotated inner group ih =>
    rw [tokens, legal_append] at h
    rw [meaning]
    refine ⟨(ih h.1).words.annotate fun a ha => ?_, (ih h.1).wide.annotate _⟩
    rw [← Annots.mem_def, Annots.mem_ofList] at ha
    exact group.writtenIn_of_mem_meaning h.2 ha

/-- The meaning of a definition is one that a source text can contain. -/
theorem Def.writable_meaning {d : Def} (h : Legal d.tokens) : d.meaning.Writable := by
  rw [tokens] at h
  simp only [legal_append, legal_cons] at h
  have hbody := Expr.spells_meaning h.2.2
  refine ⟨h.1.2.1, fun param hparam => ?_, fun a ha => ?_, hbody.words.normalize,
    hbody.wide.normalize, TypeExpr.isNormal_normalize _⟩
  · have hvar : Token.var param ∈ d.params.tokens := by
      change param ∈ d.params.meaning at hparam
      cases hparams : d.params with
      | absent => simp [hparams, Params.meaning] at hparam
      | bare name => simpa [hparams, Params.meaning, Params.tokens] using hparam
      | listed first rest => simpa [hparams, Params.meaning, Params.tokens] using hparam
    exact h.1.1.2 _ hvar
  · refine writtenIn_of_mem_ofList (fun g hg => h.1.2.2.of_subset fun token hmem => ?_) ha
    exact List.mem_flatMap.2 ⟨g, hg, hmem⟩

end Surface

namespace Source

/-- The items of a text that can be read are its definitions, in order. -/
theorem items?_eq_some {source : String} {items : List Item} :
    (parse source).items? = some items ↔
      ∃ defs : List Surface.Def, defs.flatMap Surface.Def.tokens = (Lexed.ofSource source).tokens ∧
        items = locate defs (Lexed.ofSource source).lexemes := by
  simp only [← Surface.parse_eq_ok, parse, Parsed.items?]
  cases Surface.parse (Lexed.ofSource source).tokens with
  | ok defs => simp [eq_comm]
  | error e => simp

/-- A text without errors is one that can be read and in which nothing is left over. -/
theorem clean?_iff_items? {parsed : Parsed} {items : List Item} :
    parsed.clean? = some items ↔ parsed.unmatched = [] ∧ parsed.items? = some items := by
  obtain ⟨unmatched, outcome⟩ := parsed
  cases unmatched <;> cases outcome <;> simp [Parsed.clean?, Parsed.items?]

/-- All definitions of a text that can be read are writable. -/
theorem writable_of_items {source : String} {items : List Item}
    (h : (parse source).items? = some items) : ∀ item ∈ items, item.definition.Writable := by
  obtain ⟨defs, htokens, rfl⟩ := items?_eq_some.1 h
  intro item hitem
  have hmem := List.mem_map_of_mem (f := Item.definition) hitem
  rw [map_definition_locate] at hmem
  obtain ⟨d, hd, heq⟩ := List.mem_map.1 hmem
  rw [← heq]
  apply Surface.Def.writable_meaning
  intro token htoken
  exact Lexer.isLegal_of_mem_tokens (htokens ▸ List.mem_flatMap.2 ⟨d, hd, htoken⟩)

/-- All definitions of a text without errors are writable. -/
theorem writable_of_clean {source : String} {items : List Item}
    (h : (parse source).clean? = some items) : ∀ item ∈ items, item.definition.Writable :=
  writable_of_items (clean?_iff_items?.1 h).2

/-- Whatever can be read, with errors in the text or without, can be printed: its definitions only
use words of source texts and are in normal form, and reading their printed form gives them back
without an error, so that they print alike again. -/
theorem parse_reprint {source : String} {items : List Item} (h : (parse source).items? = some items) :
    (∀ item ∈ items, item.definition.Writable) ∧
      ∃ again, (parse (TypeDef.renderAll (items.map Item.definition))).clean? = some again ∧
        again.map Item.definition = items.map Item.definition ∧
        TypeDef.renderAll (again.map Item.definition) =
          TypeDef.renderAll (items.map Item.definition) := by
  have hwritable := writable_of_items h
  have hdefs : ∀ d ∈ items.map Item.definition, d.Writable := by
    intro d hd
    obtain ⟨item, hitem, rfl⟩ := List.mem_map.1 hd
    exact hwritable item hitem
  have hagain := definitions_locate hdefs
    (Lexed.ofSource (TypeDef.renderAll (items.map Item.definition))).lexemes
  refine ⟨hwritable, _, ?_, hagain, congrArg TypeDef.renderAll hagain⟩
  rw [parse_text hdefs]
  rfl

/-- A redundant group, a container written as an application, and a character that is no token. -/
def smudged : String := "type 'k shelf = $ ('k * (box) list) <doc note = \"é\">"

/-- The definition of `smudged` and its place. -/
def smudgedItems : List Item :=
  [⟨⟨"shelf", ["k"], ∅, .tuple [.var "k" ∅, .container .list (.atom "box") ∅]
    (.ofList [⟨"doc", "note", some "é"⟩])⟩, ⟨0, 53⟩⟩]

theorem parse_reprint_smudged :
    (parse smudged).items? = some smudgedItems ∧ (parse smudged).unmatched ≠ [] ∧
      (∀ item ∈ smudgedItems, item.definition.Writable) ∧
      ∃ again, (parse (TypeDef.renderAll (smudgedItems.map Item.definition))).clean? = some again ∧
        again.map Item.definition = smudgedItems.map Item.definition ∧
        TypeDef.renderAll (again.map Item.definition) =
          TypeDef.renderAll (smudgedItems.map Item.definition) := by
  have hitems : (parse smudged).items? = some smudgedItems := by decide +kernel
  exact ⟨hitems, by decide +kernel, parse_reprint hitems⟩

end Source

end Monomorph
