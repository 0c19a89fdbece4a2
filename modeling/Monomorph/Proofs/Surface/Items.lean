import Monomorph.Proofs.Lexing.Seams
import Monomorph.Proofs.Lexing.Within

/-!
# Where definitions stand

The items of a text share out its tokens: each stands from the keyword that starts its definition to the
last token of its body. Reading is therefore local. Two files with a line feed between them are read as
the items of both, and the text at the place of an item is read as this item alone.

`locate_append` and `locate_shift` say how items move with their tokens; `exists_slice` cuts the tokens of
one item out of a text.
-/

namespace Monomorph

open Surface

/-- The item so many bytes further on. -/
def Item.shift (offset : Nat) (item : Item) : Item := { item with span := item.span.shift offset }

namespace Source

/-! ## Items and their tokens -/

variable {lexemes rest : List Lexeme} {d : Surface.Def} {defs more : List Surface.Def}

theorem tokens_ne_nil (d : Surface.Def) : d.tokens ≠ [] := by
  rw [Def.tokens, List.cons_append, List.cons_append]
  exact List.cons_ne_nil _ _

theorem spanOf_eq {first last : Lexeme} (hfirst : lexemes.head? = some first)
    (hlast : lexemes.getLast? = some last) : spanOf lexemes = ⟨first.span.start, last.span.stop⟩ := by
  rw [spanOf, hfirst, hlast]

theorem exists_spanOf_eq (h : lexemes ≠ []) : ∃ first last, lexemes.head? = some first ∧
    lexemes.getLast? = some last ∧ spanOf lexemes = ⟨first.span.start, last.span.stop⟩ :=
  ⟨_, _, List.head?_eq_some_head h, List.getLast?_eq_some_getLast h,
    spanOf_eq (List.head?_eq_some_head h) (List.getLast?_eq_some_getLast h)⟩

theorem spanOf_shift (offset : Nat) (h : lexemes ≠ []) :
    spanOf (lexemes.map (Lexeme.shift offset)) = (spanOf lexemes).shift offset := by
  obtain ⟨first, last, hfirst, hlast, hspan⟩ := exists_spanOf_eq h
  have hfirst' : (lexemes.map (Lexeme.shift offset)).head? = some (first.shift offset) := by
    rw [List.head?_map, hfirst]
    rfl
  have hlast' : (lexemes.map (Lexeme.shift offset)).getLast? = some (last.shift offset) := by
    rw [List.getLast?_map, hlast]
    rfl
  rw [hspan]
  exact spanOf_eq hfirst' hlast'

/-- The tokens of a file are those of its first definition and those of the others. -/
theorem exists_tokens_split (h : lexemes.map Lexeme.token = (d :: defs).flatMap Def.tokens) :
    ∃ own others, lexemes = own ++ others ∧ own ≠ [] ∧ own.map Lexeme.token = d.tokens ∧
      others.map Lexeme.token = defs.flatMap Def.tokens := by
  rw [List.flatMap_cons] at h
  obtain ⟨own, others, rfl, hown, hothers⟩ := List.map_eq_append_iff.1 h
  refine ⟨own, others, rfl, ?_, hown, hothers⟩
  rintro rfl
  exact tokens_ne_nil d hown.symm

theorem locate_cons {own others : List Lexeme} (hown : own.map Lexeme.token = d.tokens) :
    locate (d :: defs) (own ++ others) = ⟨d.meaning, spanOf own⟩ :: locate defs others := by
  have hlength : d.tokens.length = own.length := by rw [← hown, List.length_map]
  rw [locate, hlength, List.take_left, List.drop_left]

/-- The tokens of one file and then those of another one give the items of both. -/
theorem locate_append (h : lexemes.map Lexeme.token = defs.flatMap Def.tokens) :
    locate (defs ++ more) (lexemes ++ rest) = locate defs lexemes ++ locate more rest := by
  induction defs generalizing lexemes with
  | nil =>
    obtain rfl := List.map_eq_nil_iff.1 h
    rfl
  | cons d defs ih =>
    obtain ⟨own, others, rfl, -, hown, hothers⟩ := exists_tokens_split h
    rw [List.cons_append, List.append_assoc, locate_cons hown, locate_cons hown, ih hothers,
      List.cons_append]

/-- Items move with their tokens. -/
theorem locate_shift (offset : Nat) (h : lexemes.map Lexeme.token = defs.flatMap Def.tokens) :
    locate defs (lexemes.map (Lexeme.shift offset)) = (locate defs lexemes).map (Item.shift offset) := by
  induction defs generalizing lexemes with
  | nil => rfl
  | cons d defs ih =>
    obtain ⟨own, others, rfl, hne, hown, hothers⟩ := exists_tokens_split h
    have hshift : (own.map (Lexeme.shift offset)).map Lexeme.token = d.tokens := by
      rw [List.map_map]
      exact hown
    rw [List.map_append, locate_cons hshift, locate_cons hown, ih hothers, spanOf_shift offset hne]
    rfl

/-- A text without errors is one whose tokens are those of some definitions. -/
theorem clean?_eq_some {source : String} {items : List Item} :
    (parse source).clean? = some items ↔ (Lexed.ofSource source).unmatched = [] ∧
      ∃ defs : List Surface.Def, defs.flatMap Def.tokens = (Lexed.ofSource source).tokens ∧
        items = locate defs (Lexed.ofSource source).lexemes := by
  rw [clean?_iff_items?, items?_eq_some]
  rfl

/-! ## Files one after the other -/

/-- Two files with a line feed between them are read as the items of the first and, further on, those of
the second. -/
theorem parse_append_line {first second : String} {items more : List Item}
    (hfirst : (parse first).clean? = some items) (hsecond : (parse second).clean? = some more) :
    (parse (first ++ "\n" ++ second)).clean? =
      some (items ++ more.map (Item.shift (first.utf8ByteSize + 1))) := by
  obtain ⟨hmatched, defs, hdefs, rfl⟩ := clean?_eq_some.1 hfirst
  obtain ⟨hmatched', defs', hdefs', rfl⟩ := clean?_eq_some.1 hsecond
  have hlexed := Lexed.ofSource_append_line hmatched second
  refine clean?_eq_some.2 ⟨?_, defs ++ defs', ?_, ?_⟩
  · rw [hlexed, Lexed.unmatched_append, Lexed.unmatched_shift, hmatched, hmatched']
    rfl
  · rw [hlexed, Lexed.tokens_append, Lexed.tokens_shift, List.flatMap_append, hdefs, hdefs']
  · rw [hlexed, Lexed.lexemes_append, Lexed.lexemes_shift, locate_append hdefs.symm,
      locate_shift _ hdefs'.symm]

/-- A definition and a comment that no line feed ends. -/
def trailing : String := "type 'k box = ('k * int)# é"

/-- The definition of `trailing` and its place. -/
def trailingItems : List Item :=
  [⟨⟨"box", ["k"], ∅, .tuple [.var "k" ∅, .atom "int"] ∅⟩, ⟨0, 24⟩⟩]

/-- A definition that ends in a name. -/
def following : String := "type t = [ ] box"

/-- The definition of `following` and its place. -/
def followingItems : List Item := [⟨⟨"t", [], ∅, .named "box" [.sum [] ∅] ∅⟩, ⟨0, 16⟩⟩]

theorem parse_append_line_trailing : (parse trailing).clean? = some trailingItems ∧
    (parse following).clean? = some followingItems ∧
    (parse (trailing ++ "\n" ++ following)).clean? =
      some (trailingItems ++ followingItems.map (Item.shift (trailing.utf8ByteSize + 1))) :=
  have hfirst : (parse trailing).clean? = some trailingItems := by decide +kernel
  have hsecond : (parse following).clean? = some followingItems := by decide +kernel
  ⟨hfirst, hsecond, parse_append_line hfirst hsecond⟩

/-! ## Definitions cut out of a file -/

/-- The segments from the one of a token to the one of a later token. -/
theorem exists_segments {segments : List Segment} {before own after : List Lexeme} (hne : own ≠ [])
    (h : (Lexed.ofSegments 0 segments).lexemes = before ++ own ++ after) :
    ∃ front middle back, segments = front ++ middle ++ back ∧
      spanOf own = ⟨Text.byteLength (front.flatMap Segment.text),
        Text.byteLength (front.flatMap Segment.text) + Text.byteLength (middle.flatMap Segment.text)⟩ ∧
      (Lexed.ofSegments (spanOf own).start middle).lexemes = own := by
  obtain ⟨first, more, rfl⟩ := List.exists_cons_of_ne_nil hne
  obtain ⟨init, last, hlast⟩ : ∃ init last, first :: more = init ++ [last] :=
    ⟨_, _, (List.dropLast_append_getLast hne).symm⟩
  have hspan : spanOf (first :: more) = ⟨first.span.start, last.span.stop⟩ :=
    spanOf_eq rfl (by rw [hlast, List.getLast?_concat])
  rw [hlast, ← List.append_assoc, List.append_assoc] at h
  obtain ⟨most, text, back, rfl, hmost, hstop, -⟩ := Lexer.exists_segment h
  have hword : (Lexed.ofSegments (0 + Text.byteLength (most.flatMap Segment.text))
      [.token last.token text]).lexemes = [last] :=
    congrArg (fun span => [Lexeme.mk last.token span]) hstop.symm
  -- The segments up to the last token are cut once more, before the first token.
  have hwhole : (Lexed.ofSegments 0 (most ++ [.token last.token text])).lexemes =
      before ++ first :: more := by
    rw [Lexed.ofSegments_append, Lexed.lexemes_append, hmost, hword, hlast, List.append_assoc]
  obtain ⟨front, word, rest, hfront, -, hstart, hmore⟩ := Lexer.exists_segment hwhole
  refine ⟨front, .token first.token word :: rest, back, ?_, ?_, ?_⟩
  · rw [← hfront, List.append_cons]
  · have hlength := congrArg (fun part => Text.byteLength (part.flatMap Segment.text)) hfront
    simp only [List.flatMap_append, Text.byteLength_append, List.flatMap_singleton,
      Segment.text] at hlength
    rw [hspan, hstart, hstop, ← hlength]
    simp
  · have hend : first.span.start + Text.byteLength word = first.span.stop := by rw [hstart]
    simp only [hspan, Lexed.ofSegments, Segment.text, hend, hmore]

/-- The tokens from one to a later one can be cut out of a text: the text from the first to the last of
them gives these tokens alone. -/
theorem exists_slice {source : String} (h : (Lexed.ofSource source).unmatched = [])
    {before own after : List Lexeme} (hne : own ≠ [])
    (hlexemes : (Lexed.ofSource source).lexemes = before ++ own ++ after) :
    ∃ part, (spanOf own).Delimits source part ∧ (Lexed.ofSource part).unmatched = [] ∧
      (Lexed.ofSource part).lexemes.map (Lexeme.shift (spanOf own).start) = own := by
  obtain ⟨front, middle, back, hsegments, hspan, hown⟩ := exists_segments hne hlexemes
  have hmatched := Lexer.matched_iff_unmatched_eq_nil.2 h
  have hpart : Lexed.ofSource (String.ofList (middle.flatMap Segment.text)) =
      Lexed.ofSegments 0 middle := by
    rw [Lexed.ofSource, String.toList_ofList, Lexer.segments_middle hmatched hsegments]
  refine ⟨String.ofList (middle.flatMap Segment.text), ?_, ?_, ?_⟩
  · rw [hspan]
    refine Span.delimits_of_toList (?_ : _ = _ ++ _ ++ back.flatMap Segment.text)
    rw [← List.flatMap_append, ← List.flatMap_append, ← hsegments, Lexer.flatMap_text_segments]
  · rw [← Lexer.matched_iff_unmatched_eq_nil, String.toList_ofList]
    exact hmatched.middle hsegments
  · rw [hpart, ← Lexed.lexemes_shift, ← Lexed.ofSegments_add, Nat.add_zero, hown]

/-- Each item of a file stands at the tokens of its definition. -/
theorem exists_of_getElem?_locate (h : lexemes.map Lexeme.token = defs.flatMap Def.tokens) {i : Nat}
    {item : Item} (hitem : (locate defs lexemes)[i]? = some item) :
    ∃ d before own after, defs[i]? = some d ∧ lexemes = before ++ own ++ after ∧
      before.map Lexeme.token = (defs.take i).flatMap Def.tokens ∧ own ≠ [] ∧
      own.map Lexeme.token = d.tokens ∧ item = ⟨d.meaning, spanOf own⟩ := by
  induction defs generalizing lexemes i with
  | nil => cases hitem
  | cons d defs ih =>
    obtain ⟨own, others, rfl, hne, hown, hothers⟩ := exists_tokens_split h
    rw [locate_cons hown] at hitem
    cases i with
    | zero => exact ⟨d, [], own, others, rfl, rfl, rfl, hne, hown, (Option.some.inj hitem).symm⟩
    | succ i =>
      obtain ⟨d', before, own', after, hd', rfl, hbefore, hne', hown', rfl⟩ := ih hothers hitem
      refine ⟨d', own ++ before, own', after, hd', ?_, ?_, hne', hown', rfl⟩
      · simp only [List.append_assoc]
      · rw [List.map_append, hown, hbefore, List.take_succ_cons, List.flatMap_cons]

end Source

/-! ## The places of items -/

/-- The tokens of a definition up to its body. -/
def Surface.Def.headTokens (d : Surface.Def) : List Token :=
  .mark .type :: d.params.tokens ++ .ident d.name :: d.annots.flatMap Group.tokens ++ [.mark .equals]

/-- An item stands from the keyword at the start of its definition to the last token of the body, where
`head` and `body` are the tokens of the definition as they stand in a text. -/
structure Item.Spans (item : Item) (d : Surface.Def) (head body : List Lexeme) : Prop where
  definition : item.definition = d.meaning
  headTokens : head.map Lexeme.token = d.headTokens
  bodyTokens : body.map Lexeme.token = d.body.tokens
  starts : ∃ keyword ∈ head.head?, keyword.token = .mark .type ∧ keyword.span.start = item.span.start
  stops : ∃ last ∈ body.getLast?, last.span.stop = item.span.stop

/-- Items share out a text between them. -/
structure Source.Shares (items : List Item) (source : String) : Prop where
  increasing : items.Pairwise fun first second => first.span.start < second.span.start
  disjoint : items.Pairwise fun first second => first.span.stop ≤ second.span.start
  /-- Their places can be cut out of the text. -/
  within : ∀ item ∈ items, item.span.Within source
  /-- The tokens of the text are those of the items, in order. -/
  tokens : ∃ defs, Surface.parse (Lexed.ofSource source).tokens = .ok defs ∧
    items.length = defs.length ∧ ∀ i item, items[i]? = some item → ∃ d before head body after,
      defs[i]? = some d ∧ (Lexed.ofSource source).lexemes = before ++ (head ++ body) ++ after ∧
      before.map Lexeme.token = (defs.take i).flatMap Def.tokens ∧ item.Spans d head body
  /-- The text at the place of an item, alone, is a file of this item. -/
  alone : ∀ item ∈ items, (parse (item.span.slice source)).clean? =
    some [⟨item.definition, ⟨0, item.span.stop - item.span.start⟩⟩]

namespace Source

theorem bodyTokens_ne_nil (e : Surface.Expr) : e.tokens ≠ [] := by
  cases e <;> rw [Expr.tokens] <;> simp [Group.tokens]

theorem tokens_eq_headTokens (d : Surface.Def) : d.tokens = d.headTokens ++ d.body.tokens := by
  simp [Def.tokens, Def.headTokens]

/-- An item stands at the tokens of its definition. -/
theorem exists_spans {d : Surface.Def} {own : List Lexeme} (hown : own.map Lexeme.token = d.tokens) :
    ∃ head body, own = head ++ body ∧ Item.Spans ⟨d.meaning, spanOf own⟩ d head body := by
  rw [tokens_eq_headTokens] at hown
  obtain ⟨head, body, rfl, hhead, hbody⟩ := List.map_eq_append_iff.1 hown
  obtain ⟨init, last, rfl⟩ : ∃ init last, body = init ++ [last] := by
    refine (body.eq_nil_or_concat').resolve_left ?_
    rintro rfl
    exact bodyTokens_ne_nil d.body hbody.symm
  cases head with
  | nil => cases hhead
  | cons keyword head =>
    have hspan : spanOf (keyword :: head ++ (init ++ [last])) =
        ⟨keyword.span.start, last.span.stop⟩ :=
      spanOf_eq rfl (by rw [← List.append_assoc, List.getLast?_concat])
    rw [hspan]
    exact ⟨keyword :: head, init ++ [last], rfl, rfl, hhead, hbody,
      ⟨keyword, rfl, (List.cons.inj hhead).1, rfl⟩, ⟨last, List.getLast?_concat, rfl⟩⟩

theorem exists_of_mem_locate (h : lexemes.map Lexeme.token = defs.flatMap Def.tokens) {item : Item}
    (hitem : item ∈ locate defs lexemes) : ∃ (d : Surface.Def) (before own after : List Lexeme),
      lexemes = before ++ own ++ after ∧ own ≠ [] ∧ own.map Lexeme.token = d.tokens ∧
        item = ⟨d.meaning, spanOf own⟩ := by
  obtain ⟨i, hi⟩ := List.mem_iff_getElem?.1 hitem
  obtain ⟨d, before, own, after, -, hlexemes, -, hne, hown, rfl⟩ := exists_of_getElem?_locate h hi
  exact ⟨d, before, own, after, hlexemes, hne, hown, rfl⟩

/-- Where tokens stand one after the other, so do definitions. -/
theorem pairwise_locate (h : lexemes.map Lexeme.token = defs.flatMap Def.tokens)
    (hordered : lexemes.Pairwise fun first second => first.span.stop ≤ second.span.start) :
    (locate defs lexemes).Pairwise fun first second => first.span.stop ≤ second.span.start := by
  induction defs generalizing lexemes with
  | nil => exact List.Pairwise.nil
  | cons d defs ih =>
    obtain ⟨own, others, rfl, hne, hown, hothers⟩ := exists_tokens_split h
    obtain ⟨-, hrest, hseam⟩ := List.pairwise_append.1 hordered
    rw [locate_cons hown, List.pairwise_cons]
    refine ⟨fun item hitem => ?_, ih hothers hrest⟩
    obtain ⟨d', before, own', after, rfl, hne', -, rfl⟩ := exists_of_mem_locate hothers hitem
    obtain ⟨_, last, _, hlast, hspan⟩ := exists_spanOf_eq hne
    obtain ⟨first, _, hfirst, _, hspan'⟩ := exists_spanOf_eq hne'
    have hmem : first ∈ before ++ own' ++ after :=
      List.mem_append_left _ (List.mem_append_right _ (List.mem_of_mem_head? hfirst))
    simp only [hspan, hspan']
    exact hseam last (List.mem_of_mem_getLast? hlast) first hmem

/-- The text at the place of a definition is not empty, and reading it gives this definition alone. -/
theorem alone_of_slice {source : String} (h : (Lexed.ofSource source).unmatched = []) {d : Surface.Def}
    {before own after : List Lexeme} (hne : own ≠ []) (hown : own.map Lexeme.token = d.tokens)
    (hlexemes : (Lexed.ofSource source).lexemes = before ++ own ++ after) :
    (spanOf own).start < (spanOf own).stop ∧
      (parse ((spanOf own).slice source)).clean? =
        some [⟨d.meaning, ⟨0, (spanOf own).stop - (spanOf own).start⟩⟩] := by
  obtain ⟨part, hdelimits, hmatched, hshift⟩ := exists_slice h hne hlexemes
  have hpart : (Lexed.ofSource part).lexemes ≠ [] := by
    intro hnil
    rw [hnil] at hshift
    exact hne hshift.symm
  have htokens : (Lexed.ofSource part).tokens = d.tokens := by
    rw [← hown, ← hshift, List.map_map]
    rfl
  -- Alone, the definition starts at the first byte.
  have hspan := spanOf_shift (spanOf own).start hpart
  rw [hshift] at hspan
  have hstart : (spanOf (Lexed.ofSource part).lexemes).start = 0 := by
    have h := congrArg Span.start hspan
    simp only [Span.shift] at h
    omega
  have hstop : (spanOf (Lexed.ofSource part).lexemes).stop =
      (spanOf own).stop - (spanOf own).start := by
    have h := congrArg Span.stop hspan
    simp only [Span.shift] at h
    omega
  constructor
  · obtain ⟨before, after, rfl, hspan⟩ := hdelimits
    rw [hspan]
    have hne : part.utf8ByteSize ≠ 0 := by
      intro hzero
      obtain rfl := String.utf8ByteSize_eq_zero_iff.1 hzero
      exact hpart rfl
    exact Nat.lt_add_of_pos_right (Nat.pos_of_ne_zero hne)
  · rw [hdelimits.slice_eq]
    refine clean?_eq_some.2 ⟨hmatched, [d], ?_, ?_⟩
    · rw [htokens, List.flatMap_singleton]
    · have hlocate : locate [d] (_ ++ []) = _ :: locate [] [] := locate_cons htokens
      rw [List.append_nil] at hlocate
      rw [hlocate, ← hstart, ← hstop]
      rfl

/-- The items of a file share it out. -/
theorem shares_of_clean {source : String} {items : List Item}
    (h : (parse source).clean? = some items) : Shares items source := by
  have hitems := (clean?_iff_items?.1 h).2
  obtain ⟨hmatched, defs, hdefs, rfl⟩ := clean?_eq_some.1 h
  have hdisjoint := pairwise_locate hdefs.symm (Lexeme.orderly_ofSource source).ordered
  have halone : ∀ item ∈ locate defs (Lexed.ofSource source).lexemes,
      item.span.start < item.span.stop ∧ (parse (item.span.slice source)).clean? =
        some [⟨item.definition, ⟨0, item.span.stop - item.span.start⟩⟩] := by
    intro item hitem
    obtain ⟨d, before, own, after, hlexemes, hne, hown, rfl⟩ := exists_of_mem_locate hdefs.symm hitem
    exact alone_of_slice hmatched hne hown hlexemes
  refine ⟨?_, hdisjoint, within_of_items hitems, ?_, fun item hitem => (halone item hitem).2⟩
  · refine hdisjoint.imp_of_mem fun hfirst _ hstop => ?_
    exact Nat.lt_of_lt_of_le (halone _ hfirst).1 hstop
  · refine ⟨defs, Surface.parse_eq_ok.2 hdefs, ?_, fun i item hitem => ?_⟩
    · rw [← List.length_map (f := Item.definition), map_definition_locate, List.length_map]
    · obtain ⟨d, before, own, after, hd, hlexemes, hbefore, -, hown, rfl⟩ :=
        exists_of_getElem?_locate hdefs.symm hitem
      obtain ⟨head, body, rfl, hspans⟩ := exists_spans hown
      exact ⟨d, before, head, body, after, hd, hlexemes, hbefore, hspans⟩

/-- A comment inside of a definition, and another definition that follows it at once. -/
def adjoining : String :=
  "# é\ntype 'k box = ('k * int) # (\n list <doc note = \"é\">type t = [ ] box\n"

/-- The definitions of `adjoining` and their places. -/
def adjoiningItems : List Item :=
  [⟨⟨"box", ["k"], ∅, .container .list (.tuple [.var "k" ∅, .atom "int"] ∅)
      (.ofList [⟨"doc", "note", some "é"⟩])⟩, ⟨5, 57⟩⟩,
    ⟨⟨"t", [], ∅, .named "box" [.sum [] ∅] ∅⟩, ⟨57, 73⟩⟩]

theorem shares_of_clean_adjoining : (parse adjoining).clean? = some adjoiningItems ∧
    Shares adjoiningItems adjoining :=
  have hclean : (parse adjoining).clean? = some adjoiningItems := by decide +kernel
  ⟨hclean, shares_of_clean hclean⟩

end Source

end Monomorph
