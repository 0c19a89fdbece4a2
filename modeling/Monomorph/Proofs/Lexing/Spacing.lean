import Mathlib.Data.List.Forall2
import Monomorph.Proofs.Lexing.Seams
import Monomorph.Proofs.Lexing.Within

/-!
# Layout between tokens

A `Spacing` says what layout to put before, between and after the tokens of a text. Layout ends every
token, and no token can start with it, so the tokens of the new text are the old ones, at the places of
their texts. What a text is read as does not depend on these places: `Source.readsAlike_of_unmatched` is that
the definitions, or the syntax error, stay the same.
-/

namespace Monomorph

/-- A character of layout, or a comment with the line feed that ends it. -/
inductive Filler where
  | blank (c : Char) (isBlank : Lexer.isBlank c = true)
  | comment (words : List Char) (oneLine : '\n' ∉ words)

/-- The characters of a filler. -/
def Filler.text : Filler → List Char
  | blank c _ => [c]
  | comment words _ => '#' :: (words ++ ['\n'])

/-- Layout before, between and after some number of tokens. -/
structure Spacing (count : Nat) where
  before : List Filler
  /-- What follows each token. -/
  after : List (List Filler)
  length_after : after.length = count
  /-- There is some layout between every two tokens. -/
  apart : ∀ gap ∈ after.dropLast, gap ≠ []

/-- The text of some layout. -/
def Filler.join (gap : List Filler) : String := String.ofList (gap.flatMap text)

/-- Texts with the layout that follows each. -/
def Filler.interleave (texts : List String) (gaps : List (List Filler)) : List String :=
  List.zipWith (fun text gap => text ++ join gap) texts gaps

/-- The texts of tokens, spread out. -/
def Spacing.spread {count : Nat} (spacing : Spacing count) (texts : List String) : String :=
  Filler.join spacing.before ++ String.join (Filler.interleave texts spacing.after)

namespace Lexer

/-! ## Layout -/

variable {mode : Mode} {token : Token} {text rest : List Char}

/-- A text that layout starts, or that is empty. -/
def StartsLayout (text : List Char) : Prop := ∀ c ∈ text.head?, isBlank c = true ∨ c = '#'

theorem startsLayout_fillers {gap : List Filler} (h : gap ≠ []) (rest : List Char) :
    StartsLayout (gap.flatMap Filler.text ++ rest) := by
  obtain ⟨filler, gap, rfl⟩ := List.exists_cons_of_ne_nil h
  cases filler with
  | blank c hc => exact fun d hd => .inl (Option.some.inj hd ▸ hc)
  | comment words _ => exact fun d hd => .inr (Option.some.inj hd).symm

theorem run_comment (h : '\n' ∉ text) : Mode.comment.run text = some .comment := by
  induction text with
  | nil => rfl
  | cons c text ih =>
    rw [List.mem_cons, not_or] at h
    rw [Mode.run_cons, Mode.extend_eq_comment.2 ⟨rfl, Ne.symm h.1⟩]
    exact ih h.2

theorem ofSegments_filler (filler : Filler) (start : Nat) (rest : List Char) :
    Lexed.ofSegments start (segments (filler.text ++ rest)) =
      Lexed.ofSegments (start + Text.byteLength filler.text) (segments rest) := by
  cases filler with
  | blank c hc => exact ofSegments_blanks (List.forall_mem_singleton.2 hc) start rest
  | comment words hwords =>
    have hreads : Mode.comment.Reads ('#' :: words) := ⟨'#', words, rfl, run_comment hwords⟩
    have hends : Mode.comment.Ends ('\n' :: rest) := fun c hc => Option.some.inj hc ▸ rfl
    have htext : Filler.text (.comment words hwords) ++ rest = ('#' :: words) ++ ('\n' :: rest) := by
      simp [Filler.text]
    have hlength : Text.byteLength (Filler.text (.comment words hwords)) =
        Text.byteLength ('#' :: words) + 1 := Text.byteLength_append ('#' :: words) ['\n']
    rw [htext, hreads.segments_append hends, Mode.finish, List.singleton_append, ofSegments_layout,
      ofSegments_lineFeed, hlength, Nat.add_assoc]

/-- Layout before a text gives nothing. -/
theorem ofSegments_fillers (gap : List Filler) (start : Nat) (rest : List Char) :
    Lexed.ofSegments start (segments (gap.flatMap Filler.text ++ rest)) =
      Lexed.ofSegments (start + Text.byteLength (gap.flatMap Filler.text)) (segments rest) := by
  induction gap generalizing start with
  | nil => rfl
  | cons filler gap ih =>
    rw [List.flatMap_cons, List.append_assoc, ofSegments_filler, ih, Text.byteLength_append,
      Nat.add_assoc]

/-! ## Tokens between layout -/

/-- Layout ends a token. -/
theorem Mode.ends_of_token (h : mode.finish text = [.token token text]) (hrest : StartsLayout rest) :
    mode.Ends rest := by
  intro c hc
  have hpart : isWordPart c = false := by
    obtain hblank | rfl := hrest c hc
    · simp only [isBlank, Bool.or_eq_true, beq_iff_eq] at hblank
      obtain ((rfl | rfl) | rfl) | rfl := hblank <;> rfl
    · rfl
  cases mode with
  | word | var => exact if_neg (by simp [hpart])
  | quoted | sign _ => rfl
  | blank | comment | apostrophe | quote | escape | stray => simp [finish] at h

/-- A text that is one token is one stretch. -/
theorem exists_reads (h : segments text = [.token token text]) :
    ∃ mode, Mode.Reads mode text ∧ mode.finish text = [.token token text] := by
  cases text with
  | nil => cases h
  | cons c source =>
    obtain ⟨mode, part, rest, hsource, hreads, hends⟩ := exists_stretch c source
    rw [hsource, hreads.segments_append hends] at h
    obtain ⟨segment, hfinish, rfl⟩ | ⟨-, hfinish⟩ := mode.finish_cases part
    · rw [hfinish] at h
      have hsegment := (List.cons.inj h).1
      obtain rfl : rest = [] := by simpa [Segment.text] using congrArg Segment.text hsegment
      rw [List.append_nil] at hsource hsegment
      rw [hsource]
      exact ⟨mode, hreads, hfinish.trans (congrArg (fun segment => [segment]) hsegment)⟩
    · rw [hfinish] at h
      cases h

/-- A token and the layout after it, before a text that can follow. -/
theorem ofSegments_token (h : segments text = [.token token text]) {gap : List Filler}
    (hrest : gap = [] → rest = []) (start : Nat) :
    Lexed.ofSegments start (segments (text ++ (gap.flatMap Filler.text ++ rest))) =
      Lexed.ofSegments start [.token token text] ++
        Lexed.ofSegments (start + Text.byteLength text + Text.byteLength (gap.flatMap Filler.text))
          (segments rest) := by
  obtain ⟨mode, hreads, hfinish⟩ := exists_reads h
  have hstarts : StartsLayout (gap.flatMap Filler.text ++ rest) := by
    by_cases hgap : gap = []
    · rw [hgap, hrest hgap]
      exact fun _ hc => by cases hc
    · exact startsLayout_fillers hgap rest
  rw [hreads.segments_append (mode.ends_of_token hfinish hstarts), hfinish, List.singleton_append,
    Lexed.ofSegments_cons, Segment.text, ofSegments_fillers]

end Lexer

/-! ## Tokens that are spread out -/

/-- These tokens are found, each at the place of its text, where the texts stand at the offset `start`
with the gaps after them. -/
structure Lexed.Finds (lexed : Lexed) (tokens : List Token) (start : Nat) (texts : List String)
    (gaps : List (List Filler)) : Prop where
  unmatched : lexed.unmatched = []
  tokens : lexed.tokens = tokens
  spans : ∀ (i : Nat) (text : String), texts[i]? = some text →
    let offset := start + (String.join ((Filler.interleave texts gaps).take i)).utf8ByteSize
    lexed.lexemes[i]?.map Lexeme.span = some ⟨offset, offset + text.utf8ByteSize⟩

namespace Lexed

/-- The text of each token gives this token alone. -/
def Spells (token : Token) (text : String) : Prop :=
  Lexer.segments text.toList = [.token token text.toList]

theorem Finds.cons {lexed : Lexed} {tokens : List Token} {start : Nat} {texts : List String}
    {gaps : List (List Filler)} {token : Token} {text : String} {gap : List Filler}
    (h : lexed.Finds tokens (start + text.utf8ByteSize + (Filler.join gap).utf8ByteSize) texts gaps) :
    Finds (ofSegments start [.token token text.toList] ++ lexed) (token :: tokens) start (text :: texts)
      (gap :: gaps) where
  unmatched := h.unmatched
  tokens := congrArg (token :: ·) h.tokens
  spans i part hpart := by
    cases i with
    | zero =>
      obtain rfl := Option.some.inj hpart
      simp [ofSegments, Segment.text, Text.byteLength_toList]
    | succ i =>
      have hspan := h.spans i part hpart
      simpa [ofSegments, Filler.interleave, String.join_cons, Nat.add_assoc] using hspan

theorem finds_spread {tokens : List Token} {texts : List String} (h : List.Forall₂ Spells tokens texts)
    {gaps : List (List Filler)} (hlength : gaps.length = texts.length)
    (hapart : ∀ gap ∈ gaps.dropLast, gap ≠ []) (start : Nat) :
    Finds (ofSegments start
      (Lexer.segments (String.join (Filler.interleave texts gaps)).toList)) tokens start texts gaps := by
  induction h generalizing gaps start with
  | nil => exact ⟨rfl, rfl, fun _ _ h => by cases h⟩
  | @cons token text tokens texts htext _ ih =>
    obtain ⟨gap, gaps, rfl⟩ := List.exists_cons_of_length_eq_add_one hlength
    have hlength := Nat.succ.inj hlength
    have hlast : gap = [] → gaps = [] := fun hgap => Decidable.by_contra fun hne =>
      hapart gap (by rw [List.dropLast_cons_of_ne_nil hne]; exact List.mem_cons_self) hgap
    have hnil : gap = [] → (String.join (Filler.interleave texts gaps)).toList = [] := by
      intro hgap
      obtain rfl := hlast hgap
      obtain rfl := List.length_eq_zero_iff.1 hlength.symm
      rfl
    have hrest : ∀ other ∈ gaps.dropLast, other ≠ [] := by
      intro other hmem
      have hne : gaps ≠ [] := by
        rintro rfl
        cases hmem
      refine hapart other ?_
      rw [List.dropLast_cons_of_ne_nil hne]
      exact List.mem_cons_of_mem gap hmem
    have hjoin : (String.join (Filler.interleave (text :: texts) (gap :: gaps))).toList =
        text.toList ++ (gap.flatMap Filler.text ++
          (String.join (Filler.interleave texts gaps)).toList) := by
      simp [Filler.interleave, Filler.join, String.join_cons]
    rw [hjoin, Lexer.ofSegments_token htext hnil, Text.byteLength_toList, ← Text.utf8ByteSize_ofList]
    exact (ih hlength hrest _).cons

end Lexed

/-! ## Reading what is spread out -/

namespace Source

/-- The texts of the tokens of a source. -/
def texts (source : String) : List String :=
  (Lexed.ofSource source).lexemes.map fun lexeme => lexeme.span.slice source

theorem spells_texts (source : String) :
    List.Forall₂ Lexed.Spells (Lexed.ofSource source).tokens (texts source) := by
  rw [Lexed.tokens, texts, List.forall₂_map_left_iff, List.forall₂_map_right_iff, List.forall₂_same]
  intro lexeme hlexeme
  obtain ⟨text, hmem⟩ := Lexed.mem_lexemes.1 hlexeme
  rw [(Lexed.delimits_of_mem_placed hmem rfl).slice_eq, Lexed.Spells, String.toList_ofList]
  exact Lexer.segments_of_mem (Lexer.mem_of_mem_placed hmem)

theorem definitions_items? (source : String) : (parse source).items?.map (List.map Item.definition) =
    (Surface.parse (Lexed.ofSource source).tokens).toOption.map (List.map Surface.Def.meaning) := by
  simp only [parse, Parsed.items?]
  cases Surface.parse (Lexed.ofSource source).tokens with
  | ok defs => exact congrArg some (map_definition_locate defs _)
  | error e => rfl

theorem messages_diagnostics {source : String} (h : (Lexed.ofSource source).unmatched = []) :
    (parse source).diagnostics.map Diagnostic.message =
      match Surface.parse (Lexed.ofSource source).tokens with
      | .ok _ => []
      | .error e => [syntaxMessage e] := by
  simp only [parse, Parsed.diagnostics, h, List.map_nil, List.nil_append]
  cases Surface.parse (Lexed.ofSource source).tokens <;> rfl

/-- A text whose tokens are spread out is read as it was before. -/
structure ReadsAlike (source : String) (spacing : Spacing (texts source).length) : Prop where
  /-- The tokens are the same, at the new places of their texts. -/
  lexed : (Lexed.ofSource (spacing.spread (texts source))).Finds (Lexed.ofSource source).tokens
    (Filler.join spacing.before).utf8ByteSize (texts source) spacing.after
  definitions : (parse (spacing.spread (texts source))).items?.map (List.map Item.definition) =
    (parse source).items?.map (List.map Item.definition)
  messages : (parse (spacing.spread (texts source))).diagnostics.map Diagnostic.message =
    (parse source).diagnostics.map Diagnostic.message

/-- However the tokens of a text are spread out, the text is read alike. -/
theorem readsAlike_of_unmatched {source : String} (h : (Lexed.ofSource source).unmatched = [])
    (spacing : Spacing (texts source).length) : ReadsAlike source spacing := by
  have hlexed : (Lexed.ofSource (spacing.spread (texts source))).Finds (Lexed.ofSource source).tokens
      (Filler.join spacing.before).utf8ByteSize (texts source) spacing.after := by
    have hspread : (spacing.spread (texts source)).toList = spacing.before.flatMap Filler.text ++
        (String.join (Filler.interleave (texts source) spacing.after)).toList := by
      simp [Spacing.spread, Filler.join]
    rw [Lexed.ofSource, hspread, Lexer.ofSegments_fillers, Nat.zero_add, ← Text.utf8ByteSize_ofList]
    exact Lexed.finds_spread (spells_texts source) spacing.length_after spacing.apart _
  refine ⟨hlexed, ?_, ?_⟩
  · rw [definitions_items?, definitions_items?, hlexed.tokens]
  · rw [messages_diagnostics h, messages_diagnostics hlexed.unmatched, hlexed.tokens]

/-- Tokens with no layout between them where there need not be any. -/
def packed : String := "type'k t='k list<doc note=\"# é\">"

/-- A comment with an apostrophe in it, a carriage return with a line feed, and single blanks. -/
def airyGaps : List (List Filler) :=
  [Filler.comment ['\''] (by decide)] :: [Filler.blank '\r' rfl, Filler.blank '\n' rfl] ::
    List.replicate 9 [Filler.blank ' ' rfl] ++ [[]]

/-- The tokens of `packed` with a comment before them and `airyGaps` after them. -/
def airy : Spacing (texts packed).length where
  before := [.comment ['"', 'é'] (by decide)]
  after := airyGaps
  length_after := by decide +kernel
  apart := by simp [airyGaps, List.replicate]

theorem readsAlike_packed : (Lexed.ofSource packed).unmatched = [] ∧ ReadsAlike packed airy ∧
    airy.spread (texts packed) = "#\"é\ntype#'\n'k\r\nt = 'k list < doc note = \"# é\" >" :=
  have hmatched : (Lexed.ofSource packed).unmatched = [] := by decide +kernel
  ⟨hmatched, readsAlike_of_unmatched hmatched airy, by decide +kernel⟩

end Source

end Monomorph
