import Monomorph.Proofs.Printing.Scanner

/-!
# The lexer as a scanner

`Lexer.words` forgets where the tokens of a text stand and drops its layout. A stretch of text that
the lexer reads in one mode is a segment of its own as soon as the text after it cannot extend the
mode; that is `Lexer.segments_append`, and each law of `Scanner` is an instance of it for the words
of a source text.

Every name is read alike wherever it stands, so that keywords are no names here.
-/

namespace Monomorph

open Surface

namespace Lexer

/-! ## Segments -/

/-- The mode after more characters, if they all belong to the open segment. -/
def Mode.run (mode : Mode) (text : List Char) : Option Mode := text.foldlM (fun m c => m.extend c) mode

@[simp] theorem Mode.run_nil (mode : Mode) : mode.run [] = some mode := rfl

@[simp] theorem Mode.run_cons (mode : Mode) (c : Char) (text : List Char) :
    mode.run (c :: text) = (mode.extend c).bind fun next => next.run text := rfl

theorem Mode.run_append (mode : Mode) (text more : List Char) :
    mode.run (text ++ more) = (mode.run text).bind fun next => next.run more :=
  List.foldlM_append

/-- The text cannot extend a segment that is open in this mode. -/
def Mode.Ends (mode : Mode) (rest : List Char) : Prop := ∀ c ∈ rest.head?, mode.extend c = none

theorem scan_append {mode next : Mode} {text more rest : List Char} (hrun : mode.run more = some next)
    (hends : next.Ends rest) :
    scan mode text (more ++ rest) = next.finish (text.reverse ++ more) ++ segments rest := by
  induction more generalizing mode text with
  | nil =>
    obtain rfl := Option.some.inj hrun
    cases rest with
    | nil => simp [scan, segments]
    | cons c rest => simp [scan, segments, hends c rfl]
  | cons c more ih =>
    rw [Mode.run_cons] at hrun
    obtain ⟨middle, hextend, hrun⟩ := Option.bind_eq_some_iff.1 hrun
    simp only [List.cons_append, scan, hextend]
    rw [ih hrun]
    simp

/-- A stretch of text that is read in one mode, up to where the mode ends. -/
theorem segments_append {c : Char} {next : Mode} {more rest : List Char}
    (hrun : (Mode.start c).run more = some next) (hends : next.Ends rest) :
    segments (c :: (more ++ rest)) = next.finish (c :: more) ++ segments rest :=
  scan_append hrun hends

/-! ## Tokens -/

theorem start_of_ofChar? {c : Char} {m : Mark} (h : Mark.ofChar? c = some m) :
    Mode.start c = .sign m := by
  unfold Mark.ofChar? at h
  split at h
  all_goals
    first
    | (obtain rfl := Option.some.inj h; rfl)
    | cases h

theorem segments_sign {c : Char} {m : Mark} (h : Mark.ofChar? c = some m) (rest : List Char) :
    segments (c :: rest) = .token (.mark m) [c] :: segments rest := by
  have hrun : (Mode.start c).run [] = some (.sign m) := congrArg some (start_of_ofChar? h)
  exact segments_append hrun fun _ _ => rfl

theorem start_of_isWordStart {c : Char} (h : isWordStart c = true) : Mode.start c = .word := by
  have hblank : ¬isBlank c = true := by
    intro hc
    simp only [isBlank, Bool.or_eq_true, beq_iff_eq] at hc
    obtain ((rfl | rfl) | rfl) | rfl := hc <;> revert h <;> decide
  rw [Mode.start, if_neg hblank, if_pos h]

theorem run_word {text : List Char} (h : text.all isWordPart = true) :
    Mode.word.run text = some .word ∧ Mode.var.run text = some .var := by
  induction text with
  | nil => exact ⟨rfl, rfl⟩
  | cons c text ih =>
    obtain ⟨hc, htext⟩ := Bool.and_eq_true_iff.1 h
    simpa [Mode.extend, hc] using ih htext

theorem ends_word {rest : List Char} (h : Stops rest) : Mode.word.Ends rest ∧ Mode.var.Ends rest := by
  constructor <;> intro c hc <;> simp [Mode.extend, h c hc]

/-- A word and what it is, up to where it stops. -/
theorem segments_word {name : String} (hname : IsIdentifier name) {rest : List Char}
    (hrest : Stops rest) :
    segments (name.toList ++ rest) = .token (.ofWord name) name.toList :: segments rest := by
  obtain ⟨c, text, htext, hc, htail⟩ := hname.exists_cons
  have hrun : (Mode.start c).run text = some .word := start_of_isWordStart hc ▸ (run_word htail).1
  rw [htext, List.cons_append, segments_append hrun (ends_word hrest).1, ← htext]
  simp [Mode.finish]

theorem segments_var {name : String} (hname : IsVariable name) {rest : List Char}
    (hrest : Stops rest) : segments ('\'' :: (name.toList ++ rest)) =
      .token (.var name) ('\'' :: name.toList) :: segments rest := by
  obtain ⟨c, text, htext, hc, htail⟩ := hname.exists_cons
  have hrun : (Mode.start '\'').run (c :: text) = some .var := by
    have hextend : Mode.extend c .apostrophe = some .var := if_pos hc
    show Mode.apostrophe.run (c :: text) = _
    rw [Mode.run_cons, hextend]
    exact (run_word htail).2
  rw [htext, segments_append hrun (ends_word hrest).2, ← htext]
  simp [Mode.finish]

theorem run_encode (value : List Char) : Mode.quote.run (Text.Quoted.encode value) = some .quote := by
  induction value with
  | nil => rfl
  | cons c rest ih =>
    rw [Text.Quoted.encode]
    split
    · next hc =>
      have hline : c ≠ '\n' := by
        rintro rfl
        simp at hc
      simpa [Mode.extend, hline] using ih
    · next hc =>
      rw [not_or] at hc
      simpa [Mode.extend, hc.1, hc.2] using ih

/-- Whatever stands between the quotes, the closing quote is found. -/
theorem segments_text (value : String) (rest : List Char) :
    segments ((Text.Quoted.write value).toList ++ rest) =
      .token (.text value) (Text.Quoted.write value).toList :: segments rest := by
  have hrun : (Mode.start '"').run (Text.Quoted.encode value.toList ++ ['"']) = some .quoted := by
    show Mode.quote.run _ = _
    rw [Mode.run_append, run_encode]
    rfl
  have hwrite : (Text.Quoted.write value).toList =
      '"' :: (Text.Quoted.encode value.toList ++ ['"']) := by
    simp [Text.Quoted.write]
  rw [hwrite, List.cons_append, segments_append hrun fun _ _ => rfl]
  simp [Mode.finish]

/-! ## Words -/

/-- What a segment adds to the words of a text: nothing, a token, or a text that is no token. -/
def word? : Segment → Option (Option Token)
  | .layout _ => none
  | .token token _ => some (some token)
  | .unmatched _ => some none

/-- The words of a text. Text that is no token gives `none`. -/
def words (source : List Char) : List (Option Token) := (segments source).filterMap word?

@[simp] theorem words_nil : words [] = [] := rfl

/-- Layout that is still open adds nothing. -/
theorem filterMap_word?_scan_blank (text rest : List Char) :
    (scan .blank text rest).filterMap word? = words rest := by
  induction rest generalizing text with
  | nil => rfl
  | cons c rest ih =>
    by_cases hc : isBlank c = true
    · have hstart : Mode.start c = .blank := if_pos hc
      have hextend : Mode.extend c .blank = some .blank := if_pos hc
      rw [words, segments, hstart, ih [c]]
      simp only [scan, hextend]
      exact ih (c :: text)
    · have hextend : Mode.extend c .blank = none := if_neg hc
      simp only [scan, hextend]
      rfl

theorem words_blank {c : Char} (hc : isBlank c = true) (rest : List Char) :
    words (c :: rest) = words rest := by
  have hstart : Mode.start c = .blank := if_pos hc
  rw [words, segments, hstart]
  exact filterMap_word?_scan_blank [c] rest

theorem words_of_segments {source text rest : List Char} {token : Token}
    (h : segments source = .token token text :: segments rest) :
    words source = some token :: words rest := by
  rw [words, h]
  rfl

theorem words_sign {c : Char} {m : Mark} (h : Mark.ofChar? c = some m) (rest : List Char) :
    words (c :: rest) = some (.mark m) :: words rest :=
  words_of_segments (segments_sign h rest)

theorem words_word {name : String} (hname : IsIdentifier name) {rest : List Char}
    (hrest : Stops rest) : words (name.toList ++ rest) = some (.ofWord name) :: words rest :=
  words_of_segments (segments_word hname hrest)

theorem words_var {name : String} (hname : IsVariable name) {rest : List Char} (hrest : Stops rest) :
    words ('\'' :: (name.toList ++ rest)) = some (.var name) :: words rest :=
  words_of_segments (segments_var hname hrest)

theorem words_text (value : String) (rest : List Char) :
    words ((Text.Quoted.write value).toList ++ rest) = some (.text value) :: words rest :=
  words_of_segments (segments_text value rest)

end Lexer

/-! ## The scanner -/

theorem IsPlain.ofWord {name : String} (h : IsPlain name) : Token.ofWord name = .ident name := by
  rw [Token.ofWord, h.2]

theorem isPlain_kind (kind : ContainerKind) : IsPlain kind.name := by
  cases kind <;> decide

/-- The lexer reads the words of source texts. It has no token for a tuple without items. -/
def Scanner.plain : Scanner .plain where
  read _ := Lexer.words
  readsEmpty := False
  name_head name h := by
    obtain ⟨c, text, htext, hc, _⟩ := h.1.exists_cons
    refine ⟨c, text, htext, ?_, ?_⟩ <;> rintro rfl <;> revert hc <;> decide
  name_kind := isPlain_kind
  blank _ rest := Lexer.words_blank rfl rest
  mark _ _ _ rest h _ := Lexer.words_sign h rest
  empty := False.elim
  name _ _ h hrest := h.ofWord ▸ Lexer.words_word h.1 hrest
  key _ _ h hrest := h.ofWord ▸ Lexer.words_word h.1 hrest
  var _ _ h hrest := Lexer.words_var h hrest
  text := Lexer.words_text
  tag _ _ h hrest := h.ofWord ▸ Lexer.words_word h.1 hrest.stops
  payload name rest h := by
    have hof : Lexer.words ("of".toList ++ (' ' :: rest)) = some (.mark .of) :: Lexer.words rest := by
      rw [Lexer.words_word (by decide) (stops_cons.2 rfl), Lexer.words_blank rfl]
      rfl
    have hblank : Stops (" of ".toList ++ rest) := stops_cons.2 rfl
    rw [List.append_assoc, Lexer.words_word h.1 hblank, h.ofWord]
    exact congrArg _ ((Lexer.words_blank rfl _).trans hof)
  label name rest h := by
    have hcolon : Lexer.words (':' :: ' ' :: rest) = some (.mark .colon) :: Lexer.words rest := by
      rw [Lexer.words_sign (m := .colon) rfl, Lexer.words_blank rfl]
    have hblank : Stops (" : ".toList ++ rest) := stops_cons.2 rfl
    rw [List.append_assoc, Lexer.words_word h.1 hblank, h.ofWord]
    exact congrArg _ ((Lexer.words_blank rfl _).trans hcolon)
  inherit rest _ := by
    have hword : Lexer.words ("inherit".toList ++ (' ' :: rest)) =
        some (.mark .inherit) :: Lexer.words rest := by
      rw [Lexer.words_word (by decide) (stops_cons.2 rfl), Lexer.words_blank rfl]
      rfl
    exact hword

@[simp] theorem Scanner.plain_read (slot : Slot) (source : List Char) :
    Scanner.plain.read slot source = Lexer.words source := rfl

/-! ## Lexemes -/

namespace Lexed

theorem tokens_ofSegments (start : Nat) (segments : List Segment) :
    (ofSegments start segments).tokens = (segments.filterMap Lexer.word?).filterMap id := by
  induction segments generalizing start with
  | nil => rfl
  | cons segment rest ih =>
    have hrest := ih (start + Text.byteLength segment.text)
    cases segment with
    | layout _ => exact hrest
    | token token _ => exact congrArg (token :: ·) hrest
    | unmatched _ => exact hrest

theorem unmatched_ofSegments_eq_nil_iff (start : Nat) (segments : List Segment) :
    (ofSegments start segments).unmatched = [] ↔ none ∉ segments.filterMap Lexer.word? := by
  induction segments generalizing start with
  | nil => simp [ofSegments]
  | cons segment rest ih =>
    have hrest := ih (start + Text.byteLength segment.text)
    cases segment with
    | layout _ => exact hrest
    | token token text =>
      have hwords : (Segment.token token text :: rest).filterMap Lexer.word? =
        some token :: rest.filterMap Lexer.word? := rfl
      rw [hwords, List.mem_cons, or_iff_right (Option.some_ne_none token).symm]
      exact hrest
    | unmatched _ => simp [ofSegments, Lexer.word?]

/-- The tokens of a source text are those among its words. -/
theorem tokens_ofSource (source : String) :
    (ofSource source).tokens = (Lexer.words source.toList).filterMap id :=
  tokens_ofSegments 0 _

/-- Nothing is left over if every word is a token. -/
theorem unmatched_ofSource_eq_nil_iff (source : String) :
    (ofSource source).unmatched = [] ↔ none ∉ Lexer.words source.toList :=
  unmatched_ofSegments_eq_nil_iff 0 _

end Lexed

end Monomorph
