import Mathlib.Data.String.Basic
import Monomorph.Proofs.Lexing.Places

/-!
# Cutting and joining texts

A text in which nothing is left over can be cut between any two segments, and each part is lexed as it
was in the whole. Two texts can be joined again: a line feed between them ends whatever the first one
ends in, so the tokens of the whole are those of the first text and, further on, those of the second.

`matched_induct` is induction over the segments of such a text; `segments_before`, `segments_after`
and `ofSource_append_line` are proved by it.
-/

namespace Monomorph

/-! ## Moving places -/

/-- The place so many bytes further on. -/
def Span.shift (offset : Nat) (span : Span) : Span := ⟨offset + span.start, offset + span.stop⟩

/-- The token so many bytes further on. -/
def Lexeme.shift (offset : Nat) (lexeme : Lexeme) : Lexeme :=
  { lexeme with span := lexeme.span.shift offset }

/-- The text so many bytes further on. -/
def Unmatched.shift (offset : Nat) (unmatched : Unmatched) : Unmatched :=
  { unmatched with span := unmatched.span.shift offset }

/-- The part of a text that stands at a place. -/
def Span.slice (span : Span) (source : String) : String :=
  String.Pos.Raw.extract source ⟨span.start⟩ ⟨span.stop⟩

theorem Text.utf8Len_eq_byteLength (text : List Char) : String.utf8Len text = byteLength text := by
  induction text with
  | nil => rfl
  | cons c text ih => rw [String.utf8Len_cons, ih, byteLength_cons, Nat.add_comm]

theorem Span.Delimits.slice_eq {span : Span} {source part : String} (h : span.Delimits source part) :
    span.slice source = part := by
  obtain ⟨before, after, rfl, rfl⟩ := h
  have hextract := String.extract_of_valid before.toList part.toList after.toList
  simpa [slice, Text.utf8Len_eq_byteLength, Text.byteLength_toList, String.append_assoc] using hextract

namespace Lexed

/-- What a text gives, so many bytes further on. -/
def shift (offset : Nat) (lexed : Lexed) : Lexed :=
  ⟨lexed.lexemes.map (Lexeme.shift offset), lexed.unmatched.map (Unmatched.shift offset)⟩

/-- What one text gives and then what another one gives. -/
instance : Append Lexed :=
  ⟨fun first second => ⟨first.lexemes ++ second.lexemes, first.unmatched ++ second.unmatched⟩⟩

@[simp] theorem lexemes_append (first second : Lexed) :
    (first ++ second).lexemes = first.lexemes ++ second.lexemes := rfl

@[simp] theorem unmatched_append (first second : Lexed) :
    (first ++ second).unmatched = first.unmatched ++ second.unmatched := rfl

@[simp] theorem lexemes_shift (offset : Nat) (lexed : Lexed) :
    (lexed.shift offset).lexemes = lexed.lexemes.map (Lexeme.shift offset) := rfl

@[simp] theorem unmatched_shift (offset : Nat) (lexed : Lexed) :
    (lexed.shift offset).unmatched = lexed.unmatched.map (Unmatched.shift offset) := rfl

@[simp] theorem tokens_append (first second : Lexed) :
    (first ++ second).tokens = first.tokens ++ second.tokens := List.map_append

@[simp] theorem tokens_shift (offset : Nat) (lexed : Lexed) :
    (lexed.shift offset).tokens = lexed.tokens := List.map_map

@[simp] theorem nil_append (lexed : Lexed) : (⟨[], []⟩ : Lexed) ++ lexed = lexed := rfl

theorem append_assoc (first second third : Lexed) :
    first ++ second ++ third = first ++ (second ++ third) :=
  congrArg₂ Lexed.mk (List.append_assoc ..) (List.append_assoc ..)

theorem shift_append (offset : Nat) (first second : Lexed) :
    (first ++ second).shift offset = first.shift offset ++ second.shift offset :=
  congrArg₂ Lexed.mk List.map_append List.map_append

/-- Each segment is sorted on its own. -/
theorem ofSegments_cons (start : Nat) (segment : Segment) (rest : List Segment) :
    ofSegments start (segment :: rest) =
      ofSegments start [segment] ++ ofSegments (start + Text.byteLength segment.text) rest := by
  cases segment <;> rfl

/-- Segments that start further on give the same, further on. -/
theorem ofSegments_add (offset start : Nat) (segments : List Segment) :
    ofSegments (offset + start) segments = (ofSegments start segments).shift offset := by
  induction segments generalizing start with
  | nil => rfl
  | cons segment rest ih =>
    have hfirst : ofSegments (offset + start) [segment] = (ofSegments start [segment]).shift offset := by
      cases segment <;> simp [ofSegments, shift, Lexeme.shift, Unmatched.shift, Span.shift,
        Nat.add_assoc]
    rw [ofSegments_cons, ofSegments_cons start, shift_append, hfirst, Nat.add_assoc, ih]

theorem ofSegments_append (start : Nat) (segments more : List Segment) :
    ofSegments start (segments ++ more) = ofSegments start segments ++
      ofSegments (start + Text.byteLength (segments.flatMap Segment.text)) more := by
  induction segments generalizing start with
  | nil => rfl
  | cons segment rest ih =>
    rw [List.cons_append, ofSegments_cons, ih, ofSegments_cons start segment rest, append_assoc,
      List.flatMap_cons, Text.byteLength_append, Nat.add_assoc]

end Lexed

namespace Lexer

/-! ## Cutting -/

/-- Every part of the text is layout or a token. -/
def Matched (source : List Char) : Prop := ∀ text, Segment.unmatched text ∉ segments source

theorem matched_iff_unmatched_eq_nil {source : String} :
    Matched source.toList ↔ (Lexed.ofSource source).unmatched = [] := by
  rw [Lexed.unmatched_ofSource_eq_nil_iff, words, List.mem_filterMap]
  constructor
  · rintro h ⟨segment, hmem, hword⟩
    cases segment with
    | unmatched text => exact h text hmem
    | layout _ | token _ _ => cases hword
  · exact fun h text hmem => h ⟨_, hmem, rfl⟩

variable {mode : Mode} {text rest : List Char}

theorem Mode.Ends.of_append (h : mode.Ends (text ++ rest)) : mode.Ends text := by
  cases text with
  | nil => exact mode.ends_nil
  | cons c text => exact h

theorem Mode.Ends.append (h : mode.Ends text) (htext : text ≠ []) (rest : List Char) :
    mode.Ends (text ++ rest) := by
  obtain ⟨c, text, rfl⟩ := List.exists_cons_of_ne_nil htext
  exact h

theorem matched_nil : Matched [] := fun _ h => by cases h

/-- Induction over the segments of a text in which nothing is left over: each is a stretch that the
rest of the text ends. -/
@[elab_as_elim]
theorem matched_induct {motive : ∀ source, Matched source → Prop} (nil : motive [] matched_nil)
    (segment : ∀ mode segment rest (hsource : Matched (Segment.text segment ++ rest))
      (hrest : Matched rest), Mode.Reads mode segment.text → mode.finish segment.text = [segment] →
      (∀ text, segment ≠ .unmatched text) → mode.Ends rest → motive rest hrest →
      motive (segment.text ++ rest) hsource)
    (source : List Char) (h : Matched source) : motive source h := by
  induction source using stretches_induct with
  | nil => exact nil
  | stretch mode text rest hreads hends ih =>
    have hsegments := hreads.segments_append hends
    have hfirst : ∀ part, Segment.unmatched part ∉ mode.finish text := fun part hmem =>
      h part (hsegments ▸ List.mem_append_left _ hmem)
    have hrest : Matched rest := fun part hmem => h part (hsegments ▸ List.mem_append_right _ hmem)
    obtain ⟨only, hfinish, rfl⟩ | ⟨-, hfinish⟩ := mode.finish_cases text
    · refine segment mode only rest h hrest hreads hfinish (fun part heq => ?_) hends (ih hrest)
      exact hfirst part (by rw [hfinish, heq]; exact List.mem_singleton_self _)
    · exact absurd (by rw [hfinish]; exact List.mem_cons_self) (hfirst text.dropLast)

/-- The first segments of a text are lexed alone as they are in the text. -/
theorem segments_before {source : List Char} (h : Matched source) {before after : List Segment}
    (hsource : segments source = before ++ after) :
    segments (before.flatMap Segment.text) = before := by
  induction source, h using matched_induct generalizing before with
  | nil =>
    obtain rfl := (List.append_eq_nil_iff.1 hsource.symm).1
    rfl
  | segment mode segment rest _ _ hreads hfinish _ hends ih =>
    rw [hreads.segments_append hends, hfinish, List.singleton_append] at hsource
    cases before with
    | nil => rfl
    | cons first before =>
      rw [List.cons_append] at hsource
      obtain ⟨rfl, hrest⟩ := List.cons.inj hsource
      have htext : rest = before.flatMap Segment.text ++ after.flatMap Segment.text := by
        rw [← List.flatMap_append, ← hrest, flatMap_text_segments]
      rw [htext] at hends
      rw [List.flatMap_cons, hreads.segments_append hends.of_append, hfinish, ih hrest]
      rfl

/-- The last segments of a text are lexed alone as they are in the text. -/
theorem segments_after {source : List Char} (h : Matched source) {before after : List Segment}
    (hsource : segments source = before ++ after) :
    segments (after.flatMap Segment.text) = after := by
  induction source, h using matched_induct generalizing before with
  | nil =>
    obtain rfl := (List.append_eq_nil_iff.1 hsource.symm).2
    rfl
  | segment mode segment rest _ _ hreads hfinish _ hends ih =>
    cases before with
    | nil =>
      rw [List.nil_append] at hsource
      rw [← hsource, flatMap_text_segments]
    | cons first before =>
      rw [hreads.segments_append hends, hfinish] at hsource
      exact ih (List.cons.inj hsource).2

/-- Some segments of a text are lexed alone as they are in the text. -/
theorem segments_middle {source : List Char} (h : Matched source) {before middle after : List Segment}
    (hsource : segments source = before ++ middle ++ after) :
    segments (middle.flatMap Segment.text) = middle := by
  have hbefore := segments_before h hsource
  refine segments_after (fun part hpart => ?_) hbefore
  rw [hbefore] at hpart
  exact h part (hsource ▸ List.mem_append_left _ hpart)

theorem Matched.middle {source : List Char} (h : Matched source) {before middle after : List Segment}
    (hsource : segments source = before ++ middle ++ after) :
    Matched (middle.flatMap Segment.text) := by
  intro part hpart
  rw [segments_middle h hsource] at hpart
  exact h part (hsource ▸ List.mem_append_left _ (List.mem_append_right _ hpart))

theorem ofSegments_layout (start : Nat) (text : List Char) (rest : List Segment) :
    Lexed.ofSegments start (.layout text :: rest) =
      Lexed.ofSegments (start + Text.byteLength text) rest := rfl

/-- The segments before the one of a token, and those after it, give the tokens before and after it. -/
theorem exists_segment {start : Nat} {segments : List Segment} {before after : List Lexeme}
    {lexeme : Lexeme} (h : (Lexed.ofSegments start segments).lexemes = before ++ lexeme :: after) :
    ∃ front text back, segments = front ++ .token lexeme.token text :: back ∧
      (Lexed.ofSegments start front).lexemes = before ∧
      lexeme.span = ⟨start + Text.byteLength (front.flatMap Segment.text),
        start + Text.byteLength (front.flatMap Segment.text) + Text.byteLength text⟩ ∧
      (Lexed.ofSegments lexeme.span.stop back).lexemes = after := by
  induction segments generalizing start before with
  | nil => simp [Lexed.ofSegments] at h
  | cons segment rest ih =>
    cases segment with
    | layout text | unmatched text =>
      obtain ⟨front, word, back, rfl, hbefore, hspan, hafter⟩ := ih h
      refine ⟨_ :: front, word, back, rfl, hbefore, ?_, hafter⟩
      simpa [Segment.text, Nat.add_assoc] using hspan
    | token token text =>
      obtain ⟨rfl, hfirst⟩ | ⟨before, rfl, hrest⟩ := List.cons_eq_append_iff.1 h
      · obtain ⟨rfl, hafter⟩ := List.cons.inj hfirst
        exact ⟨[], text, rest, rfl, rfl, rfl, hafter.symm⟩
      · obtain ⟨front, word, back, rfl, hbefore, hspan, hafter⟩ := ih hrest
        refine ⟨.token token text :: front, word, back, rfl, congrArg (List.cons _) hbefore, ?_, hafter⟩
        simpa [Segment.text, Nat.add_assoc] using hspan

/-! ## Joining -/

/-- Blanks that are still open give nothing. -/
theorem ofSegments_scan_blank (start : Nat) (text rest : List Char) :
    Lexed.ofSegments start (scan .blank text rest) =
      Lexed.ofSegments (start + Text.byteLength text) (segments rest) := by
  induction rest generalizing start text with
  | nil => rfl
  | cons c rest ih =>
    by_cases hc : isBlank c = true
    · have hstart : Mode.start c = .blank := start_eq_blank.2 hc
      have hextend : Mode.extend c .blank = some .blank := if_pos hc
      simp only [scan, hextend, segments, hstart]
      rw [ih, ih]
      simp [Nat.add_comm, Nat.add_left_comm]
    · have hextend : Mode.extend c .blank = none := if_neg hc
      simp only [scan, hextend, Mode.finish, List.singleton_append, ofSegments_layout,
        Text.byteLength_reverse]
      rfl

/-- Blanks before a text give nothing. -/
theorem ofSegments_blanks {text : List Char} (h : ∀ c ∈ text, isBlank c = true) (start : Nat)
    (rest : List Char) : Lexed.ofSegments start (segments (text ++ rest)) =
      Lexed.ofSegments (start + Text.byteLength text) (segments rest) := by
  induction text generalizing start with
  | nil => rfl
  | cons c text ih =>
    obtain ⟨hc, htext⟩ := List.forall_mem_cons.1 h
    rw [List.cons_append, segments, start_eq_blank.2 hc, ofSegments_scan_blank, ih htext]
    simp [Nat.add_assoc]

/-- A line feed before a text gives nothing. -/
theorem ofSegments_lineFeed (start : Nat) (rest : List Char) :
    Lexed.ofSegments start (segments ('\n' :: rest)) = Lexed.ofSegments (start + 1) (segments rest) :=
  ofSegments_blanks (List.forall_mem_singleton.2 rfl) start rest

/-- Of what is layout or a token, only blanks go on with a line feed. -/
theorem Mode.eq_blank_or_ends {segment : Segment} (hfinish : mode.finish text = [segment])
    (hsegment : ∀ text, segment ≠ .unmatched text) (more : List Char) :
    mode = .blank ∨ mode.Ends ('\n' :: more) := by
  have hends : mode.extend '\n' = none → mode.Ends ('\n' :: more) := fun h _ hc =>
    Option.some.inj hc ▸ h
  cases mode with
  | blank => exact .inl rfl
  | comment | word | apostrophe | var | escape | quoted | sign _ | stray => exact .inr (hends rfl)
  | quote => exact absurd (List.singleton_inj.1 hfinish).symm (hsegment text)

/-- A text before a line feed is lexed like the text alone. -/
theorem ofSegments_append_line {source : List Char} (h : Matched source) (start : Nat)
    (more : List Char) : Lexed.ofSegments start (segments (source ++ '\n' :: more)) =
      Lexed.ofSegments start (segments source) ++
        Lexed.ofSegments (start + (Text.byteLength source + 1)) (segments more) := by
  induction source, h using matched_induct generalizing start with
  | nil => exact ofSegments_lineFeed start more
  | segment mode segment rest _ _ hreads hfinish hsegment hends ih =>
    by_cases hline : mode.Ends (rest ++ '\n' :: more)
    · rw [List.append_assoc, hreads.segments_append hline, hreads.segments_append hends, hfinish,
        Lexed.ofSegments_append, Lexed.ofSegments_append, ih, Lexed.append_assoc]
      simp [Nat.add_assoc]
    · -- The text ends in blanks, and the line feed is one more of them.
      obtain rfl : rest = [] := Decidable.by_contra fun hrest => hline (hends.append hrest _)
      obtain rfl := (Mode.eq_blank_or_ends hfinish hsegment more).resolve_right hline
      have hblank : ∀ c ∈ segment.text ++ ['\n'], isBlank c = true :=
        List.forall_mem_append.2 ⟨hreads.isBlank_of_mem, List.forall_mem_singleton.2 rfl⟩
      have hlayout : Lexed.ofSegments start (segments segment.text) = ⟨[], []⟩ := by
        rw [hreads.segments_eq]
        rfl
      rw [List.append_nil, hlayout, Lexed.nil_append, List.append_cons, ofSegments_blanks hblank,
        Text.byteLength_append]
      rfl

end Lexer

/-- Two texts with a line feed between them give the tokens of the one and, further on, those of the
other, if nothing is left over in the first one. -/
theorem Lexed.ofSource_append_line {first : String} (h : (ofSource first).unmatched = [])
    (second : String) : ofSource (first ++ "\n" ++ second) =
      ofSource first ++ (ofSource second).shift (first.utf8ByteSize + 1) := by
  have htext : (first ++ "\n" ++ second).toList = first.toList ++ '\n' :: second.toList := by simp
  rw [ofSource, htext, Lexer.ofSegments_append_line (Lexer.matched_iff_unmatched_eq_nil.2 h),
    Text.byteLength_toList, Nat.zero_add, ← Nat.add_zero (_ + 1), ofSegments_add]
  rfl

end Monomorph
