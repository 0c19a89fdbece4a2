import Monomorph.Proofs.Lexing.Stretches
import Monomorph.Proofs.Text.Lines

/-!
# The places of tokens

`placed` gives every segment of a text its place. Tokens and the text that is left over are those
segments that are no layout, so whatever is known about the places of segments holds for both.
-/

namespace Monomorph

namespace Span

/-- The span is the place of a part of the source. -/
def Delimits (span : Span) (source part : String) : Prop :=
  ∃ before after, source = before ++ part ++ after ∧
    span = ⟨before.utf8ByteSize, before.utf8ByteSize + part.utf8ByteSize⟩

/-- The byte at this offset lies in the span. -/
def Covers (span : Span) (offset : Nat) : Prop := span.start ≤ offset ∧ offset < span.stop

/-- The spans have no byte in common. -/
def Apart (span other : Span) : Prop := span.stop ≤ other.start ∨ other.stop ≤ span.start

theorem delimits_of_toList {source : String} {before part after : List Char}
    (h : source.toList = before ++ part ++ after) :
    Delimits ⟨Text.byteLength before, Text.byteLength before + Text.byteLength part⟩ source
      (String.ofList part) := by
  refine ⟨String.ofList before, String.ofList after, ?_, ?_⟩
  · rw [← String.ofList_append, ← String.ofList_append, ← h, String.ofList_toList]
  · simp only [Text.utf8ByteSize_ofList]

end Span

/-! ## Segments -/

namespace Lexer

/-- Each segment with its place, where the first one starts at the offset `start`. -/
def placed (start : Nat) : List Segment → List (Segment × Span)
  | [] => []
  | segment :: rest =>
    let stop := start + Text.byteLength segment.text
    (segment, ⟨start, stop⟩) :: placed stop rest

variable {start : Nat} {segment : Segment} {span : Span} {segments : List Segment}

theorem placed_append (start : Nat) (segments more : List Segment) :
    placed start (segments ++ more) = placed start segments ++
      placed (start + Text.byteLength (segments.flatMap Segment.text)) more := by
  induction segments generalizing start with
  | nil => rfl
  | cons segment segments ih => simp [placed, ih, Nat.add_assoc]

theorem mem_placed : (segment, span) ∈ placed start segments ↔ ∃ before after,
    segments = before ++ segment :: after ∧
      span = ⟨start + Text.byteLength (before.flatMap Segment.text),
        start + Text.byteLength (before.flatMap Segment.text) + Text.byteLength segment.text⟩ := by
  constructor
  · intro h
    induction segments generalizing start with
    | nil => cases h
    | cons first rest ih =>
      obtain heq | h := List.mem_cons.1 h
      · obtain ⟨rfl, rfl⟩ := Prod.mk.inj heq
        exact ⟨[], rest, rfl, rfl⟩
      · obtain ⟨before, after, rfl, rfl⟩ := ih h
        exact ⟨first :: before, after, rfl, by simp [Nat.add_assoc]⟩
  · rintro ⟨before, after, rfl, rfl⟩
    rw [placed_append]
    exact List.mem_append_right _ List.mem_cons_self

theorem mem_of_mem_placed (h : (segment, span) ∈ placed start segments) : segment ∈ segments := by
  obtain ⟨before, after, rfl, -⟩ := mem_placed.1 h
  exact List.mem_append_right before List.mem_cons_self

theorem bounds_of_mem_placed (h : (segment, span) ∈ placed start segments) :
    start ≤ span.start ∧ span.stop ≤ start + Text.byteLength (segments.flatMap Segment.text) := by
  obtain ⟨before, after, rfl, rfl⟩ := mem_placed.1 h
  constructor
  · exact Nat.le_add_right _ _
  · simp [Nat.add_assoc]

theorem pairwise_placed (start : Nat) (segments : List Segment) :
    (placed start segments).Pairwise fun first second => first.2.stop ≤ second.2.start := by
  induction segments generalizing start with
  | nil => exact List.Pairwise.nil
  | cons segment rest ih =>
    exact List.Pairwise.cons (fun entry hentry => (bounds_of_mem_placed hentry).1) (ih _)

/-- Every byte of some segments lies in one of them. -/
theorem exists_covers {offset : Nat} (hstart : start ≤ offset)
    (hstop : offset < start + Text.byteLength (segments.flatMap Segment.text)) :
    ∃ segment span, (segment, span) ∈ placed start segments ∧ span.Covers offset := by
  induction segments generalizing start with
  | nil => exact absurd hstop (Nat.not_lt.2 hstart)
  | cons first rest ih =>
    by_cases hfirst : offset < start + Text.byteLength first.text
    · exact ⟨first, _, List.mem_cons_self, hstart, hfirst⟩
    · rw [List.flatMap_cons, Text.byteLength_append, ← Nat.add_assoc] at hstop
      obtain ⟨segment, span, hmem, hcovers⟩ := ih (Nat.not_lt.1 hfirst) hstop
      exact ⟨segment, span, List.mem_cons_of_mem _ hmem, hcovers⟩

/-- The token that a segment gives. -/
def lexeme? : Segment × Span → Option Lexeme
  | (.token token _, span) => some ⟨token, span⟩
  | _ => none

/-- The text that is left over in a segment. -/
def unmatched? : Segment × Span → Option Unmatched
  | (.unmatched text, span) => some ⟨text, span⟩
  | _ => none

/-- The place of a segment that is no layout. -/
def place? : Segment × Span → Option Span
  | (.layout _, _) => none
  | (_, span) => some span

theorem lexeme?_eq_some {lexeme : Lexeme} :
    lexeme? (segment, span) = some lexeme ↔
      (∃ text, segment = .token lexeme.token text) ∧ span = lexeme.span := by
  obtain ⟨token, place⟩ := lexeme
  cases segment <;> simp [lexeme?]

theorem place?_eq_some {place : Span} :
    place? (segment, span) = some place ↔ span = place ∧ ∀ text, segment ≠ .layout text := by
  cases segment <;> simp [place?]

theorem mem_filterMap_place? {place : Span} : place ∈ (placed start segments).filterMap place? ↔
    ∃ segment, (segment, place) ∈ placed start segments ∧ ∀ text, segment ≠ .layout text := by
  rw [List.mem_filterMap]
  constructor
  · rintro ⟨⟨segment, span⟩, hmem, hplace⟩
    obtain ⟨rfl, hlayout⟩ := place?_eq_some.1 hplace
    exact ⟨segment, hmem, hlayout⟩
  · rintro ⟨segment, hmem, hlayout⟩
    exact ⟨_, hmem, place?_eq_some.2 ⟨rfl, hlayout⟩⟩

end Lexer

/-- What comes before all of the second list is merged first. -/
theorem merge_cons_left {α : Type} {le : α → α → Bool} {a : α} {first second : List α}
    (h : ∀ b ∈ second, le a b = true) :
    (a :: first).merge second le = a :: first.merge second le := by
  cases second with
  | nil => simp
  | cons b second => rw [List.cons_merge_cons, if_pos (h b List.mem_cons_self)]

/-- What comes before all of the first list is merged first. -/
theorem merge_cons_right {α : Type} {le : α → α → Bool} {b : α} {first second : List α}
    (h : ∀ a ∈ first, le a b = false) :
    first.merge (b :: second) le = b :: first.merge second le := by
  cases first with
  | nil => simp
  | cons a first => rw [List.cons_merge_cons, if_neg (by simp [h a List.mem_cons_self])]

namespace Lexed

theorem lexemes_ofSegments (start : Nat) (segments : List Segment) :
    (ofSegments start segments).lexemes =
      (Lexer.placed start segments).filterMap Lexer.lexeme? := by
  induction segments generalizing start with
  | nil => rfl
  | cons segment rest ih =>
    have hrest := ih (start + Text.byteLength segment.text)
    cases segment with
    | token token text => exact congrArg (List.cons ⟨token, ⟨start, _⟩⟩) hrest
    | layout _ | unmatched _ => exact hrest

theorem unmatched_ofSegments (start : Nat) (segments : List Segment) :
    (ofSegments start segments).unmatched =
      (Lexer.placed start segments).filterMap Lexer.unmatched? := by
  induction segments generalizing start with
  | nil => rfl
  | cons segment rest ih =>
    have hrest := ih (start + Text.byteLength segment.text)
    cases segment with
    | unmatched text => exact congrArg (List.cons ⟨text, ⟨start, _⟩⟩) hrest
    | layout _ | token _ _ => exact hrest

theorem mem_lexemes {start : Nat} {segments : List Segment} {lexeme : Lexeme} :
    lexeme ∈ (ofSegments start segments).lexemes ↔
      ∃ text, (.token lexeme.token text, lexeme.span) ∈ Lexer.placed start segments := by
  rw [lexemes_ofSegments, List.mem_filterMap]
  constructor
  · rintro ⟨⟨segment, span⟩, hmem, heq⟩
    obtain ⟨⟨text, rfl⟩, rfl⟩ := Lexer.lexeme?_eq_some.1 heq
    exact ⟨text, hmem⟩
  · rintro ⟨text, hmem⟩
    exact ⟨_, hmem, rfl⟩

theorem mem_unmatched {start : Nat} {segments : List Segment} {unmatched : Unmatched} :
    unmatched ∈ (ofSegments start segments).unmatched ↔
      (.unmatched unmatched.text, unmatched.span) ∈ Lexer.placed start segments := by
  rw [unmatched_ofSegments, List.mem_filterMap]
  constructor
  · rintro ⟨⟨segment, span⟩, hmem, heq⟩
    cases segment with
    | unmatched text =>
      obtain rfl := Option.some.inj heq
      exact hmem
    | layout _ | token _ _ => cases heq
  · exact fun hmem => ⟨_, hmem, rfl⟩

theorem start_le_of_mem_lexemes {start : Nat} {segments : List Segment} {lexeme : Lexeme}
    (h : lexeme ∈ (ofSegments start segments).lexemes) : start ≤ lexeme.span.start := by
  obtain ⟨text, hmem⟩ := mem_lexemes.1 h
  exact (Lexer.bounds_of_mem_placed hmem).1

theorem start_le_of_mem_unmatched {start : Nat} {segments : List Segment} {unmatched : Unmatched}
    (h : unmatched ∈ (ofSegments start segments).unmatched) : start ≤ unmatched.span.start :=
  (Lexer.bounds_of_mem_placed (mem_unmatched.1 h)).1

/-- The places of all tokens and of all text that is left over, in the order in which they start. -/
def places (lexed : Lexed) : List Span :=
  (lexed.lexemes.map Lexeme.span).merge (lexed.unmatched.map Unmatched.span)
    fun first second => decide (first.start ≤ second.start)

/-- By their starts, tokens and text that is left over stand in the order of their segments. -/
theorem places_ofSegments {segments : List Segment} (h : ∀ segment ∈ segments, segment.text ≠ [])
    (start : Nat) :
    (ofSegments start segments).places = (Lexer.placed start segments).filterMap Lexer.place? := by
  induction segments generalizing start with
  | nil => simp [ofSegments, places, Lexer.placed]
  | cons segment rest ih =>
    obtain ⟨hsegment, hrest⟩ := List.forall_mem_cons.1 h
    have hplaces := ih hrest (start + Text.byteLength segment.text)
    have hlength := Text.byteLength_pos hsegment
    cases segment with
    | layout text => exact hplaces
    | token token text =>
      refine Eq.trans (merge_cons_left fun second hsecond => ?_) (congrArg (List.cons _) hplaces)
      obtain ⟨unmatched, hunmatched, rfl⟩ := List.mem_map.1 hsecond
      have hstart : start + Text.byteLength text ≤ unmatched.span.start :=
        start_le_of_mem_unmatched hunmatched
      exact decide_eq_true (Nat.le_of_add_right_le hstart)
    | unmatched text =>
      -- Tokens win a tie, so what is left over has to start strictly before the tokens that follow.
      refine Eq.trans (merge_cons_right fun first hfirst => ?_) (congrArg (List.cons _) hplaces)
      obtain ⟨lexeme, hlexeme, rfl⟩ := List.mem_map.1 hfirst
      have hstart : start < lexeme.span.start :=
        Nat.lt_of_lt_of_le (Nat.lt_add_of_pos_right hlength) (start_le_of_mem_lexemes hlexeme)
      exact decide_eq_false (Nat.not_le.2 hstart)

end Lexed

end Monomorph
