import Monomorph.Proofs.Lexing.Places

/-!
# A text and its tokens

Tokens and the text that is left over stand one after the other on boundaries of characters; all
other text is layout; and each token stands for itself. `Lexed.Partitions` collects this, and
`ofSource_partitions` is that every text is taken apart in this way.
-/

namespace Monomorph

namespace Lexer

/-- The text is a run of blanks that cannot be made longer. -/
structure BlankRun (before text after : List Char) : Prop where
  nonempty : text ≠ []
  blank : ∀ c ∈ text, isBlank c = true
  starts : ∀ c ∈ before.getLast?, isBlank c = false
  stops : ∀ c ∈ after.head?, isBlank c = false

/-- The blanks at the end of a text can be split off. -/
theorem exists_blank_end (text : List Char) : ∃ stem blanks, text = stem ++ blanks ∧
    (∀ c ∈ blanks, isBlank c = true) ∧ ∀ c ∈ stem.getLast?, isBlank c = false := by
  induction text using List.reverseRecOn with
  | nil => exact ⟨[], [], rfl, List.forall_mem_nil _, nofun⟩
  | append_singleton text c ih =>
    cases hc : isBlank c with
    | true =>
      obtain ⟨stem, blanks, rfl, hblanks, hstem⟩ := ih
      refine ⟨stem, blanks ++ [c], List.append_assoc _ _ _, ?_, hstem⟩
      exact List.forall_mem_append.2 ⟨hblanks, List.forall_mem_singleton.2 hc⟩
    | false =>
      refine ⟨text ++ [c], [], (List.append_nil _).symm, List.forall_mem_nil _, fun d hd => ?_⟩
      rw [List.getLast?_concat] at hd
      exact Option.some.inj hd ▸ hc

/-- Blanks that go on with a comment belong to one run with the last blanks of the comment. -/
theorem TakesBlanks.exists_run {before : List Segment} (h : TakesBlanks before) :
    ∃ front gap stem blanks, before = front ++ gap ∧
      (∀ segment ∈ gap, ∃ text, segment = .layout text) ∧
      gap.flatMap Segment.text = stem ++ blanks ∧ (∀ c ∈ blanks, isBlank c = true) ∧
      ∀ c ∈ (front.flatMap Segment.text ++ stem).getLast?, isBlank c = false := by
  obtain hlast | ⟨front, words, rfl⟩ := h
  · refine ⟨before, [], [], [], (List.append_nil _).symm, List.forall_mem_nil _, rfl,
      List.forall_mem_nil _, ?_⟩
    rwa [List.append_nil]
  · obtain ⟨stem, blanks, rfl, hblanks, hstem⟩ := exists_blank_end words
    refine ⟨front, [.layout ('#' :: (stem ++ blanks))], '#' :: stem, blanks, rfl,
      List.forall_mem_singleton.2 ⟨_, rfl⟩, by simp [Segment.text], hblanks, fun c hc => ?_⟩
    rw [List.getLast?_append, List.getLast?_cons] at hc
    cases hlast : stem.getLast? with
    | none =>
      rw [hlast] at hc
      obtain rfl := Option.some.inj hc
      rfl
    | some d =>
      rw [hlast] at hc
      obtain rfl := Option.some.inj hc
      exact hstem d hlast

/-- A stretch of layout ends a comment or a run of blanks that no token reaches into. -/
theorem exists_layout_run {source : List Char} {before after : List Segment} {text : List Char}
    (h : segments source = before ++ .layout text :: after) :
    ∃ front gap stem more, before ++ [Segment.layout text] = front ++ gap ∧
      (∀ segment ∈ gap, ∃ text, segment = .layout text) ∧
      gap.flatMap Segment.text = stem ++ (more ++ text) ∧
      (IsComment (more ++ text) (after.flatMap Segment.text) ∨
        BlankRun (front.flatMap Segment.text ++ stem) (more ++ text)
          (after.flatMap Segment.text)) := by
  obtain hcomment | hblank := comment_or_blankStretch (fun _ _ _ => takesBlanks_nil) h
  · exact ⟨before, [.layout text], [], [], rfl, List.forall_mem_singleton.2 ⟨text, rfl⟩,
      List.flatMap_singleton _ _, .inl hcomment⟩
  · obtain ⟨front, gap, stem, blanks, hbefore, hgap, hstem, hblanks, hfront⟩ :=
      hblank.starts.exists_run
    refine ⟨front, gap ++ [.layout text], stem, blanks, ?_, ?_, ?_,
      .inr ⟨?_, ?_, hfront, hblank.stops⟩⟩
    · rw [← List.append_assoc, ← hbefore]
      rfl
    · exact List.forall_mem_append.2 ⟨hgap, List.forall_mem_singleton.2 ⟨text, rfl⟩⟩
    · rw [List.flatMap_append, hstem, List.append_assoc, List.flatMap_singleton]
      rfl
    · exact List.append_ne_nil_of_right_ne_nil _ hblank.nonempty
    · exact List.forall_mem_append.2 ⟨hblanks, hblank.blank⟩

/-- No token and no text that is left over reaches into layout. -/
theorem apart_of_layout {front gap after : List Segment} {stem run : List Char}
    (hgap : ∀ segment ∈ gap, ∃ text, segment = .layout text)
    (hrun : gap.flatMap Segment.text = stem ++ run) {place : Span}
    (h : place ∈ (placed 0 (front ++ gap ++ after)).filterMap place?) :
    Span.Apart ⟨Text.byteLength (front.flatMap Segment.text ++ stem),
      Text.byteLength (front.flatMap Segment.text ++ stem) + Text.byteLength run⟩ place := by
  obtain ⟨segment, hmem, hlayout⟩ := mem_filterMap_place?.1 h
  simp only [placed_append, List.mem_append, Nat.zero_add] at hmem
  obtain (hfront | hmiddle) | hafter := hmem
  · have hstop := (bounds_of_mem_placed hfront).2
    refine .inr (Nat.le_trans hstop ?_)
    simp
  · obtain ⟨before, rest, rfl, -⟩ := mem_placed.1 hmiddle
    obtain ⟨text, rfl⟩ := hgap segment (List.mem_append_right _ List.mem_cons_self)
    exact absurd rfl (hlayout text)
  · have hstart := (bounds_of_mem_placed hafter).1
    rw [List.flatMap_append, hrun] at hstart
    refine .inl (Nat.le_trans (Nat.le_of_eq ?_) hstart)
    simp [Nat.add_assoc]

end Lexer

/-- The span is the place of a comment or of a run of blanks. -/
def Span.IsLayout (span : Span) (source : String) : Prop :=
  ∃ before text after, source.toList = before ++ text ++ after ∧
    span = ⟨Text.byteLength before, Text.byteLength before + Text.byteLength text⟩ ∧
    (Lexer.IsComment text after ∨ Lexer.BlankRun before text after)

/-- The tokens of a source and what is left over take it apart, but for its layout. -/
structure Lexed.Partitions (lexed : Lexed) (source : String) : Prop where
  /-- No place starts before the one before it stops. -/
  ordered : lexed.places.Pairwise fun first second => first.stop ≤ second.start
  nonempty : ∀ place ∈ lexed.places, place.start < place.stop
  /-- Each token stands at the place of a text that gives this token alone. -/
  token : ∀ lexeme ∈ lexed.lexemes, ∃ text, lexeme.span.Delimits source text ∧
    Lexed.ofSource text = ⟨[⟨lexeme.token, ⟨0, text.utf8ByteSize⟩⟩], []⟩
  /-- Text that is left over is the text at its place. -/
  unmatched : ∀ u ∈ lexed.unmatched, u.span.Delimits source (String.ofList u.text)
  /-- A byte outside of all places belongs to a comment or to a run of blanks. -/
  layout : ∀ offset < source.utf8ByteSize, (∀ place ∈ lexed.places, ¬place.Covers offset) →
    ∃ gap : Span, gap.Covers offset ∧ gap.IsLayout source ∧ ∀ place ∈ lexed.places, gap.Apart place

namespace Lexed

theorem places_ofSource (source : String) : (ofSource source).places =
    (Lexer.placed 0 (Lexer.segments source.toList)).filterMap Lexer.place? :=
  places_ofSegments (fun _ => Lexer.text_ne_nil_of_mem) 0

/-- The place of a segment is the place of its text. -/
theorem delimits_of_mem_placed {source : String} {segment : Segment} {span : Span}
    {text : List Char} (h : (segment, span) ∈ Lexer.placed 0 (Lexer.segments source.toList))
    (htext : segment.text = text) : span.Delimits source (String.ofList text) := by
  obtain rfl := htext
  obtain ⟨before, after, hsegments, rfl⟩ := Lexer.mem_placed.1 h
  have hsource := Lexer.flatMap_text_segments source.toList
  rw [hsegments, List.flatMap_append, List.flatMap_cons, ← List.append_assoc] at hsource
  simpa using Span.delimits_of_toList hsource.symm

theorem pairwise_places (source : String) :
    (ofSource source).places.Pairwise fun first second => first.stop ≤ second.start := by
  rw [places_ofSource]
  refine (Lexer.pairwise_placed 0 _).filterMap _ ?_
  intro first second hstop place hplace next hnext
  rwa [← (Lexer.place?_eq_some.1 hplace).1, ← (Lexer.place?_eq_some.1 hnext).1]

theorem start_lt_stop_of_mem_places {source : String} {place : Span}
    (h : place ∈ (ofSource source).places) : place.start < place.stop := by
  rw [places_ofSource] at h
  obtain ⟨segment, hmem, -⟩ := Lexer.mem_filterMap_place?.1 h
  have htext := Lexer.text_ne_nil_of_mem (Lexer.mem_of_mem_placed hmem)
  obtain ⟨before, after, -, rfl⟩ := Lexer.mem_placed.1 hmem
  exact Nat.lt_add_of_pos_right (Text.byteLength_pos htext)

/-- The text of a token, alone, is this token. -/
theorem ofSource_of_mem_placed {source : String} {token : Token} {text : List Char} {span : Span}
    (h : (.token token text, span) ∈ Lexer.placed 0 (Lexer.segments source.toList)) :
    ofSource (String.ofList text) = ⟨[⟨token, ⟨0, (String.ofList text).utf8ByteSize⟩⟩], []⟩ := by
  rw [ofSource, String.toList_ofList, Lexer.segments_of_mem (Lexer.mem_of_mem_placed h),
    Text.utf8ByteSize_ofList]
  simp [ofSegments, Segment.text]

/-- A byte outside of all places belongs to a comment or to a run of blanks. -/
theorem exists_layout {source : String} {offset : Nat} (hoffset : offset < source.utf8ByteSize)
    (houtside : ∀ place ∈ (ofSource source).places, ¬place.Covers offset) :
    ∃ gap : Span, gap.Covers offset ∧ gap.IsLayout source ∧
      ∀ place ∈ (ofSource source).places, gap.Apart place := by
  have hsource := Lexer.flatMap_text_segments source.toList
  rw [places_ofSource] at houtside ⊢
  rw [← Text.byteLength_toList, ← hsource, ← Nat.zero_add (Text.byteLength _)] at hoffset
  obtain ⟨segment, span, hmem, hcovers⟩ := Lexer.exists_covers (Nat.zero_le offset) hoffset
  obtain ⟨text, rfl⟩ : ∃ text, segment = .layout text := by
    cases segment with
    | layout text => exact ⟨text, rfl⟩
    | token _ _ | unmatched _ =>
      exact absurd hcovers (houtside span (Lexer.mem_filterMap_place?.2 ⟨_, hmem, fun _ => nofun⟩))
  obtain ⟨before, after, hsegments, rfl⟩ := Lexer.mem_placed.1 hmem
  -- A run of blanks may start inside of the comment before it: the segment alone is not enough.
  obtain ⟨front, gap, stem, more, hfront, hgap, hrun, hlayout⟩ := Lexer.exists_layout_run hsegments
  rw [List.append_cons, hfront] at hsegments
  rw [hsegments, List.flatMap_append, List.flatMap_append, hrun] at hsource
  have hlength := congrArg (fun part => Text.byteLength (part.flatMap Segment.text)) hfront
  simp only [List.flatMap_append, hrun, Text.byteLength_append, List.flatMap_singleton,
    Segment.text] at hlength
  refine ⟨⟨Text.byteLength (front.flatMap Segment.text ++ stem), _⟩, ⟨?_, ?_⟩,
    ⟨front.flatMap Segment.text ++ stem, more ++ text, _, ?_, rfl, hlayout⟩, fun place hplace => ?_⟩
  · have hstart := hcovers.1
    simp only [Text.byteLength_append, Nat.zero_add] at hstart ⊢
    omega
  · have hstop := hcovers.2
    simp only [Text.byteLength_append, Nat.zero_add, Segment.text] at hstop ⊢
    omega
  · rw [← hsource]
    simp
  · rw [hsegments] at hplace
    exact Lexer.apart_of_layout hgap hrun hplace

/-- Lexing a source takes it apart into tokens, text that is left over, and layout. -/
theorem ofSource_partitions (source : String) : (ofSource source).Partitions source where
  ordered := pairwise_places source
  nonempty _ hplace := start_lt_stop_of_mem_places hplace
  token lexeme hlexeme := by
    obtain ⟨text, hmem⟩ := mem_lexemes.1 hlexeme
    exact ⟨String.ofList text, delimits_of_mem_placed hmem rfl, ofSource_of_mem_placed hmem⟩
  unmatched u hu := delimits_of_mem_placed (mem_unmatched.1 hu) rfl
  layout _ hoffset houtside := exists_layout hoffset houtside

/-- Quotes that are open when the text ends behind a backslash. -/
example : ofSource "x # y\n\"é\\" =
    ⟨[⟨.ident "x", ⟨0, 1⟩⟩], [⟨['"', 'é'], ⟨6, 9⟩⟩, ⟨['\\'], ⟨9, 10⟩⟩]⟩ := by
  decide +kernel

end Lexed

end Monomorph
