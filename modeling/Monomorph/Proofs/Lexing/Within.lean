import Monomorph.Proofs.Lexing.Partition
import Monomorph.Proofs.Printing.Legality

/-!
# Places inside a source

A place can be cut out of a source if both of its ends lie on boundaries of characters. Those of a
token do, and so do the end of the source, the stretch from one token to a later one, and with them
all places that reading a source gives: those of its items and those of its errors.
-/

namespace Monomorph

/-- The span can be cut out of the source: its ends are in order, inside, and on boundaries of
characters. -/
structure Span.Within (span : Span) (source : String) : Prop where
  ordered : span.start ≤ span.stop
  inside : span.stop ≤ source.utf8ByteSize
  starts : String.Pos.Raw.IsValid source ⟨span.start⟩
  stops : String.Pos.Raw.IsValid source ⟨span.stop⟩

namespace Span

variable {span first last : Span} {source part : String}

theorem Delimits.within (h : span.Delimits source part) : span.Within source := by
  obtain ⟨before, after, rfl, rfl⟩ := h
  refine ⟨Nat.le_add_right _ _, ?_, ?_, ?_⟩
  · simp only [String.utf8ByteSize_append]
    exact Nat.le_add_right _ _
  · refine String.Pos.Raw.isValid_iff_exists_append.2 ⟨before, part ++ after, ?_, rfl⟩
    exact String.append_assoc ..
  · refine String.Pos.Raw.isValid_iff_exists_append.2 ⟨before ++ part, after, rfl, ?_⟩
    rw [← String.utf8ByteSize_append]
    rfl

/-- The stretch from one place to a later one. -/
theorem Within.join (hfirst : first.Within source) (hlast : last.Within source)
    (h : first.start ≤ last.stop) : Within ⟨first.start, last.stop⟩ source :=
  ⟨h, hlast.inside, hfirst.starts, hlast.stops⟩

theorem within_start (source : String) : Within ⟨0, 0⟩ source := by
  have hdelimits : Delimits ⟨0, 0⟩ source "" := ⟨"", source, by simp, rfl⟩
  exact hdelimits.within

theorem within_end (source : String) :
    Within ⟨source.utf8ByteSize, source.utf8ByteSize⟩ source := by
  have hdelimits : Delimits ⟨source.utf8ByteSize, source.utf8ByteSize⟩ source "" :=
    ⟨source, "", by simp, rfl⟩
  exact hdelimits.within

end Span

/-! ## Rendering -/

namespace Diagnostic

/-- Everything that a diagnostic points at. -/
def spans (d : Diagnostic) : List Span := d.span :: d.related.map RelatedPlace.span

/-- A diagnostic whose place can be cut out of the source has a line and a column. -/
theorem isSome_render? {d : Diagnostic} {source : String} (h : d.span.Within source)
    (path : String) : (d.render? path source).isSome = true := by
  obtain ⟨before, after, hsource, hstart⟩ := Text.exists_append_of_isValid h.starts
  rw [render?, hsource, hstart, Text.lineColumn?_append]
  rfl

end Diagnostic

/-! ## Tokens -/

/-- Tokens stand inside of the source, one after the other. -/
structure Lexeme.Orderly (source : String) (lexemes : List Lexeme) : Prop where
  within : ∀ lexeme ∈ lexemes, lexeme.span.Within source
  ordered : lexemes.Pairwise fun first second => first.span.stop ≤ second.span.start

namespace Lexeme

variable {source : String} {lexemes part : List Lexeme}

theorem Orderly.sublist (h : Orderly source lexemes) (hpart : part.Sublist lexemes) :
    Orderly source part :=
  ⟨fun lexeme hmem => h.within lexeme (hpart.subset hmem), h.ordered.sublist hpart⟩

theorem orderly_ofSource (source : String) : Orderly source (Lexed.ofSource source).lexemes where
  within lexeme hlexeme := by
    obtain ⟨text, hmem⟩ := Lexed.mem_lexemes.1 hlexeme
    exact (Lexed.delimits_of_mem_placed hmem rfl).within
  ordered := by
    rw [Lexed.ofSource, Lexed.lexemes_ofSegments]
    refine (Lexer.pairwise_placed 0 _).filterMap _ fun first second hstop a ha b hb => ?_
    rwa [← (Lexer.lexeme?_eq_some.1 ha).2, ← (Lexer.lexeme?_eq_some.1 hb).2]

/-- The stretch from the first to the last of some tokens. -/
theorem Orderly.within_spanOf (h : Orderly source lexemes) :
    (Source.spanOf lexemes).Within source := by
  cases lexemes with
  | nil => exact Span.within_start source
  | cons first rest =>
    have hfirst := h.within first List.mem_cons_self
    obtain rfl | ⟨middle, last, rfl⟩ := rest.eq_nil_or_concat
    · exact hfirst
    · have hmem : last ∈ middle.concat last := by simp
      have hlast := h.within last (List.mem_cons_of_mem first hmem)
      have hstop := (List.pairwise_cons.1 h.ordered).1 last hmem
      have hspan : Source.spanOf (first :: middle.concat last) =
          ⟨first.span.start, last.span.stop⟩ := by
        simp [Source.spanOf, List.getLast?_cons]
      rw [hspan]
      exact hfirst.join hlast (Nat.le_trans hfirst.ordered (Nat.le_trans hstop hlast.ordered))

theorem Orderly.within_spanAt (h : Orderly source lexemes) (index : Nat) :
    (Source.spanAt lexemes source.utf8ByteSize index).Within source := by
  rw [Source.spanAt]
  split
  · next lexeme hlexeme => exact h.within lexeme (List.mem_of_getElem? hlexeme)
  · exact Span.within_end source

/-- Each definition stands at a place inside of the source. -/
theorem Orderly.within_locate (h : Orderly source lexemes) {defs : List Surface.Def} {item : Item}
    (hitem : item ∈ Source.locate defs lexemes) : item.span.Within source := by
  induction defs generalizing lexemes with
  | nil => cases hitem
  | cons d rest ih =>
    obtain rfl | hitem := List.mem_cons.1 hitem
    · exact (h.sublist (List.take_sublist _ _)).within_spanOf
    · exact ih (h.sublist (List.drop_sublist _ _)) hitem

end Lexeme

namespace Source

variable {source : String}

/-- All items of a source stand at places inside of it. -/
theorem within_of_items {items : List Item} (h : (parse source).items? = some items) :
    ∀ item ∈ items, item.span.Within source := by
  obtain ⟨defs, -, rfl⟩ := items?_eq_some.1 h
  exact fun item hitem => (Lexeme.orderly_ofSource source).within_locate hitem

theorem spans_diagnostic (span : Span) (message : String) :
    (diagnostic span message).spans = [span] := rfl

/-- All errors of a source point at places inside of it. -/
theorem within_of_mem_diagnostics {d : Diagnostic} (h : d ∈ (parse source).diagnostics) :
    ∀ span ∈ d.spans, span.Within source := by
  obtain h | h := List.mem_append.1 h
  · obtain ⟨u, hu, rfl⟩ := List.mem_map.1 h
    rw [spans_diagnostic, List.forall_mem_singleton]
    exact (Lexed.delimits_of_mem_placed (Lexed.mem_unmatched.1 hu) rfl).within
  · simp only [parse] at h
    split at h
    · cases h
    · next e heq =>
      obtain rfl := List.mem_singleton.1 h
      split at heq
      · cases heq
      · next error _ =>
        obtain rfl := Except.error.inj heq
        rw [spans_diagnostic, List.forall_mem_singleton]
        exact (Lexeme.orderly_ofSource source).within_spanAt error.index

/-- What cannot be read has an error. -/
theorem hasErrors_diagnostics (h : (parse source).clean? = none) :
    hasErrors (parse source).diagnostics = true := by
  rw [hasErrors, List.any_eq_true]
  cases hunmatched : (parse source).unmatched with
  | cons u rest =>
    have hmem : u ∈ (parse source).unmatched := hunmatched ▸ List.mem_cons_self
    exact ⟨_, List.mem_append_left _ (List.mem_map_of_mem hmem), rfl⟩
  | nil =>
    cases hparse : Surface.parse (Lexed.ofSource source).tokens with
    | ok defs =>
      have hitems : (parse source).items? = some (locate defs (Lexed.ofSource source).lexemes) := by
        simp only [parse, hparse, Parsed.items?]
      rw [clean?_iff_items?.2 ⟨hunmatched, hitems⟩] at h
      cases h
    | error e =>
      refine ⟨diagnostic (spanAt (Lexed.ofSource source).lexemes source.utf8ByteSize e.index)
        (syntaxMessage e), List.mem_append_right _ ?_, rfl⟩
      simp [parse, hparse]

end Source

end Monomorph
