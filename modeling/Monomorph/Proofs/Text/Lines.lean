import Monomorph.Text.Position

/-!
# Lines of a text

Line feeds cut a text into lines, and the last line is what follows the last of them. A line and a column
lead to an offset: behind the lines before, each with its line feed, and the bytes before the column.

With one more line in front, a text ends one line later and in the same column, so what a position leads to is
found line by line. `lineColumn?_locates` is that the line and the column of an offset lead back to it, that they
come later for a later offset, and that every offset past the end has those of the end.
-/

namespace Monomorph

/-- The first position comes before the second one in a text. -/
def LineColumn.Precedes (p q : LineColumn) : Prop :=
  p.line < q.line ∨ p.line = q.line ∧ p.column < q.column

namespace Text

/-! ## Bytes -/

theorem utf8ByteSize_ofList (text : List Char) :
    (String.ofList text).utf8ByteSize = byteLength text := by
  induction text with
  | nil => rfl
  | cons c text ih =>
    rw [String.ofList_cons]
    simp [ih]

theorem byteLength_toList (source : String) : byteLength source.toList = source.utf8ByteSize := by
  rw [← utf8ByteSize_ofList, String.ofList_toList]

theorem byteLength_pos {text : List Char} (h : text ≠ []) : 0 < byteLength text := by
  obtain ⟨c, text, rfl⟩ := List.exists_cons_of_ne_nil h
  exact Nat.add_pos_left c.utf8Size_pos _

/-- An offset past the end stands for the end. -/
theorem before?_of_byteLength_le {text : List Char} {offset : Nat} (h : byteLength text ≤ offset) :
    before? text offset = some text := by
  induction text generalizing offset with
  | nil => cases offset <;> rfl
  | cons c text ih =>
    have hsize := c.utf8Size_pos
    rw [byteLength_cons] at h
    obtain ⟨n, rfl⟩ : ∃ n, offset = n + 1 := ⟨offset - 1, by omega⟩
    rw [before?, if_pos (by omega), ih (by omega)]
    rfl

/-! ## Lines -/

variable {line s t : List Char}

/-- The lines of a text, without the line feeds between them. -/
def lines (text : List Char) : List (List Char) := text.splitOn '\n'

theorem lines_next (h : '\n' ∉ line) (rest : List Char) :
    lines (line ++ '\n' :: rest) = line :: lines rest :=
  List.splitOn_append_cons_self_of_not_mem h rest

/-- A text is a last line, or a line and a text after its line feed. -/
theorem lines_induct {motive : List Char → Prop} (last : ∀ line, '\n' ∉ line → motive line)
    (next : ∀ line rest, '\n' ∉ line → motive rest → motive (line ++ '\n' :: rest))
    (text : List Char) : motive text := by
  by_cases h : '\n' ∈ text
  · obtain ⟨line, rest, htext, hline⟩ := List.eq_append_cons_of_mem h
    have hshorter : rest.length < text.length := by
      rw [htext, List.length_append, List.length_cons]
      omega
    exact htext ▸ next line rest hline (lines_induct last next rest)
  · exact last text h
termination_by text.length

/-- The first line of a text is at least as long as a part without line feeds that the text starts with. -/
theorem exists_first_line (h : '\n' ∉ s) (t : List Char) :
    ∃ line, (lines (s ++ t))[0]? = some line ∧ byteLength s ≤ byteLength line := by
  have hjoin : ∀ {more}, '\n' ∉ more → '\n' ∉ s ++ more := fun hmore =>
    List.not_mem_append h hmore
  induction t using lines_induct with
  | last t ht =>
    refine ⟨s ++ t, ?_, byteLength_append s t ▸ Nat.le_add_right _ _⟩
    rw [lines, List.splitOn_eq_singleton (hjoin ht)]
    rfl
  | next more rest hmore _ =>
    refine ⟨s ++ more, ?_, byteLength_append s more ▸ Nat.le_add_right _ _⟩
    rw [← List.append_assoc, lines_next (hjoin hmore)]
    rfl

/-- The offset at which a line starts, behind the lines before it and their line feeds. -/
def lineStart (text : List Char) (line : Nat) : Nat :=
  byteLength (((lines text).take (line - 1)).flatMap (· ++ ['\n']))

theorem lineStart_next (h : '\n' ∉ line) (rest : List Char) {number : Nat} (hnumber : 1 ≤ number) :
    lineStart (line ++ '\n' :: rest) (number + 1) = byteLength line + 1 + lineStart rest number := by
  obtain ⟨n, rfl⟩ := Nat.exists_eq_add_of_le' hnumber
  simp only [lineStart, lines_next h, Nat.add_sub_cancel, List.take_succ_cons, List.flatMap_cons,
    byteLength_append]
  rfl

/-- The position is on a line of the text and leads to the offset. -/
structure Locates (text : List Char) (place : LineColumn) (offset : Nat) : Prop where
  line_pos : 1 ≤ place.line
  column_pos : 1 ≤ place.column
  on_line : ∃ line, (lines text)[place.line - 1]? = some line ∧ place.column ≤ byteLength line + 1
  offset_eq : offset = lineStart text place.line + (place.column - 1)

/-! ## The position after a text -/

theorem takeWhile_reverse_of_notMem (h : '\n' ∉ t) (s : List Char) :
    (s ++ t).reverse.takeWhile (· != '\n') = t.reverse ++ s.reverse.takeWhile (· != '\n') := by
  rw [List.reverse_append]
  refine List.takeWhile_append_of_pos fun c hc => ?_
  exact bne_iff_ne.2 fun heq => h (heq ▸ List.mem_reverse.1 hc)

/-- A text without line feeds moves the column only. -/
theorem endPosition_append_of_notMem (h : '\n' ∉ t) (s : List Char) :
    endPosition (s ++ t) = ⟨(endPosition s).line, (endPosition s).column + byteLength t⟩ := by
  simp only [endPosition, List.count_append, List.count_eq_zero_of_not_mem h,
    takeWhile_reverse_of_notMem h, byteLength_append, byteLength_reverse, LineColumn.mk.injEq, Nat.add_zero,
    true_and]
  omega

/-- What comes before a line feed is not on the last line. -/
theorem takeWhile_reverse_lineFeed (s t : List Char) :
    (s ++ '\n' :: t).reverse.takeWhile (· != '\n') = t.reverse.takeWhile (· != '\n') := by
  rw [List.reverse_append, List.reverse_cons, List.append_assoc, List.takeWhile_append]
  split
  · next hlength =>
    rw [List.singleton_append, List.takeWhile_cons_of_neg (by decide), List.append_nil,
      (List.takeWhile_prefix _).eq_of_length hlength]
  · rfl

/-- A line in front of a text moves the line only. -/
theorem endPosition_next (h : '\n' ∉ line) (rest : List Char) :
    endPosition (line ++ '\n' :: rest) = ⟨(endPosition rest).line + 1, (endPosition rest).column⟩ := by
  simp only [endPosition, takeWhile_reverse_lineFeed, List.count_append, List.count_eq_zero_of_not_mem h,
    List.count_cons_self, Nat.zero_add]

/-- The position after a part of a text locates the end of that part. -/
theorem locates_endPosition (s t : List Char) : Locates (s ++ t) (endPosition s) (byteLength s) := by
  -- By lines of the part: a line in front adds its bytes and its line feed to both sides of the offset.
  induction s using lines_induct with
  | last line hline =>
    have hend : endPosition line = ⟨1, 1 + byteLength line⟩ := endPosition_append_of_notMem hline []
    have hstart : lineStart (line ++ t) 1 = 0 := rfl
    rw [hend]
    refine ⟨Nat.le_refl 1, Nat.le_add_right 1 _, ?_, ?_⟩
    · obtain ⟨first, hfirst, hle⟩ := exists_first_line hline t
      have hcolumn : 1 + byteLength line ≤ byteLength first + 1 := by omega
      exact ⟨first, hfirst, hcolumn⟩
    · rw [hstart, Nat.zero_add, Nat.add_sub_cancel_left]
  | next line rest hline ih =>
    rw [endPosition_next hline, List.append_assoc, List.cons_append]
    refine ⟨Nat.le_add_left 1 _, ih.column_pos, ?_, ?_⟩
    · obtain ⟨number, hnumber⟩ := Nat.exists_eq_add_of_le' ih.line_pos
      have hon := ih.on_line
      rw [hnumber] at hon
      rwa [lines_next hline, hnumber]
    · calc byteLength (line ++ '\n' :: rest)
          = byteLength line + 1 + byteLength rest := by
            rw [byteLength_append, byteLength_cons, Nat.add_assoc]
            rfl
        _ = byteLength line + 1 +
            (lineStart (rest ++ t) (endPosition rest).line + ((endPosition rest).column - 1)) := by
            rw [← ih.offset_eq]
        _ = _ := by rw [lineStart_next hline _ ih.line_pos, Nat.add_assoc (byteLength line + 1)]

/-- The position after a longer text is a later one. -/
theorem endPosition_precedes (s : List Char) (h : t ≠ []) :
    (endPosition s).Precedes (endPosition (s ++ t)) := by
  by_cases hfeed : '\n' ∈ t
  · have hcount := List.count_pos_iff.2 hfeed
    left
    simp only [endPosition, List.count_append]
    omega
  · right
    rw [endPosition_append_of_notMem hfeed]
    exact ⟨rfl, Nat.lt_add_of_pos_right (byteLength_pos h)⟩

/-! ## The position of an offset -/

/-- Of two cuts of one text, the later one lengthens the first part. -/
theorem exists_append_of_byteLength_lt {s' t' : List Char} (h : s ++ t = s' ++ t')
    (hlt : byteLength s < byteLength s') : ∃ u, s' = s ++ u := by
  obtain ⟨u, rfl, -⟩ | ⟨u, rfl, -⟩ := List.append_eq_append_iff.1 h
  · exact ⟨u, rfl⟩
  · rw [byteLength_append] at hlt
    omega

theorem lineColumn?_append (s t : List Char) :
    lineColumn? (s ++ t) (byteLength s) = some (endPosition s) := by
  rw [lineColumn?, before?_append]
  rfl

/-- An offset on a boundary of characters cuts the source into two texts. -/
theorem exists_append_of_isValid {source : String} {offset : Nat}
    (h : String.Pos.Raw.IsValid source ⟨offset⟩) :
    ∃ s t, source.toList = s ++ t ∧ offset = byteLength s := by
  obtain ⟨before, after, rfl, hoffset⟩ := String.Pos.Raw.isValid_iff_exists_append.1 h
  refine ⟨before.toList, after.toList, String.toList_append, ?_⟩
  rw [byteLength_toList]
  exact congrArg String.Pos.Raw.byteIdx hoffset

/-- Each offset on a boundary of characters has a line and a column, which lead back to it; a later offset has
a later line, or a later column on the same line; and past the end, all have the position of the end. -/
theorem lineColumn?_locates (source : String) :
    (∀ offset, String.Pos.Raw.IsValid source ⟨offset⟩ →
      ∃ place, lineColumn? source.toList offset = some place ∧ Locates source.toList place offset) ∧
    (∀ first last, String.Pos.Raw.IsValid source ⟨first⟩ → String.Pos.Raw.IsValid source ⟨last⟩ →
      first < last → ∃ p q, lineColumn? source.toList first = some p ∧
        lineColumn? source.toList last = some q ∧ p.Precedes q) ∧
    ∀ offset, source.utf8ByteSize ≤ offset →
      lineColumn? source.toList offset = lineColumn? source.toList source.utf8ByteSize := by
  refine ⟨fun offset hoffset => ?_, fun first last hfirst hlast hlt => ?_, fun offset hoffset => ?_⟩
  · obtain ⟨s, t, hsource, rfl⟩ := exists_append_of_isValid hoffset
    rw [hsource]
    exact ⟨_, lineColumn?_append s t, locates_endPosition s t⟩
  · obtain ⟨s, t, hsource, rfl⟩ := exists_append_of_isValid hfirst
    obtain ⟨s', t', hsource', rfl⟩ := exists_append_of_isValid hlast
    obtain ⟨u, rfl⟩ := exists_append_of_byteLength_lt (hsource.symm.trans hsource') hlt
    have hu : u ≠ [] := by
      rintro rfl
      rw [List.append_nil] at hlt
      exact Nat.lt_irrefl _ hlt
    refine ⟨_, _, ?_, ?_, endPosition_precedes s hu⟩
    · rw [hsource, lineColumn?_append]
    · rw [hsource', lineColumn?_append]
  · have hend : ∀ {offset}, source.utf8ByteSize ≤ offset →
        lineColumn? source.toList offset = some (endPosition source.toList) := fun hle => by
      rw [lineColumn?, before?_of_byteLength_le (byteLength_toList source ▸ hle)]
      rfl
    rw [hend hoffset, hend (Nat.le_refl _)]

/-- A line that ends with a carriage return and a line feed, an empty line, and a character of two bytes. -/
def verse : String := "ab\r\n\né"

/-- Before a line feed, after the next one, and past the end. -/
theorem lineColumn?_locates_verse :
    String.Pos.Raw.IsValid verse ⟨3⟩ ∧ String.Pos.Raw.IsValid verse ⟨5⟩ ∧ verse.utf8ByteSize ≤ 20 ∧
    lineColumn? verse.toList 3 = some ⟨1, 4⟩ ∧ lineColumn? verse.toList 5 = some ⟨3, 1⟩ ∧
    Locates verse.toList ⟨3, 1⟩ 5 ∧ LineColumn.Precedes ⟨1, 4⟩ ⟨3, 1⟩ ∧
    lineColumn? verse.toList 20 = some ⟨3, 3⟩ := by
  have hfirst : String.Pos.Raw.IsValid verse ⟨3⟩ := by decide
  have hlast : String.Pos.Raw.IsValid verse ⟨5⟩ := by decide
  have hpast : verse.utf8ByteSize ≤ 20 := by decide
  have hp : lineColumn? verse.toList 3 = some ⟨1, 4⟩ := by decide
  have hq : lineColumn? verse.toList 5 = some ⟨3, 1⟩ := by decide
  have hend : lineColumn? verse.toList verse.utf8ByteSize = some ⟨3, 3⟩ := by decide
  obtain ⟨hlocates, hprecedes, hclamped⟩ := lineColumn?_locates verse
  obtain ⟨place, hplace, hlocated⟩ := hlocates 5 hlast
  obtain ⟨p, q, hp', hq', hlt⟩ := hprecedes 3 5 hfirst hlast (by decide)
  obtain rfl := Option.some.inj (hplace.symm.trans hq)
  obtain rfl := Option.some.inj (hp'.symm.trans hp)
  obtain rfl := Option.some.inj (hq'.symm.trans hq)
  exact ⟨hfirst, hlast, hpast, hp, hq, hlocated, hlt, (hclamped 20 hpast).trans hend⟩

end Text

end Monomorph
