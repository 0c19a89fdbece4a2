import Mathlib.Data.List.Induction
import Monomorph.Proofs.Printing.Words

/-!
# The stretches of a text

The lexer reads a text in stretches, each in one mode and each as long as its mode allows:
`stretches_induct` is induction on them. A stretch of layout, with whatever stands around it, is
described by `comment_or_blankStretch`; any other stretch is a token or is left over.
-/

namespace Monomorph

namespace Lexer

/-- The text is one open segment, from its first to its last character, and ends in this mode. -/
def Mode.Reads (mode : Mode) (text : List Char) : Prop :=
  ∃ c more, text = c :: more ∧ (Mode.start c).run more = some mode

variable {mode : Mode} {text rest : List Char}

theorem Mode.Reads.ne_nil (h : mode.Reads text) : text ≠ [] := by
  obtain ⟨c, more, rfl, -⟩ := h
  exact List.cons_ne_nil c more

theorem Mode.Reads.exists_concat (h : mode.Reads text) : ∃ front c, text = front ++ [c] :=
  ⟨text.dropLast, text.getLast h.ne_nil, (List.dropLast_concat_getLast h.ne_nil).symm⟩

theorem Mode.ends_nil (mode : Mode) : mode.Ends [] := fun _ hc => by cases hc

/-- A stretch that nothing goes on with is cut off first. -/
theorem Mode.Reads.segments_append (h : mode.Reads text) (hends : mode.Ends rest) :
    segments (text ++ rest) = mode.finish text ++ segments rest := by
  obtain ⟨c, more, rfl, hrun⟩ := h
  exact Lexer.segments_append hrun hends

theorem Mode.Reads.segments_eq (h : mode.Reads text) : segments text = mode.finish text := by
  simpa [segments] using h.segments_append mode.ends_nil

/-- An open segment can be read on until nothing goes on with it. -/
theorem Mode.exists_run (mode : Mode) (text : List Char) :
    ∃ next more rest, text = more ++ rest ∧ mode.run more = some next ∧ next.Ends rest := by
  induction text generalizing mode with
  | nil => exact ⟨mode, [], [], rfl, rfl, mode.ends_nil⟩
  | cons c text ih =>
    cases hextend : mode.extend c with
    | none => exact ⟨mode, [], c :: text, rfl, rfl, fun _ hd => Option.some.inj hd ▸ hextend⟩
    | some middle =>
      obtain ⟨next, more, rest, rfl, hrun, hends⟩ := ih middle
      exact ⟨next, c :: more, rest, rfl, by rw [run_cons, hextend]; exact hrun, hends⟩

theorem exists_stretch (c : Char) (source : List Char) :
    ∃ mode text rest, c :: source = text ++ rest ∧ Mode.Reads mode text ∧ mode.Ends rest := by
  obtain ⟨mode, more, rest, rfl, hrun, hends⟩ := (Mode.start c).exists_run source
  exact ⟨mode, c :: more, rest, rfl, ⟨c, more, rfl, hrun⟩, hends⟩

/-- Induction on a text, stretch by stretch. -/
@[elab_as_elim]
theorem stretches_induct {motive : List Char → Prop} (nil : motive [])
    (stretch : ∀ mode text rest, Mode.Reads mode text → mode.Ends rest → motive rest →
      motive (text ++ rest))
    (source : List Char) : motive source := by
  induction hlength : source.length using Nat.strongRecOn generalizing source with
  | ind n ih =>
    cases source with
    | nil => exact nil
    | cons c source =>
      obtain ⟨mode, text, rest, hsource, hreads, hends⟩ := exists_stretch c source
      rw [hsource] at hlength ⊢
      have htext := List.length_pos_iff.2 hreads.ne_nil
      rw [List.length_append] at hlength
      exact stretch mode text rest hreads hends (ih _ (by omega) rest rfl)

/-! ## Layout -/

/-- The text is a comment: all of it up to the line feed that ends it, or up to the end. -/
def IsComment (text after : List Char) : Prop :=
  ∃ words, text = '#' :: words ∧ '\n' ∉ words ∧ ∀ c ∈ after.head?, c = '\n'

theorem start_eq_blank {c : Char} : Mode.start c = .blank ↔ isBlank c = true := by
  refine ⟨fun h => ?_, fun h => if_pos h⟩
  refine Decidable.by_contra fun hblank => ?_
  rw [Mode.start, if_neg hblank] at h
  repeat' split at h
  all_goals cases h

theorem start_eq_comment {c : Char} : Mode.start c = .comment ↔ c = '#' := by
  refine ⟨fun h => ?_, fun h => h ▸ rfl⟩
  refine Decidable.by_contra fun hc => ?_
  rw [Mode.start, if_neg hc] at h
  repeat' split at h
  all_goals cases h

theorem Mode.extend_eq_blank {c : Char} :
    mode.extend c = some .blank ↔ mode = .blank ∧ isBlank c = true := by
  cases mode <;> simp [extend]
  all_goals (repeat' split) <;> simp

theorem Mode.extend_eq_comment {c : Char} :
    mode.extend c = some .comment ↔ mode = .comment ∧ c ≠ '\n' := by
  cases mode <;> simp [extend]
  all_goals (repeat' split) <;> simp

/-- A blank never makes a token. -/
theorem Mode.extend_isBlank {next : Mode} {c : Char} (hc : isBlank c = true)
    (h : mode.extend c = some next) : next = .blank ∨ next = .comment ∨ next = .quote := by
  simp only [isBlank, Bool.or_eq_true, beq_iff_eq] at hc
  obtain ((rfl | rfl) | rfl) | rfl := hc <;> cases mode <;> cases h <;> decide

/-- The last character of a stretch either starts it or goes on with what stands before. -/
theorem Mode.reads_concat {c : Char} (h : mode.Reads (text ++ [c])) :
    text = [] ∧ Mode.start c = mode ∨
      ∃ before, Mode.Reads before text ∧ before.extend c = some mode := by
  obtain ⟨first, more, heq, hrun⟩ := h
  cases text with
  | nil =>
    obtain ⟨rfl, rfl⟩ := List.cons.inj heq
    exact .inl ⟨rfl, Option.some.inj hrun⟩
  | cons d text =>
    obtain ⟨rfl, rfl⟩ := List.cons.inj heq
    change (Mode.start d).run (text ++ [c]) = _ at hrun
    rw [run_append] at hrun
    obtain ⟨before, hbefore, hlast⟩ := Option.bind_eq_some_iff.1 hrun
    rw [run_cons, Option.bind_eq_some_iff] at hlast
    obtain ⟨next, hextend, hnext⟩ := hlast
    obtain rfl := Option.some.inj hnext
    exact .inr ⟨before, ⟨d, text, rfl, hbefore⟩, hextend⟩

theorem Mode.Reads.isBlank_of_mem (h : Mode.blank.Reads text) : ∀ c ∈ text, isBlank c = true := by
  induction text using List.reverseRecOn with
  | nil => exact fun c hc => absurd hc List.not_mem_nil
  | append_singleton text c ih =>
    rw [List.forall_mem_append, List.forall_mem_singleton]
    obtain ⟨rfl, hstart⟩ | ⟨before, hbefore, hextend⟩ := reads_concat h
    · exact ⟨List.forall_mem_nil _, start_eq_blank.1 hstart⟩
    · obtain ⟨rfl, hc⟩ := extend_eq_blank.1 hextend
      exact ⟨ih hbefore, hc⟩

theorem Mode.Reads.exists_comment (h : Mode.comment.Reads text) :
    ∃ words, text = '#' :: words ∧ '\n' ∉ words := by
  induction text using List.reverseRecOn with
  | nil => exact absurd rfl h.ne_nil
  | append_singleton text c ih =>
    obtain ⟨rfl, hstart⟩ | ⟨before, hbefore, hextend⟩ := reads_concat h
    · exact ⟨[], congrArg ([·]) (start_eq_comment.1 hstart), List.not_mem_nil⟩
    · obtain ⟨rfl, hc⟩ := extend_eq_comment.1 hextend
      obtain ⟨words, rfl, hwords⟩ := ih hbefore
      refine ⟨words ++ [c], rfl, fun hmem => ?_⟩
      obtain hmem | hmem := List.mem_append.1 hmem
      · exact hwords hmem
      · exact hc (List.mem_singleton.1 hmem).symm

/-- Of the stretches whose last character is a blank, only a comment can end before a blank. -/
theorem Mode.Reads.eq_comment {c d : Char} (h : mode.Reads (text ++ [c])) (hc : isBlank c = true)
    (hd : isBlank d = true) (hends : mode.extend d = none) : mode = .comment := by
  have hpart : mode = .blank ∨ mode = .comment ∨ mode = .quote := by
    obtain ⟨-, rfl⟩ | ⟨before, -, hextend⟩ := reads_concat h
    · exact .inl (start_eq_blank.2 hc)
    · exact extend_isBlank hc hextend
  obtain rfl | rfl | rfl := hpart
  · rw [extend_eq_blank.2 ⟨rfl, hd⟩] at hends
    cases hends
  · rfl
  · cases hends

/-- A run of blanks can follow these segments: they do not end in a blank, unless in a comment. -/
def TakesBlanks (before : List Segment) : Prop :=
  (∀ c ∈ (before.flatMap Segment.text).getLast?, isBlank c = false) ∨
    ∃ front words, before = front ++ [.layout ('#' :: words)]

theorem takesBlanks_nil : TakesBlanks [] := .inl fun _ hc => by cases hc

theorem Mode.Reads.fits (h : mode.Reads text) : mode.Fits text := by
  obtain ⟨front, c, rfl⟩ := h.exists_concat
  obtain ⟨rfl, rfl⟩ | ⟨before, -, hextend⟩ := reads_concat h
  · exact fits_start c
  · exact fits_extend front hextend

theorem Mode.Reads.takesBlanks (h : mode.Reads text) {d : Char} (hd : isBlank d = true)
    (hends : mode.extend d = none) (before : List Segment) :
    TakesBlanks (before ++ mode.finish text) := by
  obtain ⟨front, c, rfl⟩ := h.exists_concat
  cases hc : isBlank c with
  | true =>
    obtain rfl := h.eq_comment hc hd hends
    obtain ⟨words, hwords, -⟩ := h.exists_comment
    exact .inr ⟨before, words, by rw [hwords]; rfl⟩
  | false =>
    refine .inl fun e he => ?_
    rw [List.flatMap_append, flatMap_text_finish h.fits, ← List.append_assoc,
      List.getLast?_concat] at he
    exact Option.some.inj he ▸ hc

/-- A stretch is one segment, unless a backslash is cut off from its end. -/
theorem Mode.finish_cases (mode : Mode) (text : List Char) :
    (∃ segment : Segment, mode.finish text = [segment] ∧ segment.text = text) ∨
      mode = .escape ∧ mode.finish text = [.unmatched text.dropLast, .unmatched ['\\']] := by
  cases mode
  case escape => exact .inr ⟨rfl, rfl⟩
  case quoted =>
    rw [finish]
    split
    · exact .inl ⟨_, rfl, rfl⟩
    · exact .inl ⟨_, rfl, rfl⟩
  all_goals exact .inl ⟨_, rfl, rfl⟩

theorem Mode.mem_finish {segment : Segment} (h : segment ∈ mode.finish text) :
    mode.finish text = [segment] ∧ segment.text = text ∨
      mode = .escape ∧ (segment = .unmatched text.dropLast ∨ segment = .unmatched ['\\']) := by
  obtain ⟨only, hfinish, htext⟩ | ⟨hmode, hfinish⟩ := mode.finish_cases text
  · rw [hfinish, List.mem_singleton] at h
    exact .inl ⟨h ▸ hfinish, h ▸ htext⟩
  · rw [hfinish] at h
    exact .inr ⟨hmode, by simpa using h⟩

theorem Mode.layout_mem_finish {words : List Char} (h : .layout words ∈ mode.finish text) :
    mode = .blank ∨ mode = .comment := by
  cases mode <;> simp [finish] at h ⊢
  split at h <;> simp at h

/-- An element of two lists stands in the first or in the second. -/
theorem append_eq_append_cons {α : Type} {first second before after : List α} {x : α}
    (h : first ++ second = before ++ x :: after) :
    (∃ more, first = before ++ x :: more ∧ after = more ++ second) ∨
      ∃ more, before = first ++ more ∧ second = more ++ x :: after := by
  obtain ⟨more, hbefore, hsecond⟩ | ⟨more, hfirst, hmore⟩ := List.append_eq_append_iff.1 h
  · exact .inr ⟨more, hbefore, hsecond⟩
  · obtain ⟨rfl, hsecond⟩ | ⟨rest, rfl, hafter⟩ := List.append_eq_cons_iff.1 hmore.symm
    · exact .inr ⟨[], by simpa using hfirst.symm, hsecond⟩
    · exact .inl ⟨rest, hfirst, hafter⟩

/-- The text is a run of blanks between these segments, as long as it can be. -/
structure BlankStretch (before : List Segment) (text after : List Char) : Prop where
  nonempty : text ≠ []
  blank : ∀ c ∈ text, isBlank c = true
  starts : TakesBlanks before
  stops : ∀ c ∈ after.head?, isBlank c = false

/-- A stretch of layout is a comment or a run of blanks, as long as it can be where it stands. -/
theorem comment_or_blankStretch {source : List Char} {before middle after : List Segment}
    (hbefore : ∀ d ∈ source.head?, isBlank d = true → TakesBlanks before) {text : List Char}
    (hsegments : segments source = middle ++ .layout text :: after) :
    IsComment text (after.flatMap Segment.text) ∨
      BlankStretch (before ++ middle) text (after.flatMap Segment.text) := by
  induction source using stretches_induct generalizing before middle with
  | nil => simp [segments] at hsegments
  | stretch mode part rest hreads hends ih =>
    rw [hreads.segments_append hends] at hsegments
    obtain ⟨more, hfinish, rfl⟩ | ⟨more, rfl, hrest⟩ := append_eq_append_cons hsegments
    · have hlayout : .layout text ∈ mode.finish part := by simp [hfinish]
      have hmode := Mode.layout_mem_finish hlayout
      obtain ⟨honly, rfl⟩ : mode.finish part = [.layout text] ∧ text = part :=
        (Mode.mem_finish hlayout).resolve_right fun h => by simp [h.1] at hmode
      obtain ⟨rfl, rfl⟩ : middle = [] ∧ more = [] := by
        simpa [List.append_eq_singleton_iff] using hfinish.symm.trans honly
      rw [List.nil_append, flatMap_text_segments, List.append_nil]
      obtain rfl | rfl := hmode
      · obtain ⟨c, words, rfl⟩ := List.exists_cons_of_ne_nil hreads.ne_nil
        have hblank := hreads.isBlank_of_mem
        exact .inr ⟨hreads.ne_nil, hblank, hbefore c rfl (hblank c List.mem_cons_self),
          fun d hd => by simpa [Mode.extend] using hends d hd⟩
      · obtain ⟨words, rfl, hwords⟩ := hreads.exists_comment
        exact .inl ⟨words, rfl, hwords, fun d hd => by simpa [Mode.extend] using hends d hd⟩
    · have hnext : ∀ d ∈ rest.head?, isBlank d = true → TakesBlanks (before ++ mode.finish part) :=
        fun d hd hblank => hreads.takesBlanks hblank (hends d hd) before
      rw [← List.append_assoc]
      exact ih hnext hrest

/-! ## Tokens -/

theorem Mode.finish_eq_token {token : Token} {part : List Char}
    (h : .token token part ∈ mode.finish text) :
    mode.finish text = [.token token text] ∧ part = text := by
  obtain ⟨hfinish, rfl⟩ | ⟨-, hsegment | hsegment⟩ := mem_finish h
  · exact ⟨hfinish, rfl⟩
  · cases hsegment
  · cases hsegment

/-- The text of a token gives this token wherever it stands, alone in particular. -/
theorem segments_of_mem {source text : List Char} {token : Token}
    (h : .token token text ∈ segments source) : segments text = [.token token text] := by
  induction source using stretches_induct with
  | nil => cases h
  | stretch mode part rest hreads hends ih =>
    rw [hreads.segments_append hends] at h
    obtain hpart | hrest := List.mem_append.1 h
    · obtain ⟨hfinish, rfl⟩ := Mode.finish_eq_token hpart
      rw [hreads.segments_eq, hfinish]
    · exact ih hrest

/-- Quotes are open before a backslash. -/
theorem Mode.Reads.dropLast_ne_nil (h : Mode.escape.Reads text) : text.dropLast ≠ [] := by
  obtain ⟨front, c, rfl⟩ := h.exists_concat
  rw [List.dropLast_concat]
  obtain ⟨-, hstart⟩ | ⟨before, hbefore, -⟩ := reads_concat h
  · obtain ⟨front, hfront⟩ := (fits_start c).2 hstart
    obtain rfl : c = '\\' := by simpa using congrArg List.getLast? hfront
    exact absurd hstart (by decide)
  · exact hbefore.ne_nil

/-- No segment is empty. -/
theorem text_ne_nil_of_mem {source : List Char} {segment : Segment}
    (h : segment ∈ segments source) : segment.text ≠ [] := by
  induction source using stretches_induct with
  | nil => cases h
  | stretch mode part rest hreads hends ih =>
    rw [hreads.segments_append hends] at h
    obtain hpart | hrest := List.mem_append.1 h
    · obtain ⟨-, htext⟩ | ⟨rfl, rfl | rfl⟩ := Mode.mem_finish hpart
      · exact htext ▸ hreads.ne_nil
      · exact hreads.dropLast_ne_nil
      · exact List.cons_ne_nil _ _
    · exact ih hrest

end Lexer

end Monomorph
