import Monomorph.Proofs.Surface.Backtracking

/-!
# One token of foresight

A matcher finds out that a way is wrong by failing. For the grammar at hand the next token is enough to know:
where alternatives begin, the kinds of tokens with which they begin are different. `Matcher.Starts` says with
which kinds a matcher begins, what it does on any other input, and that it has noted exactly these kinds
there. There is one rule for each way to combine matchers.
-/

namespace Monomorph.Surface

variable {α β : Type} {m m' : Option Missing} {left left' : Nat} {kinds kinds' : List TokenKind}
  {lexemes rest : List Lexeme}

/-! ## The next token -/

/-- The next token is of one of some kinds. -/
def Meets (kinds : List TokenKind) (lexemes : List Lexeme) : Prop :=
  ∃ lexeme ∈ lexemes.head?, lexeme.token.kind ∈ kinds

theorem meets_cons {lexeme : Lexeme} : Meets kinds (lexeme :: rest) ↔ lexeme.token.kind ∈ kinds := by
  simp [Meets]

theorem not_meets_nil : ¬ Meets [] lexemes := by simp [Meets]

theorem meets_join : Meets (join kinds kinds') lexemes ↔ Meets kinds lexemes ∨ Meets kinds' lexemes := by
  simp only [Meets, mem_join, and_or_left, exists_or]

theorem Meets.mono (h : Meets kinds lexemes) (hsub : ∀ kind ∈ kinds, kind ∈ kinds') : Meets kinds' lexemes :=
  h.imp fun _ => And.imp_right (hsub _)

theorem Meets.not (h : Meets kinds lexemes) (hdisjoint : ∀ kind ∈ kinds, kind ∉ kinds') :
    ¬ Meets kinds' lexemes := by
  obtain ⟨lexeme, hhead, hmem⟩ := h
  rintro ⟨other, hother, hmem'⟩
  obtain rfl := Option.mem_unique hhead hother
  exact hdisjoint _ hmem hmem'

theorem Meets.exists_cons (h : Meets kinds lexemes) :
    ∃ lexeme rest, lexemes = lexeme :: rest ∧ lexeme.token.kind ∈ kinds := by
  cases lexemes with
  | nil => exact absurd h (by simp [Meets])
  | cons lexeme rest => exact ⟨lexeme, rest, rfl, meets_cons.1 h⟩

/-! ## What was missing -/

/-- A record has nothing further on than a place, and has some kinds of tokens there. -/
def Notes (m : Option Missing) (left : Nat) (kinds : List TokenKind) : Prop :=
  match m with
  | none => kinds = []
  | some missing => left < missing.left ∧ kinds = [] ∨ missing = ⟨left, kinds.map .kind⟩

theorem notes_none (left : Nat) : Notes none left [] := rfl

theorem notes_some (left : Nat) (kinds : List TokenKind) : Notes (some ⟨left, kinds.map .kind⟩) left kinds :=
  Or.inr rfl

namespace Notes

theorem eq_some (h : Notes m left kinds) (hne : kinds ≠ []) : m = some ⟨left, kinds.map .kind⟩ := by
  cases m with
  | none => exact absurd h hne
  | some missing => exact congrArg some (h.resolve_left fun hlt => hne hlt.2)

/-- Further on there is nothing. -/
theorem of_lt (h : Notes m left kinds) (hlt : left' < left) : Notes m left' [] := by
  cases m with
  | none => rfl
  | some missing =>
    refine Or.inl ⟨?_, rfl⟩
    rcases h with ⟨h, -⟩ | rfl
    · exact Nat.lt_trans hlt h
    · exact hlt

theorem merge (h : Notes m left kinds) (h' : Notes m' left kinds') :
    Notes (Missing.merge m m') left (join kinds kinds') := by
  rcases m with _ | missing
  · obtain rfl : kinds = [] := h
    simpa using h'
  rcases m' with _ | missing'
  · obtain rfl : kinds' = [] := h'
    simpa using h
  have hjoin := map_join (f := Expectation.kind) (fun _ _ => Expectation.kind.inj) kinds kinds'
  rcases h with ⟨hlt, rfl⟩ | rfl <;> rcases h' with ⟨hlt', rfl⟩ | rfl <;>
    simp only [Missing.merge] <;> grind [Notes, join_nil, nil_join]

/-- What is missing further on counts alone. -/
theorem merge_right (h : Notes m left kinds) (h' : Notes m' left' kinds') (hlt : left' < left) :
    Notes (Missing.merge m m') left' kinds' := by
  simpa using (h.of_lt hlt).merge h'

/-- What is tried again further back adds nothing. -/
theorem merge_left (h : Notes m left' kinds) (h' : Notes m' left kinds') (hlt : left' < left) :
    Notes (Missing.merge m m') left' kinds := by
  simpa using h.merge (h'.of_lt hlt)

/-- A record that is further on remains as it is. -/
theorem merge_some (h : Notes m left kinds) (hlt : left' < left) (expected : List Expectation) :
    Missing.merge m (some ⟨left', expected⟩) = some ⟨left', expected⟩ := by
  rcases m with _ | missing
  · rfl
  · rcases h.of_lt hlt with ⟨h, -⟩ | rfl
    · simp [Missing.merge, h, Nat.not_lt.2 (Nat.le_of_lt h)]
    · simp [Missing.merge]

end Notes

/-! ## How matchers begin -/

namespace Matcher

variable {n k : Nat} {default : Option α} {p q : Matcher α} {firsts : List TokenKind}

/-- On short inputs that do not begin with one of some kinds, a matcher reads nothing: it fails, or it
returns a value by default. -/
def Starts (n : Nat) (firsts : List TokenKind) (default : Option α) (p : Matcher α) : Prop :=
  ∀ lexemes : List Lexeme, lexemes.length < n → ¬ Meets firsts lexemes →
    ∃ m, p lexemes = ⟨default.map (·, lexemes), m⟩ ∧ Notes m lexemes.length firsts

theorem Starts.mono (h : p.Starts n firsts default) (hk : k ≤ n) : p.Starts k firsts default :=
  fun lexemes hlt => h lexemes (Nat.lt_of_lt_of_le hlt hk)

theorem starts_pure (n : Nat) (a : α) : (Pure.pure a : Matcher α).Starts n [] (some a) :=
  fun lexemes _ _ => ⟨none, rfl, notes_none lexemes.length⟩

theorem starts_select {kind : TokenKind} {value? : Token → Option α} (n : Nat)
    (h : ∀ token a, value? token = some a → token.kind = kind) :
    (select kind value?).Starts n [kind] none := by
  intro lexemes _ hmeets
  cases lexemes with
  | nil => exact ⟨_, rfl, notes_some 0 [kind]⟩
  | cons lexeme rest =>
    have hnone : value? lexeme.token = none := Option.eq_none_iff_forall_ne_some.2 fun a ha =>
      hmeets (meets_cons.2 (List.mem_singleton.2 (h _ a ha)))
    rw [select, hnone]
    exact ⟨_, rfl, notes_some (rest.length + 1) [kind]⟩

theorem starts_mark (n : Nat) (sign : Mark) : (mark sign).Starts n [.mark sign] none :=
  starts_select n fun token a h => by cases token <;> simp_all [Token.kind]

theorem starts_ident (n : Nat) : ident.Starts n [.ident] none :=
  starts_select n fun token a h => by cases token <;> simp_all [Token.kind]

theorem starts_var (n : Nat) : var.Starts n [.var] none :=
  starts_select n fun token a h => by cases token <;> simp_all [Token.kind]

theorem starts_text (n : Nat) : text.Starts n [.text] none :=
  starts_select n fun token a h => by cases token <;> simp_all [Token.kind]

theorem Starts.bind (h : p.Starts n firsts none) (f : α → Matcher β) : (p >>= f).Starts n firsts none := by
  intro lexemes hlt hmeets
  obtain ⟨m, hp, hnotes⟩ := h lexemes hlt hmeets
  exact ⟨m, bind_of_none hp f, hnotes⟩

/-- After a part that is not there, the next one begins. -/
theorem Starts.bind_of_default {a : α} {f : α → Matcher β} {default : Option β}
    (h : p.Starts n firsts (some a)) (hf : (f a).Starts n kinds default) :
    (p >>= f).Starts n (join firsts kinds) default := by
  intro lexemes hlt hmeets
  rw [meets_join, not_or] at hmeets
  obtain ⟨m, hp, hnotes⟩ := h lexemes hlt hmeets.1
  obtain ⟨m', hf', hnotes'⟩ := hf lexemes hlt hmeets.2
  refine ⟨Missing.merge m m', ?_, hnotes.merge hnotes'⟩
  rw [bind_of_some hp, hf']
  rfl

theorem Starts.map (h : p.Starts n firsts default) (f : α → β) :
    (p >>= fun a => Pure.pure (f a)).Starts n firsts (default.map f) := by
  intro lexemes hlt hmeets
  obtain ⟨m, hp, hnotes⟩ := h lexemes hlt hmeets
  refine ⟨m, ?_, hnotes⟩
  rw [map_apply, hp]
  cases default <;> rfl

theorem Starts.orElse (h : p.Starts n firsts none) (h' : q.Starts n kinds default) :
    (p <|> q).Starts n (join firsts kinds) default := by
  intro lexemes hlt hmeets
  rw [meets_join, not_or] at hmeets
  obtain ⟨m, hp, hnotes⟩ := h lexemes hlt hmeets.1
  obtain ⟨m', hq, hnotes'⟩ := h' lexemes hlt hmeets.2
  refine ⟨Missing.merge m m', ?_, hnotes.merge hnotes'⟩
  rw [orElse_of_none hp, hq]
  rfl

theorem Starts.orNot (h : p.Starts n firsts none) : (orNot p).Starts n firsts (some none) := by
  have horElse := (h.bind fun a => Pure.pure (some a)).orElse (starts_pure n none)
  rwa [join_nil] at horElse

theorem starts_delimited (n : Nat) (opening closing : Mark) (p : Matcher α) :
    (delimited opening closing p).Starts n [.mark opening] none := (starts_mark n opening).bind _

theorem Starts.recursive {body : Matcher α → Matcher α} (h : ∀ n p, (body p).Starts n firsts none) (n : Nat) :
    (recursive body).Starts n firsts none := by
  intro lexemes hlt hmeets
  rw [Matcher.recursive]
  exact h n _ lexemes hlt hmeets

/-! ### Repetition -/

theorem repeated_of_none (h : p lexemes = ⟨none, m⟩) : repeated p lexemes = ⟨some ([], lexemes), m⟩ := by
  rw [repeated, h]

theorem repeated_of_some {a : α} (h : p lexemes = ⟨some (a, rest), m⟩) (hlt : rest.length < lexemes.length) :
    repeated p lexemes = ((repeated p rest).map (a :: ·)).after m := by
  rw [repeated, h]
  exact if_pos hlt

theorem repeated_of_not_lt {a : α} (h : p lexemes = ⟨some (a, rest), m⟩)
    (hlt : ¬ rest.length < lexemes.length) : repeated p lexemes = ⟨none, m⟩ := by
  rw [repeated, h]
  exact if_neg hlt

theorem Starts.repeated (h : p.Starts n firsts none) : (repeated p).Starts n firsts (some []) := by
  intro lexemes hlt hmeets
  obtain ⟨m, hp, hnotes⟩ := h lexemes hlt hmeets
  exact ⟨m, repeated_of_none hp, hnotes⟩

/-! ### Lists with separators -/

section Separated

variable {item : Matcher α} {separator : Mark} {atLeast count : Nat} {trailing : Bool} {lexeme : Lexeme}
  {inside : List Lexeme}

theorem mark_cons (h : lexeme.token = .mark separator) :
    mark separator (lexeme :: inside) = ⟨some ((), inside), none⟩ := by
  rw [mark, select, h]
  simp

theorem separated_of_none (h : lexeme.token = .mark separator) (hitem : item inside = ⟨none, m⟩) :
    separated item separator atLeast trailing count (lexeme :: inside) =
      ⟨if count < atLeast then none else some ([], if trailing then inside else lexeme :: inside), m⟩ := by
  rw [separated, mark_cons h]
  simp [hitem, Outcome.after]

theorem separated_of_some {a : α} (h : lexeme.token = .mark separator)
    (hitem : item inside = ⟨some (a, rest), m⟩) (hle : rest.length ≤ inside.length) :
    separated item separator atLeast trailing count (lexeme :: inside) =
      ((separated item separator atLeast trailing (count + 1) rest).map (a :: ·)).after m := by
  have hlt : rest.length < (lexeme :: inside).length := Nat.lt_succ_of_le hle
  rw [separated, mark_cons h]
  simp only [hitem, Outcome.after, Missing.none_merge]
  exact if_pos hlt

/-- Where no separator follows, a list is at its end, and this is enough if it has enough items. -/
theorem starts_separated (n : Nat) (item : Matcher α) (separator : Mark) (trailing : Bool)
    (hcount : atLeast ≤ count) :
    (separated item separator atLeast trailing count).Starts n [.mark separator] (some []) := by
  intro lexemes hlt hmeets
  obtain ⟨m, hmark, hnotes⟩ := starts_mark n separator lexemes hlt hmeets
  refine ⟨m, ?_, hnotes⟩
  rw [separated, hmark]
  simp [Nat.not_lt.2 hcount]

theorem starts_separated_of_lt (n : Nat) (item : Matcher α) (separator : Mark) (trailing : Bool)
    (hcount : count < atLeast) :
    (separated item separator atLeast trailing count).Starts n [.mark separator] none := by
  intro lexemes hlt hmeets
  obtain ⟨m, hmark, hnotes⟩ := starts_mark n separator lexemes hlt hmeets
  refine ⟨m, ?_, hnotes⟩
  rw [separated, hmark]
  simp [hcount]

end Separated

end Matcher

end Monomorph.Surface
