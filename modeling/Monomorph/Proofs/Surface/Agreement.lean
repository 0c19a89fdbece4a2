import Monomorph.Proofs.Surface.Descent

/-!
# Files by recursive descent

A file is read by recursive descent and by the automaton with the same result. This is an induction on the
tokens that are left. Both go on in the same way after each definition; if there is no further one, what was
tried after the last one goes into the error.

The matcher notes where a definition stands as it reads it, and `Source.locate` finds the same places
afterwards, from the numbers of tokens. So `Source.parse` and `Descent.parseSource` are the same function.
-/

namespace Monomorph.Surface

open Missing

namespace Parser

variable {place next : Place} {rest : List Lexeme}

theorem tokens_of_read {tokens : List Token} (h : read place tokens = some next) :
    next.tokens = place.tokens ++ tokens := by
  induction tokens generalizing place with
  | nil =>
    cases h
    rw [List.append_nil]
  | cons token tokens ih =>
    obtain ⟨middle, hstep, hread⟩ := Option.bind_eq_some_iff.1 (read_cons place token tokens ▸ h)
    rw [ih hread, tokens_of_stepPlace hstep, List.append_assoc, List.singleton_append]

/-- The tokens of a definition that is read to its end. -/
theorem tokens_define_of_read {head : Head} {body : Expr} {tokens : List Token}
    (h : read .file tokens = some (.operator ⟨head, []⟩ body)) : tokens = (head.define body).tokens := by
  have hcomplete : (Place.operator ⟨head, []⟩ body).complete? = some (head.define body) := rfl
  have htokens := tokens_of_read h
  rw [← tokens_of_complete? hcomplete] at htokens
  simpa [Place.tokens] using htokens.symm

theorem expected_ne_nil (place : Place) : place.expected ≠ [] := by
  have hgroup : ∀ g : OpenGroup, g.expected ≠ [] := by
    intro g
    cases g <;> exact List.cons_ne_nil _ _
  cases place with
  | headGroup head g => exact hgroup g
  | exprGroup context e g => exact hgroup g
  | operator context e =>
    obtain ⟨head, _ | ⟨frame, frames⟩⟩ := context <;> exact List.cons_ne_nil _ _
  | bar context lead before => cases before <;> exact List.cons_ne_nil _ _
  | _ => exact List.cons_ne_nil _ _

/-- From where a file may end, a definition is read like the first one. -/
theorem run_of_read_file {state : State} {before : List Def} {tokens : List Token}
    (h : state.finish? = some before) (hread : read .file tokens = some next) (hne : tokens ≠ []) :
    ∃ done : List Def, done.reverse = before ∧ ∀ index rest,
      run state index (tokens ++ rest) = run ⟨done, next⟩ (index + tokens.length) rest := by
  obtain ⟨done, hstep, hdone⟩ := step_type h
  obtain ⟨token, tokens, rfl⟩ := List.exists_cons_of_ne_nil hne
  obtain ⟨middle, hfirst, hread⟩ := Option.bind_eq_some_iff.1 (read_cons _ token tokens ▸ hread)
  have htype : token = .mark .type ∧ middle = .params := by
    unfold stepPlace at hfirst
    split at hfirst <;> simp_all
  obtain ⟨rfl, rfl⟩ := htype
  refine ⟨done, hdone, fun index rest => ?_⟩
  rw [List.cons_append, run, hstep]
  simp only [run_of_read hread, List.length_cons]
  congr 1
  omega

/-- The reader of a file stops where a token is not expected. -/
theorem run_of_not_meets {done : List Def} (hcomplete : next.complete? = none) (hfile : next ≠ .file)
    (h : ¬ Meets next.expected rest) (index : Nat) :
    run ⟨done, next⟩ index (rest.map Lexeme.token) =
      .error ⟨index, rest.head?.map Lexeme.token, next.expected.map .kind⟩ := by
  have hfinish : (State.mk done next).finish? = none := by
    unfold State.finish?
    split
    · next hplace => exact absurd hplace hfile
    · simp [hcomplete]
  have hexpected : (State.mk done next).expected = next.expected.map .kind := by
    simp [State.expected, hfinish]
  cases rest with
  | nil =>
    rw [List.map_nil, run, hfinish, hexpected]
    rfl
  | cons lexeme rest =>
    have hstep : step ⟨done, next⟩ lexeme.token = none :=
      Option.not_isSome_iff_eq_none.1 fun hsome => h (meets_cons.2 ((step_isSome _ _).1 hsome))
    rw [List.map_cons, run, hstep, hexpected]
    rfl

end Parser

namespace Descent

open Matcher Monomorph.Surface.Parser

variable {lexemes rest : List Lexeme} {m : Option Missing}

/-! ## Items -/

theorem item_of_none (h : definition lexemes = ⟨none, m⟩) : item lexemes = ⟨none, m⟩ := by
  have hspanned : spanned definition lexemes = ⟨none, m⟩ := by rw [spanned, h]
  exact bind_of_none hspanned _

theorem item_of_some {d : TypeDef} (h : definition lexemes = ⟨some (d, rest), m⟩) :
    item lexemes = ⟨some (⟨d, Source.spanOf (lexemes.take (lexemes.length - rest.length))⟩, rest), m⟩ := by
  have hspanned : spanned definition lexemes =
      ⟨some ((d, Source.spanOf (lexemes.take (lexemes.length - rest.length))), rest), m⟩ := by rw [spanned, h]
  rw [item, bind_of_some hspanned]
  simp [pure_apply, Outcome.after]

theorem file_of_none (h : item lexemes = ⟨none, m⟩) :
    file lexemes = ((endOfInput lexemes).map fun _ => []).after m := by
  rw [file, bind_of_some (repeated_of_none h), map_apply]

theorem file_of_some {i : Item} (h : item lexemes = ⟨some (i, rest), m⟩) :
    file lexemes =
      if rest.length < lexemes.length then ((file rest).map (i :: ·)).after m else ⟨none, m⟩ := by
  split
  case isTrue hlt =>
    have hrepeated := repeated_of_some h hlt
    rcases hrest : repeated item rest with ⟨_ | ⟨items, stop⟩, n⟩
    · rw [hrest] at hrepeated
      rw [file, bind_of_none hrest, bind_of_none hrepeated]
      rfl
    · rw [hrest] at hrepeated
      rw [file, bind_of_some hrest, bind_of_some hrepeated, map_apply, map_apply]
      simp [Outcome.after, Outcome.map, merge_assoc, Function.comp_def]
  case isFalse hlt => rw [file, bind_of_none (repeated_of_not_lt h hlt)]

theorem starts_item (n : Nat) : item.Starts n [.mark .type] none := by
  intro lexemes hlt hmeets
  obtain ⟨m, hd, hnotes⟩ := starts_definition n lexemes hlt hmeets
  exact ⟨m, item_of_none hd, hnotes⟩

/-- Where the input goes on without a definition, the file is refused there. -/
theorem file_of_not_meets {lexeme : Lexeme} (h : ¬ Meets [.mark .type] (lexeme :: rest)) :
    ∃ m, file (lexeme :: rest) = ⟨none, merge m (some ⟨rest.length + 1, [.endOfInput]⟩)⟩ ∧
      Notes m (rest.length + 1) [.mark .type] := by
  obtain ⟨m, hi, hnotes⟩ := starts_item (rest.length + 2) (lexeme :: rest) (Nat.lt_succ_self _) h
  exact ⟨m, file_of_none hi, hnotes⟩

/-- Where the matcher for definitions gets stuck, so does that for files. -/
theorem file_of_stuck {back : List Lexeme} {kinds : List TokenKind} (hlt : back.length < lexemes.length)
    (hnotes : Notes (definition lexemes).missing back.length kinds)
    (hback : ∀ d stop, (definition lexemes).result = some (d, stop) →
      back.length < stop.length ∧ stop.length ≤ lexemes.length ∧ Meets suffixKinds stop) :
    (file lexemes).result = none ∧ Notes (file lexemes).missing back.length kinds := by
  -- What is tried further back adds nothing to the record.
  have hadd : ∀ {m n : Option Missing}, Notes m back.length kinds → Notes n back.length [] →
      Notes (merge m n) back.length kinds := fun h h' => by simpa using h.merge h'
  have hend : ∀ lexeme rest, back.length < rest.length + 1 →
      Notes (endOfInput (lexeme :: rest)).missing back.length [] := fun _ _ hlt => Or.inl ⟨hlt, rfl⟩
  rcases hd : definition lexemes with ⟨_ | ⟨d, stop⟩, m⟩
  · rw [hd] at hnotes
    obtain ⟨lexeme, rest, rfl⟩ := List.exists_cons_of_length_pos (Nat.zero_lt_of_lt hlt)
    rw [file_of_none (item_of_none hd)]
    exact ⟨rfl, hadd hnotes (hend lexeme rest hlt)⟩
  · rw [hd] at hnotes
    obtain ⟨hstop, -, hmeets⟩ := hback d stop (by rw [hd])
    rw [file_of_some (item_of_some hd)]
    split
    · -- The file would go on with a name or an annotation.
      obtain ⟨lexeme, rest, rfl, -⟩ := hmeets.exists_cons
      obtain ⟨n, hfile, hn⟩ := file_of_not_meets (hmeets.not (by decide))
      rw [hfile]
      exact ⟨rfl, hadd hnotes ((hn.of_lt hstop).merge (hend lexeme rest hstop))⟩
    · exact ⟨rfl, hnotes⟩

/-! ## Files -/

/-- A matcher for files and the reader of files return the same: the items of the definitions that come after
`before`, or an error at the same place. -/
def Agrees (lexemes : List Lexeme) (index : Nat) (before : List Def) (o : Outcome (List Item)) :
    Except SyntaxError (List Def) → Prop
  | .ok defs => ∃ more, defs = before ++ more ∧ o.result = some (Source.locate more lexemes, [])
  | .error error => o.result = none ∧ ∃ front back, lexemes = front ++ back ∧
      o.missing = some ⟨back.length, error.expected⟩ ∧ error.index = index + front.length ∧
        error.found = back.head?.map Lexeme.token

section Files

variable {state : State} {before : List Def} {pending : List TokenKind}

/-- Where there is no further definition, the file ends, or all that was tried is reported. -/
theorem agrees_of_not_meets (hfinish : state.finish? = some before)
    (hexpected : state.place.expected = join pending [.mark .type]) (hpending : ¬ Meets pending lexemes)
    (htype : ¬ Meets [.mark .type] lexemes) (hm : Notes m lexemes.length pending) (index : Nat) :
    Agrees lexemes index before ((file lexemes).after m) (run state index (lexemes.map Lexeme.token)) := by
  cases lexemes with
  | nil =>
    obtain ⟨m', hi, -⟩ := starts_item 1 [] Nat.one_pos htype
    rw [List.map_nil, run, hfinish, file_of_none hi]
    exact ⟨[], (List.append_nil before).symm, rfl⟩
  | cons lexeme rest =>
    obtain ⟨m', hfile, hm'⟩ := file_of_not_meets htype
    have hnone : step state lexeme.token = none := by
      refine Option.not_isSome_iff_eq_none.1 fun hsome => ?_
      rw [step_isSome, hexpected, ← meets_cons, meets_join] at hsome
      exact hsome.elim hpending htype
    have hnotes := (hm.merge hm').eq_some (hexpected ▸ expected_ne_nil _)
    have hall : state.expected = join (state.place.expected.map .kind) [.endOfInput] := by
      simp [State.expected, hfinish, join]
    rw [List.map_cons, run, hnone, hfile]
    refine ⟨rfl, [], lexeme :: rest, rfl, ?_, rfl, rfl⟩
    rw [Outcome.after, ← merge_assoc, hnotes, hall, hexpected]
    simp [merge]

/-- Where both get stuck, they report the same. -/
theorem agrees_of_stuck {front back : List Lexeme} {next : Place}
    (hfinish : state.finish? = some before) (hm : Notes m lexemes.length pending)
    (hsplit : lexemes = front ++ back) (hne : front ≠ [])
    (hread : read .file (front.map Lexeme.token) = some next) (hcomplete : next.complete? = none)
    (hrefused : ¬ Meets next.expected back) (hfile : (file lexemes).result = none)
    (hnotes : Notes (file lexemes).missing back.length next.expected) (index : Nat) :
    Agrees lexemes index before ((file lexemes).after m) (run state index (lexemes.map Lexeme.token)) := by
  obtain ⟨done, -, hrun⟩ := run_of_read_file hfinish hread (by simpa using hne)
  have hplace : next ≠ .file := by
    rintro rfl
    have htokens := tokens_of_read hread
    simp [Place.tokens, hne] at htokens
  have hmissing := (hm.merge_right hnotes (length_lt_of_split hsplit hne)).eq_some (expected_ne_nil next)
  rw [hsplit, List.map_append, hrun, run_of_not_meets hcomplete hplace hrefused, ← hsplit]
  exact ⟨hfile, front, back, hsplit, hmissing, by rw [List.length_map], rfl⟩

/-- One more definition before. -/
theorem Agrees.cons {own : List Lexeme} {d : Def} {o : Outcome (List Item)}
    {r : Except SyntaxError (List Def)} {index : Nat} (hown : own.map Lexeme.token = d.tokens)
    (hne : own ≠ []) (hm : Notes m (own ++ rest).length pending)
    (h : Agrees rest (index + own.length) (before ++ [d]) o r) :
    Agrees (own ++ rest) index before ((o.map (⟨d.meaning, Source.spanOf own⟩ :: ·)).after m) r := by
  cases r with
  | ok defs =>
    obtain ⟨more, rfl, hitems⟩ := h
    refine ⟨d :: more, by simp, ?_⟩
    rw [Source.locate_cons hown]
    simp [Outcome.after, Outcome.map, hitems]
  | error error =>
    obtain ⟨hnone, front, back, rfl, hmissing, hindex, hfound⟩ := h
    have hback : back.length < (own ++ (front ++ back)).length :=
      Nat.lt_of_le_of_lt (by simp) (length_lt_of_split rfl hne)
    refine ⟨?_, own ++ front, back, (List.append_assoc ..).symm, ?_, ?_, hfound⟩
    · simp [Outcome.after, Outcome.map, hnone]
    · rw [← hm.merge_some hback, ← hmissing]
      rfl
    · rw [hindex, List.length_append, Nat.add_assoc]

/-- Where a definition is read, the rest of the file decides. -/
theorem agrees_of_done {own : List Lexeme} {next : Place} {tried : List TokenKind} {d : TypeDef}
    (hfinish : state.finish? = some before) (hm : Notes m lexemes.length pending)
    (hsplit : lexemes = own ++ rest) (hne : own ≠ []) (hread : read .file (own.map Lexeme.token) = some next)
    (hresult : (definition lexemes).result = some (d, rest)) (hgoal : AfterDefinition d next tried)
    (hrest : ∀ {state : State} {before : List Def}, state.finish? = some before → state.place = next →
      ∀ index, Agrees rest index before ((file rest).after (definition lexemes).missing)
        (run state index (rest.map Lexeme.token))) (index : Nat) :
    Agrees lexemes index before ((file lexemes).after m) (run state index (lexemes.map Lexeme.token)) := by
  obtain ⟨head, body, rfl, rfl, -⟩ := hgoal
  obtain ⟨done, rfl, hrun⟩ := run_of_read_file hfinish hread (by simpa using hne)
  have hnext := hrest (finish?_of_complete? done rfl) rfl (index + own.length)
  rcases hd : definition lexemes with ⟨r, m'⟩
  rw [hd] at hresult hnext
  obtain rfl : r = some ((head.define body).meaning, rest) := hresult
  have htake : lexemes.take (lexemes.length - rest.length) = own := by simp [hsplit]
  rw [file_of_some (item_of_some hd), if_pos (length_lt_of_split hsplit hne), htake]
  subst hsplit
  rw [List.map_append, hrun, List.length_map]
  rw [List.reverse_cons] at hnext
  exact hnext.cons (tokens_define_of_read hread) hne hm

/-- The matcher for files agrees with the reader from wherever a file may end. -/
theorem agrees (lexemes : List Lexeme) (hfinish : state.finish? = some before)
    (hexpected : state.place.expected = join pending [.mark .type]) (hpending : ¬ Meets pending lexemes)
    (hm : Notes m lexemes.length pending) (index : Nat) :
    Agrees lexemes index before ((file lexemes).after m) (run state index (lexemes.map Lexeme.token)) := by
  induction hlength : lexemes.length using Nat.strongRecOn
    generalizing lexemes state before pending m index with
  | ind length ih =>
    subst hlength
    by_cases htype : Meets [.mark .type] lexemes
    · cases leads_definition (lexemes.length + 1) lexemes (Nat.lt_succ_self _) htype with
      | stuck split progress reading incomplete notes refused back =>
        obtain ⟨hfile, hmissing⟩ := file_of_stuck (length_lt_of_split split progress) notes back
        exact agrees_of_stuck hfinish hm split progress reading incomplete refused hfile hmissing index
      | done split progress result reading reached notes refused =>
        refine agrees_of_done hfinish hm split progress reading result reached ?_ index
        intro state before hfinish hplace index
        obtain ⟨head, body, rfl, -, rfl⟩ := reached
        exact ih _ (length_lt_of_split split progress) _ hfinish (by rw [hplace]; rfl) refused notes index rfl
    · exact agrees_of_not_meets hfinish hexpected hpending htype hm index

end Files

/-- Recursive descent returns the items of the definitions that the reader finds, each with the place of its
own tokens, or the same error. -/
theorem parse_eq (lexemes : List Lexeme) :
    parse lexemes = (Surface.parse (lexemes.map Lexeme.token)).map (Source.locate · lexemes) := by
  have hagrees : Agrees lexemes 0 [] (file lexemes) (Surface.parse (lexemes.map Lexeme.token)) := by
    have hfinish : State.start.finish? = some [] := rfl
    have hexpected : State.start.place.expected = join [] [.mark .type] := rfl
    have hstart := agrees lexemes hfinish hexpected not_meets_nil (notes_none _) 0
    rwa [Outcome.after_none] at hstart
  rcases hfile : file lexemes with ⟨r, m⟩
  rw [hfile] at hagrees
  cases hparse : Surface.parse (lexemes.map Lexeme.token) with
  | ok defs =>
    rw [hparse] at hagrees
    obtain ⟨more, hmore, hresult⟩ := hagrees
    obtain rfl : defs = more := hmore
    obtain rfl : r = some (Source.locate defs lexemes, []) := hresult
    rw [parse, hfile]
    rfl
  | error error =>
    rw [hparse] at hagrees
    obtain ⟨hresult, front, back, rfl, hmissing, hindex, hfound⟩ := hagrees
    obtain rfl : r = none := hresult
    obtain rfl : m = some ⟨back.length, error.expected⟩ := hmissing
    have hfirst : (front ++ back)[front.length]? = back.head? := by
      rw [List.getElem?_append_right (Nat.le_refl _), Nat.sub_self, List.head?_eq_getElem?]
    obtain ⟨index, found, expected⟩ := error
    obtain rfl : index = front.length := hindex.trans (Nat.zero_add _)
    obtain rfl : found = back.head?.map Lexeme.token := hfound
    rw [parse, hfile]
    simp [Except.map, hfirst]

end Descent

/-- Reading a source text by recursive descent gives the same definitions, places and errors. -/
theorem parse_eq_parseSource (source : String) : Source.parse source = Descent.parseSource source := by
  have hparse := Descent.parse_eq (Lexed.ofSource source).lexemes
  rw [Source.parse, Descent.parseSource, hparse, Lexed.tokens]
  cases Surface.parse ((Lexed.ofSource source).lexemes.map Lexeme.token) <;> rfl

end Monomorph.Surface
