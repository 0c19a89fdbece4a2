import Monomorph.Proofs.Surface.Soundness
import Monomorph.Source

/-!
# What may come next

No state of the reader is a dead end: whatever forms are open, there are tokens that close them, so all
that has been read is the beginning of a file. The reader therefore stops at the first token that no
file goes on with, and what it expects there is exactly what a file can go on with.

`Parser.exists_run_eq_ok` closes the open forms, innermost first; `Parser.step_isSome` says that a step takes
exactly the tokens of the expected kinds.
-/

namespace Monomorph

namespace Surface

namespace Parser

/-! ## No dead ends -/

/-- Some tokens lead from a place to the end of a definition. -/
def Place.Completable (place : Place) : Prop :=
  ∃ tokens next d, read place tokens = some next ∧ next.complete? = some d

theorem Place.Completable.of_step {place next : Place} (token : Token)
    (hstep : stepPlace place token = some next) (h : next.Completable) : place.Completable := by
  obtain ⟨tokens, last, d, hread, hlast⟩ := h
  refine ⟨token :: tokens, last, d, ?_, hlast⟩
  rw [read_cons, hstep, Option.bind_some, hread]

/-- After an expression, the forms around it can be closed one after the other. -/
theorem completable_operator (context : Context) (e : Expr) :
    (Place.operator context e).Completable := by
  obtain ⟨head, frames⟩ := context
  induction frames generalizing e with
  | nil => exact ⟨[], _, _, rfl, rfl⟩
  | cons frame frames ih =>
    cases frame with
    | payload lead before tag => exact .of_step (.mark .rightBracket) rfl (ih _)
    | field before label => exact .of_step (.mark .rightBrace) rfl (ih _)
    | inherited before => exact .of_step (.mark .rightBrace) rfl (ih _)
    | first => exact .of_step (.mark .rightParen) rfl (ih _)
    | product first rest => exact .of_step (.mark .rightParen) rfl (ih _)
    | arguments first middle =>
      exact .of_step (.mark .rightParen) rfl (.of_step (.ident "t") rfl (ih _))

theorem completable_operand (context : Context) : (Place.operand context).Completable :=
  .of_step (.ident "t") rfl (completable_operator context _)

theorem completable_head (head : Head) : (Place.head head).Completable :=
  .of_step (.mark .equals) rfl (completable_operand _)

theorem completable_name (params : Params) : (Place.name params).Completable :=
  .of_step (.ident "t") rfl (completable_head _)

theorem stepPlace_headGroup (head : Head) (g : OpenGroup) (token : Token) :
    stepPlace (.headGroup head g) token =
      (g.step token).map (Sum.elim (.headGroup head) fun closed => .head (head.annotate closed)) := by
  rw [stepPlace]
  rcases g.step token with _ | _ | _ <;> rfl

theorem stepPlace_exprGroup (context : Context) (e : Expr) (g : OpenGroup) (token : Token) :
    stepPlace (.exprGroup context e g) token =
      (g.step token).map
        (Sum.elim (.exprGroup context e) fun closed => .operator context (.annotated e closed)) := by
  rw [stepPlace]
  rcases g.step token with _ | _ | _ <;> rfl

/-- An open group can be closed wherever it stands. -/
theorem completable_group {still : OpenGroup → Place} {close : Group → Place}
    (hstep : ∀ g token, stepPlace (still g) token = (OpenGroup.step g token).map (Sum.elim still close))
    (hclose : ∀ g, (close g).Completable) (g : OpenGroup) : (still g).Completable := by
  have hkey : ∀ name before key, (still (.key name before key)).Completable := fun _ _ _ =>
    .of_step (.mark .greater) (hstep _ _) (hclose _)
  have hvalued : ∀ name before last, (still (.valued name before last)).Completable := fun _ _ _ =>
    .of_step (.mark .greater) (hstep _ _) (hclose _)
  have hnamed : ∀ name, (still (.named name)).Completable := fun _ =>
    .of_step (.ident "k") (hstep _ _) (hkey _ _ _)
  cases g with
  | bracket => exact .of_step (.ident "g") (hstep _ _) (hnamed _)
  | named name => exact hnamed name
  | key name before key => exact hkey name before key
  | valueOf name before key => exact .of_step (.text "") (hstep _ _) (hvalued _ _ _)
  | valued name before last => exact hvalued name before last

/-- Every place inside a definition leads to its end. -/
theorem completable {place : Place} (h : place ≠ .file) : place.Completable := by
  cases place with
  | file => exact absurd rfl h
  | params => exact .of_step (.ident "t") rfl (completable_head _)
  | firstParam =>
    exact .of_step (.var "a") rfl (.of_step (.mark .rightParen) rfl (completable_name _))
  | nextParam first rest =>
    exact .of_step (.var "a") rfl (.of_step (.mark .rightParen) rfl (completable_name _))
  | afterParam first rest => exact .of_step (.mark .rightParen) rfl (completable_name _)
  | name params => exact completable_name params
  | head head => exact completable_head head
  | headGroup head g =>
    exact completable_group (stepPlace_headGroup head) (fun _ => completable_head _) g
  | operand context => exact completable_operand context
  | operator context e => exact completable_operator context e
  | exprGroup context e g =>
    exact completable_group (stepPlace_exprGroup context e) (fun _ => completable_operator _ _) g
  | sum context => exact .of_step (.mark .rightBracket) rfl (completable_operator _ _)
  | bar context lead before =>
    exact .of_step (.ident "T") rfl (.of_step (.mark .rightBracket) rfl (completable_operator _ _))
  | tag context lead before tag =>
    exact .of_step (.mark .rightBracket) rfl (completable_operator _ _)
  | line context before => exact .of_step (.mark .rightBrace) rfl (completable_operator _ _)
  | label context before label => exact .of_step (.mark .colon) rfl (completable_operand _)
  | applied context first middle last => exact .of_step (.ident "t") rfl (completable_operator _ _)

theorem finish?_of_complete? (done : List Def) {place : Place} {d : Def} (h : place.complete? = some d) :
    (State.mk done place).finish? = some (d :: done).reverse := by
  obtain ⟨head, body, rfl, rfl⟩ := Place.complete?_eq_some.1 h
  rfl

/-- Whatever has been read, a file begins with it. -/
theorem exists_run_eq_ok (state : State) :
    ∃ rest, ∀ index, ∃ defs, run state index rest = .ok defs := by
  obtain ⟨done, place⟩ := state
  by_cases h : place = .file
  · subst h
    exact ⟨[], fun _ => ⟨done.reverse, rfl⟩⟩
  · obtain ⟨tokens, next, d, hread, hnext⟩ := completable h
    refine ⟨tokens, fun index => ⟨(d :: done).reverse, ?_⟩⟩
    have hrun := @run_of_read done _ _ _ hread index []
    rw [List.append_nil] at hrun
    rw [hrun, run, finish?_of_complete? done hnext]

/-! ## Runs -/

/-- The state after some tokens. -/
def advance (state : State) (tokens : List Token) : Option State := tokens.foldlM step state

theorem advance_append (state : State) (tokens rest : List Token) :
    advance state (tokens ++ rest) = (advance state tokens).bind (advance · rest) :=
  List.foldlM_append

theorem advance_singleton (state : State) (token : Token) :
    advance state [token] = step state token := by
  simp [advance]

/-- A list of tokens is read by reading a first part and then the rest. -/
theorem run_append {state next : State} {tokens : List Token} (h : advance state tokens = some next)
    (index : Nat) (rest : List Token) :
    run state index (tokens ++ rest) = run next (index + tokens.length) rest := by
  induction tokens generalizing state index with
  | nil =>
    cases h
    rfl
  | cons token tokens ih =>
    obtain ⟨middle, hstep, hadvance⟩ := Option.bind_eq_some_iff.1 h
    rw [List.cons_append, run, hstep]
    simp only [ih hadvance, List.length_cons]
    congr 1
    omega

/-- A file is read without an error only if every part of it is. -/
theorem exists_advance_of_run {state : State} {index : Nat} {tokens rest : List Token} {defs : List Def}
    (h : run state index (tokens ++ rest) = .ok defs) : ∃ next, advance state tokens = some next := by
  induction tokens generalizing state index with
  | nil => exact ⟨state, rfl⟩
  | cons token tokens ih =>
    rw [List.cons_append, run] at h
    split at h
    · next middle hstep =>
      obtain ⟨next, hnext⟩ := ih h
      exact ⟨next, Option.bind_eq_some_iff.2 ⟨middle, hstep, hnext⟩⟩
    · cases h

/-- The reader stops in the state before the token of its error. -/
theorem exists_advance_of_error {state : State} {index : Nat} {tokens : List Token} {e : SyntaxError}
    (h : run state index tokens = .error e) :
    ∃ before after next, tokens = before ++ after ∧ advance state before = some next ∧
      e = ⟨index + before.length, after.head?, next.expected⟩ ∧
        match after with
        | [] => next.finish? = none
        | token :: _ => step next token = none := by
  induction tokens generalizing state index with
  | nil =>
    rw [run] at h
    split at h
    · cases h
    · next hfinish => exact ⟨[], [], state, rfl, rfl, (Except.error.inj h).symm, hfinish⟩
  | cons token rest ih =>
    rw [run] at h
    split at h
    · next middle hstep =>
      obtain ⟨before, after, next, rfl, hadvance, rfl, hstop⟩ := ih h
      refine ⟨token :: before, after, next, rfl, Option.bind_eq_some_iff.2 ⟨middle, hstep, hadvance⟩,
        ?_, hstop⟩
      rw [List.length_cons, Nat.add_right_comm, Nat.add_assoc]
    · next hstep => exact ⟨[], token :: rest, state, rfl, rfl, (Except.error.inj h).symm, hstep⟩

/-! ## Expectations -/

theorem groupStep_isSome (g : OpenGroup) (token : Token) :
    (g.step token).isSome ↔ token.kind ∈ g.expected := by
  cases g <;> rcases token with m | _ | _ | _ <;>
    first
    | (cases m <;> simp [OpenGroup.step, OpenGroup.expected, Token.kind])
    | simp [OpenGroup.step, OpenGroup.expected, Token.kind]

theorem stepFrame_isSome (outer : Context) (e : Expr) (frame : Frame) (mark : Mark) :
    (stepFrame outer e frame mark).isSome ↔ mark ∈ frame.closing := by
  cases frame <;> cases mark <;> simp [stepFrame, Frame.closing]

/-- After an expression, a step takes what goes on with it, what closes the innermost form or, outside of
all forms, what starts the next definition. -/
theorem step_operator_isSome (done : List Def) (context : Context) (e : Expr) (token : Token) :
    (step ⟨done, .operator context e⟩ token).isSome ↔
      token.kind ∈ (Place.operator context e).expected := by
  obtain ⟨head, frames⟩ := context
  cases frames with
  | nil =>
    rcases token with m | _ | _ | _
    · cases m <;> simp [step, stepPlace, Place.complete?, Place.expected, Token.kind]
    all_goals simp [step, stepPlace, Place.complete?, Place.expected, Token.kind]
  | cons frame frames =>
    have hcomplete : (Place.operator ⟨head, frame :: frames⟩ e).complete? = none := rfl
    rcases token with m | _ | _ | _
    · by_cases hless : m = .less
      · subst hless
        simp [step, stepPlace, hcomplete, Place.expected, Token.kind]
      · have hstep : stepPlace (.operator ⟨head, frame :: frames⟩ e) (.mark m) =
            stepFrame ⟨head, frames⟩ e frame m := by
          cases m <;> first | rfl | exact absurd rfl hless
        simp [step, hcomplete, hstep, stepFrame_isSome, Place.expected, Token.kind, hless]
    all_goals simp [step, stepPlace, hcomplete, Place.expected, Token.kind]

/-- Inside a definition, a step takes exactly the tokens of the kinds that are expected. -/
theorem step_isSome (state : State) (token : Token) :
    (step state token).isSome ↔ token.kind ∈ state.place.expected := by
  obtain ⟨done, place⟩ := state
  cases place with
  | operator context e => exact step_operator_isSome done context e token
  | headGroup head g =>
    simp [step, Place.complete?, stepPlace_headGroup, groupStep_isSome, Place.expected]
  | exprGroup context e g =>
    simp [step, Place.complete?, stepPlace_exprGroup, groupStep_isSome, Place.expected]
  | bar context lead before =>
    cases before <;> rcases token with m | _ | _ | _ <;>
      first
      | (cases m <;> simp [step, stepPlace, Place.complete?, Place.expected, Token.kind])
      | simp [step, stepPlace, Place.complete?, Place.expected, Token.kind]
  | _ =>
    rcases token with m | _ | _ | _ <;>
      first
      | (cases m <;> simp [step, stepPlace, Place.complete?, Place.expected, Token.kind])
      | simp [step, stepPlace, Place.complete?, Place.expected, Token.kind]

/-! ## Names of expectations -/

/-- No two expectations in a place have the same name. -/
theorem nodup_expectedKind (place : Place) : (place.expected.map Source.expectedKind).Nodup := by
  have hgroup : ∀ g : OpenGroup, (g.expected.map Source.expectedKind).Nodup := by
    intro g
    cases g <;> simp only [OpenGroup.expected] <;> decide
  cases place with
  | headGroup head g => exact hgroup g
  | exprGroup context e g => exact hgroup g
  | operator context e =>
    obtain ⟨head, _ | ⟨frame, frames⟩⟩ := context
    · simp only [Place.expected]
      decide
    · cases frame <;> simp only [Place.expected, Frame.closing] <;> decide
  | bar context lead before => cases before <;> simp only [Place.expected] <;> decide
  | _ => simp only [Place.expected]; decide

theorem expectedKind_ne (kind : TokenKind) : Source.expectedKind kind ≠ "end of input" := by
  cases kind with
  | mark m => cases m <;> decide
  | _ => decide

theorem nodup_expectation (state : State) : (state.expected.map Source.expectation).Nodup := by
  have hkinds : state.place.expected.map (Source.expectation ∘ .kind) =
      state.place.expected.map Source.expectedKind := rfl
  rw [State.expected, List.map_append, List.map_map, hkinds]
  refine List.nodup_append.2 ⟨nodup_expectedKind state.place, ?_, ?_⟩
  · split <;> simp
  · intro name hname other hother heq
    obtain ⟨kind, _, rfl⟩ := List.mem_map.1 hname
    have hend : other = "end of input" := by
      split at hother <;> simp_all [Source.expectation]
    exact expectedKind_ne kind (heq.trans hend)

end Parser

/-! ## Files -/

/-- A file has exactly these tokens. -/
def Parses (tokens : List Token) : Prop := ∃ defs, parse tokens = .ok defs

/-- What may come after some tokens in a file. -/
def Follows (tokens : List Token) : Expectation → Prop
  | .kind kind => ∃ token rest, token.kind = kind ∧ Parses (tokens ++ token :: rest)
  | .endOfInput => Parses tokens

section Files

variable {tokens : List Token} {state : Parser.State}

theorem exists_advance (h : Parses tokens) {before rest : List Token} (heq : before ++ rest = tokens) :
    ∃ state, Parser.advance .start before = some state := by
  obtain ⟨defs, hdefs⟩ := h
  exact Parser.exists_advance_of_run (heq ▸ hdefs)

theorem exists_parses (h : Parser.advance .start tokens = some state) :
    ∃ rest, Parses (tokens ++ rest) := by
  obtain ⟨rest, hrest⟩ := Parser.exists_run_eq_ok state
  obtain ⟨defs, hdefs⟩ := hrest (0 + tokens.length)
  exact ⟨rest, defs, (Parser.run_append h 0 rest).trans hdefs⟩

theorem parses_iff (h : Parser.advance .start tokens = some state) :
    Parses tokens ↔ state.finish?.isSome := by
  have hrun := Parser.run_append h 0 []
  rw [List.append_nil, Parser.run] at hrun
  unfold Parses parse
  rw [hrun]
  cases state.finish? <;> simp

theorem exists_parses_cons (h : Parser.advance .start tokens = some state) (token : Token) :
    (∃ rest, Parses (tokens ++ token :: rest)) ↔ (Parser.step state token).isSome := by
  have hcons : ∀ rest, tokens ++ token :: rest = (tokens ++ [token]) ++ rest := by simp
  have hadvance : Parser.advance .start (tokens ++ [token]) = Parser.step state token := by
    rw [Parser.advance_append, h, Option.bind_some, Parser.advance_singleton]
  constructor
  · rintro ⟨rest, hrest⟩
    obtain ⟨next, hnext⟩ := exists_advance hrest (hcons rest).symm
    rw [← hadvance, hnext]
    rfl
  · intro hstep
    obtain ⟨next, hnext⟩ := Option.isSome_iff_exists.1 hstep
    obtain ⟨rest, hrest⟩ := exists_parses (hadvance.trans hnext)
    exact ⟨rest, (hcons rest).symm ▸ hrest⟩

/-- A state expects what may follow the tokens that lead to it. -/
theorem mem_expected_iff (h : Parser.advance .start tokens = some state) (x : Expectation) :
    x ∈ state.expected ↔ Follows tokens x := by
  cases x with
  | kind kind =>
    have hmem : .kind kind ∈ state.expected ↔ kind ∈ state.place.expected := by
      simp [Parser.State.expected]
    have htoken : ∃ token : Token, token.kind = kind := by
      cases kind with
      | mark m => exact ⟨.mark m, rfl⟩
      | var => exact ⟨.var "", rfl⟩
      | text => exact ⟨.text "", rfl⟩
      | ident => exact ⟨.ident "", rfl⟩
    rw [hmem]
    constructor
    · intro hkind
      obtain ⟨token, rfl⟩ := htoken
      obtain ⟨rest, hrest⟩ :=
        (exists_parses_cons h token).2 ((Parser.step_isSome state token).2 hkind)
      exact ⟨token, rest, rfl, hrest⟩
    · rintro ⟨token, rest, rfl, hrest⟩
      exact (Parser.step_isSome state token).1 ((exists_parses_cons h token).1 ⟨rest, hrest⟩)
  | endOfInput => simp [Parser.State.expected, Follows, parses_iff h]

/-- The error of a list of tokens that is no file: it is at the first token that no file goes on with. -/
theorem exists_error (h : ¬ Parses tokens) :
    ∃ k expected, parse tokens = .error ⟨k, tokens[k]?, expected⟩ ∧ k ≤ tokens.length ∧
      (∃ rest, Parses (tokens.take k ++ rest)) ∧
      (k < tokens.length → ∀ rest, ¬ Parses (tokens.take (k + 1) ++ rest)) ∧
      (expected.map Source.expectation).Nodup ∧
      ∀ x, x ∈ expected ↔ Follows (tokens.take k) x := by
  cases hparse : parse tokens with
  | ok defs => exact absurd ⟨defs, hparse⟩ h
  | error e =>
    obtain ⟨before, after, next, rfl, hadvance, rfl, hstop⟩ := Parser.exists_advance_of_error hparse
    refine ⟨before.length, next.expected, ?_, ?_, ?_, ?_, ?_, ?_⟩
    · rw [List.getElem?_append_right (Nat.le_refl _), Nat.sub_self, Nat.zero_add,
        List.head?_eq_getElem?]
    · simp
    · rw [List.take_left]
      exact exists_parses hadvance
    · intro hlength rest hrest
      cases after with
      | nil => simp at hlength
      | cons token after =>
        rw [List.take_append, List.take_of_length_le (Nat.le_succ _), Nat.add_sub_cancel_left,
          List.take_one, List.head?_cons, Option.toList_some, List.append_assoc] at hrest
        have hstep := (exists_parses_cons hadvance token).1 ⟨rest, hrest⟩
        rw [hstop] at hstep
        cases hstep
    · exact Parser.nodup_expectation next
    · rw [List.take_left]
      exact mem_expected_iff hadvance

end Files

end Surface

namespace Source

open Surface

/-- A variable and a quoted text have no name in a message, and all else has one. -/
theorem expectation_eq_unnamed (x : Expectation) :
    expectation x = "something else" ↔ x = .kind .var ∨ x = .kind .text := by
  cases x with
  | endOfInput => decide
  | kind kind =>
    cases kind with
    | mark m => cases m <;> decide
    | _ => decide

/-- Tokens that are no file give exactly one syntax error, and no definitions. It stands at the first
token that no file goes on with, or at the end of the text if there is no such token, and it lists, each
once, what may come there, with no name for variables and quoted texts. -/
theorem parse_eq_error {source : String} (h : ¬ Parses (Lexed.ofSource source).tokens) :
    ∃ k expected d, (parse source).items? = none ∧
      (parse source).diagnostics = (Lexed.ofSource source).unmatched.map
        (fun u => diagnostic u.span (unmatchedMessage u)) ++ [d] ∧
      d = diagnostic (((Lexed.ofSource source).lexemes[k]?.map Lexeme.span).getD
          ⟨source.utf8ByteSize, source.utf8ByteSize⟩)
        (syntaxMessage ⟨k, (Lexed.ofSource source).tokens[k]?, expected⟩) ∧
      k ≤ (Lexed.ofSource source).tokens.length ∧
      (∃ rest, Parses ((Lexed.ofSource source).tokens.take k ++ rest)) ∧
      (k < (Lexed.ofSource source).tokens.length →
        ∀ rest, ¬ Parses ((Lexed.ofSource source).tokens.take (k + 1) ++ rest)) ∧
      (expected.map expectation).Nodup ∧
      (∀ x, x ∈ expected ↔ Follows ((Lexed.ofSource source).tokens.take k) x) ∧
      ∀ x, expectation x = "something else" ↔ x = .kind .var ∨ x = .kind .text := by
  obtain ⟨k, expected, hparse, hle, hrest, hstop, hnodup, hexpected⟩ := exists_error h
  refine ⟨k, expected, _, ?_, ?_, rfl, hle, hrest, hstop, hnodup, hexpected, expectation_eq_unnamed⟩
  · simp only [parse, Parsed.items?, hparse]
  · simp only [parse, Parsed.diagnostics, hparse, spanAt]
    cases (Lexed.ofSource source).lexemes[k]? <;> rfl

/-- A sign that is no token, and arguments that a semicolon breaks off. -/
def brokenOff : String := "type t = ('a, ? 'b; c) pair"

/-- Beside the sign, the semicolon is reported. -/
theorem parse_eq_error_brokenOff : ¬ Parses (Lexed.ofSource brokenOff).tokens ∧
    ∃ (k : Nat) (expected : List Expectation) (d : Diagnostic), (parse brokenOff).items? = none ∧
      (parse brokenOff).diagnostics.map Diagnostic.message = ["unexpected character: \"?\"", d.message] ∧
      d.message = "found ';' expected '<ident>', '<', ',', or ')'" ∧
      (∃ rest, Parses ((Lexed.ofSource brokenOff).tokens.take k ++ rest)) ∧
      ∀ x, x ∈ expected ↔ Follows ((Lexed.ofSource brokenOff).tokens.take k) x := by
  have hnone : ¬ Parses (Lexed.ofSource brokenOff).tokens := by
    rintro ⟨defs, hdefs⟩
    have hfailed : (parse brokenOff).items? = none := by decide +kernel
    simp only [parse, Parsed.items?, hdefs] at hfailed
    cases hfailed
  have hmessages : (parse brokenOff).diagnostics.map Diagnostic.message =
      ["unexpected character: \"?\"", "found ';' expected '<ident>', '<', ',', or ')'"] := by
    decide +kernel
  obtain ⟨k, expected, d, hitems, hdiagnostics, _, _, hrest, _, _, hexpected, _⟩ := parse_eq_error hnone
  have hmessage : d.message = "found ';' expected '<ident>', '<', ',', or ')'" := by
    have hlast := congrArg List.getLast? hmessages
    simpa [hdiagnostics] using hlast
  exact ⟨hnone, k, expected, d, hitems, hmessage ▸ hmessages, hmessage, hrest, hexpected⟩

end Source

end Monomorph
