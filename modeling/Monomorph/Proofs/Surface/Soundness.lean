import Monomorph.Proofs.Surface.Reading

/-!
# What the reader has read

Every place in the grammar stands for the tokens that have led there: `Place.tokens` spells out the
finished parts of all forms that are open. One step adds its token to them, so a list of definitions
is only returned for its own tokens.

With `parse_tokens`, the reader accepts exactly the derivations of the grammar; `parse_eq_ok` is the
equivalence.
-/

namespace Monomorph.Surface

/-- Parts with a separator between every two: each but the last with the separator after it. -/
theorem intercalate_concat {α : Type} (separator part : List α) (parts : List (List α)) :
    separator.intercalate (parts ++ [part]) = parts.flatMap (· ++ separator) ++ part := by
  cases parts with
  | nil => simp
  | cons first rest =>
    rw [List.cons_append, intercalate_cons, List.flatMap_append, List.flatMap_singleton,
      List.flatMap_cons]
    induction rest generalizing first with
    | nil => simp
    | cons next rest ih => simp only [List.flatMap_cons, List.append_assoc, ih next]

namespace Parser

/-- The tokens of an open group. -/
def OpenGroup.tokens : OpenGroup → List Token
  | .bracket => [.mark .less]
  | .named group => [.mark .less, .ident group]
  | .key group before k =>
    .mark .less :: .ident group :: (before.reverse.flatMap Entry.tokens ++ [.ident k])
  | .valueOf group before k =>
    .mark .less :: .ident group ::
      (before.reverse.flatMap Entry.tokens ++ [.ident k, .mark .equals])
  | .valued group before last =>
    .mark .less :: .ident group :: (before.reverse.flatMap Entry.tokens ++ last.tokens)

/-- The tokens of a head. -/
def Head.tokens (head : Head) : List Token :=
  .mark .type :: head.params.tokens ++ .ident head.name :: head.annots.reverse.flatMap Group.tokens

/-- The tokens of a variant. -/
def variantTokens (v : Variant Expr) : List Token := .ident v.tag :: Expr.payloadTokens v

/-- The tokens of a sum up to the next variant. -/
def sumTokens (lead : Bool) (before : List (Variant Expr)) : List Token :=
  .mark .leftBracket :: (if lead then [.mark .bar] else []) ++
    before.reverse.flatMap fun v => variantTokens v ++ [.mark .bar]

/-- The tokens of a record up to the next line. -/
def recordTokens (before : List (Field Expr)) : List Token :=
  .mark .leftBrace :: before.reverse.flatMap fun f => Expr.lineTokens f ++ [.mark .semicolon]

/-- The tokens of expressions in parentheses up to where the last one ends. -/
def listTokens (separator : Mark) (first : Expr) (rest : List Expr) : List Token :=
  .mark .leftParen :: first.tokens ++ rest.flatMap fun e => .mark separator :: e.tokens

/-- The tokens of an open form, up to the expression inside. -/
def Frame.tokens : Frame → List Token
  | .payload lead before tag => sumTokens lead before ++ [.ident tag, .mark .of]
  | .field before label => recordTokens before ++ [.ident label, .mark .colon]
  | .inherited before => recordTokens before ++ [.mark .inherit]
  | .first => [.mark .leftParen]
  | .product e rest => listTokens .star e rest.reverse ++ [.mark .star]
  | .arguments e middle => listTokens .comma e middle.reverse ++ [.mark .comma]

/-- The tokens of a definition up to somewhere in its body. -/
def Context.tokens (context : Context) : List Token :=
  context.head.tokens ++ .mark .equals :: context.frames.reverse.flatMap Frame.tokens

/-- The tokens that lead from the start of a definition to a place. -/
def Place.tokens : Place → List Token
  | .file => []
  | .params => [.mark .type]
  | .firstParam => [.mark .type, .mark .leftParen]
  | .nextParam first rest =>
    .mark .type :: .mark .leftParen :: .var first ::
      (rest.reverse.flatMap (fun param => [.mark .comma, .var param]) ++ [.mark .comma])
  | .afterParam first rest =>
    .mark .type :: .mark .leftParen :: .var first ::
      rest.reverse.flatMap fun param => [.mark .comma, .var param]
  | .name ps => .mark .type :: ps.tokens
  | .head h => h.tokens
  | .headGroup h group => h.tokens ++ group.tokens
  | .operand context => context.tokens
  | .operator context e => context.tokens ++ e.tokens
  | .exprGroup context e group => context.tokens ++ e.tokens ++ group.tokens
  | .sum context => context.tokens ++ [.mark .leftBracket]
  | .bar context lead before => context.tokens ++ sumTokens lead before
  | .tag context lead before word => context.tokens ++ sumTokens lead before ++ [.ident word]
  | .line context before => context.tokens ++ recordTokens before
  | .label context before word => context.tokens ++ recordTokens before ++ [.ident word]
  | .applied context first middle last =>
    context.tokens ++ listTokens .comma first (middle ++ [last]) ++ [.mark .rightParen]

/-- The tokens of all that has been read. -/
def State.tokens (state : State) : List Token :=
  state.done.reverse.flatMap Def.tokens ++ state.place.tokens

/-! ## Groups -/

theorem tokens_of_groupStep {group : OpenGroup} {token : Token} {next : OpenGroup ⊕ Group}
    (h : group.step token = some next) :
    Sum.elim OpenGroup.tokens Group.tokens next = group.tokens ++ [token] := by
  unfold OpenGroup.step at h
  split at h <;>
    first
    | (obtain rfl := Option.some.inj h
       simp [OpenGroup.tokens, Group.tokens, Group.entries, Entry.tokens])
    | cases h

/-! ## Expressions -/

theorem tokens_sum (lead : Bool) (before : List (Variant Expr)) (v : Variant Expr) :
    (Expr.sum lead (before.reverse ++ [v])).tokens =
      sumTokens lead before ++ variantTokens v ++ [.mark .rightBracket] := by
  rw [Expr.tokens, Expr.variantTokens_eq_map, List.map_append, List.map_singleton,
    intercalate_concat, List.flatMap_map]
  simp [sumTokens, variantTokens]

theorem tokens_emptySum (lead : Bool) :
    (Expr.sum lead []).tokens = sumTokens lead [] ++ [.mark .rightBracket] := by
  rw [Expr.tokens]
  simp [sumTokens, Expr.variantTokens]

theorem tokens_var (name : String) : (Expr.var name).tokens = [.var name] := by rw [Expr.tokens]

theorem tokens_ref (name : String) : (Expr.ref name).tokens = [.ident name] := by rw [Expr.tokens]

theorem tokens_record (before : List (Field Expr)) (f : Field Expr) :
    (Expr.record (before.reverse ++ [f])).tokens =
      recordTokens before ++ Expr.lineTokens f ++ [.mark .rightBrace] := by
  rw [Expr.tokens, Expr.fieldTokens_eq_map, List.map_append, List.map_singleton,
    intercalate_concat, List.flatMap_map]
  simp [recordTokens]

theorem tokens_closeTerminated (before : List (Field Expr)) :
    (closeTerminated before).tokens = recordTokens before ++ [.mark .rightBrace] := by
  cases before with
  | nil => rfl
  | cons last before =>
    rw [closeTerminated, Expr.tokens, Expr.fieldTokens_eq_map, List.flatMap_map]
    simp [recordTokens]

theorem tokens_product (first : Expr) (rest : List Expr) :
    (Expr.product first rest).tokens = listTokens .star first rest ++ [.mark .rightParen] := by
  rw [Expr.tokens, Expr.allTokens_eq_map, List.flatMap_map]
  rfl

theorem tokens_application (first : Expr) (middle : List Expr) (last : Expr) (name : String) :
    (Expr.application first middle last name).tokens =
      listTokens .comma first (middle ++ [last]) ++ [.mark .rightParen, .ident name] := by
  rw [Expr.tokens, Expr.allTokens_eq_map, List.flatMap_map]
  simp [listTokens]

/-! ## Steps -/

theorem tokens_of_stepFrame {head : Head} {frames : List Frame} {e : Expr} {frame : Frame}
    {mark : Mark} {place : Place} (h : stepFrame ⟨head, frames⟩ e frame mark = some place) :
    place.tokens = (Place.operator ⟨head, frame :: frames⟩ e).tokens ++ [.mark mark] := by
  unfold stepFrame at h
  split at h <;>
    first
    | (obtain rfl := Option.some.inj h
       simp [Place.tokens, Context.tokens, Context.push, Frame.tokens, tokens_sum, tokens_record,
         tokens_product, listTokens, sumTokens, recordTokens, variantTokens, Expr.payloadTokens,
         Expr.lineTokens])
    | cases h

theorem tokens_of_operator {context : Context} {e : Expr} {next : Place} {token : Token}
    (h : stepPlace (.operator context e) token = some next) :
    next.tokens = (Place.operator context e).tokens ++ [token] := by
  obtain ⟨head, frames⟩ := context
  cases token with
  | ident name =>
    cases h
    simp [Place.tokens, Expr.tokens]
  | mark mark =>
    by_cases hless : mark = .less
    · subst hless
      cases frames <;> cases h <;> simp [Place.tokens, OpenGroup.tokens]
    · cases frames with
      | nil => cases mark <;> first | cases h; done | exact absurd rfl hless
      | cons frame frames =>
        have hframe : stepFrame ⟨head, frames⟩ e frame mark = some next := by
          cases mark <;> first | exact h | exact absurd rfl hless
        exact tokens_of_stepFrame hframe
  | var name => cases frames <;> cases h
  | text value => cases frames <;> cases h

/-- One step adds its token. -/
theorem tokens_of_stepPlace {place next : Place} {token : Token}
    (h : stepPlace place token = some next) : next.tokens = place.tokens ++ [token] := by
  cases place with
  | headGroup head group =>
    obtain ⟨result, hstep, rfl⟩ := Option.map_eq_some_iff.1 h
    have htokens := tokens_of_groupStep hstep
    cases result with
    | inl still => simpa [Place.tokens] using htokens
    | inr closed => simpa [Place.tokens, Head.tokens, Head.annotate] using htokens
  | exprGroup context e group =>
    obtain ⟨result, hstep, rfl⟩ := Option.map_eq_some_iff.1 h
    have htokens := tokens_of_groupStep hstep
    cases result with
    | inl still => simpa [Place.tokens] using htokens
    | inr closed => simpa [Place.tokens, Expr.tokens] using htokens
  | operator context e => exact tokens_of_operator h
  | _ =>
    unfold stepPlace at h
    split at h <;>
      first
      | contradiction
      | (rename_i hplace
         cases hplace
         cases h
         simp [Place.tokens, Context.tokens, Context.push, Frame.tokens, Head.tokens, Params.tokens,
           OpenGroup.tokens, sumTokens, recordTokens, variantTokens, tokens_var, tokens_ref,
           tokens_sum, tokens_emptySum, tokens_closeTerminated, tokens_application,
           Expr.payloadTokens])

theorem tokens_of_complete? {place : Place} {d : Def} (h : place.complete? = some d) :
    d.tokens = place.tokens := by
  obtain ⟨head, body, rfl, rfl⟩ := Place.complete?_eq_some.1 h
  simp [Head.define, Def.tokens, Place.tokens, Context.tokens, Head.tokens]

theorem tokens_of_step {state next : State} {token : Token} (h : step state token = some next) :
    next.tokens = state.tokens ++ [token] := by
  unfold step at h
  split at h
  · next finished hcomplete =>
    cases h
    simp [State.tokens, tokens_of_complete? hcomplete, Place.tokens]
  · obtain ⟨place, hplace, rfl⟩ := Option.map_eq_some_iff.1 h
    rw [State.tokens, tokens_of_stepPlace hplace, ← List.append_assoc]
    rfl

theorem tokens_of_finish? {state : State} {defs : List Def} (h : state.finish? = some defs) :
    defs.flatMap Def.tokens = state.tokens := by
  unfold State.finish? at h
  split at h
  · next hplace =>
    cases h
    rw [State.tokens, hplace, Place.tokens, List.append_nil]
  · next place _ =>
    obtain ⟨last, hlast, rfl⟩ := Option.map_eq_some_iff.1 h
    simp [State.tokens, tokens_of_complete? hlast]

theorem tokens_of_run {state : State} {index : Nat} {tokens : List Token} {defs : List Def}
    (h : run state index tokens = .ok defs) : defs.flatMap Def.tokens = state.tokens ++ tokens := by
  induction tokens generalizing state index with
  | nil =>
    rw [run] at h
    split at h
    · next hfinish =>
      cases h
      rw [tokens_of_finish? hfinish, List.append_nil]
    · cases h
  | cons token rest ih =>
    rw [run] at h
    split at h
    · next next hstep => rw [ih h, tokens_of_step hstep, List.append_assoc, List.singleton_append]
    · cases h

end Parser

/-- The reader returns the one list of definitions that has the given tokens, if there is one. -/
theorem parse_eq_ok {tokens : List Token} {defs : List Def} :
    parse tokens = .ok defs ↔ defs.flatMap Def.tokens = tokens := by
  constructor
  · intro h
    exact Parser.tokens_of_run h
  · rintro rfl
    exact parse_tokens defs

end Monomorph.Surface
