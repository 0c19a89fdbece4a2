import Monomorph.Surface.Parser

/-!
# Reading undoes spelling

A surface tree is spelled out by its tokens, and `parse` finds it again: `parse_tokens` holds for
every list of definitions, whatever names occur in them. The reading of each form is stated for an
arbitrary context and an arbitrary rest of the input, so that the statements chain, and the proof is
one induction over surface expressions.

`Expr.induct` is the induction principle with one hypothesis per direct subexpression. Two lists of
definitions with the same tokens are therefore the same, which `tokens_injective` says for single
expressions.
-/

namespace Monomorph.Surface

namespace Expr

/-- Induction over surface expressions, with a hypothesis for every direct subexpression. -/
@[elab_as_elim, induction_eliminator]
theorem induct {motive : Expr → Prop}
    (var : ∀ name, motive (var name))
    (ref : ∀ name, motive (ref name))
    (sum : ∀ lead variants, (∀ v ∈ variants, ∀ e ∈ v.payload, motive e) →
      motive (sum lead variants))
    (record : ∀ fields, (∀ f ∈ fields, motive f.type) → motive (record fields))
    (terminated : ∀ before last, (∀ f ∈ before, motive f.type) → motive last.type →
      motive (terminated before last))
    (application : ∀ first middle last name, motive first → (∀ e ∈ middle, motive e) →
      motive last → motive (application first middle last name))
    (product : ∀ first rest, motive first → (∀ e ∈ rest, motive e) →
      motive (product first rest))
    (applied : ∀ arg name, motive arg → motive (applied arg name))
    (annotated : ∀ inner group, motive inner → motive (annotated inner group))
    (e : Expr) : motive e :=
  Expr.rec (motive_1 := motive)
    (motive_2 := fun variants => ∀ v ∈ variants, ∀ e ∈ v.payload, motive e)
    (motive_3 := fun fields => ∀ f ∈ fields, motive f.type)
    (motive_4 := fun f => motive f.type)
    (motive_5 := fun items => ∀ e ∈ items, motive e)
    (motive_6 := fun v => ∀ e ∈ v.payload, motive e)
    (motive_7 := fun payload => ∀ e ∈ payload, motive e)
    var ref sum record terminated application product applied annotated
    (fun _ h => absurd h List.not_mem_nil)
    (fun _ _ head tail => List.forall_mem_cons.2 ⟨head, tail⟩)
    (fun _ h => absurd h List.not_mem_nil)
    (fun _ _ head tail => List.forall_mem_cons.2 ⟨head, tail⟩)
    (fun _ _ type => type)
    (fun _ type => type)
    (fun _ h => absurd h List.not_mem_nil)
    (fun _ _ head tail => List.forall_mem_cons.2 ⟨head, tail⟩)
    (fun _ _ payload => payload)
    (fun _ h => nomatch h)
    (fun _ value _ h => Option.some.inj h ▸ value)
    e

/-! ## The tokens of a form, over the lists of the form -/

/-- The tokens of the payload of a variant, with the keyword before it. -/
def payloadTokens (v : Variant Expr) : List Token :=
  match v.payload with
  | none => []
  | some e => .mark .of :: e.tokens

theorem variantTokens_eq_map (variants : List (Variant Expr)) :
    variantTokens variants = variants.map fun v => .ident v.tag :: payloadTokens v := by
  induction variants with
  | nil => rfl
  | cons v rest ih =>
    obtain ⟨tag, payload⟩ := v
    cases payload <;> simp [variantTokens, payloadTokens, ih]

theorem fieldTokens_eq_map (fields : List (Field Expr)) :
    fieldTokens fields = fields.map lineTokens := by
  induction fields with
  | nil => rfl
  | cons f rest ih => simp [fieldTokens, ih]

theorem allTokens_eq_map (items : List Expr) : allTokens items = items.map tokens := by
  induction items with
  | nil => rfl
  | cons e rest ih => simp [allTokens, ih]

end Expr

/-- Parts with a separator between every two: the first, then the separator before each other. -/
theorem intercalate_cons {α : Type} (separator part : List α) (rest : List (List α)) :
    separator.intercalate (part :: rest) = part ++ rest.flatMap (separator ++ ·) := by
  induction rest generalizing part with
  | nil => simp
  | cons next rest ih =>
    rw [List.intercalate_cons_cons, ih, List.flatMap_cons]
    simp only [List.append_assoc]

namespace Parser

/-! ## Reading from a place -/

/-- The place after some tokens, none of which ends the definition. -/
def read (place : Place) (tokens : List Token) : Option Place := tokens.foldlM stepPlace place

@[simp] theorem read_nil (place : Place) : read place [] = some place := rfl

@[simp] theorem read_cons (place : Place) (token : Token) (rest : List Token) :
    read place (token :: rest) = (stepPlace place token).bind (read · rest) := rfl

/-! ## Groups of annotations -/

namespace OpenGroup

/-- The open group `name` after an entry, where the entries before it are kept last first. -/
def afterEntry (name : String) (before : List Entry) (e : Entry) : OpenGroup :=
  match e.value with
  | none => .key name before e.key
  | some _ => .valued name before e

theorem step_afterEntry_ident (name : String) (before : List Entry) (e : Entry) (next : String) :
    (afterEntry name before e).step (.ident next) =
      some (.inl (.key name (e :: before) next)) := by
  obtain ⟨key, value⟩ := e
  cases value <;> rfl

theorem step_afterEntry_greater (name : String) (before : List Entry) (e : Entry) :
    (afterEntry name before e).step (.mark .greater) =
      some (.inr ⟨name, before.reverse, e⟩) := by
  obtain ⟨key, value⟩ := e
  cases value <;> rfl

end OpenGroup

section Groups

variable {still : OpenGroup → Place} {close : Group → Place}

/-- An entry is read where its key may stand. -/
theorem read_entry
    (hstep : ∀ open' token, stepPlace (still open') token =
      (OpenGroup.step open' token).map (Sum.elim still close))
    {open' : OpenGroup} {name : String} {before : List Entry} (e : Entry)
    (hkey : open'.step (.ident e.key) = some (.inl (.key name before e.key)))
    (rest : List Token) :
    read (still open') (e.tokens ++ rest) =
      read (still (OpenGroup.afterEntry name before e)) rest := by
  obtain ⟨key, value⟩ := e
  cases value with
  | none => simp [Entry.tokens, hstep, hkey, OpenGroup.afterEntry]
  | some value =>
    have hequals : (OpenGroup.key name before key).step (.mark .equals) =
      some (.inl (.valueOf name before key)) := rfl
    have hvalue : (OpenGroup.valueOf name before key).step (.text value) =
      some (.inl (.valued name before ⟨key, some value⟩)) := rfl
    simp [Entry.tokens, hstep, hkey, hequals, hvalue, OpenGroup.afterEntry]

/-- The entries of a group are read up to the bracket that closes the group. -/
theorem read_entries
    (hstep : ∀ open' token, stepPlace (still open') token =
      (OpenGroup.step open' token).map (Sum.elim still close))
    {open' : OpenGroup} {name : String} {before : List Entry} (entries : List Entry)
    (last : Entry)
    (hkey : ∀ key, open'.step (.ident key) = some (.inl (.key name before key)))
    (rest : List Token) :
    read (still open') ((entries ++ [last]).flatMap Entry.tokens ++ .mark .greater :: rest) =
      read (close ⟨name, before.reverse ++ entries, last⟩) rest := by
  induction entries generalizing open' before with
  | nil =>
    simp only [List.nil_append, List.flatMap_cons, List.flatMap_nil, List.append_nil]
    rw [read_entry hstep last (hkey last.key)]
    simp [hstep, OpenGroup.step_afterEntry_greater]
  | cons e entries ih =>
    simp only [List.cons_append, List.flatMap_cons, List.append_assoc]
    rw [read_entry hstep e (hkey e.key), ih (OpenGroup.step_afterEntry_ident name before e)]
    simp

/-- A group is read where its bracket opens it. -/
theorem read_group (still : OpenGroup → Place) (close : Group → Place) {place : Place}
    (hopen : stepPlace place (.mark .less) = some (still .bracket))
    (hstep : ∀ open' token, stepPlace (still open') token =
      (OpenGroup.step open' token).map (Sum.elim still close))
    (g : Group) (rest : List Token) :
    read place (g.tokens ++ rest) = read (close g) rest := by
  obtain ⟨name, before, last⟩ := g
  have hkey : ∀ key, (OpenGroup.named name).step (.ident key) = some (.inl (.key name [] key)) :=
    fun _ => rfl
  simpa [Group.tokens, Group.entries, hopen, hstep, OpenGroup.step] using
    read_entries hstep before last hkey rest

end Groups

theorem read_exprGroup (context : Context) (e : Expr) (g : Group) (rest : List Token) :
    read (.operator context e) (g.tokens ++ rest) =
      read (.operator context (.annotated e g)) rest :=
  read_group (.exprGroup context e) (fun g => .operator context (.annotated e g)) rfl
    (fun open' token => by
      rw [stepPlace]
      rcases open'.step token with _ | _ | _ <;> rfl) g rest

theorem read_headGroups (head : Head) (groups : List Group) (rest : List Token) :
    read (.head head) (groups.flatMap Group.tokens ++ rest) =
      read (.head { head with annots := groups.reverse ++ head.annots }) rest := by
  induction groups generalizing head with
  | nil => rfl
  | cons g groups ih =>
    simp only [List.flatMap_cons, List.append_assoc]
    rw [read_group (.headGroup head) (fun g => .head (head.annotate g)) rfl
      (fun open' token => by
        rw [stepPlace]
        rcases open'.step token with _ | _ | _ <;> rfl), ih]
    simp [Head.annotate]

/-! ## Expressions -/

/-- The tokens of an expression are read where an operand may stand, whatever follows. -/
def Readable (e : Expr) : Prop :=
  ∀ (context : Context) (rest : List Token),
    read (.operand context) (e.tokens ++ rest) = read (.operator context e) rest

section Forms

variable (context : Context) (lead : Bool)

/-- After a tag: the payload, up to the bar or the bracket that follows it. -/
theorem read_payload {v : Variant Expr} (hpayload : ∀ e ∈ v.payload, Readable e)
    (before : List (Variant Expr)) (rest : List Token) :
    read (.tag context lead before v.tag) (Expr.payloadTokens v ++ .mark .bar :: rest) =
        read (.bar context lead (v :: before)) rest ∧
      read (.tag context lead before v.tag) (Expr.payloadTokens v ++ .mark .rightBracket :: rest) =
        read (.operator context (.sum lead (v :: before).reverse)) rest := by
  obtain ⟨tag, payload⟩ := v
  cases payload with
  | none => exact ⟨rfl, rfl⟩
  | some e =>
    have he : Readable e := hpayload e rfl
    have hof : stepPlace (.tag context lead before tag) (.mark .of) =
      some (.operand (context.push (.payload lead before tag))) := rfl
    simp only [Expr.payloadTokens, List.cons_append, read_cons, hof, Option.bind_some]
    rw [he, he]
    exact ⟨rfl, rfl⟩

/-- After a tag: its payload, the other variants and the bracket that closes the sum. -/
theorem read_variants {v : Variant Expr} {variants : List (Variant Expr)}
    (hv : ∀ e ∈ v.payload, Readable e) (hvs : ∀ w ∈ variants, ∀ e ∈ w.payload, Readable e)
    (before : List (Variant Expr)) (rest : List Token) :
    read (.tag context lead before v.tag) (Expr.payloadTokens v ++
        variants.flatMap (fun w => .mark .bar :: .ident w.tag :: Expr.payloadTokens w) ++
          .mark .rightBracket :: rest) =
      read (.operator context (.sum lead (before.reverse ++ v :: variants))) rest := by
  induction variants generalizing v before with
  | nil =>
    rw [List.flatMap_nil, List.append_nil, (read_payload context lead hv before rest).2]
    simp
  | cons w variants ih =>
    obtain ⟨hw, hvs⟩ := List.forall_mem_cons.1 hvs
    have htag : stepPlace (.bar context lead (v :: before)) (.ident w.tag) =
      some (.tag context lead (v :: before) w.tag) := rfl
    simp only [List.flatMap_cons, List.cons_append, List.append_assoc] at ih ⊢
    rw [(read_payload context lead hv before _).1, read_cons, htag, Option.bind_some, ih hw hvs]
    simp

/-- One line of a record, up to the semicolon or the brace that follows it. -/
theorem read_line {f : Field Expr} (hf : Readable f.type) (before : List (Field Expr))
    (rest : List Token) :
    read (.line context before) (Expr.lineTokens f ++ .mark .semicolon :: rest) =
        read (.line context (f :: before)) rest ∧
      read (.line context before) (Expr.lineTokens f ++ .mark .rightBrace :: rest) =
        read (.operator context (.record (f :: before).reverse)) rest := by
  cases f with
  | labelled label type =>
    have hlabel : stepPlace (.line context before) (.ident label) =
      some (.label context before label) := rfl
    have hcolon : stepPlace (.label context before label) (.mark .colon) =
      some (.operand (context.push (.field before label))) := rfl
    have htype : Readable type := hf
    simp only [Expr.lineTokens, List.cons_append, read_cons, hlabel, hcolon, Option.bind_some]
    rw [htype, htype]
    exact ⟨rfl, rfl⟩
  | inherit type =>
    have hinherit : stepPlace (.line context before) (.mark .inherit) =
      some (.operand (context.push (.inherited before))) := rfl
    have htype : Readable type := hf
    simp only [Expr.lineTokens, List.cons_append, read_cons, hinherit, Option.bind_some]
    rw [htype, htype]
    exact ⟨rfl, rfl⟩

/-- Lines of a record with a semicolon after each. -/
theorem read_terminatedLines {fields : List (Field Expr)} (hfs : ∀ f ∈ fields, Readable f.type)
    (before : List (Field Expr)) (rest : List Token) :
    read (.line context before)
        ((fields.map Expr.lineTokens).flatMap (· ++ [.mark .semicolon]) ++ rest) =
      read (.line context (fields.reverse ++ before)) rest := by
  induction fields generalizing before with
  | nil => rfl
  | cons f fields ih =>
    obtain ⟨hf, hfs⟩ := List.forall_mem_cons.1 hfs
    simp only [List.map_cons, List.flatMap_cons, List.append_assoc, List.cons_append,
      List.nil_append]
    rw [(read_line context hf before _).1, ih hfs]
    simp

/-- Lines of a record with semicolons between them, and the brace that closes it. -/
theorem read_separatedLines {f : Field Expr} {fields : List (Field Expr)} (hf : Readable f.type)
    (hfs : ∀ f ∈ fields, Readable f.type) (before : List (Field Expr)) (rest : List Token) :
    read (.line context before) (Expr.lineTokens f ++
        (fields.map Expr.lineTokens).flatMap (.mark .semicolon :: ·) ++
          .mark .rightBrace :: rest) =
      read (.operator context (.record (before.reverse ++ f :: fields))) rest := by
  induction fields generalizing f before with
  | nil =>
    rw [List.map_nil, List.flatMap_nil, List.append_nil, (read_line context hf before rest).2]
    simp
  | cons g fields ih =>
    obtain ⟨hg, hfs⟩ := List.forall_mem_cons.1 hfs
    simp only [List.map_cons, List.flatMap_cons, List.cons_append, List.append_assoc] at ih ⊢
    rw [(read_line context hf before _).1, ih hg hfs]
    simp

/-- The items of a product after the first one, and the parenthesis that closes it. -/
theorem read_items {item : Expr} {items : List Expr} (hitems : ∀ e ∈ items, Readable e)
    (first : Expr) (before : List Expr) (rest : List Token) :
    read (.operator (context.push (.product first before)) item)
        ((items.map Expr.tokens).flatMap (.mark .star :: ·) ++ .mark .rightParen :: rest) =
      read (.operator context (.product first (before.reverse ++ item :: items))) rest := by
  induction items generalizing item before with
  | nil =>
    rw [← List.reverse_cons]
    rfl
  | cons next items ih =>
    obtain ⟨hnext, hitems⟩ := List.forall_mem_cons.1 hitems
    have hstar : stepPlace (.operator (context.push (.product first before)) item) (.mark .star) =
      some (.operand (context.push (.product first (item :: before)))) := rfl
    simp only [List.map_cons, List.flatMap_cons, List.cons_append, List.append_assoc, read_cons,
      hstar, Option.bind_some]
    rw [hnext, ih hitems]
    simp

/-- The arguments before a name, from the comma after the first one to the parenthesis. -/
theorem read_arguments {args : List Expr} {last : Expr} (hargs : ∀ e ∈ args, Readable e)
    (hlast : Readable last) {first : Expr} {before : List Expr} {place : Place}
    (hcomma : stepPlace place (.mark .comma) =
      some (.operand (context.push (.arguments first before)))) (rest : List Token) :
    read place ((args.map Expr.tokens).flatMap (.mark .comma :: ·) ++
        .mark .comma :: (last.tokens ++ .mark .rightParen :: rest)) =
      read (.applied context first (before.reverse ++ args) last) rest := by
  induction args generalizing place before with
  | nil =>
    simp only [List.map_nil, List.flatMap_nil, List.nil_append, read_cons, hcomma,
      Option.bind_some]
    rw [hlast, List.append_nil]
    rfl
  | cons arg args ih =>
    obtain ⟨harg, hargs⟩ := List.forall_mem_cons.1 hargs
    have hnext : stepPlace (.operator (context.push (.arguments first before)) arg)
        (.mark .comma) = some (.operand (context.push (.arguments first (arg :: before)))) := rfl
    simp only [List.map_cons, List.flatMap_cons, List.cons_append, List.append_assoc]
    rw [read_cons, hcomma, Option.bind_some, harg, ih hargs hnext]
    simp

end Forms

/-- Every expression is found again from its tokens. -/
theorem readable (e : Expr) : Readable e := by
  induction e with
  | var name => exact fun _ _ => rfl
  | ref name => exact fun _ _ => rfl
  | sum lead variants ih =>
    intro context rest
    have hopen : stepPlace (.operand context) (.mark .leftBracket) = some (.sum context) := rfl
    have hbar : stepPlace (.sum context) (.mark .bar) = some (.bar context true []) := rfl
    rw [Expr.tokens, Expr.variantTokens_eq_map]
    cases variants with
    | nil => cases lead <;> rfl
    | cons v variants =>
      obtain ⟨hv, hvs⟩ := List.forall_mem_cons.1 ih
      have htag : stepPlace (.sum context) (.ident v.tag) = some (.tag context false [] v.tag) := rfl
      have hbarTag : stepPlace (.bar context true []) (.ident v.tag) =
        some (.tag context true [] v.tag) := rfl
      simp only [List.map_cons, intercalate_cons, List.flatMap_map, List.singleton_append]
      cases lead with
      | false =>
        simpa [hopen, htag] using read_variants context false hv hvs [] rest
      | true =>
        simpa [hopen, hbar, hbarTag] using read_variants context true hv hvs [] rest
  | record fields ih =>
    intro context rest
    have hopen : stepPlace (.operand context) (.mark .leftBrace) = some (.line context []) := rfl
    rw [Expr.tokens, Expr.fieldTokens_eq_map]
    cases fields with
    | nil => rfl
    | cons f fields =>
      obtain ⟨hf, hfs⟩ := List.forall_mem_cons.1 ih
      simp only [List.map_cons, intercalate_cons, List.singleton_append]
      simpa [hopen] using read_separatedLines context hf hfs [] rest
  | terminated before last ihBefore ihLast =>
    intro context rest
    have hopen : stepPlace (.operand context) (.mark .leftBrace) = some (.line context []) := rfl
    rw [Expr.tokens, Expr.fieldTokens_eq_map]
    simp only [List.cons_append, List.append_assoc, read_cons, hopen, Option.bind_some]
    rw [read_terminatedLines context ihBefore, List.nil_append,
      (read_line context ihLast _ _).1, List.append_nil]
    have hclose : stepPlace (.line context (last :: before.reverse)) (.mark .rightBrace) =
      some (.operator context (.terminated before.reverse.reverse last)) := rfl
    simp [hclose]
  | application first middle last name ihFirst ihMiddle ihLast =>
    intro context rest
    have hopen : stepPlace (.operand context) (.mark .leftParen) =
      some (.operand (context.push .first)) := rfl
    have hcomma : stepPlace (.operator (context.push .first) first) (.mark .comma) =
      some (.operand (context.push (.arguments first []))) := rfl
    have hname : stepPlace (.applied context first middle last) (.ident name) =
      some (.operator context (.application first middle last name)) := rfl
    rw [Expr.tokens, Expr.allTokens_eq_map]
    simp only [List.cons_append, List.append_assoc, List.nil_append, read_cons, hopen,
      Option.bind_some]
    rw [ihFirst, read_arguments context ihMiddle ihLast hcomma, List.reverse_nil,
      List.nil_append, read_cons, hname, Option.bind_some]
  | product first items ihFirst ihItems =>
    intro context rest
    have hopen : stepPlace (.operand context) (.mark .leftParen) =
      some (.operand (context.push .first)) := rfl
    rw [Expr.tokens, Expr.allTokens_eq_map]
    simp only [List.cons_append, List.append_assoc, List.nil_append, read_cons, hopen,
      Option.bind_some]
    rw [ihFirst]
    cases items with
    | nil => rfl
    | cons item items =>
      obtain ⟨hitem, hitems⟩ := List.forall_mem_cons.1 ihItems
      have hstar : stepPlace (.operator (context.push .first) first) (.mark .star) =
        some (.operand (context.push (.product first []))) := rfl
      simp only [List.map_cons, List.flatMap_cons, List.cons_append, List.append_assoc, read_cons,
        hstar, Option.bind_some]
      rw [hitem, read_items context hitems]
      rfl
  | applied arg name ih =>
    intro context rest
    have hname : stepPlace (.operator context arg) (.ident name) =
      some (.operator context (.applied arg name)) := rfl
    rw [Expr.tokens, List.append_assoc, ih, List.singleton_append, read_cons, hname,
      Option.bind_some]
  | annotated inner group ih =>
    intro context rest
    rw [Expr.tokens, List.append_assoc, ih, read_exprGroup]

/-- Surface expressions with the same tokens are the same. -/
theorem tokens_injective {e e' : Expr} (h : e.tokens = e'.tokens) : e = e' := by
  have hread : read (.operand ⟨⟨.absent, "", []⟩, []⟩) e.tokens =
      read (.operand ⟨⟨.absent, "", []⟩, []⟩) e'.tokens := by rw [h]
  rw [← List.append_nil e.tokens, ← List.append_nil e'.tokens, readable e, readable e'] at hread
  simpa using hread

/-! ## Definitions -/

/-- Parameters after the first one, and the parenthesis that closes them. -/
theorem read_listedParams (first : String) (before others : List String) (rest : List Token) :
    read (.afterParam first before)
        (others.flatMap (fun param => [.mark .comma, .var param]) ++ .mark .rightParen :: rest) =
      read (.name (.listed first (before.reverse ++ others))) rest := by
  induction others generalizing before with
  | nil =>
    rw [List.append_nil]
    rfl
  | cons param others ih =>
    have hcomma : stepPlace (.afterParam first before) (.mark .comma) =
      some (.nextParam first before) := rfl
    have hparam : stepPlace (.nextParam first before) (.var param) =
      some (.afterParam first (param :: before)) := rfl
    simp only [List.flatMap_cons, List.cons_append, List.nil_append, read_cons, hcomma, hparam,
      Option.bind_some]
    rw [ih, List.reverse_cons, List.append_assoc, List.singleton_append]

theorem read_params (params : Params) (name : String) (rest : List Token) :
    read .params (params.tokens ++ .ident name :: rest) = read (.head ⟨params, name, []⟩) rest := by
  cases params with
  | absent => rfl
  | bare param => rfl
  | listed first others =>
    have hopen : stepPlace .params (.mark .leftParen) = some .firstParam := rfl
    have hfirst : stepPlace .firstParam (.var first) = some (.afterParam first []) := rfl
    have hname : stepPlace (.name (.listed first others)) (.ident name) =
      some (.head ⟨.listed first others, name, []⟩) := rfl
    simp only [Params.tokens, List.cons_append, List.append_assoc, List.nil_append, read_cons,
      hopen, hfirst, Option.bind_some]
    rw [read_listedParams, List.reverse_nil, List.nil_append, read_cons, hname, Option.bind_some]

/-- After the keyword of a definition, its tokens lead to the place where it is complete. -/
theorem read_def (d : Def) :
    ∃ place, read .params d.tokens.tail = some place ∧ place.complete? = some d := by
  obtain ⟨params, name, annots, body⟩ := d
  refine ⟨.operator ⟨⟨params, name, annots.reverse⟩, []⟩ body, ?_, ?_⟩
  · have hequals : stepPlace (.head ⟨params, name, annots.reverse⟩) (.mark .equals) =
      some (.operand ⟨⟨params, name, annots.reverse⟩, []⟩) := rfl
    have hbody := readable body ⟨⟨params, name, annots.reverse⟩, []⟩ []
    rw [List.append_nil, read_nil] at hbody
    simp only [Def.tokens, List.cons_append, List.append_assoc, List.tail_cons]
    rw [read_params, read_headGroups, List.append_nil, read_cons, hequals, Option.bind_some, hbody]
  · simp [Place.complete?, Head.define]

/-! ## Files -/

theorem Place.complete?_eq_some {place : Place} {d : Def} :
    place.complete? = some d ↔
      ∃ head body, place = .operator ⟨head, []⟩ body ∧ head.define body = d := by
  constructor
  · intro h
    unfold complete? at h
    split at h
    · next head body => exact ⟨head, body, rfl, Option.some.inj h⟩
    · exact absurd h nofun
  · rintro ⟨head, body, rfl, rfl⟩
    rfl

/-- Inside a definition, the reader of a file does what the reader of a place does. -/
theorem step_of_stepPlace {done : List Def} {place next : Place} {token : Token}
    (h : stepPlace place token = some next) : step ⟨done, place⟩ token = some ⟨done, next⟩ := by
  unfold step
  split
  · next hcomplete =>
    obtain ⟨head, body, hplace, _⟩ := Place.complete?_eq_some.1 hcomplete
    obtain rfl : place = .operator ⟨head, []⟩ body := hplace
    exact absurd h nofun
  · simp [h]

theorem run_of_read {done : List Def} {place next : Place} {tokens : List Token}
    (h : read place tokens = some next) (index : Nat) (rest : List Token) :
    run ⟨done, place⟩ index (tokens ++ rest) =
      run ⟨done, next⟩ (index + tokens.length) rest := by
  induction tokens generalizing place index with
  | nil =>
    obtain rfl : place = next := Option.some.inj h
    rfl
  | cons token tokens ih =>
    obtain ⟨middle, hstep, hread⟩ := Option.bind_eq_some_iff.1 (read_cons place token tokens ▸ h)
    rw [List.cons_append, run, step_of_stepPlace hstep]
    simp only [ih hread, List.length_cons]
    congr 1
    omega

/-- Where a file may end, the next definition may start. -/
theorem step_type {state : State} {defs : List Def} (h : state.finish? = some defs) :
    ∃ done, step state (.mark .type) = some ⟨done, .params⟩ ∧ done.reverse = defs := by
  obtain ⟨done, place⟩ := state
  unfold State.finish? at h
  split at h
  · next hplace =>
    obtain rfl : place = .file := hplace
    exact ⟨done, rfl, Option.some.inj h⟩
  · obtain ⟨last, hlast, hdefs⟩ := Option.map_eq_some_iff.1 h
    exact ⟨last :: done, by simp [step, hlast], hdefs⟩

theorem run_tokens (defs : List Def) {state : State} {before : List Def}
    (h : state.finish? = some before) (index : Nat) :
    run state index (defs.flatMap Def.tokens) = .ok (before ++ defs) := by
  induction defs generalizing state before index with
  | nil => simp [run, h]
  | cons d defs ih =>
    obtain ⟨done, htype, hdone⟩ := step_type h
    obtain ⟨place, hread, hcomplete⟩ := read_def d
    have hfinish : (State.mk done place).finish? = some (before ++ [d]) := by
      unfold State.finish?
      split
      · next hplace =>
        obtain rfl : place = .file := hplace
        simp [Place.complete?] at hcomplete
      · simp [hcomplete, hdone]
    have htokens : d.tokens = .mark .type :: d.tokens.tail := rfl
    rw [List.flatMap_cons, htokens, List.cons_append, run, htype]
    simp only [run_of_read hread, ih hfinish, List.append_assoc, List.singleton_append]

end Parser

/-- Every list of definitions is found again from its tokens. -/
theorem parse_tokens (defs : List Def) : parse (defs.flatMap Def.tokens) = .ok defs :=
  have hstart : Parser.State.start.finish? = some [] := rfl
  Parser.run_tokens defs hstart 0

end Monomorph.Surface
