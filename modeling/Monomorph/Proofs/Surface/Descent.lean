import Monomorph.Proofs.Surface.Combinators
import Monomorph.Proofs.Surface.Expected
import Monomorph.Proofs.Surface.Items
import Monomorph.Proofs.TypeExpr.Spelling

/-!
# Expressions and definitions by recursive descent

Each rule of the grammar leads as far as the automaton reads: `leads_expr` for expressions and
`leads_definition` for whole definitions. The place where the automaton is then has the tree of what was read,
and the matcher returns the meaning of that tree.

Only names and annotations may follow an expression, so their kinds of tokens are the stops of all rules that
end with one: a suffix that got stuck is given back, and what comes next begins with another kind of token.
-/

namespace Monomorph.Surface.Descent

open Matcher Monomorph.Surface.Parser

variable {n : Nat} {place : Place} {stops : List TokenKind}

/-! ## How the rules begin -/

/-- What an expression begins with. -/
abbrev operandKinds : List TokenKind :=
  [.var, .ident, .mark .leftBracket, .mark .leftBrace, .mark .leftParen]

/-- What goes on with an expression: a name or annotations. -/
abbrev suffixKinds : List TokenKind := [.ident, .mark .less]

theorem starts_entry (n : Nat) : entry.Starts n [.ident] none := (starts_ident n).bind _

theorem starts_annotationGroup (n : Nat) : annotationGroup.Starts n [.mark .less] none :=
  starts_delimited n _ _ _

theorem starts_suffix (n : Nat) : suffix.Starts n suffixKinds none :=
  ((starts_ident n).bind _).orElse ((starts_annotationGroup n).bind _)

section Forms

variable (n : Nat) (inner : Matcher TypeExpr)

theorem starts_variant : (variant inner).Starts n [.ident] none := (starts_ident n).bind _

theorem starts_variants : (separatedBy (variant inner) .bar 0 false).Starts n [.ident] (some []) :=
  ((starts_variant n inner).bind _).orElse (starts_pure n [])

theorem starts_line : (inherited inner <|> labelled inner).Starts n [.mark .inherit, .ident] none :=
  ((starts_mark n .inherit).bind _).orElse ((starts_ident n).bind _)

theorem starts_lines : (separatedBy (inherited inner <|> labelled inner) .semicolon 0 true).Starts n
    [.mark .inherit, .ident] (some []) :=
  ((starts_line n inner).bind _).orElse (starts_pure n [])

theorem starts_moreArguments (first : TypeExpr) :
    (moreArguments inner first).Starts n [.mark .comma] none :=
  (starts_separated_of_lt n inner .comma false (by decide)).bind _

theorem starts_moreItems (first : TypeExpr) :
    (moreItems inner first).Starts n [.mark .star, .mark .rightParen] none :=
  Starts.bind_of_default (f := fun rest => mark .rightParen >>= fun _ => Pure.pure (tuple (first :: rest)))
    (starts_separated n inner .star false (Nat.le_refl 1)) ((starts_mark n .rightParen).bind _)

theorem starts_sum : (sum inner).Starts n [.mark .leftBracket] none := starts_delimited n _ _ _

theorem starts_record : (record inner).Starts n [.mark .leftBrace] none := starts_delimited n _ _ _

theorem starts_parentheses : (application inner <|> tupleOrGroup inner).Starts n [.mark .leftParen] none := by
  rw [application_orElse_tupleOrGroup]
  exact (starts_mark n .leftParen).bind _

theorem starts_atom : (atom inner).Starts n operandKinds none :=
  ((starts_var n).bind _).orElse (((starts_ident n).bind _).orElse
    ((starts_sum n inner).orElse ((starts_record n inner).orElse (starts_parentheses n inner))))

end Forms

theorem starts_expr (n : Nat) : expr.Starts n operandKinds none :=
  .recursive (fun n inner => (starts_atom n inner).bind _) n

/-! ## Groups of annotations -/

section Groups

variable {still : OpenGroup → Place} {close : Group → Place}

/-- The place after an entry. -/
def AfterEntry (still : OpenGroup → Place) (name : String) (before : List Entry) :
    Goal (String × Option String) :=
  fun e next pending => next = still (.afterEntry name before ⟨e.1, e.2⟩) ∧
    pending = if e.2.isSome then [] else [.mark .equals]

/-- The place after some entries. -/
def AfterEntries (still : OpenGroup → Place) (name : String) : Goal (List (String × Option String)) :=
  fun entries next pending => ∃ before e, next = still (.afterEntry name before e) ∧
    entries = (before.reverse ++ [e]).map (fun e => (e.key, e.value)) ∧
      pending = if e.value.isSome then [] else [.mark .equals]

variable
  (hstep : ∀ open' token,
    stepPlace (still open') token = (OpenGroup.step open' token).map (Sum.elim still close))
  (hexpected : ∀ open', (still open').expected = open'.expected)
  (hinner : ∀ open', (still open').complete? = none)

include hstep hexpected hinner

theorem leads_entry (n : Nat) {open' : OpenGroup} {name : String} {before : List Entry}
    (hkey : ∀ key, open'.step (.ident key) = some (.inl (.key name before key))) :
    entry.Leads n (still open') [.ident] [.mark .equals] (AfterEntry still name before) := by
  refine .ident_bind (fun k _ key => (((starts_mark k .equals).bind _).orNot).map _) fun key =>
    ⟨still (.key name before key), by rw [hstep, hkey]; rfl, fun k _ => ?_, rfl, rfl⟩
  have hvalue : (mark .equals >>= fun _ => text).Leads k (still (.key name before key)) [.mark .equals]
      [.mark .equals] fun value => AfterEntry still name before (key, some value) := by
    have hequals : stepPlace (still (.key name before key)) (.mark .equals) =
        some (still (.valueOf name before key)) := by
      rw [hstep]
      rfl
    refine .mark_bind hequals (fun k _ => starts_text k) (fun k _ => .text fun value => ?_)
      ⟨hinner _, hexpected _⟩
    exact ⟨still (.valued name before ⟨key, some value⟩), by rw [hstep]; rfl, rfl, rfl⟩
  exact .map (.orNot hvalue ((starts_mark k .equals).bind _) fun _ => id)

theorem leads_entries (n : Nat) (name : String) :
    (repeated1 entry).Leads n (still (.named name)) [.ident] [.mark .equals, .ident]
      fun entries next pending => ∃ tried, AfterEntries still name entries next tried ∧
        pending = join tried [.ident] := by
  have hkey : ∀ key, OpenGroup.step (.named name) (.ident key) = some (.inl (.key name [] key)) :=
    fun _ => rfl
  have hfirst := leads_entry hstep hexpected hinner n hkey
  refine hfirst.bind (fun e => ((starts_entry n).repeated).map _) (by decide) (fun _ _ => by decide) ?_
  rintro e next pending ⟨rfl, rfl⟩
  have hnext : ∀ entries place tried, AfterEntries still name (e :: entries) place tried →
      entry.Leads n place [.ident] [.mark .equals]
        fun e' => AfterEntries still name (e :: (entries ++ [e'])) := by
    rintro entries _ _ ⟨before, last, rfl, hentries, rfl⟩
    refine (leads_entry hstep hexpected hinner n (OpenGroup.step_afterEntry_ident name before last)).imp ?_
    rintro e' _ _ ⟨rfl, rfl⟩
    refine ⟨last :: before, ⟨e'.1, e'.2⟩, rfl, ?_, rfl⟩
    rw [← List.cons_append, hentries]
    simp
  have hmore : (repeated entry).Leads n (still (.afterEntry name [] ⟨e.1, e.2⟩)) [.ident]
      [.mark .equals, .ident] fun entries next pending => ∃ tried,
        AfterEntries still name (e :: entries) next tried ∧ pending = join tried [.ident] :=
    Leads.repeated (J := fun entries => AfterEntries still name (e :: entries))
      (starts_entry n) hnext (fun _ _ _ h => ⟨_, h, rfl⟩) (by decide) ⟨[], ⟨e.1, e.2⟩, rfl, rfl, rfl⟩
  exact ⟨.map hmore, _, ⟨[], ⟨e.1, e.2⟩, rfl, rfl, rfl⟩, rfl⟩

/-- The place after a group of annotations. -/
def AfterGroup (close : Group → Place) : Goal (List Annot) :=
  fun annots next pending => ∃ g, next = close g ∧ g.meaning = annots ∧ pending = []

theorem closes_entries {name : String} {entries : List (String × Option String)} {tried : List TokenKind}
    (h : AfterEntries still name entries place tried) :
    Closes .greater (AfterGroup close) (entries.map fun e => ⟨name, e.1, e.2⟩) place
      (join tried [.ident]) := by
  obtain ⟨before, ⟨key, value⟩, rfl, rfl, rfl⟩ := h
  refine ⟨hinner _, ?_, close ⟨name, before.reverse, ⟨key, value⟩⟩, ?_, _, rfl, ?_, rfl⟩
  · rw [hexpected]
    cases value <;> rfl
  · rw [hstep, OpenGroup.step_afterEntry_greater]
    rfl
  · simp [Group.meaning, Group.entries]

/-- A group of annotations is read where its bracket opens it. -/
theorem leads_annotationGroup (n : Nat) (hopen : stepPlace place (.mark .less) = some (still .bracket)) :
    annotationGroup.Leads n place [.mark .less] stops (AfterGroup close) := by
  have hinside : ∀ k, (ident >>= fun name => repeated1 entry >>= fun entries =>
        Pure.pure (entries.map fun e => (⟨name, e.1, e.2⟩ : Annot))).Leads k (still .bracket)
      [.ident] [.mark .equals, .ident] (Closes .greater (AfterGroup close)) := by
    refine fun k => .ident_bind (fun k _ name => ((starts_entry k).bind _).bind _) fun name =>
      ⟨still (.named name), by rw [hstep]; rfl, fun k _ => ?_, hinner _, hexpected _⟩
    refine .map ((leads_entries hstep hexpected hinner k name).imp ?_)
    rintro entries next _ ⟨tried, hentries, rfl⟩
    exact closes_entries hstep hexpected hinner hentries
  exact .delimited hopen (fun k => (starts_ident k).bind _) (fun k _ => hinside k) ⟨hinner _, hexpected _⟩
    (by decide)

end Groups

theorem leads_exprGroup (n : Nat) (context : Context) (e : Expr) :
    annotationGroup.Leads n (.operator context e) [.mark .less] stops
      (AfterGroup fun g => .operator context (.annotated e g)) :=
  leads_annotationGroup (stepPlace_exprGroup context e)
    (fun _ => rfl) (fun _ => rfl) n rfl

theorem leads_headGroup (n : Nat) (head : Head) :
    annotationGroup.Leads n (.head head) [.mark .less] stops (AfterGroup fun g => .head (head.annotate g)) :=
  leads_annotationGroup (stepPlace_headGroup head)
    (fun _ => rfl) (fun _ => rfl) n rfl

/-! ## Expressions -/

/-- After an expression with some meaning, where some kinds were tried in vain. -/
def AtOperator (context : Context) (tried : List TokenKind) : Goal TypeExpr :=
  fun t next pending => ∃ e : Expr, next = .operator context e ∧ e.meaning = t ∧ pending = tried

theorem suffix_on_annotate (t : TypeExpr) (annots : List Annot) :
    Suffix.on t (.annotate annots) = t.annotate (.ofList annots) := by
  induction annots generalizing t with
  | nil => exact (TypeExpr.annotate_empty t).symm
  | cons a annots ih =>
    have hinsert : t.mapAnnots (·.insert a) = t.annotate (.ofList [a]) := by
      cases t <;> simp [TypeExpr.annotate, TypeExpr.mapAnnots] <;> exact Annots.ext_mem (by simp [or_comm])
    rw [Suffix.on, List.foldl_cons, hinsert]
    refine (ih _).trans ?_
    rw [TypeExpr.annotate_annotate, ← Annots.ofList_append]
    rfl

/-- Names and annotations after an expression are read one by one. -/
theorem leads_suffixes (n : Nat) (context : Context) (e : Expr) :
    (repeated suffix).Leads n (.operator context e) suffixKinds suffixKinds
      fun suffixes => AtOperator context suffixKinds (suffixes.foldl Suffix.on e.meaning) := by
  have hnext : ∀ suffixes place pending,
      AtOperator context [] (suffixes.foldl Suffix.on e.meaning) place pending →
        suffix.Leads n place suffixKinds [] fun s next pending =>
          AtOperator context [] ((suffixes ++ [s]).foldl Suffix.on e.meaning) next pending := by
    rintro suffixes _ _ ⟨e', rfl, hmeaning, -⟩
    have hname : (ident >>= fun name => Pure.pure (Suffix.apply name)).Leads n (.operator context e')
        [.ident] [] fun s => AtOperator context [] ((suffixes ++ [s]).foldl Suffix.on e.meaning) := by
      refine .map (.ident fun name => ⟨.operator context (.applied e' name), rfl, ?_⟩)
      refine ⟨.applied e' name, rfl, ?_, rfl⟩
      rw [Expr.meaning, hmeaning, List.foldl_append]
      rfl
    have hgroup : (annotationGroup >>= fun annots => Pure.pure (Suffix.annotate annots)).Leads n
        (.operator context e') [.mark .less] []
        fun s => AtOperator context [] ((suffixes ++ [s]).foldl Suffix.on e.meaning) := by
      refine .map ((leads_exprGroup n context e').imp ?_)
      rintro _ _ _ ⟨g, rfl, rfl, rfl⟩
      refine ⟨.annotated e' g, rfl, ?_, rfl⟩
      rw [Expr.meaning, hmeaning, List.foldl_append, List.foldl_cons, List.foldl_nil, suffix_on_annotate]
    exact hname.orElse hgroup ((starts_ident n).bind _) ((starts_annotationGroup n).bind _) (by decide)
      fun h => absurd rfl h
  refine Leads.repeated (starts_suffix n) hnext ?_ (by decide) ⟨e, rfl, rfl, rfl⟩
  rintro suffixes _ _ ⟨e', rfl, hmeaning, rfl⟩
  exact ⟨e', rfl, hmeaning, rfl⟩

/-! ### Lists -/

section Lists

variable {σ τ : Type} {value : σ → τ} {separator : Mark} {item : Matcher τ} {firsts pending : List TokenKind}
  {stops' : List TokenKind} {atLeast count : Nat} {trailing : Bool} {inside : List σ → Place}
  {goal : Goal (List τ)} {next : Place}

/-- After one more item of a list, where `before` has those before it, last first: a separator leads inside
the list again, and if there is none, the list may have an end. -/
def AfterItem (value : σ → τ) (separator : Mark) (inside : List σ → Place) (goal : Goal (List τ))
    (before : List σ) : Goal τ := fun t next pending =>
  ∃ w, value w = t ∧ stepPlace next (.mark separator) = some (inside (w :: before)) ∧
    goal ((w :: before).reverse.map value) next (join pending [.mark separator])

/-- The first item may be kept apart from those after it. -/
theorem AfterItem.apart {t : τ} {first : σ} {before : List σ}
    (h : AfterItem value separator inside goal (before ++ [first]) t next pending) :
    AfterItem value separator (fun items => inside (items ++ [first])) (fun ts => goal (value first :: ts))
      before t next pending := by
  obtain ⟨w, rfl, hstep, hgoal⟩ := h
  refine ⟨w, rfl, hstep, ?_⟩
  rwa [← List.cons_append, List.reverse_append, List.map_append] at hgoal

/-- The items of a list after the first one. -/
theorem leads_rest (value : σ → τ) (inside : List σ → Place) (hs : item.Starts n firsts none)
    (hitem : ∀ items,
      item.Leads n (inside items) firsts stops (AfterItem value separator inside goal items))
    (hends : ∀ items, (inside items).Ends firsts goal
      (if trailing then some (items.reverse.map value) else none))
    (hstops : .mark separator ∉ stops) (hcount : atLeast ≤ count + 1)
    (htrailing : trailing = true → atLeast ≤ count)
    (hstep : stepPlace place (.mark separator) = some (inside [])) :
    (separated item separator atLeast trailing count).Leads n place [.mark separator]
      (stops ++ if trailing then firsts else [.mark separator]) goal := by
  have hstart : ∃ items : List σ, items.reverse.map value = [] ∧
      stepPlace place (.mark separator) = some (inside items) ∧
        (([] : List τ) ≠ [] → goal [] place (join [] [.mark separator])) :=
    ⟨[], rfl, hstep, fun h => absurd rfl h⟩
  refine Leads.separated
    (J := fun acc place pending => ∃ items : List σ, items.reverse.map value = acc ∧
      stepPlace place (.mark separator) = some (inside items) ∧
        (acc ≠ [] → goal acc place (join pending [.mark separator])))
    hs ?_ ?_ hstops hcount htrailing hstart
  · rintro acc place pending ⟨items, rfl, hstep, -⟩
    refine ⟨inside items, hstep, (hitem items).imp ?_, hends items⟩
    rintro t next pending ⟨w, rfl, hstep, hgoal⟩
    refine ⟨w :: items, by simp, hstep, fun _ => ?_⟩
    rwa [List.reverse_cons, List.map_append] at hgoal
  · rintro acc t place pending ⟨items, -, -, hgoal⟩
    exact hgoal (List.append_ne_nil_of_right_ne_nil _ (List.cons_ne_nil _ _))

/-- A list that is not empty. -/
theorem leads_separatedBy (value : σ → τ) (inside : σ → List σ → Place) (hs : item.Starts n firsts none)
    (hfirst : item.Leads n place firsts stops fun t next pending =>
      ∃ w, value w = t ∧ stepPlace next (.mark separator) = some (inside w []) ∧
        goal [value w] next (join pending [.mark separator]))
    (hitem : ∀ first items, item.Leads n (inside first items) firsts stops
      (AfterItem value separator (inside first) (fun ts => goal (value first :: ts)) items))
    (hends : ∀ first items, (inside first items).Ends firsts (fun ts => goal (value first :: ts))
      (if trailing then some (items.reverse.map value) else none))
    (hstops : .mark separator ∉ stops) (hcount : atLeast ≤ 1)
    (hstops' : ∀ kind ∈ stops ++ (if trailing then firsts else [.mark separator]) ++ firsts, kind ∈ stops') :
    (separatedBy item separator atLeast trailing).Leads n place firsts stops' goal := by
  have hdefault := starts_separated n item separator trailing hcount
  have hitems : (item >>= fun first => separated item separator atLeast trailing 1 >>= fun rest =>
      Pure.pure (first :: rest)).Leads n place firsts
        (stops ++ if trailing then firsts else [.mark separator]) goal := by
    refine hfirst.bind (fun t => hdefault.map _) (fun _ h => List.disjoint_singleton.2 hstops h)
      (fun _ _ kind => List.mem_append_left _) ?_
    rintro t next pending ⟨w, rfl, hstep, hgoal⟩
    exact ⟨.map (leads_rest value (inside w) hs (hitem w) (hends w) hstops (Nat.le_succ_of_le hcount)
      (fun _ => hcount) hstep), hgoal⟩
  have hitems' := hitems.mono_stops fun kind hkind => hstops' kind (List.mem_append_left firsts hkind)
  rw [separatedBy]
  split
  · have horElse := hitems'.orElse (leads_pure n place [] _ _) (hs.bind _) (starts_pure n [])
      (fun _ _ => List.not_mem_nil) fun _ kind hkind => hstops' kind (List.mem_append_right _ hkind)
    rwa [join_nil] at horElse
  · exact hitems'

end Lists

/-! ### Forms -/

theorem atOperator_sum (context : Context) (lead : Bool) (variants : List (Variant Expr)) :
    AtOperator context [] (.sum (variants.map (Variant.map Expr.meaning)) ∅)
      (.operator context (.sum lead variants)) [] := by
  refine ⟨.sum lead variants, rfl, ?_, rfl⟩
  rw [Expr.meaning, Expr.variantsMeaning_eq_map]

theorem atOperator_record (context : Context) (fields : List (Field Expr)) :
    AtOperator context [] (.record (fields.map (Field.map Expr.meaning)) ∅)
      (.operator context (.record fields)) [] := by
  refine ⟨.record fields, rfl, ?_, rfl⟩
  rw [Expr.meaning, Expr.fieldsMeaning_eq_map]

theorem atOperator_closeTerminated (context : Context) (before : List (Field Expr)) :
    AtOperator context [] (.record (before.reverse.map (Field.map Expr.meaning)) ∅)
      (.operator context (closeTerminated before)) [] := by
  refine ⟨closeTerminated before, rfl, ?_, rfl⟩
  cases before with
  | nil => rfl
  | cons last before =>
    rw [closeTerminated, Expr.meaning, Expr.fieldsMeaning_eq_map, Expr.lineMeaning_eq_map]
    simp

theorem atOperator_product (context : Context) (first : Expr) (rest : List Expr) :
    AtOperator context [] (tuple (first.meaning :: rest.map Expr.meaning))
      (.operator context (.product first rest)) [] := by
  refine ⟨.product first rest, rfl, ?_, rfl⟩
  cases rest with
  | nil => rfl
  | cons second rest =>
    rw [Expr.meaning, Expr.allMeaning_eq_map]
    rfl

section Forms

variable {inner : Matcher TypeExpr} (hs : inner.Starts n operandKinds none)
  (hinner : ∀ context, inner.Leads n (.operand context) operandKinds suffixKinds
    (AtOperator context suffixKinds))

include hs hinner

/-- A variant, where its tag may stand. -/
theorem leads_variant {context : Context} {lead : Bool} {before : List (Variant Expr)}
    (htag : ∀ tag, stepPlace place (.ident tag) = some (.tag context lead before tag)) :
    (variant inner).Leads n place [.ident] [.ident, .mark .less, .mark .of]
      (AfterItem (Variant.map Expr.meaning) .bar (.bar context lead)
        (fun vs => Closes .rightBracket (AtOperator context []) (.sum vs ∅)) before) := by
  refine .ident_bind (fun k _ tag => (((starts_mark k .of).bind _).orNot).map _) fun tag =>
    ⟨.tag context lead before tag, htag tag, fun k hk => ?_,
      ⟨tag, none⟩, rfl, rfl, rfl, rfl, _, rfl, atOperator_sum context lead _⟩
  have hpayload : (mark .of >>= fun _ => inner).Leads k (.tag context lead before tag) [.mark .of] suffixKinds
      (AtOperator (context.push (.payload lead before tag)) suffixKinds) :=
    .mark_bind rfl (fun k' hk' => hs.mono (Nat.le_of_lt (Nat.lt_trans hk' hk)))
      (fun k' hk' => (hinner _).mono (Nat.le_of_lt (Nat.lt_trans hk' hk))) ⟨rfl, rfl⟩
  refine .map (.orNot ((hpayload.imp ?_).mono_stops (by decide)) ((starts_mark k .of).bind _) (by decide))
  rintro t next pending ⟨e, rfl, rfl, rfl⟩
  exact ⟨⟨tag, some e⟩, rfl, rfl, rfl, rfl, _, rfl, atOperator_sum context lead _⟩

/-- Some variants, or none, where the tag of the first one may stand. -/
theorem leads_variants {context : Context} {lead : Bool}
    (htag : ∀ tag, stepPlace place (.ident tag) = some (.tag context lead [] tag)) :
    (separatedBy (variant inner) .bar 0 false).Leads n place [.ident]
      [.ident, .mark .less, .mark .of, .mark .bar]
      fun vs => Closes .rightBracket (AtOperator context []) (.sum vs ∅) := by
  have htag' : ∀ before tag,
      stepPlace (.bar context lead before) (.ident tag) = some (.tag context lead before tag) :=
    fun _ _ => rfl
  refine leads_separatedBy (Variant.map Expr.meaning)
    (fun first items => .bar context lead (items ++ [first])) (starts_variant n inner)
    (leads_variant hs hinner htag)
    (fun first items => (leads_variant hs hinner (htag' _)).imp fun _ _ _ => AfterItem.apart)
    (fun first items => ?_) (by decide) (Nat.zero_le 1) (by decide)
  cases items <;> exact ⟨rfl, rfl⟩

theorem leads_sum (context : Context) :
    (sum inner).Leads (n + 1) (.operand context) [.mark .leftBracket] [] (AtOperator context []) := by
  have hvariants : ∀ {place lead}, (∀ tag, stepPlace place (.ident tag) = some (.tag context lead [] tag)) →
      (separatedBy (variant inner) .bar 0 false >>= fun vs => Pure.pure (TypeExpr.sum vs ∅)).Leads n place
        [.ident] [.ident, .mark .less, .mark .of, .mark .bar]
        (Closes .rightBracket (AtOperator context [])) :=
    fun htag => .map (leads_variants hs hinner htag)
  have hbar : (mark .bar).Leads n (.sum context) [.mark .bar] [.mark .bar]
      fun _ next pending => next = .bar context true [] ∧ pending = [] := .mark rfl ⟨rfl, rfl⟩
  have hinside : (orNot (mark .bar) >>= fun _ => separatedBy (variant inner) .bar 0 false >>= fun vs =>
      Pure.pure (TypeExpr.sum vs ∅)).Leads n (.sum context) [.mark .bar, .ident]
        [.ident, .mark .less, .mark .of, .mark .bar] (Closes .rightBracket (AtOperator context [])) := by
    have hlead : (orNot (mark .bar)).Leads n (.sum context) [.mark .bar] [.mark .bar]
        fun _ next pending => next = .bar context true [] ∧ pending = [] :=
      .orNot hbar (starts_mark n .bar) fun _ => id
    refine hlead.bind_of_default ((starts_mark n .bar).orNot) (fun _ => (starts_variants n inner).map _)
      (by decide) (fun _ _ => by decide) ?_ (hvariants fun _ => rfl)
    rintro _ next pending ⟨rfl, rfl⟩
    exact ⟨hvariants fun _ => rfl, rfl, rfl, _, rfl, atOperator_sum context true []⟩
  exact .delimited rfl
    (fun k => ((starts_mark k .bar).orNot).bind_of_default ((starts_variants k inner).map _))
    (fun k hk => hinside.mono (Nat.le_of_lt_succ hk)) ⟨rfl, rfl, _, rfl, atOperator_sum context false []⟩
    (by decide)

/-- A record line, after the brace or a semicolon. -/
theorem leads_line (context : Context) (before : List (Field Expr)) :
    (inherited inner <|> labelled inner).Leads n (.line context before) [.mark .inherit, .ident] suffixKinds
      (AfterItem (Field.map Expr.meaning) .semicolon (.line context)
        (fun fs => Closes .rightBrace (AtOperator context []) (.record fs ∅)) before) := by
  refine Leads.orElse ?_ ?_ ((starts_mark n .inherit).bind _) ((starts_ident n).bind _) (by decide)
    fun h => absurd rfl h
  · refine .mark_bind rfl (fun k hk => (hs.mono (Nat.le_of_lt hk)).bind _)
      (fun k hk => .map (((hinner _).mono (Nat.le_of_lt hk)).imp ?_)) ⟨rfl, rfl⟩
    rintro t next pending ⟨e, rfl, rfl, rfl⟩
    exact ⟨.inherit e, rfl, rfl, rfl, rfl, _, rfl, atOperator_record context _⟩
  · refine .ident_bind (fun k _ label => (starts_mark k .colon).bind _) fun label =>
      ⟨.label context before label, rfl, fun k hk => ?_, rfl, rfl⟩
    refine .mark_bind rfl (fun k' hk' => (hs.mono (Nat.le_of_lt (Nat.lt_trans hk' hk))).bind _)
      (fun k' hk' => .map (((hinner _).mono (Nat.le_of_lt (Nat.lt_trans hk' hk))).imp ?_)) ⟨rfl, rfl⟩
    rintro t next pending ⟨e, rfl, rfl, rfl⟩
    exact ⟨.labelled label e, rfl, rfl, rfl, rfl, _, rfl, atOperator_record context _⟩

/-- Some record lines, or none. A semicolon may stand after the last one. -/
theorem leads_lines (context : Context) :
    (separatedBy (inherited inner <|> labelled inner) .semicolon 0 true).Leads n (.line context [])
      [.mark .inherit, .ident] [.ident, .mark .less, .mark .inherit]
      fun fs => Closes .rightBrace (AtOperator context []) (.record fs ∅) := by
  refine leads_separatedBy (Field.map Expr.meaning) (fun first items => .line context (items ++ [first]))
    (starts_line n inner) (leads_line hs hinner context [])
    (fun first items => (leads_line hs hinner context _).imp fun _ _ _ => AfterItem.apart)
    (fun first items => ?_) (by decide) (Nat.zero_le 1) (by decide)
  have hclosed := atOperator_closeTerminated context (items ++ [first])
  rw [List.reverse_append, List.map_append] at hclosed
  exact ⟨rfl, rfl, _, rfl, hclosed⟩

theorem leads_record (context : Context) :
    (record inner).Leads (n + 1) (.operand context) [.mark .leftBrace] [] (AtOperator context []) := by
  have hinside : (separatedBy (inherited inner <|> labelled inner) .semicolon 0 true >>= fun fs =>
      Pure.pure (TypeExpr.record fs ∅)).Leads n (.line context []) [.mark .inherit, .ident]
        [.ident, .mark .less, .mark .inherit] (Closes .rightBrace (AtOperator context [])) :=
    .map (leads_lines hs hinner context)
  exact .delimited rfl (fun k => (starts_lines k inner).map _)
    (fun k hk => hinside.mono (Nat.le_of_lt_succ hk))
    ⟨rfl, rfl, _, rfl, atOperator_record context []⟩ (by decide)

/-- Items in parentheses, after the first one. -/
theorem leads_moreItems (context : Context) (first : Expr) :
    (moreItems inner first.meaning).Leads n (.operator (context.push .first) first)
      [.mark .star, .mark .rightParen] [] (AtOperator context []) := by
  have hrest : (separated inner .star 1 false 1).Leads n (.operator (context.push .first) first)
      [.mark .star] [.ident, .mark .less, .mark .star]
      fun ts => Closes .rightParen (AtOperator context []) (tuple (first.meaning :: ts)) := by
    refine leads_rest Expr.meaning (fun items => .operand (context.push (.product first items))) hs
      (fun items => (hinner _).imp ?_) (fun _ => ⟨rfl, rfl⟩) (by decide) (by decide) (by decide) rfl
    rintro t next pending ⟨e, rfl, rfl, rfl⟩
    exact ⟨e, rfl, rfl, rfl, rfl, _, rfl, atOperator_product context first _⟩
  exact hrest.bind_of_default (starts_separated n inner .star false (Nat.le_refl 1))
    (fun _ => (starts_mark n _).bind _) (by decide) (fun _ h => absurd rfl h) (fun _ _ _ => Closes.leads)
    (.mark_pure rfl (atOperator_product context first []))

/-- Arguments in parentheses, after the first one, and a name. -/
theorem leads_moreArguments (context : Context) (first : Expr) :
    (moreArguments inner first.meaning).Leads n (.operator (context.push .first) first) [.mark .comma] []
      (AtOperator context []) := by
  have hrest : (separated inner .comma 2 false 1).Leads n (.operator (context.push .first) first)
      [.mark .comma] [.ident, .mark .less, .mark .comma] (Closes .rightParen fun ts next _ =>
        ∃ middle last, next = .applied context first middle last ∧
          (middle ++ [last]).map Expr.meaning = ts) := by
    refine leads_rest Expr.meaning (fun items => .operand (context.push (.arguments first items))) hs
      (fun items => (hinner _).imp ?_) (fun _ => ⟨rfl, rfl⟩) (by decide) (by decide) (by decide) rfl
    rintro t next pending ⟨e, rfl, rfl, rfl⟩
    exact ⟨e, rfl, rfl, rfl, rfl, _, rfl, items.reverse, e, rfl, by simp⟩
  refine hrest.bind (fun _ => (starts_mark n _).bind _) (by decide) (fun _ h => absurd rfl h) ?_
  rintro _ next pending ⟨hcomplete, hexpected, _, hstep, middle, last, rfl, rfl⟩
  refine ⟨.mark_bind hstep (fun k _ => (starts_ident k).bind _) (fun k _ => ?_) ⟨rfl, rfl⟩,
    hcomplete, hexpected⟩
  refine .map (.ident fun name => ⟨_, rfl, .application first middle last name, rfl, ?_, rfl⟩)
  rw [Expr.meaning, Expr.allMeaning_eq_map, List.map_append, List.map_singleton]
  rfl

/-- What may stand in parentheses. -/
theorem leads_parentheses (context : Context) :
    (application inner <|> tupleOrGroup inner).Leads (n + 1) (.operand context) [.mark .leftParen] []
      (AtOperator context []) := by
  rw [application_orElse_tupleOrGroup]
  refine .mark_bind rfl (fun k hk => (hs.mono (Nat.le_of_lt_succ hk)).bind _)
    (fun k hk => Leads.mono ?_ (Nat.le_of_lt_succ hk)) ⟨rfl, rfl⟩
  refine (hinner _).bind
    (fun first => (starts_moreArguments n inner first).orElse (starts_moreItems n inner first)) (by decide)
    (fun _ h => absurd rfl h) ?_
  rintro _ next pending ⟨first, rfl, rfl, rfl⟩
  exact ⟨(leads_moreArguments hs hinner context first).orElse (leads_moreItems hs hinner context first)
    (starts_moreArguments n inner _) (starts_moreItems n inner _) (by decide) fun h => absurd rfl h, rfl, rfl⟩

theorem leads_atom (context : Context) :
    (atom inner).Leads (n + 1) (.operand context) operandKinds [] (AtOperator context []) := by
  have hvar : (var >>= fun name => Pure.pure (TypeExpr.var name ∅)).Leads (n + 1) (.operand context) [.var] []
      (AtOperator context []) :=
    .map (.var fun name => ⟨.operator context (.var name), rfl, .var name, rfl, rfl, rfl⟩)
  have hname : (ident >>= fun name => Pure.pure (TypeExpr.atom name)).Leads (n + 1) (.operand context)
      [.ident] [] (AtOperator context []) :=
    .map (.ident fun name => ⟨.operator context (.ref name), rfl, .ref name, rfl, rfl, rfl⟩)
  have hparentheses := starts_parentheses (n + 1) inner
  have hbraces := (starts_record (n + 1) inner).orElse hparentheses
  have hbrackets := (starts_sum (n + 1) inner).orElse hbraces
  refine hvar.orElse (hname.orElse ?_ ((starts_ident _).bind _) hbrackets (by decide) fun h => absurd rfl h)
    ((starts_var _).bind _) (((starts_ident _).bind _).orElse hbrackets) (by decide) fun h => absurd rfl h
  refine (leads_sum hs hinner context).orElse ?_ (starts_sum _ inner) hbraces (by decide)
    fun h => absurd rfl h
  exact (leads_record hs hinner context).orElse (leads_parentheses hs hinner context) (starts_record _ inner)
    hparentheses (by decide) fun h => absurd rfl h

end Forms

/-- An expression is read where an operand may stand, with all names and annotations after it. -/
theorem leads_expr (n : Nat) (context : Context) :
    expr.Leads n (.operand context) operandKinds suffixKinds (AtOperator context suffixKinds) := by
  rw [expr]
  refine Leads.recursive .operand (AtOperator · suffixKinds)
    (fun n inner => (starts_atom n inner).bind _) (fun n inner hs hinner context => ?_) n context
  refine (leads_atom hs hinner context).bind (fun _ => ((starts_suffix _).repeated).map _)
    (fun _ h => absurd h List.not_mem_nil) (fun _ _ _ h => absurd h List.not_mem_nil) ?_
  rintro _ next pending ⟨e, rfl, rfl, rfl⟩
  exact ⟨.map (leads_suffixes (n + 1) context e), e, rfl, rfl, rfl⟩

/-! ## Definitions -/

theorem starts_params (n : Nat) : params.Starts n [.var, .mark .leftParen] (some []) :=
  ((((starts_var n).bind _).orElse (starts_delimited n _ _ _)).orNot).map _

/-- After the parameters of a definition, where its name may stand. -/
def AfterParams : Goal (List String) := fun names next pending => ∃ ps : Params, ps.meaning = names ∧
  next.complete? = none ∧ next.expected = join pending [.ident] ∧
    ∀ name, stepPlace next (.ident name) = some (.head ⟨ps, name, []⟩)

theorem leads_params (n : Nat) :
    params.Leads n .params [.var, .mark .leftParen] [.var, .mark .leftParen] AfterParams := by
  have hclosed : ∀ ps : Params, AfterParams ps.meaning (.name ps) [] :=
    fun ps => ⟨ps, rfl, rfl, rfl, fun _ => rfl⟩
  have hlist : ∀ k, (separatedBy var .comma 1 false).Leads k .firstParam [.var] [.mark .comma, .var]
      (Closes .rightParen AfterParams) := by
    refine fun k => leads_separatedBy id .nextParam (starts_var k) (.var fun name => ?_)
      (fun first items => .var fun name => ?_) (fun _ _ => ⟨rfl, rfl⟩) List.not_mem_nil (Nat.le_refl 1)
      (by decide)
    · exact ⟨.afterParam name [], rfl, name, rfl, rfl, rfl, rfl, _, rfl, hclosed (.listed name [])⟩
    · refine ⟨.afterParam first (name :: items), rfl, name, rfl, rfl, rfl, rfl, _, rfl, ?_⟩
      rw [List.map_id]
      exact hclosed (.listed first (name :: items).reverse)
  have hlisted : (delimited .leftParen .rightParen (separatedBy var .comma 1 false)).Leads n .params
      [.mark .leftParen] [.var, .mark .leftParen] AfterParams :=
    .delimited rfl (fun k => (starts_var k).bind _) (fun k _ => hlist k) ⟨rfl, rfl⟩ (by decide)
  have hbare : (var >>= fun name => Pure.pure [name]).Leads n .params [.var] [.var, .mark .leftParen]
      AfterParams :=
    .map (.var fun name => ⟨.name (.bare name), rfl, .bare name, rfl, rfl, rfl, fun _ => rfl⟩)
  have hboth := hbare.orElse hlisted ((starts_var n).bind _) (starts_delimited n _ _ _) (by decide)
    fun h => absurd rfl h
  exact .map (.orNot hboth (((starts_var n).bind _).orElse (starts_delimited n _ _ _)) fun _ => id)

/-- After a whole definition that stands for `d`. -/
def AfterDefinition : Goal TypeDef := fun d next pending => ∃ head body, next = .operator ⟨head, []⟩ body ∧
  (head.define body).meaning = d ∧ pending = suffixKinds

/-- What comes after the parameters of a definition. -/
def afterParams (names : List String) : Matcher TypeDef := do
  let name ← ident
  let annots ← repeated annotationGroup
  mark .equals
  let body ← expr
  return ⟨name, names, .ofList annots.flatten, body.normalize⟩

theorem starts_afterParams (n : Nat) (names : List String) : (afterParams names).Starts n [.ident] none :=
  (starts_ident n).bind _

theorem starts_afterType (n : Nat) :
    (params >>= afterParams).Starts n [.var, .mark .leftParen, .ident] none :=
  (starts_params n).bind_of_default (starts_afterParams n [])

theorem leads_headGroups (n : Nat) (ps : Params) (name : String) :
    (repeated annotationGroup).Leads n (.head ⟨ps, name, []⟩) [.mark .less] [.mark .less]
      fun annots next pending => ∃ groups : List Group, next = .head ⟨ps, name, groups⟩ ∧
        groups.reverse.map Group.meaning = annots ∧ pending = [.mark .less] := by
  refine Leads.repeated (J := fun annots next pending => ∃ groups : List Group,
    next = .head ⟨ps, name, groups⟩ ∧ groups.reverse.map Group.meaning = annots ∧ pending = [])
    (starts_annotationGroup n) ?_ ?_ (fun _ h => absurd h List.not_mem_nil) ⟨[], rfl, rfl, rfl⟩
  · rintro _ _ _ ⟨groups, rfl, rfl, rfl⟩
    refine (leads_headGroup n _).imp ?_
    rintro _ _ _ ⟨g, rfl, rfl, rfl⟩
    exact ⟨g :: groups, rfl, by simp, rfl⟩
  · rintro _ _ _ ⟨groups, rfl, rfl, rfl⟩
    exact ⟨groups, rfl, rfl, rfl⟩

theorem leads_afterParams (n : Nat) {names : List String} {pending : List TokenKind}
    (h : AfterParams names place pending) :
    (afterParams names).Leads n place [.ident] suffixKinds AfterDefinition := by
  obtain ⟨ps, rfl, -, -, hstep⟩ := h
  refine .ident_bind
    (fun k _ _ => ((starts_annotationGroup k).repeated).bind_of_default ((starts_mark k .equals).bind _))
    fun name => ⟨_, hstep name, fun k _ => ?_, rfl, rfl⟩
  have hbody : ∀ groups : List Group, (mark .equals >>= fun _ => expr >>= fun body => Pure.pure
      (⟨name, ps.meaning, .ofList (groups.reverse.map Group.meaning).flatten, body.normalize⟩ :
        TypeDef)).Leads k (.head ⟨ps, name, groups⟩) [.mark .equals] suffixKinds AfterDefinition := by
    intro groups
    refine .mark_bind rfl (fun k _ => (starts_expr k).bind _) (fun k _ => .map ((leads_expr k _).imp ?_))
      ⟨rfl, rfl⟩
    rintro _ _ _ ⟨body, rfl, rfl, rfl⟩
    exact ⟨_, body, rfl, rfl, rfl⟩
  refine (leads_headGroups k ps name).bind_of_default ((starts_annotationGroup k).repeated)
    (fun _ => (starts_mark k .equals).bind _) (by decide) (fun _ h => absurd rfl h) ?_ (hbody [])
  rintro _ _ _ ⟨groups, rfl, rfl, rfl⟩
  exact ⟨hbody groups, rfl, rfl⟩

theorem leads_afterType (n : Nat) : (params >>= afterParams).Leads n .params
    [.var, .mark .leftParen, .ident] suffixKinds AfterDefinition := by
  have habsent : AfterParams [] .params [.var, .mark .leftParen] := ⟨.absent, rfl, rfl, rfl, fun _ => rfl⟩
  refine (leads_params n).bind_of_default (starts_params n) (starts_afterParams n) (by decide)
    (fun _ h => absurd rfl h) (fun names next pending h => ⟨leads_afterParams n h, ?_⟩)
    (leads_afterParams n habsent)
  obtain ⟨ps, -, hcomplete, hexpected, -⟩ := h
  exact ⟨hcomplete, hexpected⟩

theorem starts_definition (n : Nat) : definition.Starts n [.mark .type] none := (starts_mark n .type).bind _

theorem leads_definition (n : Nat) :
    definition.Leads n .file [.mark .type] suffixKinds AfterDefinition :=
  .mark_bind rfl (fun k _ => starts_afterType k) (fun k _ => leads_afterType k) ⟨rfl, rfl⟩

end Monomorph.Surface.Descent
