import Monomorph.Proofs.Surface.Foresight
import Monomorph.Proofs.Surface.Reading

/-!
# Matchers and the automaton

`Matcher.Leads` compares a matcher with the automaton that reads definitions. On an input that begins with one
of the kinds of tokens with which the matcher begins, the automaton reads what the matcher reads, or it reads
up to the token at which the matcher got stuck. In both cases the record of the matcher has what the automaton
expects.

A matcher that got stuck inside an optional part does not fail: it gives the part back, and what follows fails
on a token that comes before. So `Leads` also has the kinds of tokens that may stand there, its *stops*; a
matcher that comes next must not begin with one of them.

There is one rule for each way to combine matchers. Those for the forms that repeat a part take an invariant
`J`: what holds of all values so far, of the place after them, and of the kinds that were tried there in vain.
-/

namespace Monomorph.Surface

open Missing Monomorph.Surface.Parser

variable {α β : Type} {m m' : Option Missing} {kinds firsts stops stops' pending : List TokenKind}
  {lexemes rest before : List Lexeme} {place mid next : Place}

theorem length_lt_of_split (hsplit : lexemes = before ++ rest) (hne : before ≠ []) :
    rest.length < lexemes.length := by
  have hpos := List.length_pos_iff.2 hne
  simp [hsplit, hpos]

/-- What is said of a value, of the place after it, and of the kinds that were tried there in vain. -/
abbrev Goal (α : Type) : Type := α → Place → List TokenKind → Prop

/-- Where nothing is read, the automaton expects what was tried in vain, unless there is a default. -/
def Parser.Place.Ends (place : Place) (pending : List TokenKind) (goal : Goal α) : Option α → Prop
  | none => place.complete? = none ∧ place.expected = pending
  | some value => goal value place pending

/-- An outcome agrees with the automaton. -/
inductive Outcome.Tracks (place : Place) (stops : List TokenKind) (goal : Goal α) (lexemes : List Lexeme)
    (o : Outcome α) : Prop where
  /-- Both have read the same tokens. -/
  | done {before rest : List Lexeme} {value : α} {next : Place} {pending : List TokenKind}
    (split : lexemes = before ++ rest) (progress : before ≠ []) (result : o.result = some (value, rest))
    (reading : read place (before.map Lexeme.token) = some next) (reached : goal value next pending)
    (notes : Notes o.missing rest.length pending) (refused : ¬ Meets pending rest)
  /-- The automaton stops at a token. If the outcome is not a failure, it stops further back. -/
  | stuck {before rest : List Lexeme} {next : Place}
    (split : lexemes = before ++ rest) (progress : before ≠ [])
    (reading : read place (before.map Lexeme.token) = some next) (incomplete : next.complete? = none)
    (notes : Notes o.missing rest.length next.expected) (refused : ¬ Meets next.expected rest)
    (back : ∀ value stop, o.result = some (value, stop) →
      rest.length < stop.length ∧ stop.length ≤ lexemes.length ∧ Meets stops stop)

namespace Outcome.Tracks

variable {goal goal' : Goal α} {o : Outcome α} {value : α}

theorem imp (h : o.Tracks place stops goal lexemes)
    (hgoal : ∀ value next pending, goal value next pending → goal' value next pending)
    (hstops : ∀ kind ∈ stops, kind ∈ stops') : o.Tracks place stops' goal' lexemes := by
  cases h with
  | done split progress result reading reached notes refused =>
    exact .done split progress result reading (hgoal _ _ _ reached) notes refused
  | stuck split progress reading incomplete notes refused back =>
    refine .stuck split progress reading incomplete notes refused fun value stop hresult => ?_
    obtain ⟨hlt, hle, hmeets⟩ := back value stop hresult
    exact ⟨hlt, hle, hmeets.mono hstops⟩

theorem map {f : α → β} {goal : Goal β} (h : o.Tracks place stops (fun a => goal (f a)) lexemes) :
    (o.map f).Tracks place stops goal lexemes := by
  cases h with
  | done split progress result reading reached notes refused =>
    exact .done split progress (by rw [Outcome.map, result]; rfl) reading reached notes refused
  | stuck split progress reading incomplete notes refused back =>
    refine .stuck split progress reading incomplete notes refused fun value stop hresult => ?_
    obtain ⟨⟨a, stop'⟩, hresult', heq⟩ := Option.map_eq_some_iff.1 hresult
    obtain ⟨rfl, rfl⟩ := Prod.mk.inj heq
    exact back a _ hresult'

/-- What was missing before a matcher reads on is further back than what it notes. -/
theorem after (h : o.Tracks place stops goal lexemes) (hm : Notes m lexemes.length kinds) :
    (o.after m).Tracks place stops goal lexemes := by
  cases h with
  | done split progress result reading reached notes refused =>
    exact .done split progress result reading reached
      (hm.merge_right notes (length_lt_of_split split progress)) refused
  | stuck split progress reading incomplete notes refused back =>
    exact .stuck split progress reading incomplete
      (hm.merge_right notes (length_lt_of_split split progress)) refused back

/-- Where nothing more is read, the default decides. -/
theorem of_ends {default : Option α} (split : lexemes = before ++ rest) (progress : before ≠ [])
    (reading : read place (before.map Lexeme.token) = some next) (hends : next.Ends pending goal default)
    (notes : Notes m rest.length pending) (refused : ¬ Meets pending rest) :
    Tracks place stops goal lexemes ⟨default.map (·, rest), m⟩ := by
  cases default with
  | none =>
    obtain ⟨hcomplete, rfl⟩ := hends
    exact .stuck split progress reading hcomplete notes refused nofun
  | some value => exact .done split progress rfl reading hends notes refused

/-- The automaton reads on from a place that it has reached. -/
theorem of_read (h : o.Tracks next stops goal rest) (split : lexemes = before ++ rest)
    (reading : read place (before.map Lexeme.token) = some next) : o.Tracks place stops goal lexemes := by
  have happend : ∀ {more : List Lexeme} {last : Place}, read next (more.map Lexeme.token) = some last →
      read place ((before ++ more).map Lexeme.token) = some last := by
    intro more last hlast
    rw [List.map_append, Parser.read, List.foldlM_append]
    exact Option.bind_eq_some_iff.2 ⟨next, reading, hlast⟩
  cases h with
  | done split' progress result reading' reached notes refused =>
    exact .done (by rw [split, split', List.append_assoc]) (List.append_ne_nil_of_right_ne_nil _ progress)
      result (happend reading') reached notes refused
  | stuck split' progress reading' incomplete notes refused back =>
    refine .stuck (by rw [split, split', List.append_assoc]) (List.append_ne_nil_of_right_ne_nil _ progress)
      (happend reading') incomplete notes refused fun value stop hresult => ?_
    obtain ⟨hlt, hle, hmeets⟩ := back value stop hresult
    exact ⟨hlt, Nat.le_trans hle (by simp [split]), hmeets⟩

/-! ### Failures -/

/-- What is tried again where a matcher has begun adds nothing. -/
theorem merge_left (h : Tracks place stops goal lexemes ⟨none, m⟩) (hm : Notes m' lexemes.length kinds) :
    Tracks place stops goal lexemes ⟨none, merge m m'⟩ := by
  cases h with
  | done split progress result reading reached notes refused => cases result
  | stuck split progress reading incomplete notes refused back =>
    exact .stuck split progress reading incomplete
      (notes.merge_left hm (length_lt_of_split split progress)) refused nofun

/-- A matcher that fails may be taken for one that has read nothing. -/
theorem give_back {goal' : Goal β} (h : Tracks place stops goal lexemes ⟨none, m⟩) (default : Option β)
    (hmeets : default ≠ none → Meets stops' lexemes) :
    Tracks place stops' goal' lexemes ⟨default.map (·, lexemes), m⟩ := by
  cases h with
  | done split progress result reading reached notes refused => cases result
  | stuck split progress reading incomplete notes refused back =>
    refine .stuck split progress reading incomplete notes refused fun value stop hsome => ?_
    obtain ⟨a, rfl, heq⟩ := Option.map_eq_some_iff.1 hsome
    obtain ⟨-, rfl⟩ := Prod.mk.inj heq
    exact ⟨length_lt_of_split split progress, Nat.le_refl _, hmeets (Option.some_ne_none a)⟩

/-- A matcher that has read nothing has got stuck, and may fail as well. -/
theorem fail {goal' : Goal β} (h : Tracks place stops goal lexemes ⟨some (value, rest), m⟩)
    (hrest : ¬ rest.length < lexemes.length) : Tracks place stops' goal' lexemes ⟨none, m⟩ := by
  cases h with
  | done split progress result reading reached notes refused =>
    cases result
    exact absurd (length_lt_of_split split progress) hrest
  | stuck split progress reading incomplete notes refused back =>
    exact .stuck split progress reading incomplete notes refused nofun

theorem length_le (h : Tracks place stops goal lexemes ⟨some (value, rest), m⟩) :
    rest.length ≤ lexemes.length := by
  cases h with
  | done split progress result reading reached notes refused =>
    cases result
    exact Nat.le_of_lt (length_lt_of_split split progress)
  | stuck split progress reading incomplete notes refused back => exact (back value rest rfl).2.1

end Outcome.Tracks

namespace Matcher

variable {n k : Nat} {goal goal' : Goal α} {default : Option α} {p q : Matcher α}
  {firstsP stopsP : List TokenKind}

/-- On short inputs that begin with one of some kinds, a matcher agrees with the automaton. -/
def Leads (n : Nat) (place : Place) (p : Matcher α) (firsts stops : List TokenKind) (goal : Goal α) : Prop :=
  ∀ lexemes : List Lexeme, lexemes.length < n → Meets firsts lexemes →
    (p lexemes).Tracks place stops goal lexemes

theorem Leads.mono (h : p.Leads n place firsts stops goal) (hk : k ≤ n) : p.Leads k place firsts stops goal :=
  fun lexemes hlt => h lexemes (Nat.lt_of_lt_of_le hlt hk)

theorem Leads.imp (h : p.Leads n place firsts stops goal)
    (hgoal : ∀ value next pending, goal value next pending → goal' value next pending) :
    p.Leads n place firsts stops goal' :=
  fun lexemes hlt hmeets => (h lexemes hlt hmeets).imp hgoal fun _ => id

theorem Leads.mono_stops (h : p.Leads n place firsts stops goal) (hstops : ∀ kind ∈ stops, kind ∈ stops') :
    p.Leads n place firsts stops' goal :=
  fun lexemes hlt hmeets => (h lexemes hlt hmeets).imp (fun _ _ _ => id) hstops

theorem leads_pure (n : Nat) (place : Place) (a : α) (stops : List TokenKind) (goal : Goal α) :
    (Pure.pure a : Matcher α).Leads n place [] stops goal :=
  fun _ _ hmeets => absurd hmeets not_meets_nil

theorem Leads.map {f : α → β} {goal : Goal β} (h : p.Leads n place firsts stops fun a => goal (f a)) :
    (p >>= fun a => Pure.pure (f a)).Leads n place firsts stops goal := by
  intro lexemes hlt hmeets
  rw [map_apply]
  exact (h lexemes hlt hmeets).map

/-! ### Single tokens -/

/-- A token, and what comes after it. -/
theorem Leads.select_bind {kind : TokenKind} {value? : Token → Option α} {f : α → Matcher β} {goal : Goal β}
    {default : α → Option β} (hf : ∀ k < n, ∀ a, (f a).Starts k firsts (default a))
    (h : ∀ token, token.kind = kind → ∃ a mid, value? token = some a ∧ stepPlace place token = some mid ∧
      (∀ k < n, (f a).Leads k mid firsts stops goal) ∧ mid.Ends firsts goal (default a)) :
    (select kind value? >>= f).Leads n place [kind] stops goal := by
  intro lexemes hlt hmeets
  obtain ⟨lexeme, rest, rfl, hkind⟩ := hmeets.exists_cons
  obtain ⟨a, mid, hvalue, hstep, hleads, hends⟩ := h lexeme.token (List.mem_singleton.1 hkind)
  have hselect : select kind value? (lexeme :: rest) = ⟨some (a, rest), none⟩ := by rw [select, hvalue]
  have hread : read place ([lexeme].map Lexeme.token) = some mid := by simp [hstep]
  have hsplit : lexeme :: rest = [lexeme] ++ rest := rfl
  rw [bind_of_some hselect, Outcome.after_none]
  by_cases hfirsts : Meets firsts rest
  · exact (hleads (rest.length + 1) hlt rest (Nat.lt_succ_self _) hfirsts).of_read hsplit hread
  · obtain ⟨m, hrest, hnotes⟩ := hf (rest.length + 1) hlt a rest (Nat.lt_succ_self _) hfirsts
    rw [hrest]
    exact .of_ends hsplit (List.cons_ne_nil _ _) hread hends hnotes hfirsts

theorem Leads.mark_bind {sign : Mark} {f : Unit → Matcher β} {goal : Goal β} {default : Option β}
    (hstep : stepPlace place (.mark sign) = some mid) (hf : ∀ k < n, (f ()).Starts k firsts default)
    (h : ∀ k < n, (f ()).Leads k mid firsts stops goal) (hends : mid.Ends firsts goal default) :
    (mark sign >>= f).Leads n place [.mark sign] stops goal := by
  refine Leads.select_bind (fun k hk _ => hf k hk) ?_
  rintro (m | _ | _ | _) hkind <;> cases hkind
  exact ⟨(), mid, if_pos rfl, hstep, h, hends⟩

theorem Leads.mark {sign : Mark} {goal : Goal Unit} (hstep : stepPlace place (.mark sign) = some next)
    (hgoal : goal () next []) : (mark sign).Leads n place [.mark sign] stops goal := by
  rw [← bind_pure (Matcher.mark sign)]
  exact .mark_bind hstep (fun k _ => starts_pure k ()) (fun k _ => leads_pure k next () stops goal) hgoal

/-- A last sign. -/
theorem Leads.mark_pure {sign : Mark} {a : α} (hstep : stepPlace place (.mark sign) = some next)
    (hgoal : goal a next []) :
    (Matcher.mark sign >>= fun _ => Pure.pure a : Matcher α).Leads n place [.mark sign] stops goal :=
  .map (.mark hstep hgoal)

theorem Leads.ident_bind {f : String → Matcher β} {goal : Goal β} {default : String → Option β}
    (hf : ∀ k < n, ∀ name, (f name).Starts k firsts (default name))
    (h : ∀ name, ∃ mid, stepPlace place (.ident name) = some mid ∧
      (∀ k < n, (f name).Leads k mid firsts stops goal) ∧ mid.Ends firsts goal (default name)) :
    (ident >>= f).Leads n place [.ident] stops goal := by
  refine Leads.select_bind hf ?_
  rintro (_ | _ | _ | name) hkind <;> cases hkind
  obtain ⟨mid, hstep, hleads, hends⟩ := h name
  exact ⟨name, mid, rfl, hstep, hleads, hends⟩

theorem Leads.ident {goal : Goal String}
    (h : ∀ name, ∃ next, stepPlace place (.ident name) = some next ∧ goal name next []) :
    ident.Leads n place [.ident] stops goal := by
  rw [← bind_pure Matcher.ident]
  refine Leads.ident_bind (fun k _ name => starts_pure k name) fun name => ?_
  obtain ⟨next, hstep, hgoal⟩ := h name
  exact ⟨next, hstep, fun k _ => leads_pure k next name stops goal, hgoal⟩

theorem Leads.var {goal : Goal String}
    (h : ∀ name, ∃ next, stepPlace place (.var name) = some next ∧ goal name next []) :
    var.Leads n place [.var] stops goal := by
  rw [← bind_pure Matcher.var]
  refine Leads.select_bind (fun k _ name => starts_pure k name) ?_
  rintro (_ | name | _ | _) hkind <;> cases hkind
  obtain ⟨next, hstep, hgoal⟩ := h name
  exact ⟨name, next, rfl, hstep, fun k _ => leads_pure k next name stops goal, hgoal⟩

theorem Leads.text {goal : Goal String}
    (h : ∀ value, ∃ next, stepPlace place (.text value) = some next ∧ goal value next []) :
    text.Leads n place [.text] stops goal := by
  rw [← bind_pure Matcher.text]
  refine Leads.select_bind (fun k _ value => starts_pure k value) ?_
  rintro (_ | _ | value | _) hkind <;> cases hkind
  obtain ⟨next, hstep, hgoal⟩ := h value
  exact ⟨value, next, rfl, hstep, fun k _ => leads_pure k next value stops goal, hgoal⟩

/-! ### Sequences -/

section Bind

variable {f : α → Matcher β} {goalP : Goal α} {goal : Goal β} {default : α → Option β}

/-- One part after another one, which must not begin with a stop of the first one. -/
theorem tracks_bind (htracks : (p lexemes).Tracks place stopsP goalP lexemes) (hlt : lexemes.length < n)
    (hf : ∀ a, (f a).Starts n firsts (default a)) (hstops : ∀ kind ∈ stopsP, kind ∉ firsts)
    (hpass : ∀ a, default a ≠ none → ∀ kind ∈ stopsP, kind ∈ stops)
    (h : ∀ a next pending, goalP a next pending →
      (f a).Leads lexemes.length next firsts stops goal ∧ next.Ends (join pending firsts) goal (default a)) :
    ((p >>= f) lexemes).Tracks place stops goal lexemes := by
  rcases hp : p lexemes with ⟨r, m⟩
  rw [hp] at htracks
  cases htracks with
  | @done before rest a next pending split progress result reading reached notes refused =>
    obtain rfl : r = some (a, rest) := result
    have hrest := length_lt_of_split split progress
    obtain ⟨hleads, hends⟩ := h a next pending reached
    rw [bind_of_some hp]
    by_cases hfirsts : Meets firsts rest
    · exact ((hleads rest hrest hfirsts).after notes).of_read split reading
    · obtain ⟨m', hfrest, hnotes⟩ := hf a rest (Nat.lt_trans hrest hlt) hfirsts
      rw [hfrest]
      refine .of_ends split progress reading hends (notes.merge hnotes) ?_
      rw [meets_join, not_or]
      exact ⟨refused, hfirsts⟩
  | @stuck before rest next split progress reading incomplete notes refused back =>
    rcases r with _ | ⟨a, stop⟩
    · rw [bind_of_none hp]
      exact .stuck split progress reading incomplete notes refused nofun
    · -- The next part begins too far back, at a token with which it does not begin.
      obtain ⟨hback, hle, hstop⟩ := back a stop rfl
      obtain ⟨m', hfstop, hnotes⟩ := hf a stop (Nat.lt_of_le_of_lt hle hlt) (hstop.not hstops)
      rw [bind_of_some hp, hfstop]
      refine .stuck split progress reading incomplete (notes.merge_left hnotes hback) refused ?_
      intro value stop' hsome
      obtain ⟨b, hb, heq⟩ := Option.map_eq_some_iff.1 hsome
      obtain ⟨-, rfl⟩ := Prod.mk.inj heq
      exact ⟨hback, hle, hstop.mono (hpass a (by simp [hb]))⟩

theorem Leads.bind (hp : p.Leads n place firstsP stopsP goalP) (hf : ∀ a, (f a).Starts n firsts (default a))
    (hstops : ∀ kind ∈ stopsP, kind ∉ firsts) (hpass : ∀ a, default a ≠ none → ∀ kind ∈ stopsP, kind ∈ stops)
    (h : ∀ a next pending, goalP a next pending →
      (f a).Leads n next firsts stops goal ∧ next.Ends (join pending firsts) goal (default a)) :
    (p >>= f).Leads n place firstsP stops goal := fun lexemes hlt hmeets =>
  tracks_bind (hp lexemes hlt hmeets) hlt hf hstops hpass fun a next pending hgoal =>
    (h a next pending hgoal).imp_left (Leads.mono · (Nat.le_of_lt hlt))

/-- A part that need not be there, and another one. -/
theorem Leads.bind_of_default {a₀ : α} (hp : p.Leads n place firstsP stopsP goalP)
    (hskip : p.Starts n firstsP (some a₀)) (hf : ∀ a, (f a).Starts n firsts (default a))
    (hstops : ∀ kind ∈ stopsP, kind ∉ firsts) (hpass : ∀ a, default a ≠ none → ∀ kind ∈ stopsP, kind ∈ stops)
    (h : ∀ a next pending, goalP a next pending →
      (f a).Leads n next firsts stops goal ∧ next.Ends (join pending firsts) goal (default a))
    (h₀ : (f a₀).Leads n place firsts stops goal) :
    (p >>= f).Leads n place (join firstsP firsts) stops goal := by
  intro lexemes hlt hmeets
  by_cases hfirst : Meets firstsP lexemes
  · exact hp.bind hf hstops hpass h lexemes hlt hfirst
  · obtain ⟨m, hpl, hnotes⟩ := hskip lexemes hlt hfirst
    rw [bind_of_some hpl]
    exact (h₀ lexemes hlt ((meets_join.1 hmeets).resolve_left hfirst)).after hnotes

end Bind

/-! ### Alternatives -/

/-- Alternatives that begin with different kinds of tokens. -/
theorem Leads.orElse (hp : p.Leads n place firstsP stops goal) (hq : q.Leads n place firsts stops goal)
    (hsp : p.Starts n firstsP none) (hsq : q.Starts n firsts default)
    (hdisjoint : ∀ kind ∈ firstsP, kind ∉ firsts) (hpass : default ≠ none → ∀ kind ∈ firstsP, kind ∈ stops) :
    (p <|> q).Leads n place (join firstsP firsts) stops goal := by
  intro lexemes hlt hmeets
  by_cases hfirst : Meets firstsP lexemes
  · have htracks := hp lexemes hlt hfirst
    rcases hpl : p lexemes with ⟨_ | r, m⟩
    · -- The second way is tried where the first one has begun, which is further back.
      obtain ⟨m', hql, hnotes⟩ := hsq lexemes hlt (hfirst.not hdisjoint)
      rw [hpl] at htracks
      rw [orElse_of_none hpl, hql]
      exact (htracks.merge_left hnotes).give_back default fun hne => hfirst.mono (hpass hne)
    · rwa [orElse_of_some hpl, ← hpl]
  · obtain ⟨m, hpl, hnotes⟩ := hsp lexemes hlt hfirst
    rw [orElse_of_none hpl]
    exact (hq lexemes hlt ((meets_join.1 hmeets).resolve_left hfirst)).after hnotes

theorem Leads.orNot {goal : Goal (Option α)} (hp : p.Leads n place firsts stops fun a => goal (some a))
    (hs : p.Starts n firsts none) (hpass : ∀ kind ∈ firsts, kind ∈ stops) :
    (orNot p).Leads n place firsts stops goal := by
  have horElse := hp.map.orElse (leads_pure n place none stops goal) (hs.bind _) (starts_pure n none)
    (fun _ _ => List.not_mem_nil) fun _ => hpass
  rwa [join_nil] at horElse

/-! ### Brackets -/

/-- Where a bracket can be closed, and what is reached then. -/
def Closes (closing : Mark) (goal : Goal α) : Goal α := fun a next pending =>
  next.complete? = none ∧ next.expected = join pending [.mark closing] ∧
    ∃ last, stepPlace next (.mark closing) = some last ∧ goal a last []

theorem Closes.leads {closing : Mark} {a : α} (h : Closes closing goal a next pending) :
    (Matcher.mark closing >>= fun _ => Pure.pure a : Matcher α).Leads n next [.mark closing] stops goal ∧
      next.Ends (join pending [.mark closing]) goal none := by
  obtain ⟨hcomplete, hexpected, last, hstep, hlast⟩ := h
  exact ⟨.mark_pure hstep hlast, hcomplete, hexpected⟩

theorem Leads.delimited {opening closing : Mark} (hopen : stepPlace place (.mark opening) = some mid)
    (hs : ∀ n, p.Starts n firsts default) (hp : ∀ k < n, p.Leads k mid firsts stopsP (Closes closing goal))
    (hends : mid.Ends firsts (Closes closing goal) default) (hstops : .mark closing ∉ stopsP) :
    (delimited opening closing p).Leads n place [.mark opening] stops goal := by
  have hafter : ∀ k a,
      (Matcher.mark closing >>= fun _ => Pure.pure a : Matcher α).Starts k [.mark closing] none :=
    fun k a => (starts_mark k closing).bind _
  have hdisjoint : ∀ kind ∈ stopsP, kind ∉ [.mark closing] := fun _ h => List.disjoint_singleton.2 hstops h
  cases default with
  | none =>
    exact .mark_bind hopen (fun k _ => (hs k).bind _)
      (fun k hk => (hp k hk).bind (hafter k) hdisjoint (fun _ h => absurd rfl h) fun _ _ _ => Closes.leads)
      hends
  | some a =>
    obtain ⟨hcomplete, hexpected, last, hstep, hlast⟩ := hends
    refine .mark_bind hopen (fun k _ => (hs k).bind_of_default (hafter k a)) (fun k hk => ?_)
      ⟨hcomplete, hexpected⟩
    exact (hp k hk).bind_of_default (hs k) (hafter k) hdisjoint (fun _ h => absurd rfl h)
      (fun _ _ _ => Closes.leads) (.mark_pure hstep hlast)

/-! ### Repetition -/

/-- A part again and again, after some values. -/
theorem leads_repeated {J goal : Goal (List α)} (hs : p.Starts n firsts none)
    (hp : ∀ acc place pending, J acc place pending →
      p.Leads n place firsts stops fun a next pending => J (acc ++ [a]) next pending)
    (hend : ∀ acc place pending, J acc place pending → goal acc place (join pending firsts))
    (hstops : ∀ kind ∈ stops, kind ∉ firsts) {acc : List α} (h : J acc place pending) :
    (repeated p).Leads n place firsts (stops ++ firsts) fun as => goal (acc ++ as) := by
  induction n generalizing acc place pending with
  | zero => exact fun lexemes hlt => absurd hlt (Nat.not_lt_zero _)
  | succ n ih =>
    intro lexemes hlt hmeets
    have htracks := hp acc place pending h lexemes hlt hmeets
    rcases hpl : p lexemes with ⟨_ | ⟨a, rest⟩, m⟩
    · rw [hpl] at htracks
      rw [repeated_of_none hpl]
      exact htracks.give_back (some []) fun _ => hmeets.mono fun kind => List.mem_append_right stops
    by_cases hprogress : rest.length < lexemes.length
    · have hlater : repeated p lexemes =
          (p >>= fun a => repeated p >>= fun as => Pure.pure (a :: as)) lexemes := by
        rw [repeated_of_some hpl hprogress, bind_of_some hpl, map_apply]
      rw [hlater]
      refine tracks_bind htracks hlt (fun a => hs.repeated.map _) hstops
        (fun a _ kind => List.mem_append_left firsts) fun a next pending hnext => ⟨?_, hend _ _ _ hnext⟩
      have hrest := ih (hs.mono (Nat.le_succ n))
        (fun acc place pending h => (hp acc place pending h).mono (Nat.le_succ n)) hnext
      simp only [List.append_assoc, List.singleton_append] at hrest
      refine Leads.map ?_
      exact hrest.mono (Nat.lt_succ_iff.1 hlt)
    · rw [hpl] at htracks
      rw [repeated_of_not_lt hpl hprogress]
      exact htracks.fail hprogress

theorem Leads.repeated {J goal : Goal (List α)} (hs : p.Starts n firsts none)
    (hp : ∀ acc place pending, J acc place pending →
      p.Leads n place firsts stops fun a next pending => J (acc ++ [a]) next pending)
    (hend : ∀ acc place pending, J acc place pending → goal acc place (join pending firsts))
    (hstops : ∀ kind ∈ stops, kind ∉ firsts) (h : J [] place pending) :
    (repeated p).Leads n place firsts (stops ++ firsts) goal := leads_repeated hs hp hend hstops h

/-! ### Lists with separators -/

section Separated

variable {item : Matcher α} {separator : Mark} {atLeast count : Nat} {trailing : Bool} {lexeme : Lexeme}
  {inside : List Lexeme} {J goal : Goal (List α)}

/-- A separator, and no item. The separator stays with the list only if it may be trailing. -/
theorem tracks_separated_of_not_meets (hmark : lexeme.token = .mark separator)
    (hstep : stepPlace place (.mark separator) = some mid) (hitem : item inside = ⟨none, m⟩)
    (hnotes : Notes m inside.length firsts) (hfirsts : ¬ Meets firsts inside)
    (hends : mid.Ends firsts goal (if trailing then some [] else none))
    (htrailing : trailing = true → atLeast ≤ count) :
    (separated item separator atLeast trailing count (lexeme :: inside)).Tracks place
      (stops ++ if trailing then firsts else [.mark separator]) goal (lexeme :: inside) := by
  have hread : read place ([lexeme].map Lexeme.token) = some mid := by simp [hmark, hstep]
  have hsplit : lexeme :: inside = [lexeme] ++ inside := rfl
  rw [separated_of_none hmark hitem]
  cases trailing with
  | true =>
    rw [if_neg (Nat.not_lt.2 (htrailing rfl))]
    exact .of_ends hsplit (List.cons_ne_nil _ _) hread hends hnotes hfirsts
  | false =>
    obtain ⟨hcomplete, rfl⟩ := hends
    refine .stuck hsplit (List.cons_ne_nil _ _) hread hcomplete hnotes hfirsts fun value stop hsome => ?_
    split at hsome
    · cases hsome
    · cases hsome
      exact ⟨Nat.lt_succ_self _, Nat.le_refl _, meets_cons.2 (by simp [hmark, Token.kind])⟩

/-- A separator, and an item that got stuck. -/
theorem tracks_separated_of_stuck {goalP : Goal α} (hmark : lexeme.token = .mark separator)
    (hstep : stepPlace place (.mark separator) = some mid) (hitem : item inside = ⟨none, m⟩)
    (htracks : Outcome.Tracks mid stops goalP inside ⟨none, m⟩) (hfirsts : Meets firsts inside) :
    (separated item separator atLeast trailing count (lexeme :: inside)).Tracks place
      (stops ++ if trailing then firsts else [.mark separator]) goal (lexeme :: inside) := by
  have hread : read place ([lexeme].map Lexeme.token) = some mid := by simp [hmark, hstep]
  have hsplit : lexeme :: inside = [lexeme] ++ inside := rfl
  -- What is given back: nothing where the list fails, else all from the item on or from the separator on.
  have hresult : ∀ back : List Lexeme, (if count < atLeast then none else some ([], back)) =
      (if count < atLeast then none else some ([] : List α)).map (·, back) := by
    intro back
    split <;> rfl
  rw [separated_of_none hmark hitem, hresult]
  cases trailing with
  | true =>
    have hmeets := hfirsts.mono fun kind => List.mem_append_right stops
    exact (htracks.give_back _ fun _ => hmeets).of_read hsplit hread
  | false =>
    exact (htracks.of_read hsplit hread).give_back _ fun _ => meets_cons.2 (by simp [hmark, Token.kind])

/-- A separator and an item, and the rest of the list. -/
theorem tracks_separated_of_item {goalP : Goal α} {a : α} (hmark : lexeme.token = .mark separator)
    (hstep : stepPlace place (.mark separator) = some mid) (hitem : item inside = ⟨some (a, rest), m⟩)
    (htracks : (item inside).Tracks mid stops goalP inside) (hstops : .mark separator ∉ stops)
    (hcount : atLeast ≤ count + 1)
    (hrest : ∀ a next pending, goalP a next pending →
      (separated item separator atLeast trailing (count + 1)).Leads inside.length next [.mark separator]
        (stops ++ stops') (fun as => goal (a :: as)) ∧ goal [a] next (join pending [.mark separator])) :
    (separated item separator atLeast trailing count (lexeme :: inside)).Tracks place (stops ++ stops') goal
      (lexeme :: inside) := by
  have hread : read place ([lexeme].map Lexeme.token) = some mid := by simp [hmark, hstep]
  have hlater : separated item separator atLeast trailing count (lexeme :: inside) =
      (item >>= fun a => separated item separator atLeast trailing (count + 1) >>= fun as =>
        Pure.pure (a :: as)) inside := by
    rw [separated_of_some hmark hitem (hitem ▸ htracks).length_le, bind_of_some hitem, map_apply]
  rw [hlater]
  refine Outcome.Tracks.of_read ?_ List.singleton_append.symm hread
  exact tracks_bind htracks (Nat.lt_succ_self _)
    (fun a => (starts_separated _ item separator trailing hcount).map _)
    (fun _ h => List.disjoint_singleton.2 hstops h) (fun a _ kind => List.mem_append_left _)
    fun a next pending h => (hrest a next pending h).imp_left .map

/-- A separator and an item again and again, after some items. -/
theorem leads_separated (hs : item.Starts n firsts none)
    (hitem : ∀ acc place pending, J acc place pending → ∃ mid, stepPlace place (.mark separator) = some mid ∧
      (item.Leads n mid firsts stops fun a next pending => J (acc ++ [a]) next pending) ∧
        mid.Ends firsts goal (if trailing then some acc else none))
    (hend : ∀ acc a place pending, J (acc ++ [a]) place pending →
      goal (acc ++ [a]) place (join pending [.mark separator]))
    (hstops : .mark separator ∉ stops) (hcount : atLeast ≤ count + 1)
    (htrailing : trailing = true → atLeast ≤ count) {acc : List α} (h : J acc place pending) :
    (separated item separator atLeast trailing count).Leads n place [.mark separator]
      (stops ++ if trailing then firsts else [.mark separator]) fun as => goal (acc ++ as) := by
  induction n generalizing acc place pending count with
  | zero => exact fun lexemes hlt => absurd hlt (Nat.not_lt_zero _)
  | succ n ih =>
    intro lexemes hlt hmeets
    obtain ⟨lexeme, inside, rfl, hkind⟩ := hmeets.exists_cons
    have hmark : lexeme.token = .mark separator := by
      have hkind' := List.mem_singleton.1 hkind
      cases htoken : lexeme.token <;> simp_all [Token.kind]
    obtain ⟨mid, hstep, hleads, hends⟩ := hitem acc place pending h
    have hinside : inside.length < n + 1 := Nat.lt_of_succ_lt hlt
    by_cases hfirsts : Meets firsts inside
    case neg =>
      obtain ⟨m, hi, hnotes⟩ := hs inside hinside hfirsts
      refine tracks_separated_of_not_meets hmark hstep hi hnotes hfirsts ?_ htrailing
      cases trailing with
      | true => simpa [Place.Ends] using hends
      | false => exact hends
    case pos =>
      have htracks := hleads inside hinside hfirsts
      rcases hi : item inside with ⟨_ | ⟨a, rest⟩, m⟩
      · exact tracks_separated_of_stuck hmark hstep hi (hi ▸ htracks) hfirsts
      refine tracks_separated_of_item hmark hstep hi htracks hstops hcount fun a next pending hnext =>
        ⟨?_, hend acc a next pending hnext⟩
      have hrest := ih (hs.mono (Nat.le_succ n)) (fun acc place pending h => by
          obtain ⟨mid, hstep, hleads, hends⟩ := hitem acc place pending h
          exact ⟨mid, hstep, hleads.mono (Nat.le_succ n), hends⟩)
        (Nat.le_succ_of_le hcount) (fun ht => Nat.le_succ_of_le (htrailing ht)) hnext
      simp only [List.append_assoc, List.singleton_append] at hrest
      exact hrest.mono (Nat.le_of_lt_succ hinside)

theorem Leads.separated (hs : item.Starts n firsts none)
    (hitem : ∀ acc place pending, J acc place pending → ∃ mid, stepPlace place (.mark separator) = some mid ∧
      (item.Leads n mid firsts stops fun a next pending => J (acc ++ [a]) next pending) ∧
        mid.Ends firsts goal (if trailing then some acc else none))
    (hend : ∀ acc a place pending, J (acc ++ [a]) place pending →
      goal (acc ++ [a]) place (join pending [.mark separator]))
    (hstops : .mark separator ∉ stops) (hcount : atLeast ≤ count + 1)
    (htrailing : trailing = true → atLeast ≤ count) (h : J [] place pending) :
    (separated item separator atLeast trailing count).Leads n place [.mark separator]
      (stops ++ if trailing then firsts else [.mark separator]) goal :=
  leads_separated hs hitem hend hstops hcount htrailing h

end Separated

/-! ### Recursion -/

theorem Leads.recursive {body : Matcher α → Matcher α} {ι : Type} (at' : ι → Place) (goal : ι → Goal α)
    (hs : ∀ n p, (body p).Starts n firsts none)
    (h : ∀ n p, p.Starts n firsts none → (∀ i, p.Leads n (at' i) firsts stops (goal i)) →
      ∀ i, (body p).Leads (n + 1) (at' i) firsts stops (goal i)) (n : Nat) (i : ι) :
    (recursive body).Leads n (at' i) firsts stops (goal i) := by
  induction n using Nat.strongRecOn generalizing i with
  | ind n ih =>
    intro lexemes hlt hmeets
    have hguard : ∀ inner : List Lexeme, inner.length < lexemes.length →
        (if inner.length < lexemes.length then Matcher.recursive body inner else ⟨none, none⟩) =
          Matcher.recursive body inner :=
      fun inner h => if_pos h
    rw [Matcher.recursive]
    refine h lexemes.length _ (fun inner hinner hfirsts => ?_) (fun i inner hinner hfirsts => ?_) i lexemes
      (Nat.lt_succ_self _) hmeets
    · rw [hguard inner hinner]
      exact Starts.recursive hs _ inner hinner hfirsts
    · rw [hguard inner hinner]
      exact ih lexemes.length hlt i inner hinner hfirsts

end Matcher

end Monomorph.Surface
