import Monomorph.Proofs.Association
import Monomorph.Proofs.Compilation.Run
import Monomorph.Proofs.Lexing.Within

/-!
# The diagnostics of a compilation

A run that ends with a result carries no error, and a run that is rejected carries one. The check
only points at items, so that all diagnostics of a run have their places inside of the source and
can be shown with a line and a column.

`Compilation.Throws` is the counterpart of `Compilation.Returns` for runs that end without a result.
-/

namespace Monomorph

/-! ## What the check points at -/

namespace Check

variable {P : Span → Prop} {items : List Item}

/-- All that a problem at a place points at satisfies `P` if the place and its related places do. -/
theorem forall_spans_diagnostic {span : Span} {problem : Problem} (hspan : P span)
    (hrelated : ∀ place ∈ problem.related, P place.span) :
    ∀ s ∈ (problem.diagnostic span).spans, P s := by
  refine List.forall_mem_cons.2 ⟨hspan, fun s hs => ?_⟩
  obtain ⟨place, hplace, rfl⟩ := List.mem_map.1 hs
  exact hrelated place hplace

/-- A name that is taken was declared where the scope says. -/
theorem forall_spans_declare {scope : Scope} (hscope : ∀ entry ∈ scope.declared, P entry.2)
    {item : Item} (hitem : P item.span) :
    (∀ entry ∈ (scope.declare item).1.declared, P entry.2) ∧
      ∀ problem ∈ (scope.declare item).2, ∀ place ∈ problem.related, P place.span := by
  rw [Scope.declare]
  split
  · next first hfirst =>
    have hmem : (item.definition.name, first) ∈ scope.declared := Association.mem_of_lookup hfirst
    exact ⟨hscope, List.forall_mem_singleton.2 (List.forall_mem_singleton.2 (hscope _ hmem))⟩
  · split
    · exact ⟨hscope, List.forall_mem_singleton.2 (List.forall_mem_nil _)⟩
    · exact ⟨List.forall_mem_cons.2 ⟨hitem, hscope⟩, List.forall_mem_nil _⟩

theorem forall_spans_declareAll {scope : Scope} (hscope : ∀ entry ∈ scope.declared, P entry.2)
    (hitems : ∀ item ∈ items, P item.span) :
    ∀ d ∈ (scope.declareAll items).2, ∀ s ∈ d.spans, P s := by
  induction items generalizing scope with
  | nil => exact List.forall_mem_nil _
  | cons item rest ih =>
    obtain ⟨hitem, hrest⟩ := List.forall_mem_cons.1 hitems
    obtain ⟨hdeclared, hproblems⟩ := forall_spans_declare hscope hitem
    refine List.forall_mem_append.2 ⟨fun d hd => ?_, ih hdeclared hrest⟩
    obtain ⟨problem, hproblem, rfl⟩ := List.mem_map.1 hd
    exact forall_spans_diagnostic hitem (hproblems problem hproblem)

theorem related_definitionProblems {arities : List (String × Nat)} {d : TypeDef} {problem : Problem}
    (h : problem ∈ definitionProblems arities d) : problem.related = [] := by
  simp only [definitionProblems, List.mem_append, List.mem_map, List.mem_filterMap] at h
  obtain (⟨param, -, rfl⟩ | ⟨t, -, ht⟩) | ⟨param, -, rfl⟩ := h
  · rfl
  · unfold nodeProblem? at ht
    repeat' split at ht
    all_goals
      first
      | (obtain rfl := Option.some.inj ht; rfl)
      | cases ht
  · rfl

theorem related_recursionProblems {graph : CallGraph} {caller : String} {problem : Problem}
    (h : problem ∈ recursionProblems graph caller) : problem.related = [] := by
  obtain ⟨call, -, hcall⟩ := List.mem_filterMap.1 h
  split at hcall
  · obtain rfl := Option.some.inj hcall
    rfl
  · cases hcall

theorem forall_spans_flatMap {problems : Item → List Problem} (hitems : ∀ item ∈ items, P item.span)
    (hrelated : ∀ item, ∀ problem ∈ problems item, problem.related = []) :
    ∀ d ∈ items.flatMap fun item => (problems item).map (Problem.diagnostic item.span),
      ∀ s ∈ d.spans, P s := by
  intro d hd
  obtain ⟨item, hitem, hd⟩ := List.mem_flatMap.1 hd
  obtain ⟨problem, hproblem, rfl⟩ := List.mem_map.1 hd
  refine forall_spans_diagnostic (hitems item hitem) ?_
  rw [hrelated item problem hproblem]
  exact List.forall_mem_nil _

/-- The check only points at items. -/
theorem forall_spans_check {catalogue : List Builtin} (hitems : ∀ item ∈ items, P item.span) :
    ∀ d ∈ check catalogue items, ∀ s ∈ d.spans, P s := by
  refine List.forall_mem_append.2 ⟨List.forall_mem_append.2 ⟨?_, ?_⟩, ?_⟩
  · exact forall_spans_declareAll (List.forall_mem_nil _) hitems
  · exact forall_spans_flatMap hitems fun _ _ => related_definitionProblems
  · exact forall_spans_flatMap hitems fun _ _ => related_recursionProblems

end Check

/-! ## Runs without a result -/

namespace Compilation

variable {α β : Type} {depth : Nat} {options : Options} {items : List Item} {output out : Output}
variable {source : String} {e : CompilationError}

/-- A step of a run ends with an error, for some record of events. -/
def Throws (x : Run α) (e : CompilationError) : Prop :=
  ∃ before after, x.run.run before = (.error e, after)

theorem Throws.bind {x : Run α} {f : α → Run β} (h : Throws (x >>= f) e) :
    Throws x e ∨ ∃ a, Returns x a ∧ Throws (f a) e := by
  obtain ⟨before, after, h⟩ := h
  rw [ExceptT.run_bind, StateT.run_bind] at h
  cases hx : x.run.run before with
  | mk result between =>
    simp only [hx] at h
    cases result with
    | ok a => exact .inr ⟨a, ⟨before, between, hx⟩, between, after, h⟩
    | error e =>
      cases h
      exact .inl ⟨before, between, hx⟩

theorem not_throws_pure {a : α} : ¬ Throws (pure a) e := by
  rintro ⟨before, after, h⟩
  cases h

theorem not_throws_report {event : CompilationEvent} : ¬ Throws (report event) e := by
  rintro ⟨before, after, h⟩
  cases h

theorem Throws.throw_eq {thrown : CompilationError} (h : Throws (throw thrown : Run α) e) :
    thrown = e := by
  obtain ⟨before, after, h⟩ := h
  cases h
  rfl

/-- A step that is only put on record throws nothing of its own. -/
theorem Throws.of_report {event : CompilationEvent} {x : Run α}
    (h : Throws (report event >>= fun _ => x) e) : Throws x e := by
  obtain h | ⟨-, -, h⟩ := h.bind
  · exact absurd h not_throws_report
  · exact h

theorem not_throws_forM_report (events : List ExpansionEvent) :
    ¬ Throws (events.forM fun event => report (.expansion event)) e := by
  intro h
  induction events with
  | nil => exact not_throws_pure h
  | cons event rest ih => exact ih h.of_report

/-! ## The steps -/

/-- To put the end of a pass on record throws nothing. -/
theorem Throws.reported {x : Run α} {event : CompilationEvent}
    (h : Throws (x >>= fun result => report event >>= fun _ => pure result) e) : Throws x e := by
  obtain h | ⟨result, -, h⟩ := h.bind
  · exact h
  · exact absurd h.of_report not_throws_pure

theorem Throws.read (h : Throws (read source) e) :
    (Source.parse source).clean? = none ∧ e = .rejected (Source.parse source).diagnostics := by
  have h := h.of_report
  cases hclean : (Source.parse source).clean? with
  | none =>
    simp only [hclean] at h
    exact ⟨rfl, h.throw_eq.symm⟩
  | some read =>
    simp only [hclean] at h
    exact absurd h.of_report not_throws_pure

/-- Of the passes, only the check rejects definitions, and then with what it has found. -/
theorem Throws.runPass {pass : Pass} {diagnostics : List Diagnostic}
    (h : Throws (runPass depth options items output pass) (.rejected diagnostics)) :
    hasErrors (check Catalogue.standard items) = true ∧
      diagnostics = check Catalogue.standard items := by
  cases pass with
  | check =>
    simp only [Compilation.runPass] at h
    cases herrors : hasErrors (check Catalogue.standard items) with
    | true =>
      simp only [herrors, if_true] at h
      obtain h | ⟨-, -, h⟩ := h.bind
      · cases h.throw_eq
        exact ⟨rfl, rfl⟩
      · exact absurd h not_throws_pure
    | false =>
      simp only [herrors, Bool.false_eq_true, if_false] at h
      exact absurd h not_throws_pure
  | expand =>
    simp only [Compilation.runPass] at h
    obtain h | ⟨-, -, h⟩ := h.bind
    · exact absurd h (not_throws_forM_report _)
    · cases hresult : (expand depth Catalogue.standard output.input options.keepPoly).1 with
      | ok expansion =>
        simp only [hresult] at h
        exact absurd h not_throws_pure
      | error failure =>
        simp only [hresult] at h
        cases h.throw_eq
  | standardize => exact absurd h not_throws_pure

/-- A pass keeps the diagnostics, but for those of the check, which go on if there is no error. -/
theorem Returns.diagnostics {pass : Pass}
    (h : Returns (Compilation.runPass depth options items output pass) out) :
    out.diagnostics = output.diagnostics ∨
      hasErrors (check Catalogue.standard items) = false ∧
        out.diagnostics = check Catalogue.standard items := by
  cases pass with
  | check =>
    obtain ⟨hnone, rfl⟩ := h.runPass_check
    exact .inr ⟨hnone, rfl⟩
  | expand =>
    obtain ⟨expansion, -, rfl⟩ := h.runPass_expand
    exact .inl rfl
  | standardize =>
    obtain rfl := h.runPass_standardize
    exact .inl rfl

/-! ## A run -/

/-- Some passes, one after the other, each put on record. -/
def runPasses (depth : Nat) (options : Options) (items : List Item) (passes : List Pass)
    (output : Output) : Run Output :=
  passes.foldlM (fun output pass => do
    let output ← Compilation.runPass depth options items output pass
    report (.complete pass.name)
    return output) output

theorem Returns.runPasses {passes : List Pass}
    (h : Returns (Compilation.runPasses depth options items passes output) out) :
    out.diagnostics = output.diagnostics ∨
      hasErrors (check Catalogue.standard items) = false ∧
        out.diagnostics = check Catalogue.standard items := by
  induction passes generalizing output with
  | nil => exact .inl (congrArg Output.diagnostics h.pure_eq.symm)
  | cons pass rest ih =>
    rw [Compilation.runPasses, List.foldlM_cons] at h
    obtain ⟨next, hnext, h⟩ := h.bind
    obtain heq | hcheck := ih h
    · rw [heq]
      exact hnext.reported.diagnostics
    · exact .inr hcheck

theorem Throws.runPasses {passes : List Pass} {diagnostics : List Diagnostic}
    (h : Throws (Compilation.runPasses depth options items passes output) (.rejected diagnostics)) :
    hasErrors (check Catalogue.standard items) = true ∧
      diagnostics = check Catalogue.standard items := by
  induction passes generalizing output with
  | nil => exact absurd h not_throws_pure
  | cons pass rest ih =>
    rw [Compilation.runPasses, List.foldlM_cons] at h
    obtain hpass | ⟨next, -, h⟩ := h.bind
    · exact hpass.reported.runPass
    · exact ih h

end Compilation

open Compilation

/-- Everything that a diagnostic points at can be cut out of the source, where it can be shown. -/
structure Diagnostic.Renders (d : Diagnostic) (source : String) : Prop where
  within : ∀ span ∈ d.spans, span.Within source
  rendered : ∀ path, (d.render? path source).isSome = true

theorem Diagnostic.renders_of_within {d : Diagnostic} {source : String}
    (h : ∀ span ∈ d.spans, span.Within source) : d.Renders source :=
  ⟨h, isSome_render? (h d.span List.mem_cons_self)⟩

/-- The diagnostics of a check of the items of a source can be shown. -/
theorem Source.renders_check {source : String} {items : List Item}
    (h : (parse source).clean? = some items) :
    ∀ d ∈ check Catalogue.standard items, d.Renders source := by
  have hitems := within_of_items (clean?_iff_items?.1 h).2
  exact fun d hd => Diagnostic.renders_of_within (Check.forall_spans_check hitems d hd)

/-- A result has no error among its diagnostics, a rejection has one, and all of them can be shown
with the source, whatever the source, the options and the terminal pass. -/
theorem compileTo_diagnostics (depth : Nat) (options : Options) (terminal : Pass)
    (source : String) :
    (∀ out, (compileTo depth options terminal source).1 = .ok out →
      hasErrors out.diagnostics = false ∧ ∀ d ∈ out.diagnostics, d.Renders source) ∧
    ∀ diagnostics, (compileTo depth options terminal source).1 = .error (.rejected diagnostics) →
      hasErrors diagnostics = true ∧ ∀ d ∈ diagnostics, d.Renders source := by
  constructor
  · intro out hout
    have hreturns : Returns (runAll depth options terminal source) out := ⟨[], _, Prod.ext hout rfl⟩
    obtain ⟨items, hread, hpasses⟩ := hreturns.bind
    have hclean := hread.read
    obtain hempty | ⟨hnone, hcheck⟩ := Returns.runPasses hpasses
    · rw [hempty]
      exact ⟨rfl, List.forall_mem_nil _⟩
    · rw [hcheck]
      exact ⟨hnone, Source.renders_check hclean⟩
  · intro diagnostics herror
    have hthrows : Throws (runAll depth options terminal source) (.rejected diagnostics) :=
      ⟨[], _, Prod.ext herror rfl⟩
    obtain hread | ⟨items, hread, hpasses⟩ := hthrows.bind
    · obtain ⟨hclean, heq⟩ := hread.read
      obtain rfl := CompilationError.rejected.inj heq
      exact ⟨Source.hasErrors_diagnostics hclean, fun d hd =>
        Diagnostic.renders_of_within (Source.within_of_mem_diagnostics hd)⟩
    · obtain ⟨herrors, rfl⟩ := Throws.runPasses hpasses
      exact ⟨herrors, Source.renders_check hread.read⟩

/-- A parameter that is not used, which is no error. -/
def Source.label : String := "type 'a label = string"

/-- A name that is defined twice, after a character of two bytes. -/
def Source.pears : String := "type pear = [Ripe] <note text = \"é\">\ntype pear = pear list"

theorem Source.spans_label :
    (compileTo 4 .default .check label).1.toOption.map
      (fun out => out.diagnostics.flatMap Diagnostic.spans) = some [⟨0, 22⟩] := by
  decide +kernel

theorem Source.spans_pears :
    (match (compileTo 4 .default .check pears).1 with
      | .error (.rejected diagnostics) => some (diagnostics.flatMap Diagnostic.spans)
      | _ => none) = some [⟨38, 59⟩, ⟨0, 37⟩] := by
  decide +kernel

/-- A warning about the first file; an error about the second one, with a related place. -/
theorem compileTo_diagnostics_pears :
    (∃ out, (compileTo 4 .default .check Source.label).1 = .ok out ∧
      out.diagnostics.flatMap Diagnostic.spans = [⟨0, 22⟩] ∧ hasErrors out.diagnostics = false ∧
      ∀ d ∈ out.diagnostics, d.Renders Source.label) ∧
    ∃ diagnostics, (compileTo 4 .default .check Source.pears).1 = .error (.rejected diagnostics) ∧
      diagnostics.flatMap Diagnostic.spans = [⟨38, 59⟩, ⟨0, 37⟩] ∧ hasErrors diagnostics = true ∧
      ∀ d ∈ diagnostics, d.Renders Source.pears := by
  constructor
  · have hspans := Source.spans_label
    cases hout : (compileTo 4 .default .check Source.label).1 with
    | ok out =>
      rw [hout] at hspans
      exact ⟨out, rfl, Option.some.inj hspans, (compileTo_diagnostics _ _ _ _).1 out hout⟩
    | error e =>
      rw [hout] at hspans
      cases hspans
  · have hspans := Source.spans_pears
    cases hout : (compileTo 4 .default .check Source.pears).1 with
    | ok out =>
      rw [hout] at hspans
      cases hspans
    | error e =>
      rw [hout] at hspans
      cases e with
      | rejected diagnostics =>
        exact ⟨diagnostics, rfl, Option.some.inj hspans,
          (compileTo_diagnostics _ _ _ _).2 diagnostics hout⟩
      | expansion failure => cases hspans

end Monomorph
