import Monomorph.Compilation

/-!
# What a compilation returns

A step of a run only adds to the record of events, and what it returns does not depend on the
record. `Compilation.Returns` leaves the record out. Each pass has one lemma that says what it needs and
what it changes, and `Returns.runAll` puts them together for a run with standard names.
-/

namespace Monomorph

namespace Compilation

variable {α β : Type} {depth : Nat} {options : Options} {items : List Item} {output out : Output}
variable {source : String}

/-- A step of a run returns a value, for some record of events. -/
def Returns (x : Run α) (a : α) : Prop := ∃ before after, x.run.run before = (.ok a, after)

theorem Returns.bind {x : Run α} {f : α → Run β} {b : β} (h : Returns (x >>= f) b) :
    ∃ a, Returns x a ∧ Returns (f a) b := by
  obtain ⟨before, after, h⟩ := h
  rw [ExceptT.run_bind, StateT.run_bind] at h
  cases hx : x.run.run before with
  | mk result between =>
    simp only [hx] at h
    cases result with
    | ok a => exact ⟨a, ⟨before, between, hx⟩, between, after, h⟩
    | error e => cases h

theorem Returns.pure_eq {a b : α} (h : Returns (pure a) b) : a = b := by
  obtain ⟨before, after, h⟩ := h
  cases h
  rfl

theorem not_returns_throw {e : CompilationError} {a : α} : ¬ Returns (throw e) a := by
  rintro ⟨before, after, h⟩
  cases h

/-! ## The steps -/

theorem Returns.read (h : Returns (read source) items) :
    (Source.parse source).clean? = some items := by
  obtain ⟨-, -, h⟩ := h.bind
  cases hclean : (Source.parse source).clean? with
  | none =>
    simp only [hclean] at h
    exact absurd h not_returns_throw
  | some read =>
    simp only [hclean] at h
    obtain ⟨-, -, h⟩ := h.bind
    rw [h.pure_eq]

/-- The check goes on if it finds no error, and keeps what it has found. -/
theorem Returns.runPass_check (h : Returns (runPass depth options items output .check) out) :
    hasErrors (check Catalogue.standard items) = false ∧
      out = { output with diagnostics := check Catalogue.standard items } := by
  simp only [runPass] at h
  cases herrors : hasErrors (check Catalogue.standard items) with
  | true =>
    simp only [herrors, if_true] at h
    exact absurd h not_returns_throw
  | false =>
    simp only [herrors, Bool.false_eq_true, if_false] at h
    exact ⟨rfl, h.pure_eq.symm⟩

/-- The definitions are those of the expansion. -/
theorem Returns.runPass_expand (h : Returns (runPass depth options items output .expand) out) :
    ∃ expansion,
      (expand depth Catalogue.standard output.input options.keepPoly).1 = .ok expansion ∧
      out = { output with definitions := expansion.definitions, origins := expansion.origins } := by
  simp only [runPass] at h
  obtain ⟨-, -, h⟩ := h.bind
  cases hresult : (expand depth Catalogue.standard output.input options.keepPoly).1 with
  | ok expansion =>
    simp only [hresult] at h
    exact ⟨expansion, rfl, h.pure_eq.symm⟩
  | error failure =>
    simp only [hresult] at h
    exact absurd h not_returns_throw

/-- The definitions are those that were there, under standard names. -/
theorem Returns.runPass_standardize (h : Returns (runPass depth options items output .standardize) out) :
    out = { output with
      definitions := (standardize output.definitions output.origins options.stem
        (takenNames Catalogue.standard output.input)).definitions
      origins := (standardize output.definitions output.origins options.stem
        (takenNames Catalogue.standard output.input)).origins } :=
  h.pure_eq.symm

/-! ## A run -/

/-- To put the end of a pass on record changes nothing. -/
theorem Returns.reported {x : Run α} {event : CompilationEvent} {a : α}
    (h : Returns (x >>= fun result => report event >>= fun _ => pure result) a) : Returns x a := by
  obtain ⟨result, hx, h⟩ := h.bind
  obtain ⟨-, -, h⟩ := h.bind
  rwa [← h.pure_eq]

/-- What a run with standard names returns, and what it takes for it. -/
theorem Returns.runAll (h : Returns (runAll depth options .standardize source) out) :
    ∃ items expansion,
      (Source.parse source).clean? = some items ∧
      hasErrors (check Catalogue.standard items) = false ∧
      (expand depth Catalogue.standard (items.map Item.definition) options.keepPoly).1 =
        .ok expansion ∧
      out.definitions = (standardize expansion.definitions expansion.origins options.stem
        (takenNames Catalogue.standard (items.map Item.definition))).definitions := by
  obtain ⟨items, hread, h⟩ := h.bind
  simp only [Pass.required, List.foldlM_cons, List.foldlM_nil] at h
  obtain ⟨checked, hcheck, h⟩ := h.bind
  obtain ⟨expanded, hexpand, h⟩ := h.bind
  obtain ⟨renamed, hrename, h⟩ := h.bind
  obtain rfl := h.pure_eq
  obtain ⟨hnoErrors, rfl⟩ := hcheck.reported.runPass_check
  obtain ⟨expansion, hexpansion, rfl⟩ := hexpand.reported.runPass_expand
  obtain rfl := hrename.reported.runPass_standardize
  exact ⟨items, expansion, hread.read, hnoErrors, hexpansion, rfl⟩

end Compilation

end Monomorph
