import Monomorph.Proofs.Check.Completeness
import Monomorph.Proofs.Compilation.Run
import Monomorph.Proofs.StandardName.Writable

/-!
# The text that a compilation prints

What a run with standard names prints is a source text again: it is read without an error, as the
definitions that were printed, and if generics are kept, the check finds no error in it. The definitions of
an expansion are in order and can be written but for the names of specializations, and the standard names
keep them in order and can be written.
-/

namespace Monomorph

open Compilation

variable {depth : Nat} {options : Options} {source : String} {out : Output}

theorem Compilation.returns_of_compile (hdebug : options.debug = false)
    (hout : (compile depth options source).1 = .ok out) :
    Returns (runAll depth options .standardize source) out := by
  have hterminal : options.terminal = .standardize := by simp [Options.terminal, hdebug]
  rw [compile, hterminal, compileTo] at hout
  exact ⟨[], _, Prod.ext hout rfl⟩

namespace Accepted

variable {definitions : List TypeDef} {keepPoly : Bool} {added : List Use} {stem : String}

/-- The definitions of an expansion can be written under standard names. -/
theorem writable_standardize (h : Accepted definitions)
    (hvisits : Visits h.library [] (TypeDef.roots keepPoly definitions) added)
    (hstem : IsIdentifier stem) {d : TypeDef}
    (hd : d ∈ (standardize (h.library.outcome keepPoly definitions added).definitions
      (h.library.outcome keepPoly definitions added).origins stem
      (takenNames Catalogue.standard definitions)).definitions) : d.Writable := by
  obtain ⟨out, hout, rfl⟩ := List.mem_map.1 hd
  refine (StandardName.assigns_rename _ stem _).writable_renameTypes hstem (fun kind => ?_) hout
    (h.nameable_outcome hvisits hout)
  exact List.mem_append_left _ (List.mem_map_of_mem (containerType_mem_standard kind))

/-- With generics kept, the definitions of an expansion are in order under standard names. -/
theorem wellFormed_standardize (h : Accepted definitions)
    (hvisits : Visits h.library [] (TypeDef.roots true definitions) added) (stem : String) :
    WellFormed Catalogue.standard (standardize (h.library.outcome true definitions added).definitions
      (h.library.outcome true definitions added).origins stem
      (takenNames Catalogue.standard definitions)).definitions :=
  (h.wellFormed_outcome hvisits).renameTypes
    (h.keepsApart_outcome (StandardName.assigns_rename _ stem _) (List.subset_append_left _ _))

end Accepted

/-- What is printed is a source text again: it is read without an error and gives the definitions of the
output, in order, and if generics are kept, the check finds no error in them. -/
theorem Output.parse_render (hdebug : options.debug = false) (hstem : IsIdentifier options.stem)
    (hout : (compile depth options source).1 = .ok out) :
    ∃ items, Source.parse out.render = ⟨[], .ok items⟩ ∧ items.map Item.definition = out.definitions ∧
      (options.keepPoly = true → hasErrors (check Catalogue.standard items) = false) := by
  obtain ⟨input, expansion, hclean, hcheck, hexpand, hdefinitions⟩ :=
    (returns_of_compile hdebug hout).runAll
  have h := Accepted.of_source hclean hcheck
  obtain ⟨added, hvisits, houtcome⟩ | ⟨-, -, -, hdeep⟩ := h.expand_cases options.keepPoly depth
  · obtain rfl := Except.ok.inj (houtcome.symm.trans hexpand)
    have hwritable : ∀ d ∈ out.definitions, d.Writable := by
      rw [hdefinitions]
      exact fun d hd => h.writable_standardize hvisits hstem hd
    refine ⟨_, Source.parse_text hwritable, Source.definitions_locate hwritable _, fun hkeep => ?_⟩
    apply Check.noErrors_of_wellFormed nodup_standard
    rw [Source.definitions_locate hwritable, hdefinitions]
    rw [hkeep] at hvisits ⊢
    exact h.wellFormed_standardize hvisits options.stem
  · rw [hdeep] at hexpand
    cases hexpand

/-- Two generics that lead to each other, one of them under a name that a specialization could get. -/
def Source.orchard : String :=
  "type 'a tree = \x7bvalue : 'a; children : 'a _1\x7d\n" ++ "type 'a _1 = 'a tree list\n" ++
    "type names = string tree"

/-- The text for `orchard`, with generics kept. -/
def Source.orchardText : String :=
  "type 'a tree = \x7b value : 'a; children : 'a _1 \x7d\n" ++ "type 'a _1 = 'a _2\n" ++
    "type names = _3\n" ++ "type 'a _2 = 'a tree list\n" ++
    "type _3 = \x7b value : string; children : _4 \x7d\n" ++ "type _4 = _5\n" ++ "type _5 = _3 list\n"

theorem Source.render_orchard :
    (compile 4 ⟨true, "_", false⟩ orchard).1.toOption.map Output.render = some orchardText := by
  decide +kernel

/-- The numbers start after the one that the file has taken. -/
theorem Output.parse_render_orchard :
    ∃ out, (compile 4 ⟨true, "_", false⟩ Source.orchard).1 = .ok out ∧ IsIdentifier "_" ∧
      out.render = Source.orchardText ∧
      ∃ items, Source.parse out.render = ⟨[], .ok items⟩ ∧ items.map Item.definition = out.definitions ∧
        hasErrors (check Catalogue.standard items) = false := by
  have hstem : IsIdentifier "_" := by decide
  have hrender := Source.render_orchard
  cases hout : (compile 4 ⟨true, "_", false⟩ Source.orchard).1 with
  | error e =>
    rw [hout] at hrender
    cases hrender
  | ok out =>
    rw [hout] at hrender
    obtain ⟨items, hparse, hdefinitions, hcheck⟩ := Output.parse_render rfl hstem hout
    exact ⟨out, rfl, hstem, Option.some.inj hrender, items, hparse, hdefinitions, hcheck rfl⟩

end Monomorph
