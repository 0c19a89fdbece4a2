import Mathlib.Data.List.Induction
import Monomorph.Proofs.Association
import Monomorph.Proofs.TypeExpr.Variables

/-!
# Names met in turn

A pass that gives names to the names it meets keeps a table of those met so far, each once, in the order of
their first occurrences. `Occurrences.pairing` is this table, where the new name depends on the place in it,
and a name keeps its place when more are met.

A `Ledger` is what such a pass comes down to: its state after some names, and what each name gets. The
judgement `Ledger.Meets` says of one action which names it meets and what value it makes of what they get;
there is a rule for each way of putting actions together, and `Meets.traverse` goes through an expression.
-/

namespace Monomorph

/-- Some names are those that occur in a list, each once, in the order of their first occurrences. -/
structure FirstOccurrences (names all : List String) : Prop where
  nodup : names.Nodup
  mem_iff : ∀ name, name ∈ names ↔ name ∈ all
  earlier : names.Pairwise fun v w => all.idxOf v < all.idxOf w

namespace Occurrences

theorem eraseDups_concat_of_mem {names : List String} {name : String} (h : name ∈ names) :
    (names ++ [name]).eraseDups = names.eraseDups := by
  rw [List.eraseDups_append, List.cons_removeAll, List.nil_removeAll]
  simp [h]

theorem eraseDups_concat_of_notMem {names : List String} {name : String} (h : name ∉ names) :
    (names ++ [name]).eraseDups = names.eraseDups ++ [name] := by
  rw [List.eraseDups_append, List.cons_removeAll, List.nil_removeAll]
  simp only [h, List.contains_eq_mem, decide_false, if_true]
  rfl

theorem earlier_eraseDups (names : List String) :
    names.eraseDups.Pairwise fun v w => names.idxOf v < names.idxOf w := by
  induction names using List.reverseRecOn with
  | nil => exact List.Pairwise.nil
  | append_singleton names name ih =>
    -- Names that occurred before have their first occurrences where they were.
    have hbefore : ∀ {v}, v ∈ names.eraseDups → (names ++ [name]).idxOf v = names.idxOf v :=
      fun hv => List.idxOf_append_of_mem (List.mem_eraseDups.1 hv)
    have hold : names.eraseDups.Pairwise fun v w =>
        (names ++ [name]).idxOf v < (names ++ [name]).idxOf w :=
      ih.imp_of_mem fun hv hw h => by rwa [hbefore hv, hbefore hw]
    by_cases hname : name ∈ names
    · rwa [eraseDups_concat_of_mem hname]
    · rw [eraseDups_concat_of_notMem hname, List.pairwise_append]
      refine ⟨hold, List.pairwise_singleton _ _, fun v hv w hw => ?_⟩
      rw [List.mem_singleton.1 hw, hbefore hv, List.idxOf_append_of_notMem hname]
      exact Nat.lt_add_right _ (List.idxOf_lt_length_of_mem (List.mem_eraseDups.1 hv))

theorem firstOccurrences_eraseDups (names : List String) : FirstOccurrences names.eraseDups names where
  nodup := nodup_eraseDups names
  mem_iff _ := List.mem_eraseDups
  earlier := earlier_eraseDups names

/-! ## The table -/

variable {label : Nat → String} {seen : List String} {name : String}

/-- The table after some names, where the name at a place gets the label of that place. -/
def pairing (label : Nat → String) (seen : List String) : List (String × String) :=
  seen.eraseDups.zipIdx.map fun (name, n) => (name, label n)

/-- What a name gets that is among some names. -/
def numbering (label : Nat → String) (seen : List String) (name : String) : String :=
  label (seen.eraseDups.idxOf name)

theorem map_fst_pairing (label : Nat → String) (seen : List String) :
    (pairing label seen).map Prod.fst = seen.eraseDups := by
  rw [pairing, List.map_map]
  exact List.zipIdx_map_fst ..

@[simp] theorem length_pairing (label : Nat → String) (seen : List String) :
    (pairing label seen).length = seen.eraseDups.length := by
  rw [← map_fst_pairing, List.length_map]

theorem mem_pairing {c : String} :
    (name, c) ∈ pairing label seen ↔ name ∈ seen ∧ c = numbering label seen name := by
  constructor
  · intro h
    obtain ⟨⟨v, n⟩, hmem, heq⟩ := List.mem_map.1 h
    obtain ⟨rfl, rfl⟩ := Prod.mk.inj heq
    obtain ⟨hn, rfl⟩ := List.getElem?_eq_some_iff.1 (List.mk_mem_zipIdx_iff_getElem?.1 hmem)
    refine ⟨List.mem_eraseDups.1 (List.getElem_mem hn), ?_⟩
    rw [numbering, (nodup_eraseDups seen).idxOf_getElem n hn]
  · rintro ⟨hname, rfl⟩
    refine List.mem_map.2 ⟨(name, seen.eraseDups.idxOf name), ?_, rfl⟩
    exact List.mk_mem_zipIdx_iff_getElem?.2 (List.getElem?_idxOf (List.mem_eraseDups.2 hname))

theorem lookup_pairing_of_mem (label : Nat → String) (h : name ∈ seen) :
    (pairing label seen).lookup name = some (numbering label seen name) :=
  Association.lookup_of_mem (map_fst_pairing label seen ▸ nodup_eraseDups seen) (mem_pairing.2 ⟨h, rfl⟩)

theorem lookup_pairing_of_notMem (label : Nat → String) (h : name ∉ seen) :
    (pairing label seen).lookup name = none := by
  refine List.lookup_eq_none_iff.2 fun pair hpair => bne_iff_ne.2 ?_
  obtain ⟨v, c⟩ := pair
  rintro rfl
  exact h (mem_pairing.1 hpair).1

/-- A name keeps its place when more names are met. -/
theorem numbering_append (label : Nat → String) (h : name ∈ seen) (more : List String) :
    numbering label (seen ++ more) name = numbering label seen name := by
  rw [numbering, List.eraseDups_append, List.idxOf_append_of_mem (List.mem_eraseDups.2 h)]
  rfl

theorem pairing_concat_of_mem (label : Nat → String) (h : name ∈ seen) :
    pairing label (seen ++ [name]) = pairing label seen := by
  rw [pairing, pairing, eraseDups_concat_of_mem h]

/-- A new name gets the place after all others. -/
theorem numbering_concat_of_notMem (label : Nat → String) (h : name ∉ seen) :
    numbering label (seen ++ [name]) name = label seen.eraseDups.length := by
  rw [numbering, eraseDups_concat_of_notMem h,
    List.idxOf_append_of_notMem fun hmem => h (List.mem_eraseDups.1 hmem), List.idxOf_cons_self, Nat.add_zero]

theorem pairing_concat_of_notMem (label : Nat → String) (h : name ∉ seen) :
    pairing label (seen ++ [name]) = pairing label seen ++ [(name, label seen.eraseDups.length)] := by
  rw [pairing, pairing, eraseDups_concat_of_notMem h, List.zipIdx_append, List.map_append, Nat.zero_add]
  rfl

end Occurrences

/-! ## Passes -/

/-- What a pass over names comes down to. -/
structure Ledger (σ : Type) where
  /-- The state of the pass after some names. -/
  after : List String → σ
  /-- What a name gets that is among some names. -/
  answer : List String → String → String
  /-- Whether the state has room for some names. -/
  fits : List String → Prop
  answer_append : ∀ {seen name}, name ∈ seen → ∀ more, answer (seen ++ more) name = answer seen name
  fits_of_append : ∀ {seen more}, fits (seen ++ more) → fits seen

namespace Ledger

variable {σ : Type} {m : Type → Type} [Monad m] [LawfulMonad m] {α β γ : Type} {ledger : Ledger σ}

/-- An action meets some names, from left to right, and makes a value from what they get. -/
structure Meets (ledger : Ledger σ) (action : StateT σ m α) (names : List String)
    (value : (String → String) → α) : Prop where
  run : ∀ seen, ledger.fits (seen ++ names) → action.run (ledger.after seen) =
    pure (value (ledger.answer (seen ++ names)), ledger.after (seen ++ names))
  congr : ∀ {f g}, (∀ name ∈ names, f name = g name) → value f = value g

namespace Meets

omit [LawfulMonad m] in
theorem pure (x : α) : ledger.Meets (m := m) (Pure.pure x) [] fun _ => x where
  run seen _ := by rw [List.append_nil, StateT.run_pure]
  congr _ := rfl

variable {action : StateT σ m α} {names : List String} {value : (String → String) → α}

theorem map (h : ledger.Meets action names value) (make : α → β) :
    ledger.Meets (do return make (← action)) names fun f => make (value f) where
  run seen hfits := by
    rw [StateT.run_bind, h.run seen hfits, pure_bind, StateT.run_pure]
  congr hfg := congrArg make (h.congr hfg)

/-- Two actions in a row: what the names of the first have got they still have when the second is done. -/
theorem pair (h : ledger.Meets action names value) {next : StateT σ m β} {names' : List String}
    {value' : (String → String) → β} (h' : ledger.Meets next names' value') (make : α → β → γ) :
    ledger.Meets (do let x ← action; return make x (← next)) (names ++ names')
      fun f => make (value f) (value' f) where
  run seen hfits := by
    rw [← List.append_assoc] at hfits
    have hfirst : value (ledger.answer (seen ++ names)) = value (ledger.answer (seen ++ names ++ names')) :=
      h.congr fun name hname => (ledger.answer_append (List.mem_append_right seen hname) names').symm
    rw [StateT.run_bind, h.run seen (ledger.fits_of_append hfits), pure_bind, (h'.map (make _)).run _ hfits,
      hfirst, List.append_assoc]
  congr hfg := by
    rw [h.congr fun name hname => hfg name (List.mem_append_left _ hname),
      h'.congr fun name hname => hfg name (List.mem_append_right _ hname)]

/-- The run of a list of actions, from the runs of its members. -/
theorem mapM {act : α → StateT σ m β} {met : α → List String} {make : (String → String) → α → β}
    {items : List α} (h : ∀ x ∈ items, ledger.Meets (act x) (met x) (make · x)) :
    ledger.Meets (items.mapM act) (items.flatMap met) fun f => items.map (make f) := by
  induction items with
  | nil => exact pure []
  | cons x rest ih =>
    rw [List.mapM_cons]
    exact (h x List.mem_cons_self).pair (ih fun y hy => h y (List.mem_cons_of_mem _ hy)) List.cons

theorem variant {act : α → StateT σ m β} {met : α → List String} {make : (String → String) → α → β}
    {v : Variant α} (h : ∀ x ∈ v.payload, ledger.Meets (act x) (met x) (make · x)) :
    ledger.Meets (v.mapM act) (v.payload.toList.flatMap met) fun f => v.map (make f) := by
  obtain ⟨tag, payload⟩ := v
  cases payload with
  | none => exact pure (⟨tag, none⟩ : Variant β)
  | some x =>
    rw [Option.toList_some, List.flatMap_singleton]
    exact (h x rfl).map fun y => (⟨tag, some y⟩ : Variant β)

theorem field {act : α → StateT σ m β} {met : α → List String} {make : (String → String) → α → β}
    {line : Field α} (h : ledger.Meets (act line.type) (met line.type) (make · line.type)) :
    ledger.Meets (line.mapM act) (met line.type) fun f => line.map (make f) := by
  cases line with
  | labelled label x => exact h.map (Field.labelled label)
  | inherit x => exact h.map Field.inherit

end Meets

/-! ## Passes over an expression -/

open TypeExpr

/-- A pass that treats each variable and each head of an application on its own. -/
def visitor (onVar onHead : String → StateT σ m String) : Visitor (StateT σ m) where
  var name a := do return .var (← onVar name) a
  container kind element a := Pure.pure (.container kind element a)
  head := onHead
  named name args a := Pure.pure (.named name args a)

/-- The names at the root of an expression that such a pass meets. -/
def namesAt (ofVar ofHead : String → List String) : TypeExpr → List String
  | .var name _ => ofVar name
  | .named name _ _ => ofHead name
  | _ => []

/-- The names in an expression that such a pass meets. -/
def namesIn (ofVar ofHead : String → List String) (t : TypeExpr) : List String :=
  t.subterms.flatMap (namesAt ofVar ofHead)

theorem namesIn_eq (ofVar ofHead : String → List String) (t : TypeExpr) :
    namesIn ofVar ofHead t = namesAt ofVar ofHead t ++ t.children.flatMap (namesIn ofVar ofHead) := by
  rw [namesIn, subterms_eq, List.flatMap_cons, List.flatMap_assoc]
  rfl

/-- What becomes of the nodes that carry a name in such a pass. -/
def renamed (newVar newHead : String → String) : Rebuild where
  var name a := .var (newVar name) a
  named name args a := .named (newHead name) args a

/-- A pass that treats variables and heads, each on its own, goes through an expression in the order of
reading, the head of an application before its arguments. -/
theorem Meets.traverse {onVar onHead : String → StateT σ m String} {ofVar ofHead : String → List String}
    {newVar newHead : (String → String) → String → String}
    (hvar : ∀ name, ledger.Meets (onVar name) (ofVar name) (newVar · name))
    (hhead : ∀ name, ledger.Meets (onHead name) (ofHead name) (newHead · name)) (t : TypeExpr) :
    ledger.Meets (t.traverse (visitor onVar onHead)) (namesIn ofVar ofHead t)
      fun f => t.rebuild (renamed (newVar f) (newHead f)) := by
  induction t with
  | sum variants a ih =>
    rw [namesIn_eq, children, List.filterMap_eq_flatMap_toList, List.flatMap_assoc, traverse_sum]
    simp only [rebuild_sum]
    exact (mapM fun v hv => variant (ih v hv)).map fun items => TypeExpr.sum items a
  | record fields a ih =>
    rw [namesIn_eq, children, List.flatMap_map, traverse_record]
    simp only [rebuild_record]
    exact (mapM fun line hline => field (ih line hline)).map fun items => TypeExpr.record items a
  | tuple items a ih =>
    rw [namesIn_eq, traverse_tuple]
    simp only [rebuild_tuple]
    exact (mapM ih).map fun items => TypeExpr.tuple items a
  | container kind element a ih =>
    rw [namesIn_eq, children, List.flatMap_singleton, traverse_container]
    simp only [rebuild_container]
    exact ih.map fun element => TypeExpr.container kind element a
  | var name a =>
    rw [namesIn_eq, children, List.flatMap_nil, List.append_nil, traverse_var]
    simp only [rebuild_var]
    exact (hvar name).map fun name => TypeExpr.var name a
  | named name args a ih =>
    rw [namesIn_eq, traverse_named]
    simp only [rebuild_named]
    exact (hhead name).pair (mapM ih) fun head args => TypeExpr.named head args a

/-- A pass that renames variables meets them in the order of reading. -/
theorem Meets.renameVarsM {onVar : String → StateT σ m String}
    (hvar : ∀ name, ledger.Meets (onVar name) [name] (· name)) (t : TypeExpr) :
    ledger.Meets (t.renameVarsM onVar) t.varNames (t.renameVars ·) := by
  have hnames : t.varNames = namesIn (fun name => [name]) (fun _ => []) t := by
    rw [varNames, List.filterMap_eq_flatMap_toList]
    exact List.flatMap_congr fun u _ => by cases u <;> rfl
  rw [hnames]
  exact Meets.traverse hvar (fun name => Meets.pure name) t

end Ledger

end Monomorph
