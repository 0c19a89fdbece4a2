import Mathlib.Data.Nat.Nth
import Monomorph.Proofs.StandardName.Numbering
import Monomorph.Proofs.TypeExpr.InTurn

/-!
# Standard names on demand

Standard names can be given while the names are met: first those of the definitions, then all of them again
with the heads in the bodies, in the order of reading. `StandardName.request` answers a name with the one that
it has got before, or else looks for the next free number with `StandardName.seek`, a loop without a bound of
its own over a counter of 32 bits. `rounds` says how often the loop may go round, and where that is not enough
there is no answer at all.

The loop ends because the reserved names cannot take all numbers, and the counter never comes back to a
number as long as there are fewer names than numbers. After some names it stands at the last number that was
given, so the number that is found next is the next one in `Nat.nth`, whichever of the two rounds over the
definitions asks for it.
-/

namespace Monomorph

namespace StandardName

variable {reserved : List String} {stem : String}

/-! ## Free numbers -/

/-- A number whose name is not reserved. -/
def IsFree (reserved : List String) (stem : String) (n : Nat) : Prop := 1 ≤ n ∧ numbered stem n ∉ reserved

instance : DecidablePred (IsFree reserved stem) := fun n =>
  inferInstanceAs (Decidable (1 ≤ n ∧ numbered stem n ∉ reserved))

theorem infinite_isFree (reserved : List String) (stem : String) :
    (Set.ofPred (IsFree reserved stem)).Infinite := by
  refine Set.infinite_of_forall_exists_gt fun n => ?_
  obtain ⟨k, hle, -, hfree⟩ := @exists_free stem reserved (n + 1)
  exact ⟨k, ⟨by omega, hfree⟩, by omega⟩

/-- The last of the first free numbers, as many as given. -/
noncomputable def lastNumber (reserved : List String) (stem : String) : Nat → Nat
  | 0 => 0
  | k + 1 => Nat.nth (IsFree reserved stem) k

/-- The next free number is the least one after the last. -/
theorem isLeast_nth (reserved : List String) (stem : String) (k : Nat) :
    IsLeast {n | lastNumber reserved stem k < n ∧ numbered stem n ∉ reserved}
      (Nat.nth (IsFree reserved stem) k) := by
  have hinfinite := infinite_isFree reserved stem
  obtain ⟨hpos, hfree⟩ := Nat.nth_mem_of_infinite hinfinite k
  constructor
  · refine ⟨?_, hfree⟩
    cases k with
    | zero => exact hpos
    | succ k => exact (Nat.nth_lt_nth hinfinite).2 (Nat.lt_succ_self k)
  · intro n hn
    refine (Nat.isLeast_nth_of_infinite hinfinite k).2 ⟨⟨Nat.lt_of_le_of_lt (Nat.zero_le _) hn.1, hn.2⟩, ?_⟩
    intro j hj
    cases k with
    | zero => cases hj
    | succ k => exact Nat.lt_of_le_of_lt ((Nat.nth_le_nth hinfinite).2 (Nat.le_of_lt_succ hj)) hn.1

/-- The reserved names cannot push the free numbers further out than there are reserved names. -/
theorem nth_le (reserved : List String) (stem : String) (k : Nat) :
    Nat.nth (IsFree reserved stem) k ≤ reserved.toFinset.card + k + 1 := by
  set bound := reserved.toFinset.card + k + 1
  have htaken : ((Finset.Icc 1 bound).filter fun n => numbered stem n ∈ reserved).card ≤
      reserved.toFinset.card := by
    refine Finset.card_le_card_of_injOn (numbered stem) (fun n hn => ?_) fun m _ n _ => numbered_injective
    exact List.mem_toFinset.2 (Finset.mem_filter.1 hn).2
  have hfree : ((Finset.Icc 1 bound).filter fun n => ¬ numbered stem n ∈ reserved).card ≤
      Nat.count (IsFree reserved stem) (bound + 1) := by
    rw [Nat.count_eq_card_filter_range]
    refine Finset.card_le_card fun n hn => ?_
    obtain ⟨hn, hfree⟩ := Finset.mem_filter.1 hn
    obtain ⟨hpos, hle⟩ := Finset.mem_Icc.1 hn
    exact Finset.mem_filter.2 ⟨Finset.mem_range.2 (Nat.lt_succ_of_le hle), hpos, hfree⟩
  have hsplit := Finset.card_filter_add_card_filter_not (s := Finset.Icc 1 bound)
    fun n => numbered stem n ∈ reserved
  rw [Nat.card_Icc] at hsplit
  have hcount : k < Nat.count (IsFree reserved stem) (bound + 1) := by omega
  exact Nat.le_of_lt_succ (Nat.nth_lt_of_lt_count hcount)

/-- The numbers of specializations are the first free numbers. -/
theorem freeNumbers_eq (count k : Nat) :
    freeNumbers reserved stem count (lastNumber reserved stem k + 1) =
      (List.range count).map fun i => Nat.nth (IsFree reserved stem) (k + i) := by
  induction count generalizing k with
  | zero => rfl
  | succ count ih =>
    have hfirst : firstFree reserved stem reserved.length (lastNumber reserved stem k + 1) =
        Nat.nth (IsFree reserved stem) k := by
      have hleast := isLeast_nth reserved stem k
      apply Nat.le_antisymm
      · exact firstFree_le hleast.1.1 hleast.1.2
      · exact hleast.2 ⟨le_firstFree _ _, firstFree_not_mem (exists_free _)⟩
    have hnext : Nat.nth (IsFree reserved stem) k = lastNumber reserved stem (k + 1) := rfl
    simp only [freeNumbers, hfirst]
    rw [hnext, ih, List.range_succ_eq_map, List.map_cons, List.map_map]
    simp only [Function.comp_def, Nat.succ_eq_add_one, Nat.add_zero, Nat.add_right_comm k 1, hnext]
    rfl

/-! ## The search -/

/-- Look for a free number after the last one, one number after the other. -/
def seek (reserved : List String) (stem : String) : Nat → UInt32 → Option UInt32
  | 0, _ => none
  | rounds + 1, last =>
    let n := last + 1
    if numbered stem n.toNat ∈ reserved then seek reserved stem rounds n else some n

/-- The search ends at the least free number after the last one, if the counter gets so far. -/
theorem seek_eq {rounds : Nat} {last : UInt32} {m : Nat}
    (hleast : IsLeast {n | last.toNat < n ∧ numbered stem n ∉ reserved} m) (hroom : m < 2 ^ 32)
    (hrounds : m ≤ last.toNat + rounds) : seek reserved stem rounds last = some (UInt32.ofNat m) := by
  induction rounds generalizing last with
  | zero => exact absurd hrounds (Nat.not_le.2 hleast.1.1)
  | succ rounds ih =>
    have hlast : last.toNat < m := hleast.1.1
    have hnext : (last + 1).toNat = last.toNat + 1 := by
      rw [UInt32.toNat_add]
      exact Nat.mod_eq_of_lt (by simp only [UInt32.toNat_one]; omega)
    simp only [seek]
    split
    · next htaken =>
      have hne : m ≠ (last + 1).toNat := by
        rintro rfl
        exact hleast.1.2 htaken
      refine ih ⟨⟨by omega, hleast.1.2⟩, fun n hn => hleast.2 ⟨?_, hn.2⟩⟩ (by omega)
      exact Nat.lt_trans (by omega) hn.1
    · next hfree =>
      have hle : m ≤ (last + 1).toNat := hleast.2 ⟨by omega, hfree⟩
      obtain rfl : m = (last + 1).toNat := by omega
      rw [UInt32.ofNat_toNat]

/-! ## The pass over the definitions -/

/-- The state of the pass. -/
structure Namer where
  /-- The number that was given last. -/
  last : UInt32
  /-- The names that were given, for the names of specializations. -/
  given : List (String × String)
deriving DecidableEq, Repr

/-- The new name of a type: its own, or the one that it has got before, or the next that is free. -/
def request (reserved : List String) (stem : String) (rounds : Nat) (name : String) :
    StateT Namer Option String := do
  if isSynthetic name then
    let namer ← get
    match namer.given.lookup name with
    | some new => return new
    | none =>
      let n ← StateT.lift (seek reserved stem rounds namer.last)
      set (Namer.mk n (namer.given ++ [(name, numbered stem n.toNat)]))
      return numbered stem n.toNat
  else
    return name

/-- Rename some definitions and the heads in their bodies, after all their names have been met. -/
def nameInTurn (reserved : List String) (stem : String) (rounds : Nat) (definitions : List TypeDef) :
    StateT Namer Option (List TypeDef) := do
  let _ ← definitions.mapM fun d => request reserved stem rounds d.name
  definitions.mapM fun d => do
    let name ← request reserved stem rounds d.name
    return ⟨name, d.params, d.annots, ← d.body.renameHeadsM (request reserved stem rounds)⟩

/-- The name that the specialization at a place gets. -/
noncomputable def standardName (reserved : List String) (stem : String) (k : Nat) : String :=
  numbered stem (Nat.nth (IsFree reserved stem) k)

open Occurrences

/-- The state of the pass after some names: as many numbers are given as there are names of specializations
among them. -/
noncomputable def ledger (reserved : List String) (stem : String) : Ledger Namer where
  after seen :=
    ⟨UInt32.ofNat (lastNumber reserved stem (seen.filter isSynthetic).eraseDups.length),
      pairing (standardName reserved stem) (seen.filter isSynthetic)⟩
  answer seen name :=
    if isSynthetic name then numbering (standardName reserved stem) (seen.filter isSynthetic) name else name
  fits seen := reserved.toFinset.card + (seen.filter isSynthetic).eraseDups.length < 2 ^ 32
  answer_append {seen name} h more := by
    split
    · next hname =>
      rw [List.filter_append]
      exact numbering_append _ (List.mem_filter.2 ⟨h, hname⟩) _
    · rfl
  fits_of_append {seen more} h := by
    rw [List.filter_append, List.eraseDups_append, List.length_append] at h
    omega

/-- The search finds the number at the next place, whatever has been given before. -/
theorem seek_lastNumber {rounds k : Nat} (hrounds : reserved.length < rounds)
    (hroom : reserved.toFinset.card + (k + 1) < 2 ^ 32) :
    seek reserved stem rounds (UInt32.ofNat (lastNumber reserved stem k)) =
      some (UInt32.ofNat (Nat.nth (IsFree reserved stem) k)) := by
  have hleast := isLeast_nth reserved stem k
  have hnth := nth_le reserved stem k
  have hlast : (UInt32.ofNat (lastNumber reserved stem k)).toNat = lastNumber reserved stem k := by
    have hlt := hleast.1.1
    exact UInt32.toNat_ofNat_of_lt' (by simp only [UInt32.size]; omega)
  refine seek_eq (by rwa [hlast]) (by omega) ?_
  obtain ⟨m, hle, hbound, hfree⟩ := @exists_free stem reserved (lastNumber reserved stem k + 1)
  have hm : Nat.nth (IsFree reserved stem) k ≤ m := hleast.2 ⟨hle, hfree⟩
  omega

/-- One request. -/
theorem meets_request {rounds : Nat} (hrounds : reserved.length < rounds) (name : String) :
    (ledger reserved stem).Meets (request reserved stem rounds name) [name] (· name) where
  run seen hfits := by
    cases hname : isSynthetic name with
    | false =>
      have hfilter : (seen ++ [name]).filter isSynthetic = seen.filter isSynthetic := by simp [hname]
      simp only [ledger, hfilter, hname, request, Bool.false_eq_true, if_false, StateT.run_pure]
    | true =>
      have hfilter : (seen ++ [name]).filter isSynthetic = seen.filter isSynthetic ++ [name] := by
        simp [hname]
      have hroom : reserved.toFinset.card + (seen.filter isSynthetic ++ [name]).eraseDups.length < 2 ^ 32 :=
        hfilter ▸ hfits
      simp only [ledger, hfilter, hname, request, if_true, StateT.run_bind, StateT.run_get, pure_bind]
      generalize seen.filter isSynthetic = names at hroom ⊢
      by_cases hmem : name ∈ names
      · simp only [lookup_pairing_of_mem _ hmem, numbering_append _ hmem, pairing_concat_of_mem _ hmem,
          eraseDups_concat_of_mem hmem, StateT.run_pure]
      · have hlength : (names ++ [name]).eraseDups.length = names.eraseDups.length + 1 := by
          rw [eraseDups_concat_of_notMem hmem, List.length_append, List.length_singleton]
        rw [hlength] at hroom
        have hnumber : (UInt32.ofNat (Nat.nth (IsFree reserved stem) names.eraseDups.length)).toNat =
            Nat.nth (IsFree reserved stem) names.eraseDups.length := by
          have hle := nth_le reserved stem names.eraseDups.length
          exact UInt32.toNat_ofNat_of_lt' (by simp only [UInt32.size]; omega)
        simp only [lookup_pairing_of_notMem _ hmem, numbering_concat_of_notMem _ hmem,
          pairing_concat_of_notMem _ hmem, hlength, StateT.run_bind, StateT.run_lift, StateT.run_set,
          StateT.run_pure, seek_lastNumber hrounds hroom, Option.bind_eq_bind, Option.bind_some,
          Option.pure_def, hnumber]
        rfl
  congr h := h name List.mem_cons_self

/-- A pass that renames heads meets them in the order of reading. -/
theorem meets_renameHeadsM {σ : Type} {m : Type → Type} [Monad m] [LawfulMonad m] {ledger : Ledger σ}
    {onHead : String → StateT σ m String} (hhead : ∀ name, ledger.Meets (onHead name) [name] (· name))
    (t : TypeExpr) : ledger.Meets (t.renameHeadsM onHead) t.heads (t.renameHeads ·) := by
  have hnames : t.heads = Ledger.namesIn (fun _ => []) (fun name => [name]) t := by
    rw [TypeExpr.heads, List.filterMap_eq_flatMap_toList]
    exact List.flatMap_congr fun u _ => by cases u <;> rfl
  have hvisitor : t.renameHeadsM onHead = t.traverse (Ledger.visitor Pure.pure onHead) := by
    simp only [TypeExpr.renameHeadsM, Ledger.visitor, pure_bind]
  rw [hnames, hvisitor]
  exact Ledger.Meets.traverse (fun name => Ledger.Meets.pure name) hhead t

/-- The names that are requested for some definitions, in turn. -/
def requests (definitions : List TypeDef) : List String :=
  (definitions.flatMap fun d => [d.name]) ++ definitions.flatMap fun d => [d.name] ++ d.body.heads

/-- The pass requests the names of all definitions, and then all names again in the order of reading. -/
theorem meets_nameInTurn {rounds : Nat} (hrounds : reserved.length < rounds) (definitions : List TypeDef) :
    (ledger reserved stem).Meets (nameInTurn reserved stem rounds definitions) (requests definitions)
      fun f => definitions.map (TypeDef.renameTypes f) := by
  have hrequest : ∀ name, (ledger reserved stem).Meets (request reserved stem rounds name) [name] (· name) :=
    meets_request hrounds
  have hdefinition : ∀ d ∈ definitions, (ledger reserved stem).Meets
      (do
        let name ← request reserved stem rounds d.name
        return TypeDef.mk name d.params d.annots (← d.body.renameHeadsM (request reserved stem rounds)))
      ([d.name] ++ d.body.heads) (TypeDef.renameTypes · d) := fun d _ =>
    (hrequest d.name).pair (meets_renameHeadsM hrequest d.body) fun name body =>
      TypeDef.mk name d.params d.annots body
  have hnames : (ledger reserved stem).Meets
      (definitions.mapM fun d => request reserved stem rounds d.name) (definitions.flatMap fun d => [d.name])
      fun f => definitions.map fun d => f d.name := Ledger.Meets.mapM fun d _ => hrequest d.name
  have hpass := hnames.pair (Ledger.Meets.mapM hdefinition) fun _ renamed => renamed
  rwa [bind_congr fun _ => bind_pure _] at hpass

/-- The second round over the definitions meets their names again, which changes nothing. -/
theorem eraseDups_requests (definitions : List TypeDef) :
    ((requests definitions).filter isSynthetic).eraseDups = synthetic definitions := by
  have hbody : ∀ d ∈ definitions, (([d.name] ++ d.body.heads).filter isSynthetic).filter (fun name =>
      !((definitions.map TypeDef.name).filter isSynthetic).elem name) =
        (d.body.heads.filter isSynthetic).filter fun name =>
          !((definitions.map TypeDef.name).filter isSynthetic).elem name := by
    intro d hd
    have hmem : ∃ e ∈ definitions, e.name = d.name := ⟨d, hd, rfl⟩
    rw [List.filter_append, List.filter_append]
    cases hname : isSynthetic d.name with
    | true => simp [hname, hmem]
    | false => simp [hname]
  rw [requests, synthetic, ← List.map_eq_flatMap, List.filter_append, List.filter_append,
    List.eraseDups_append, List.eraseDups_append]
  simp only [List.removeAll, List.filter_flatMap]
  rw [List.flatMap_congr hbody]

theorem numbers_eq (definitions : List TypeDef) (stem : String) (taken : List String) :
    numbers definitions stem taken = (List.range (synthetic definitions).length).map
      (Nat.nth (IsFree (taken ++ kept definitions) stem)) := by
  have hnumbers := @freeNumbers_eq (taken ++ kept definitions) stem (synthetic definitions).length 0
  simp only [Nat.zero_add] at hnumbers
  exact hnumbers

/-- The new names that the pass gives are the standard names. -/
theorem pairing_requests (definitions : List TypeDef) (stem : String) (taken : List String) :
    pairing (standardName (taken ++ kept definitions) stem) ((requests definitions).filter isSynthetic) =
      assign definitions stem taken := by
  have hassign : assign definitions stem taken =
      (synthetic definitions).zip ((numbers definitions stem taken).map (numbered stem)) := rfl
  rw [hassign, numbers_eq, pairing, eraseDups_requests, List.zipIdx_eq_zip_range', List.map_map,
    ← List.range_eq_range', List.zip_map_right]
  rfl

/-! ## The two ways agree -/

/-- The standard names of the specializations in some definitions can be given while these are met. -/
structure IsNumberedInTurn (definitions : List TypeDef) (origins : Origins) (stem : String)
    (taken : List String) : Prop where
  /-- All searches end, however many rounds they may take, and the definitions are the standard ones. -/
  pass : ∀ rounds, (taken ++ kept definitions).length < rounds →
    ∃ last, (nameInTurn (taken ++ kept definitions) stem rounds definitions).run ⟨0, []⟩ =
      some ((standardize definitions origins stem taken).definitions,
        ⟨last, assign definitions stem taken⟩)
  /-- Names of definitions come first, and then those in bodies, the head of an application before those in
  its arguments. -/
  firsts : FirstOccurrences (synthetic definitions)
    ((definitions.map TypeDef.name ++ definitions.flatMap fun d => d.body.heads).filter isSynthetic)
  /-- The numbers are the least that are free, one after the other. -/
  least : ∀ k (hk : k < (synthetic definitions).length),
    rename (assign definitions stem taken) (synthetic definitions)[k] =
      numbered stem
        (Nat.nth (fun n => 1 ≤ n ∧ numbered stem n ∉ taken ∧ numbered stem n ∉ kept definitions) k)

/-- What the pass makes of a name is its standard name. -/
theorem answer_eq_rename (definitions : List TypeDef) (stem : String) (taken : List String) {name : String}
    (hname : name ∈ requests definitions) :
    (ledger (taken ++ kept definitions) stem).answer (requests definitions) name =
      rename (assign definitions stem taken) name := by
  simp only [ledger]
  split
  · next hsynthetic =>
    have hmem := List.mem_filter.2 ⟨hname, hsynthetic⟩
    rw [rename, ← pairing_requests, lookup_pairing_of_mem _ hmem, Option.getD_some]
  · next hplain =>
    have hfalse : isSynthetic name = false := Bool.eq_false_of_not_eq_true hplain
    exact ((assigns_rename definitions stem taken).plain hfalse).symm

/-- The pass over the definitions, from the start, makes the standard definitions. -/
theorem run_nameInTurn {definitions : List TypeDef} {stem : String} {taken : List String} {rounds : Nat}
    (hfew : (taken ++ kept definitions).toFinset.card + (synthetic definitions).length < 2 ^ 32)
    (hrounds : (taken ++ kept definitions).length < rounds) :
    ∃ last, (nameInTurn (taken ++ kept definitions) stem rounds definitions).run ⟨0, []⟩ =
      some (definitions.map (TypeDef.renameTypes (rename (assign definitions stem taken))),
        ⟨last, assign definitions stem taken⟩) := by
  have hpass := @meets_nameInTurn _ stem _ hrounds definitions
  have hfits : (ledger (taken ++ kept definitions) stem).fits (requests definitions) := by
    rwa [← eraseDups_requests] at hfew
  have hstandard := hpass.congr fun name => answer_eq_rename definitions stem taken
  have hafter : (ledger (taken ++ kept definitions) stem).after (requests definitions) =
      ⟨UInt32.ofNat (lastNumber (taken ++ kept definitions) stem (synthetic definitions).length),
        assign definitions stem taken⟩ := by
    rw [← eraseDups_requests, ← pairing_requests]
    rfl
  have hrun := hpass.run [] hfits
  rw [List.nil_append, hstandard, hafter] at hrun
  exact ⟨_, hrun⟩

/-- Standard names can be given in turn, where there are fewer than 2 ^ 32 names. -/
theorem isNumberedInTurn (definitions : List TypeDef) (origins : Origins) (stem : String)
    (taken : List String)
    (hfew : (taken ++ kept definitions).toFinset.card + (synthetic definitions).length < 2 ^ 32) :
    IsNumberedInTurn definitions origins stem taken where
  pass rounds hrounds := run_nameInTurn hfew hrounds
  firsts := Occurrences.firstOccurrences_eraseDups _
  least k hk := by
    have hlength : k < (numbers definitions stem taken).length := by rwa [numbers, length_freeNumbers]
    have hfree : IsFree (taken ++ kept definitions) stem =
        fun n => 1 ≤ n ∧ numbered stem n ∉ taken ∧ numbered stem n ∉ kept definitions := by
      funext n
      rw [IsFree, List.mem_append, not_or]
    rw [rename_getElem hk hlength, ← hfree]
    simp only [numbers_eq, List.getElem_map, List.getElem_range]

/-- Three specializations of which one has no definition, where two numbers are in use. -/
def gapped : List TypeDef :=
  [⟨"@(int box)", [], ∅, .named "@(@(int box) pair)" [] ∅⟩, ⟨"_1", [], ∅, .named "@(int box)" [] ∅⟩,
    ⟨"@(string list)", [], ∅, .tuple [.named "@(_1 list)" [] ∅, .named "@(@(int box) pair)" [] ∅] ∅⟩]

/-- The definitions come first, so what the first of them asks for is third. -/
theorem isNumberedInTurn_gapped :
    (["int", "_3"] ++ kept gapped).toFinset.card + (synthetic gapped).length < 2 ^ 32 ∧
    ((standardize gapped [] "_" ["int", "_3"]).definitions =
      [⟨"_2", [], ∅, .named "_5" [] ∅⟩, ⟨"_1", [], ∅, .named "_2" [] ∅⟩,
        ⟨"_4", [], ∅, .tuple [.named "_6" [] ∅, .named "_5" [] ∅] ∅⟩]) ∧
    IsNumberedInTurn gapped [] "_" ["int", "_3"] := by
  have hfew : (["int", "_3"] ++ kept gapped).toFinset.card + (synthetic gapped).length < 2 ^ 32 := by
    decide +kernel
  exact ⟨hfew, by decide +kernel, isNumberedInTurn gapped [] "_" ["int", "_3"] hfew⟩

end StandardName

end Monomorph
