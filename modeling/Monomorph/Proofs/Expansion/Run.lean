import Monomorph.Proofs.Expansion.Visits

/-!
# Runs of the engine

The engine follows `Visits`. `Serves` is what it needs of its state before a run, `Grows` what a run
does to the state: the table and the origins get one entry for each specialization, in the order in
which they are begun, and every entry is filled.

A run can only fail by nesting too deep, and then as many specializations were being made, one inside
the other, as the depth allows. `exec_ensureAll` is the statement for all uses of a list.
-/

namespace Monomorph

namespace Use

/-- The entry of a finished specialization. -/
def entry (library : Library) (u : Use) (seq : Handle) : Entry where
  name := u.name
  seq := seq
  arity := u.wanted.arity
  declared := none
  expansion := (library.find u.generic).map u.specialization

/-- The entries of finished specializations, numbered from `start`. -/
def entries (library : Library) (start : Handle) (uses : List Use) : List Entry :=
  (uses.zipIdx start).map fun (u, seq) => u.entry library seq

/-- Where a specialization comes from. -/
def origin (u : Use) : String × Origin := (u.name, ⟨u.generic, u.args.length⟩)

variable (library : Library)

@[simp] theorem entries_nil (start : Handle) : entries library start [] = [] := rfl

theorem entries_cons (start : Handle) (u : Use) (rest : List Use) :
    entries library start (u :: rest) = u.entry library start :: entries library (start + 1) rest :=
  rfl

theorem entries_append (start : Handle) (us vs : List Use) :
    entries library start (us ++ vs) =
      entries library start us ++ entries library (start + us.length) vs := by
  simp [entries, List.zipIdx_append]

@[simp] theorem length_entries (start : Handle) (uses : List Use) :
    (entries library start uses).length = uses.length := by
  simp [entries]

end Use

namespace Engine

variable {library : Library} {seen uses added : List Use} {e e' e'' : Engine}

/-- What the engine needs before a run: the definitions of the library, and an entry for each
specialization that has been begun and for no other one. -/
structure Serves (library : Library) (seen : List Use) (e : Engine) : Prop where
  positional : e.table.Positional
  library : ∀ {name d}, library.find name = some d → e.table.known name = some (d.arity, some d)
  abstract : e.table.contains Catalogue.abstractName = true
  begun : ∀ u : Use, e.table.contains u.name = true ↔ u.name ∈ Use.names seen

/-- What a run does that begins the specializations in `added`. -/
structure Grows (library : Library) (e : Engine) (added : List Use) (e' : Engine) : Prop where
  latest : e'.table.latest =
    (Use.entries library e.table.next added).reverse ++ e.table.latest
  origins : e'.origins = e.origins ++ added.map Use.origin

theorem Grows.refl (e : Engine) : Grows library e [] e := ⟨rfl, (List.append_nil _).symm⟩

theorem Grows.next (h : Grows library e added e') :
    e'.table.next = e.table.next + added.length := by
  simp only [Table.next, Table.size, h.latest, List.length_append, List.length_reverse,
    Use.length_entries]
  exact Nat.add_comm _ _

theorem Grows.trans {further : List Use} (h : Grows library e added e')
    (h' : Grows library e' further e'') : Grows library e (added ++ further) e'' := by
  constructor
  · rw [h'.latest, h.latest, h.next, Use.entries_append, List.reverse_append, List.append_assoc]
  · rw [h'.origins, h.origins, List.map_append, List.append_assoc]

/-- A specialization grows the engine by itself and by what is begun while it is made. -/
theorem Grows.filled {u : Use} {declared : TypeDef} {inner : List Use}
    (hdeclared : library.find u.generic = some declared) (harity : declared.arity = u.args.length)
    (h : Grows library (e.begun u declared.arity) inner e') (hpositional : e'.table.Positional)
    (events : List ExpansionEvent) :
    Grows library e (u :: inner) (e'.filled e.table.next (u.specialization declared) events) := by
  constructor
  · have hbegun : (e.begun u declared.arity).table.latest =
        ⟨u.name, e.table.next, u.wanted.arity, none, none⟩ :: e.table.latest := rfl
    have hlatest := h.latest
    rw [hbegun] at hlatest
    have htable : e'.table = ⟨_⟩ := congrArg Table.mk hlatest
    have hfill := Table.Positional.fill_eq (htable ▸ hpositional) (u.specialization declared)
    show (e'.table.fill e.table.next (u.specialization declared)).latest = _
    rw [htable, hfill, Use.entries_cons, Use.entry, hdeclared, List.reverse_cons, List.append_assoc]
    rfl
  · show e'.origins = _
    rw [h.origins, begun, harity, List.append_assoc]
    rfl

theorem Serves.begun_specialization {u : Use} (h : Serves library seen e) (arity : Nat) :
    Serves library (seen ++ [u]) (e.begun u arity) where
  positional := h.positional.insert _ _ _
  library {name d} hname := by
    have hne : u.name ≠ name := by
      rintro rfl
      have hplain := library.plain hname
      rw [u.isSynthetic_name] at hplain
      cases hplain
    show (e.table.insert u.name _ none).known name = _
    rw [Table.known_insert, if_neg hne, h.library hname]
  abstract := (Table.contains_insert _ _ _ _ _).2 (Or.inr h.abstract)
  begun v := by
    show (e.table.insert u.name _ none).contains v.name = true ↔ _
    rw [Table.contains_insert, h.begun, Use.names_append, List.mem_append, or_comm, eq_comm]
    exact or_congr_right List.mem_singleton.symm

theorem Serves.filled (h : Serves library seen e) (handle : Handle) (d : TypeDef)
    (events : List ExpansionEvent) : Serves library seen (e.filled handle d events) where
  positional := h.positional.fill _ _
  library hname := by
    show (e.table.fill handle d).known _ = _
    rw [Table.known_fill, h.library hname]
  abstract := by
    show (e.table.fill handle d).contains _ = _
    rw [Table.contains_eq_isSome_known, Table.known_fill, ← Table.contains_eq_isSome_known,
      h.abstract]
  begun v := by
    show (e.table.fill handle d).contains _ = _ ↔ _
    rw [Table.contains_eq_isSome_known, Table.known_fill, ← Table.contains_eq_isSome_known, h.begun]

/-- Specializations that are made one inside the other. -/
structure Nests (Q : Use → Prop) (seen : List Use) (chain : List Use) : Prop where
  all : ∀ u ∈ chain, Q u
  nodup : (Use.names chain).Nodup
  fresh : ∀ u ∈ chain, u.name ∉ Use.names seen

/-- How a run ends: all specializations are made, or more of them are nested than the depth allows. -/
inductive Ends (library : Library) (Q : Use → Prop) (seen uses : List Use) (depth : Nat) (e : Engine) :
    Except Failure Unit × Engine → Prop
  | made {added : List Use} {e' : Engine} (visits : Visits library seen uses added)
      (grows : Grows library e added e') (serves : Serves library (seen ++ added) e') :
      Ends library Q seen uses depth e (.ok (), e')
  | tooDeep {chain : List Use} {e' : Engine} (nests : Nests Q seen chain)
      (length : chain.length = depth + 1) : Ends library Q seen uses depth e (.error .tooDeep, e')

theorem exec_forM_cons {α : Type} (f : α → Run Unit) (x : α) (rest : List α) (e : Engine) :
    exec ((x :: rest).forM f) e =
      match exec (f x) e with
      | (.ok (), e') => exec (rest.forM f) e'
      | (.error failure, e') => (.error failure, e') := by
  rw [List.forM_eq_forM, List.forM_cons, exec_bind]
  cases exec (f x) e with
  | mk result e' => cases result <;> rfl

theorem Nests.of_append {Q : Use → Prop} {more chain : List Use} (h : Nests Q (seen ++ more) chain) :
    Nests Q seen chain where
  all := h.all
  nodup := h.nodup
  fresh u hu hmem := h.fresh u hu (by
    rw [Use.names_append]
    exact List.mem_append_left _ hmem)

/-- Specializations made inside another one that has just been begun. -/
theorem Nests.cons {Q : Use → Prop} {u : Use} {chain : List Use} (hQ : Q u)
    (hfresh : u.name ∉ Use.names seen) (h : Nests Q (seen ++ [u]) chain) :
    Nests Q seen (u :: chain) where
  all := List.forall_mem_cons.2 ⟨hQ, h.all⟩
  nodup := by
    refine List.nodup_cons.2 ⟨fun hmem => ?_, h.nodup⟩
    obtain ⟨v, hv, heq⟩ := List.mem_map.1 hmem
    exact h.fresh v hv (heq ▸ Use.name_mem_names (by simp))
  fresh := List.forall_mem_cons.2 ⟨hfresh, h.of_append.fresh⟩

/-- A run over some uses goes as expected if the making of a single specialization does. -/
theorem exec_forM_ensure {Q : Use → Prop} {depth : Nat} {create : String → Instance → Annots → Run Unit}
    (hcreate : ∀ {seen u e}, Serves library seen e → Q u → u.name ∉ Use.names seen →
      Ends library Q seen [u] depth e (exec (create u.generic u.wanted u.annots) e))
    (hserves : Serves library seen e) (huses : ∀ u ∈ uses, Q u) :
    Ends library Q seen uses depth e (exec (uses.forM (ensure create)) e) := by
  induction uses generalizing seen e with
  | nil => exact .made .done (.refl e) (by rwa [List.append_nil])
  | cons u rest ih =>
    obtain ⟨hu, hrest⟩ := List.forall_mem_cons.1 huses
    rw [exec_forM_cons, exec_ensure]
    by_cases hknown : u.name ∈ Use.names seen
    · rw [if_pos ((hserves.begun u).2 hknown)]
      have hends := ih hserves hrest
      dsimp only
      generalize exec (rest.forM (ensure create)) e = outcome at hends
      cases hends with
      | made visits grows serves => exact .made (.known hknown visits) grows serves
      | tooDeep nests length => exact .tooDeep nests length
    · rw [if_neg fun hcontains => hknown ((hserves.begun u).1 hcontains)]
      have hfirst := hcreate hserves hu hknown
      generalize exec (create u.generic u.wanted u.annots) e = outcome at hfirst
      cases hfirst with
      | tooDeep nests length => exact .tooDeep nests length
      | @made _ e' visits grows serves =>
        have hends := ih serves hrest
        dsimp only
        generalize exec (rest.forM (ensure create)) e' = outcome at hends
        cases hends with
        | tooDeep nests length => exact .tooDeep nests.of_append length
        | made visits' grows' serves' =>
          refine .made (visits.append visits') (grows.trans grows') ?_
          rwa [← List.append_assoc]

/-- A run over some uses makes the specializations that are missing, or nests too deep. -/
theorem exec_ensureAll {Q : Use → Prop} (hQ : library.Supports Q) (depth : Nat)
    (hserves : Serves library seen e) (huses : ∀ u ∈ uses, Q u) :
    Ends library Q seen uses depth e (exec (uses.forM (ensure (creator depth))) e) := by
  induction depth generalizing seen uses e with
  | zero =>
    refine exec_forM_ensure (fun {seen u e} hserves hu hfresh => ?_) hserves huses
    have hempty : Nests Q (seen ++ [u]) [] := ⟨nofun, List.nodup_nil, nofun⟩
    exact .tooDeep (.cons hu hfresh hempty) rfl
  | succ depth ihDepth =>
    refine exec_forM_ensure (fun {seen u e} hserves hu hfresh => ?_) hserves huses
    obtain ⟨declared, hdeclared, harity⟩ := hQ.declared hu
    have hends : Ends library Q (seen ++ [u]) (u.nested declared) depth (e.begun u declared.arity)
        (exec ((u.nested declared).forM (ensure (creator depth))) (e.begun u declared.arity)) :=
      ihDepth (hserves.begun_specialization declared.arity) fun v hv => hQ.nested hu hdeclared hv
    rw [creator, instantiate_eq,
      exec_specialize _ u (hserves.library hdeclared) harity fun _ => hserves.abstract]
    generalize exec _ (e.begun u declared.arity) = outcome at hends ⊢
    cases hends with
    | tooDeep nests length =>
      exact .tooDeep (nests.cons hu hfresh) (congrArg (· + 1) length)
    | made visits grows serves =>
      refine .made (.fresh hfresh hdeclared visits .done)
        (by simpa using grows.filled hdeclared harity serves.positional _) ?_
      simpa using serves.filled _ _ _

end Engine

end Monomorph
