import Monomorph.Proofs.Expansion.Run

/-!
# What an expansion returns

An expansion goes through the definitions in order, and what it returns is a function of the
specializations that are begun: the expanded definitions come first, then the specializations, and
generics among either only on demand. `expand_ends` says so for every list of definitions with distinct
names; the specializations are the ones that `Visits` lists for the uses in the definitions.
-/

namespace Monomorph

namespace TypeDef

/-- Whether a definition is expanded; generics only on demand. -/
def isKept (keepPoly : Bool) (d : TypeDef) : Bool := d.params.isEmpty || keepPoly

/-- The uses in a definition, in order. -/
def uses (d : TypeDef) : List Use := d.body.normalize.uses Use.reference Environment.empty

/-- A definition with references in place of its uses. -/
def expanded (d : TypeDef) : TypeDef :=
  { d.normalize with body := d.body.normalize.substituteBy Use.reference Environment.empty }

/-- The entry of a definition. -/
def entry (d : TypeDef) (seq : Handle) (expansion : Option TypeDef) : Entry :=
  ⟨d.name, seq, d.arity, some d.normalize, expansion⟩

/-- The entries of definitions that are still to be expanded, numbered from `start`. -/
def pending (start : Handle) (definitions : List TypeDef) : List Entry :=
  (definitions.zipIdx start).map fun (d, seq) => d.entry seq none

/-- The entries of definitions that have been expanded. -/
def settled (keepPoly : Bool) (start : Handle) (definitions : List TypeDef) : List Entry :=
  (definitions.zipIdx start).map fun (d, seq) =>
    d.entry seq (if d.isKept keepPoly then some d.expanded else none)

/-- The uses in the definitions that are expanded, in order. -/
def roots (keepPoly : Bool) (definitions : List TypeDef) : List Use :=
  definitions.flatMap fun d => if d.isKept keepPoly then d.uses else []

end TypeDef

namespace Engine

variable {library : Library} {seen : List Use} {e : Engine}

/-- The engine after a definition has been expanded. -/
def settle (e : Engine) (handle : Handle) (d : TypeDef) : Engine :=
  e.filled handle d []

/-- To expand a definition is to make sure of its uses and to fill its entry. -/
theorem exec_expandDefinition {depth : Nat} {keepPoly : Bool} {d : TypeDef} {entry : Entry}
    (hkept : d.isKept keepPoly = true) (hfind : e.table.find? d.name = some entry)
    (hdeclared : entry.declared = some d.normalize) :
    exec (expandDefinition depth keepPoly d) e =
      match exec (d.uses.forM (ensure (creator depth))) e with
      | (.ok (), e') => (.ok (), e'.settle entry.seq d.expanded)
      | (.error failure, e') => (.error failure, e') := by
  have hcondition : (d.params.isEmpty || keepPoly) = true := hkept
  simp only [expandDefinition, hcondition, ↓reduceIte, exec_bind, exec_get, hfind, demand, exec_pure,
    hdeclared, instantiate_eq, substitute_refer]
  have huses : d.normalize.body.uses Use.reference Environment.empty = d.uses := rfl
  rw [huses]
  cases exec (d.uses.forM (ensure (creator depth))) e with
  | mk result e' => cases result <;> rfl

theorem exec_expandDefinition_skip {depth : Nat} {keepPoly : Bool} {d : TypeDef}
    (hskip : d.isKept keepPoly = false) : exec (expandDefinition depth keepPoly d) e = (.ok (), e) := by
  have hcondition : (d.params.isEmpty || keepPoly) = false := hskip
  simp [expandDefinition, hcondition]

/-- The engine between two definitions: those in `todo` are pending, everything before them stands in
`base`, and the specializations come last. -/
structure Stage (library : Library) (base : List Entry) (count start : Nat) (todo : List TypeDef)
    (seen : List Use) (e : Engine) : Prop where
  serves : Serves library seen e
  latest : e.table.latest =
    (Use.entries library count seen).reverse ++ (TypeDef.pending start todo).reverse ++ base
  origins : e.origins = seen.map Use.origin
  count : count = base.length + todo.length

namespace Stage

variable {base : List Entry} {count start : Nat} {d : TypeDef} {rest : List TypeDef}
variable {seen added : List Use} {e e' : Engine}

theorem next {todo : List TypeDef} (h : Stage library base count start todo seen e) :
    e.table.next = count + seen.length := by
  have hpending : (TypeDef.pending start todo).length = todo.length := by simp [TypeDef.pending]
  show e.table.latest.length = _
  rw [h.latest, h.count]
  simp only [List.length_append, List.length_reverse, Use.length_entries, hpending]
  omega

theorem latest_cons (h : Stage library base count start (d :: rest) seen e) :
    e.table.latest = (Use.entries library count seen).reverse ++
      (TypeDef.pending (start + 1) rest).reverse ++ d.entry start none :: base := by
  have hpending : TypeDef.pending start (d :: rest) =
      d.entry start none :: TypeDef.pending (start + 1) rest := rfl
  rw [h.latest, hpending, List.reverse_cons]
  simp only [List.append_assoc, List.singleton_append]

/-- The next definition is found by its name. -/
theorem find? (h : Stage library base count start (d :: rest) seen e)
    (hplain : isSynthetic d.name = false) (hname : d.name ∉ rest.map TypeDef.name) :
    e.table.find? d.name = some (d.entry start none) := by
  refine List.find?_eq_some_iff_append.2 ⟨beq_self_eq_true d.name, _, _, h.latest_cons, ?_⟩
  intro entry hentry
  have hne : entry.name ≠ d.name := by
    obtain hentry | hentry := List.mem_append.1 hentry
    · obtain ⟨⟨u, seq⟩, -, rfl⟩ := List.mem_map.1 (List.mem_reverse.1 hentry)
      rintro heq
      have hsynthetic := u.isSynthetic_name
      change u.name = d.name at heq
      rw [heq, hplain] at hsynthetic
      cases hsynthetic
    · obtain ⟨⟨d', seq⟩, hmem, rfl⟩ := List.mem_map.1 (List.mem_reverse.1 hentry)
      intro heq
      exact hname (List.mem_map.2 ⟨d', (List.mem_zipIdx hmem).2.2 ▸ List.getElem_mem _, heq⟩)
  simpa using hne

theorem skip (h : Stage library base count start (d :: rest) seen e) :
    Stage library (d.entry start none :: base) count (start + 1) rest seen e where
  serves := h.serves
  latest := h.latest_cons
  origins := h.origins
  count := by
    have hcount := h.count
    simp only [List.length_cons] at hcount ⊢
    omega

theorem settle (h : Stage library base count start (d :: rest) seen e)
    (hgrows : Grows library e added e') (hserves : Serves library (seen ++ added) e')
    (expansion : TypeDef) :
    Stage library (d.entry start (some expansion) :: base) count (start + 1) rest (seen ++ added)
      (e'.settle start expansion) where
  serves := hserves.filled _ _ _
  latest := by
    have hlatest : e'.table.latest = ((Use.entries library count (seen ++ added)).reverse ++
        (TypeDef.pending (start + 1) rest).reverse) ++ d.entry start none :: base := by
      rw [hgrows.latest, h.next, h.latest_cons, Use.entries_append, List.reverse_append]
      simp only [List.append_assoc]
    have htable : e'.table = ⟨_⟩ := congrArg Table.mk hlatest
    have hfill := Table.Positional.fill_eq (htable ▸ hserves.positional) expansion
    show (e'.table.fill start expansion).latest = _
    rw [htable]
    exact congrArg Table.latest hfill
  origins := by
    show e'.origins = _
    rw [hgrows.origins, h.origins, List.map_append]
  count := h.skip.count

end Stage

/-- How the expansion of some definitions ends. -/
inductive Settles (library : Library) (Q : Use → Prop) (keepPoly : Bool) (base : List Entry)
    (count start : Nat) (todo : List TypeDef) (seen : List Use) (depth : Nat) :
    Except Failure Unit × Engine → Prop
  | done {added : List Use} {e' : Engine}
      (visits : Visits library seen (TypeDef.roots keepPoly todo) added)
      (stage : Stage library ((TypeDef.settled keepPoly start todo).reverse ++ base) count
        (start + todo.length) [] (seen ++ added) e') :
      Settles library Q keepPoly base count start todo seen depth (.ok (), e')
  | tooDeep {chain : List Use} {e' : Engine} (nests : Nests Q seen chain)
      (length : chain.length = depth + 1) :
      Settles library Q keepPoly base count start todo seen depth (.error .tooDeep, e')

theorem exec_forM_expandDefinition {Q : Use → Prop} (hQ : library.Supports Q) {depth : Nat}
    {keepPoly : Bool} {base : List Entry} {count start : Nat} {todo : List TypeDef}
    (hstage : Stage library base count start todo seen e)
    (hnames : (todo.map TypeDef.name).Nodup) (hplain : ∀ d ∈ todo, isSynthetic d.name = false)
    (hroots : ∀ u ∈ TypeDef.roots keepPoly todo, Q u) :
    Settles library Q keepPoly base count start todo seen depth
      (exec (todo.forM (expandDefinition depth keepPoly)) e) := by
  induction todo generalizing base start seen e with
  | nil =>
    refine .done .done ?_
    rw [List.append_nil]
    exact hstage
  | cons d rest ih =>
    obtain ⟨hname, hnodup⟩ := List.nodup_cons.1 hnames
    obtain ⟨hplain, hplains⟩ := List.forall_mem_cons.1 hplain
    have hsplit : TypeDef.roots keepPoly (d :: rest) =
        (if d.isKept keepPoly then d.uses else []) ++ TypeDef.roots keepPoly rest := rfl
    have hlength : start + 1 + rest.length = start + (d :: rest).length := by
      rw [List.length_cons]
      omega
    have hrest : ∀ u ∈ TypeDef.roots keepPoly rest, Q u := fun u hu =>
      hroots u (hsplit ▸ List.mem_append_right _ hu)
    rw [exec_forM_cons]
    cases hkept : d.isKept keepPoly with
    | false =>
      have hsettled : TypeDef.settled keepPoly start (d :: rest) =
          d.entry start none :: TypeDef.settled keepPoly (start + 1) rest := by
        simp [TypeDef.settled, hkept]
      rw [exec_expandDefinition_skip hkept]
      have hends := ih hstage.skip hnodup hplains hrest
      dsimp only
      generalize exec (rest.forM (expandDefinition depth keepPoly)) e = outcome at hends
      cases hends with
      | tooDeep nests length => exact .tooDeep nests length
      | done visits stage =>
        refine .done (by simpa [hsplit, hkept] using visits) ?_
        rwa [hsettled, List.reverse_cons, List.append_assoc, List.singleton_append, ← hlength]
    | true =>
      have hsettled : TypeDef.settled keepPoly start (d :: rest) =
          d.entry start (some d.expanded) :: TypeDef.settled keepPoly (start + 1) rest := by
        simp [TypeDef.settled, hkept]
      have huses : ∀ u ∈ d.uses, Q u := fun u hu =>
        hroots u (hsplit ▸ List.mem_append_left _ (by rwa [if_pos hkept]))
      rw [exec_expandDefinition hkept (hstage.find? hplain hname) rfl]
      have hrun := exec_ensureAll hQ depth hstage.serves huses
      generalize exec (d.uses.forM (ensure (creator depth))) e = outcome at hrun
      cases hrun with
      | tooDeep nests length => exact .tooDeep nests length
      | @made added e' visits grows serves =>
        have hends := ih (hstage.settle grows serves d.expanded) hnodup hplains hrest
        dsimp only [TypeDef.entry]
        generalize exec (rest.forM (expandDefinition depth keepPoly)) _ = outcome at hends
        cases hends with
        | tooDeep nests length => exact .tooDeep nests.of_append length
        | done visits' stage =>
          refine .done (by simpa [hsplit, hkept] using visits.append visits') ?_
          rwa [hsettled, List.reverse_cons, List.append_assoc, List.singleton_append, ← hlength,
            ← List.append_assoc]

end Engine

end Monomorph
