import Monomorph.Proofs.Expansion.Outcome

/-!
# Expansion against a catalogue

The table is seeded with the catalogue and the definitions, and `Library.of` reads the definitions of
generics off the seeded table. `expand_ends` is the statement about `expand` as a whole that everything
else about expansions is derived from: either it returns `Library.outcome` for the specializations that
the uses in the definitions begin, or there are specializations nested deeper than allowed.
-/

namespace Monomorph

namespace Table

theorem latest_foldl_insert {α : Type} (name : α → String) (arity : α → Nat)
    (declared : α → Option TypeDef) (items : List α) (t : Table) :
    (items.foldl (fun t x => t.insert (name x) (arity x) (declared x)) t).latest =
      ((items.zipIdx t.next).map fun (x, seq) => ⟨name x, seq, arity x, declared x, none⟩).reverse ++
        t.latest := by
  induction items generalizing t with
  | nil => rfl
  | cons x rest ih =>
    rw [List.foldl_cons, ih, List.zipIdx_cons, List.map_cons, List.reverse_cons, List.append_assoc]
    rfl

theorem positional_foldl_insert {α : Type} {name : α → String} {arity : α → Nat}
    {declared : α → Option TypeDef} {items : List α} {t : Table} (h : t.Positional) :
    (items.foldl (fun t x => t.insert (name x) (arity x) (declared x)) t).Positional := by
  induction items generalizing t with
  | nil => exact h
  | cons x rest ih => exact ih (h.insert _ _ _)

end Table

/-- The entries of a catalogue. -/
def Builtin.entries (catalogue : List Builtin) : List Entry :=
  (catalogue.zipIdx 0).map fun (b, seq) => ⟨b.name, seq, b.arity, b.definition, none⟩

/-- Definitions that a table can be seeded with: their names are distinct, no name is that of a
specialization, and the arities of built-ins are those of their definitions. -/
structure Seedable (catalogue : List Builtin) (definitions : List TypeDef) : Prop where
  nodup : (definitions.map TypeDef.name).Nodup
  plain : ∀ d ∈ definitions, isSynthetic d.name = false
  builtin : ∀ b ∈ catalogue, isSynthetic b.name = false
  arity : ∀ b ∈ catalogue, ∀ d, b.definition = some d → d.arity = b.arity
  abstract : ∃ b ∈ catalogue, b.name = Catalogue.abstractName

namespace Library

/-- The definitions of the generics of a catalogue and a file. -/
def of (catalogue : List Builtin) (definitions : List TypeDef) : Library where
  find name :=
    if isSynthetic name then none
    else ((Engine.seed catalogue definitions).table.find? name).bind Entry.declared
  plain {name d} h := by
    by_contra hsynthetic
    rw [Bool.not_eq_false] at hsynthetic
    rw [if_pos hsynthetic] at h
    cases h

/-- What an expansion returns that begins the specializations in `added`. -/
def outcome (library : Library) (keepPoly : Bool) (definitions : List TypeDef) (added : List Use) :
    Expansion where
  definitions := (definitions.filter (TypeDef.isKept keepPoly)).map TypeDef.expanded ++
    (added.filter fun u => u.wanted.arity == 0 || keepPoly).filterMap fun u =>
      (library.find u.generic).map u.specialization
  origins := added.map Use.origin

end Library

namespace Engine

variable {catalogue : List Builtin} {definitions : List TypeDef}

theorem latest_seed (catalogue : List Builtin) (definitions : List TypeDef) :
    (seed catalogue definitions).table.latest =
      (TypeDef.pending catalogue.length definitions).reverse ++ (Builtin.entries catalogue).reverse := by
  have hbuiltins := Table.latest_foldl_insert Builtin.name Builtin.arity Builtin.definition catalogue
    Table.empty
  have hnext : (catalogue.foldl (fun t b => t.insert b.name b.arity b.definition)
      Table.empty).next = catalogue.length := by
    show List.length (Table.latest _) = _
    rw [hbuiltins]
    simp [Table.empty]
  have hdefinitions := Table.latest_foldl_insert TypeDef.name TypeDef.arity
    (fun d => some d.normalize) definitions
    (catalogue.foldl (fun t b => t.insert b.name b.arity b.definition) Table.empty)
  rw [hnext, hbuiltins] at hdefinitions
  apply hdefinitions.trans
  rw [Table.empty, List.append_nil]
  rfl

/-- The entries of the seeded table. -/
theorem mem_latest_seed {entry : Entry} (h : entry ∈ (seed catalogue definitions).table.latest) :
    (∃ d ∈ definitions, entry.name = d.name ∧ entry.arity = d.arity ∧
      entry.declared = some d.normalize) ∨
    ∃ b ∈ catalogue, entry.name = b.name ∧ entry.arity = b.arity ∧ entry.declared = b.definition := by
  rw [latest_seed, List.mem_append, List.mem_reverse, List.mem_reverse] at h
  obtain h | h := h
  · obtain ⟨⟨d, seq⟩, hmem, rfl⟩ := List.mem_map.1 h
    exact Or.inl ⟨d, (List.mem_zipIdx hmem).2.2 ▸ List.getElem_mem _, rfl, rfl, rfl⟩
  · obtain ⟨⟨b, seq⟩, hmem, rfl⟩ := List.mem_map.1 h
    exact Or.inr ⟨b, (List.mem_zipIdx hmem).2.2 ▸ List.getElem_mem _, rfl, rfl, rfl⟩

theorem map_zipIdx {α β : Type} (f : α → β) (items : List α) (start : Nat) :
    (items.zipIdx start).map (fun x => f x.1) = items.map f := by
  rw [← Function.comp_def f, ← List.map_map, List.zipIdx_map_fst]

theorem exists_mem_zipIdx {α : Type} {items : List α} {x : α} (h : x ∈ items) (start : Nat) :
    ∃ seq, (x, seq) ∈ items.zipIdx start := by
  rw [← List.zipIdx_map_fst start items] at h
  obtain ⟨⟨y, seq⟩, hmem, rfl⟩ := List.mem_map.1 h
  exact ⟨seq, hmem⟩

theorem names_seed (catalogue : List Builtin) (definitions : List TypeDef) :
    (seed catalogue definitions).table.latest.map Entry.name =
      (definitions.map TypeDef.name).reverse ++ (catalogue.map Builtin.name).reverse := by
  have hpending : (TypeDef.pending catalogue.length definitions).map Entry.name =
      definitions.map TypeDef.name := by
    rw [TypeDef.pending, List.map_map]
    exact map_zipIdx TypeDef.name definitions _
  have hbuiltins : (Builtin.entries catalogue).map Entry.name = catalogue.map Builtin.name := by
    rw [Builtin.entries, List.map_map]
    exact map_zipIdx Builtin.name catalogue _
  rw [latest_seed, List.map_append, List.map_reverse, List.map_reverse, hpending, hbuiltins]

theorem contains_seed {name : String} : (seed catalogue definitions).table.contains name = true ↔
    name ∈ definitions.map TypeDef.name ∨ name ∈ catalogue.map Builtin.name := by
  rw [Table.contains_iff, names_seed, List.mem_append, List.mem_reverse, List.mem_reverse]

/-- Names that are distinct tell the entries of the seeded table apart. -/
theorem known_seed_of_mem (hnodup : (definitions.map TypeDef.name ++ catalogue.map Builtin.name).Nodup)
    {entry : Entry} (h : entry ∈ (seed catalogue definitions).table.latest) :
    (seed catalogue definitions).table.known entry.name = some (entry.arity, entry.declared) := by
  have hnames : ((seed catalogue definitions).table.latest.map Entry.name).Nodup := by
    rw [names_seed]
    refine List.Perm.nodup ?_ hnodup
    exact ((List.reverse_perm _).append (List.reverse_perm _)).symm
  rw [Table.known, Table.find?_of_mem hnames h, Option.map_some]

theorem known_seed_definition
    (hnodup : (definitions.map TypeDef.name ++ catalogue.map Builtin.name).Nodup) {d : TypeDef}
    (hd : d ∈ definitions) :
    (seed catalogue definitions).table.known d.name = some (d.arity, some d.normalize) := by
  obtain ⟨seq, hseq⟩ := exists_mem_zipIdx hd catalogue.length
  refine @known_seed_of_mem _ _ hnodup (d.entry seq none) ?_
  rw [latest_seed, List.mem_append, List.mem_reverse]
  exact Or.inl (List.mem_map.2 ⟨(d, seq), hseq, rfl⟩)

theorem known_seed_builtin
    (hnodup : (definitions.map TypeDef.name ++ catalogue.map Builtin.name).Nodup) {b : Builtin}
    (hb : b ∈ catalogue) :
    (seed catalogue definitions).table.known b.name = some (b.arity, b.definition) := by
  obtain ⟨seq, hseq⟩ := exists_mem_zipIdx hb 0
  refine @known_seed_of_mem _ _ hnodup ⟨b.name, seq, b.arity, b.definition, none⟩ ?_
  rw [latest_seed, List.mem_append, List.mem_reverse, List.mem_reverse]
  exact Or.inr (List.mem_map.2 ⟨(b, seq), hseq, rfl⟩)

/-- The seeded table serves the library. -/
theorem serves_seed (h : Seedable catalogue definitions) :
    Serves (Library.of catalogue definitions) [] (seed catalogue definitions) where
  positional := Table.positional_foldl_insert (Table.positional_foldl_insert Table.positional_empty)
  library {name d} hfind := by
    have hplain := (Library.of catalogue definitions).plain hfind
    change (if isSynthetic name then none else _) = some d at hfind
    rw [if_neg (by rw [hplain]; exact Bool.false_ne_true)] at hfind
    obtain ⟨entry, hentry, hdeclared⟩ := Option.bind_eq_some_iff.1 hfind
    have harity : entry.arity = d.arity := by
      obtain ⟨d', -, -, harity, hd'⟩ | ⟨b, hb, -, harity, hdefinition⟩ :=
        mem_latest_seed (Table.find?_eq_some hentry).1
      · rw [hdeclared] at hd'
        rw [harity, Option.some.inj hd']
        rfl
      · rw [harity, h.arity b hb d (hdefinition.symm.trans hdeclared)]
    rw [Table.known, hentry, Option.map_some, harity, hdeclared]
  abstract := by
    obtain ⟨b, hb, hname⟩ := h.abstract
    exact contains_seed.2 (Or.inr (hname ▸ List.mem_map_of_mem hb))
  begun u := by
    refine ⟨fun hcontains => ?_, fun hmem => absurd hmem List.not_mem_nil⟩
    have hplain : isSynthetic u.name = false := by
      obtain hmem | hmem := contains_seed.1 hcontains
      · obtain ⟨d, hd, heq⟩ := List.mem_map.1 hmem
        rw [← heq, h.plain d hd]
      · obtain ⟨b, hb, heq⟩ := List.mem_map.1 hmem
        rw [← heq, h.builtin b hb]
    rw [u.isSynthetic_name] at hplain
    cases hplain

theorem stage_seed (h : Seedable catalogue definitions) :
    Stage (Library.of catalogue definitions) (Builtin.entries catalogue).reverse
      (catalogue.length + definitions.length) catalogue.length definitions []
      (seed catalogue definitions) where
  serves := serves_seed h
  latest := latest_seed catalogue definitions
  origins := rfl
  count := by simp [Builtin.entries]

end Engine

/-! ## What is in the library -/

namespace Library

variable {catalogue : List Builtin} {definitions : List TypeDef}

/-- What the library finds is defined in the file or in the catalogue. -/
theorem find_cases {name : String} {d : TypeDef} (h : (of catalogue definitions).find name = some d) :
    (∃ d' ∈ definitions, d'.name = name ∧ d = d'.normalize) ∨
      ∃ b ∈ catalogue, b.name = name ∧ b.definition = some d := by
  have hplain := (of catalogue definitions).plain h
  change (if isSynthetic name = true then none else _) = some d at h
  rw [hplain, if_neg Bool.false_ne_true] at h
  obtain ⟨entry, hentry, hdeclared⟩ := Option.bind_eq_some_iff.1 h
  obtain ⟨hmem, rfl⟩ := Table.find?_eq_some hentry
  obtain ⟨d', hd', hname, -, heq⟩ | ⟨b, hb, hname, -, heq⟩ := Engine.mem_latest_seed hmem
  · exact Or.inl ⟨d', hd', hname.symm, Option.some.inj (hdeclared.symm.trans heq)⟩
  · exact Or.inr ⟨b, hb, hname.symm, heq.symm.trans hdeclared⟩

/-- The library finds what is declared in the seeded table. -/
theorem find_of_known {name : String} {arity : Nat} {declared : Option TypeDef}
    (h : (Engine.seed catalogue definitions).table.known name = some (arity, declared))
    (hplain : isSynthetic name = false) : (of catalogue definitions).find name = declared := by
  obtain ⟨entry, hentry, heq⟩ := Option.map_eq_some_iff.1 h
  show (if isSynthetic name = true then none else _) = _
  rw [hplain, if_neg Bool.false_ne_true, hentry]
  exact (Prod.mk.inj heq).2

theorem find_definition (hnodup : (definitions.map TypeDef.name ++ catalogue.map Builtin.name).Nodup)
    {d : TypeDef} (hd : d ∈ definitions) (hplain : isSynthetic d.name = false) :
    (of catalogue definitions).find d.name = some d.normalize :=
  find_of_known (Engine.known_seed_definition hnodup hd) hplain

theorem find_builtin (hnodup : (definitions.map TypeDef.name ++ catalogue.map Builtin.name).Nodup)
    {b : Builtin} (hb : b ∈ catalogue) (hplain : isSynthetic b.name = false) :
    (of catalogue definitions).find b.name = b.definition :=
  find_of_known (Engine.known_seed_builtin hnodup hb) hplain

end Library

namespace Engine

/-! ## What is in the table in the end -/

theorem drain_settled (keepPoly : Bool) (start : Nat) (definitions : List TypeDef) :
    ((TypeDef.settled keepPoly start definitions).filter
        fun e => e.arity == 0 || keepPoly).filterMap Entry.expansion =
      (definitions.filter (TypeDef.isKept keepPoly)).map TypeDef.expanded := by
  induction definitions generalizing start with
  | nil => rfl
  | cons d rest ih =>
    have hsettled : TypeDef.settled keepPoly start (d :: rest) =
        d.entry start (if d.isKept keepPoly then some d.expanded else none) ::
          TypeDef.settled keepPoly (start + 1) rest := rfl
    have hkept : (d.arity == 0 || keepPoly) = d.isKept keepPoly := by
      rw [TypeDef.arity, TypeDef.isKept]
      cases d.params <;> rfl
    rw [hsettled, List.filter_cons, List.filter_cons]
    show (if (d.arity == 0 || keepPoly) = true then _ else _ : List Entry).filterMap _ = _
    rw [hkept]
    cases h : d.isKept keepPoly with
    | false => exact ih (start + 1)
    | true => simp [TypeDef.entry, ih]

theorem drain_entries (library : Library) (keepPoly : Bool) (start : Nat) (uses : List Use) :
    ((Use.entries library start uses).filter fun e => e.arity == 0 || keepPoly).filterMap
        Entry.expansion =
      (uses.filter fun u => u.wanted.arity == 0 || keepPoly).filterMap fun u =>
        (library.find u.generic).map u.specialization := by
  induction uses generalizing start with
  | nil => rfl
  | cons u rest ih =>
    rw [Use.entries_cons, List.filter_cons, List.filter_cons]
    show (if (u.wanted.arity == 0 || keepPoly) = true then _ else _ : List Entry).filterMap _ = _
    split
    · rw [List.filterMap_cons, List.filterMap_cons, ih]
      rfl
    · exact ih (start + 1)

theorem drain_builtins (keepPoly : Bool) (catalogue : List Builtin) :
    ((Builtin.entries catalogue).filter fun e => e.arity == 0 || keepPoly).filterMap
      Entry.expansion = [] := by
  apply List.filterMap_eq_nil_iff.2
  intro e he
  obtain ⟨⟨b, seq⟩, -, rfl⟩ := List.mem_map.1 (List.mem_of_mem_filter he)
  rfl

end Engine

variable {catalogue : List Builtin} {definitions : List TypeDef}

/-- How an expansion ends. -/
theorem expand_ends (hseed : Seedable catalogue definitions) {Q : Use → Prop} {keepPoly : Bool}
    (hQ : (Library.of catalogue definitions).Supports Q)
    (hroots : ∀ u ∈ TypeDef.roots keepPoly definitions, Q u) (depth : Nat) :
    (∃ added, Visits (Library.of catalogue definitions) [] (TypeDef.roots keepPoly definitions) added ∧
      (expand depth catalogue definitions keepPoly).1 =
        .ok ((Library.of catalogue definitions).outcome keepPoly definitions added)) ∨
    ∃ chain, Engine.Nests Q [] chain ∧ chain.length = depth + 1 ∧
      (expand depth catalogue definitions keepPoly).1 = .error .tooDeep := by
  have hsettles := @Engine.exec_forM_expandDefinition _ _ _ _ hQ depth _ _ _ _ _ (Engine.stage_seed hseed)
    hseed.nodup hseed.plain hroots
  have hexpand : (expand depth catalogue definitions keepPoly).1 =
      (Engine.exec (Engine.expandAll depth keepPoly definitions)
        (Engine.seed catalogue definitions)).1 := rfl
  rw [hexpand, Engine.expandAll, Engine.exec_bind]
  generalize Engine.exec (definitions.forM (Engine.expandDefinition depth keepPoly))
    (Engine.seed catalogue definitions) = outcome at hsettles
  cases hsettles with
  | tooDeep nests length => exact Or.inr ⟨_, nests, length, rfl⟩
  | @done added e visits stage =>
    refine Or.inl ⟨added, visits, ?_⟩
    have hdrain : e.table.drain keepPoly =
        ((Library.of catalogue definitions).outcome keepPoly definitions added).definitions := by
      have hlatest := stage.latest
      rw [Table.drain, Table.toList, hlatest]
      simp only [List.reverse_append, List.reverse_reverse, List.nil_append, TypeDef.pending,
        List.zipIdx_nil, List.map_nil, List.reverse_nil, List.append_assoc, List.append_nil,
        List.filter_append, List.filterMap_append, Engine.drain_settled, Engine.drain_entries,
        Engine.drain_builtins]
      rfl
    have horigins := stage.origins
    simp only [Engine.exec_bind, Engine.exec_get, Engine.exec_report, Engine.exec_pure, hdrain]
    rw [horigins]
    rfl

end Monomorph
