import Monomorph.Proofs.Check.WellFormed
import Monomorph.Proofs.Expansion.Demand
import Monomorph.Proofs.Expansion.Library

/-!
# Expansions without faults

The checker looks names up in a list of arities, the engine looks generics up in the table when it is about
to specialize them. `Table.Coherent` says that the table has whatever its own generics apply. A run begins
specializations under new names only, so it keeps what it has started with (`Engine.Keeps`), and every use
that it meets comes from the body of a generic that was there at the start. `Engine.Faultless` passes through
sequences and lists; a run that is faultless can fail by nothing but nesting too deep.

The checker takes containers for granted, and a catalogue need not list them. Where the catalogue does list
the containers that occur in a file, `Source.expand_faultless` says that a file without errors is expanded
without faults.
-/

namespace Monomorph

/-! ## Names with the right number of arguments -/

namespace TypeExpr

/-- The name that a node applies, that of a container included, and the number of arguments. -/
def applied? : TypeExpr → Option (String × Nat)
  | container kind _ _ => some (kind.name, 1)
  | named name args _ => some (name, args.length)
  | _ => none

/-- All names that an expression applies are defined or built in, with as many parameters as they have
arguments. -/
def Resolved (catalogue : List Builtin) (definitions : List TypeDef) (t : TypeExpr) : Prop :=
  ∀ node ∈ t.subterms, ∀ head ∈ node.applied?, HasArity catalogue definitions head.1 head.2

instance (catalogue : List Builtin) (definitions : List TypeDef) (t : TypeExpr) :
    Decidable (t.Resolved catalogue definitions) :=
  inferInstanceAs (Decidable (∀ node ∈ t.subterms, _))

end TypeExpr

/-- The names of a catalogue are distinct, and every generic in it has a definition with its number of
parameters, in which all names are those of the catalogue. -/
structure Catalogue.Coherent (catalogue : List Builtin) : Prop where
  names : (catalogue.map Builtin.name).Nodup
  defined : ∀ b ∈ catalogue, 0 < b.arity →
    ∃ d ∈ b.definition, d.arity = b.arity ∧ d.body.Resolved catalogue []

instance (catalogue : List Builtin) : Decidable (Catalogue.Coherent catalogue) :=
  decidable_of_iff (_ ∧ _) ⟨fun h => ⟨h.1, h.2⟩, fun h => ⟨h.names, h.defined⟩⟩

namespace TypeExpr

variable {catalogue : List Builtin} {definitions : List TypeDef}

theorem Resolved.of_catalogue {t : TypeExpr} (h : t.Resolved catalogue []) (definitions : List TypeDef) :
    t.Resolved catalogue definitions :=
  fun node hnode head hhead => Or.inr ((h node hnode head hhead).resolve_left nofun)

theorem applied?_of_call? {node : TypeExpr} {call : Application} (h : node.call? = some call) :
    node.applied? = some (call.callee, call.args.length) := by
  cases node with
  | container kind element a =>
    obtain rfl := Option.some.inj h
    rfl
  | named name args a =>
    cases args with
    | nil => cases h
    | cons arg rest =>
      obtain rfl := Option.some.inj h
      rfl
  | _ => cases h

theorem calls_eq (t : TypeExpr) : t.calls = t.call?.toList ++ t.children.flatMap calls := by
  rw [calls, subterms_eq, List.filterMap_cons, List.filterMap_flatMap]
  cases t.call? <;> rfl

theorem call?_normalize (t : TypeExpr) :
    t.normalize.call? = t.call?.map fun call => ⟨call.callee, call.args.map normalize⟩ := by
  cases t with
  | named name args a =>
    rw [normalize, rebuild_named]
    obtain ⟨kind, element, rfl, hargs, heq⟩ | ⟨-, heq⟩ := apply_cases name (args.map normalize) a
    · obtain ⟨arg, rfl, rfl⟩ := List.map_eq_singleton_iff.1 hargs
      exact congrArg call? heq
    · refine (congrArg call? heq).trans ?_
      cases args <;> rfl
  | _ => simp [normalize, call?]

/-- An expression applies the same names in normal form, to as many arguments. -/
theorem calls_normalize (t : TypeExpr) :
    t.normalize.calls = t.calls.map fun call => ⟨call.callee, call.args.map normalize⟩ := by
  induction t using children_induct with
  | node t ih =>
    rw [calls_eq, calls_eq t, call?_normalize, children_normalize, List.flatMap_map, List.map_append,
      List.map_flatMap, List.flatMap_congr ih]
    cases t.call? <;> rfl

theorem isAbstract_normalize (t : TypeExpr) : t.normalize.isAbstract = t.isAbstract := by
  cases t with
  | named name args a =>
    rw [normalize, rebuild_named]
    obtain ⟨kind, element, -, hargs, heq⟩ | ⟨-, heq⟩ := apply_cases name (args.map normalize) a
    · obtain ⟨arg, rfl, rfl⟩ := List.map_eq_singleton_iff.1 hargs
      exact (congrArg isAbstract heq).trans rfl
    · refine (congrArg isAbstract heq).trans ?_
      cases args <;> rfl
  | _ => simp [normalize, isAbstract]

end TypeExpr

/-! ## Tables that have what their generics apply -/

namespace Table

/-- A name has a definition with this number of parameters. -/
def Defines (t : Table) (name : String) (arity : Nat) : Prop :=
  ∃ d, t.known name = some (d.arity, some d) ∧ d.arity = arity

/-- Everything that an expression applies to arguments has a definition, and if the expression is that of an
abstract generic, there is a built-in for it. -/
structure Covers (t : Table) (body : TypeExpr) : Prop where
  calls : ∀ call ∈ body.calls, t.Defines call.callee call.args.length
  abstract : body.isAbstract = true → t.contains Catalogue.abstractName = true

/-- A table covers the bodies of the generics that it defines. -/
structure Coherent (t : Table) : Prop where
  covers : ∀ {name d}, t.known name = some (d.arity, some d) → 0 < d.arity → t.Covers d.body

/-- A table has the generic of a use. -/
structure Provides (t : Table) (u : Use) : Prop where
  args : u.args ≠ []
  generic : t.Defines u.generic u.args.length

variable {t : Table} {body : TypeExpr}

theorem Covers.provides (h : t.Covers body) {result : Use → TypeExpr} {env : Environment} {u : Use}
    (hu : u ∈ body.uses result env) : t.Provides u where
  args := TypeExpr.args_ne_nil_of_mem_uses hu
  generic := by
    obtain ⟨node, hnode, call, hcall, rfl⟩ := TypeExpr.mem_uses hu
    have hdefines := h.calls call (List.mem_filterMap.2 ⟨node, hnode, hcall⟩)
    rwa [← List.length_map (f := TypeExpr.substituteBy result env)] at hdefines

theorem Covers.normalize (h : t.Covers body) : t.Covers body.normalize where
  calls call hcall := by
    rw [TypeExpr.calls_normalize] at hcall
    obtain ⟨call, hmem, rfl⟩ := List.mem_map.1 hcall
    rw [List.length_map]
    exact h.calls call hmem
  abstract := by
    rw [TypeExpr.isAbstract_normalize]
    exact h.abstract

end Table

namespace Engine

section Seed

variable {catalogue : List Builtin} {definitions : List TypeDef}
variable (hcatalogue : Catalogue.Coherent catalogue)
variable (hnodup : (definitions.map TypeDef.name ++ catalogue.map Builtin.name).Nodup)

include hcatalogue hnodup

theorem seed_defines {name : String} {arity : Nat} (h : HasArity catalogue definitions name arity)
    (hpos : 0 < arity) : (seed catalogue definitions).table.Defines name arity := by
  obtain ⟨d, hd, rfl, rfl⟩ | ⟨b, hb, rfl, rfl⟩ := h
  · exact ⟨d.normalize, known_seed_definition hnodup hd, rfl⟩
  · obtain ⟨d, hdefinition, harity, -⟩ := hcatalogue.defined b hb hpos
    exact ⟨d, by rw [known_seed_builtin hnodup hb, hdefinition, harity], harity⟩

theorem seed_covers {body : TypeExpr} (h : body.Resolved catalogue definitions) :
    (seed catalogue definitions).table.Covers body where
  calls call hcall := by
    obtain ⟨node, hnode, hcall⟩ := List.mem_filterMap.1 hcall
    have hpos := List.length_pos_iff.2 (TypeExpr.args_ne_nil_of_call? hcall)
    exact seed_defines hcatalogue hnodup (h node hnode _ (TypeExpr.applied?_of_call? hcall)) hpos
  abstract habstract := by
    unfold TypeExpr.isAbstract at habstract
    split at habstract
    · obtain rfl := beq_iff_eq.1 habstract
      obtain ⟨d, hd, hname, -⟩ | ⟨b, hb, hname, -⟩ := h _ (TypeExpr.self_mem_subterms _) _ rfl
      · exact contains_seed.2 (Or.inl (List.mem_map.2 ⟨d, hd, hname⟩))
      · exact contains_seed.2 (Or.inr (List.mem_map.2 ⟨b, hb, hname⟩))
    · cases habstract

/-- The seeded table has what the generics in it apply, whether they are built in or defined in the file. -/
theorem coherent_seed (hresolved : ∀ d ∈ definitions, d.body.Resolved catalogue definitions) :
    (seed catalogue definitions).table.Coherent where
  covers {name d} hknown hpos := by
    obtain ⟨entry, hentry, heq⟩ := Option.map_eq_some_iff.1 hknown
    obtain ⟨harity, hdeclared⟩ := Prod.mk.inj heq
    obtain ⟨d', hd', -, -, hd⟩ | ⟨b, hb, -, hb', hd⟩ := mem_latest_seed (Table.find?_eq_some hentry).1
    · obtain rfl := Option.some.inj (hdeclared.symm.trans hd)
      exact (seed_covers hcatalogue hnodup (hresolved d' hd')).normalize
    · obtain ⟨d', hd', -, hbody⟩ := hcatalogue.defined b hb (by rwa [← hb', harity])
      obtain rfl := Option.some.inj (hdeclared.symm.trans (hd.trans hd'))
      exact seed_covers hcatalogue hnodup (hbody.of_catalogue definitions)

end Seed

/-! ## Runs -/

/-- What a table knows is still known to the engine. -/
def Keeps (start : Table) (e : Engine) : Prop :=
  ∀ name, start.contains name = true → e.table.known name = start.known name

/-- What a table knows is still known after a run, and the run fails by nothing but nesting too deep. -/
inductive Faultless (start : Table) {α : Type} : Except Failure α × Engine → Prop
  | done {value : α} {e : Engine} (keeps : Keeps start e) : Faultless start (.ok value, e)
  | tooDeep {e : Engine} : Faultless start (.error .tooDeep, e)

variable {start : Table} {e : Engine} {α β : Type}

/-- A new specialization has a name that the table does not know. -/
theorem Keeps.begun (h : Keeps start e) {u : Use} (hnew : ¬ e.table.contains u.name = true) (arity : Nat) :
    Keeps start (e.begun u arity) := by
  intro name hname
  have hne : u.name ≠ name := by
    rintro rfl
    refine hnew ?_
    rw [Table.contains_eq_isSome_known, h _ hname, ← Table.contains_eq_isSome_known, hname]
  show (e.table.insert u.name _ none).known name = _
  rw [Table.known_insert, if_neg hne, h _ hname]

theorem Keeps.filled (h : Keeps start e) (handle : Handle) (d : TypeDef) (events : List ExpansionEvent) :
    Keeps start (e.filled handle d events) := by
  intro name hname
  show (e.table.fill handle d).known name = _
  rw [Table.known_fill, h _ hname]

theorem Keeps.contains (h : Keeps start e) {name : String} (hname : start.contains name = true) :
    e.table.contains name = true := by
  rw [Table.contains_eq_isSome_known, h _ hname, ← Table.contains_eq_isSome_known, hname]

theorem Keeps.known (h : Keeps start e) {name : String} {arity : Nat} {declared : Option TypeDef}
    (hknown : start.known name = some (arity, declared)) : e.table.known name = some (arity, declared) := by
  rw [h name (by rw [Table.contains_eq_isSome_known, hknown, Option.isSome_some]), hknown]

theorem Faultless.bind {x : Run α} {f : α → Run β} (hx : Faultless start (exec x e))
    (hf : ∀ {value e'}, Keeps start e' → Faultless start (exec (f value) e')) :
    Faultless start (exec (x >>= f) e) := by
  rw [exec_bind]
  generalize exec x e = outcome at hx
  cases hx with
  | done keeps => exact hf keeps
  | tooDeep => exact .tooDeep

theorem faultless_forM {f : α → Run Unit} {items : List α}
    (hf : ∀ x ∈ items, ∀ {e}, Keeps start e → Faultless start (exec (f x) e)) (he : Keeps start e) :
    Faultless start (exec (items.forM f) e) := by
  induction items generalizing e with
  | nil => exact .done he
  | cons x rest ih =>
    obtain ⟨hx, hrest⟩ := List.forall_mem_cons.1 hf
    exact (hx he).bind fun he' => ih hrest he'

/-- A run that ends by filling an entry. -/
theorem Faultless.filled {outcome : Except Failure Unit × Engine} (handle : Handle) (d : TypeDef)
    (events : List ExpansionEvent) : Faultless start outcome →
      @Faultless start Unit (match outcome with
        | (.ok (), e') => (.ok (), e'.filled handle d events)
        | (.error failure, e') => (.error failure, e'))
  | .done keeps => .done (keeps.filled handle d events)
  | .tooDeep => .tooDeep

/-- A run over some uses is faultless if the making of a single specialization is. -/
theorem faultless_forM_ensure {create : String → Instance → Annots → Run Unit}
    (hcreate : ∀ {u e}, start.Provides u → Keeps start e → ¬ e.table.contains u.name = true →
      Faultless start (exec (create u.generic u.wanted u.annots) e))
    {uses : List Use} (huses : ∀ u ∈ uses, start.Provides u) (he : Keeps start e) :
    Faultless start (exec (uses.forM (ensure create)) e) := by
  refine faultless_forM (fun u hu e he => ?_) he
  rw [exec_ensure]
  split
  · exact .done he
  · next hnew => exact hcreate (huses u hu) he hnew

/-- A use whose generic is in the table at the start is specialized without faults. -/
theorem faultless_creator (hcoherent : start.Coherent) (depth : Nat) {u : Use} (hu : start.Provides u)
    (he : Keeps start e) (hnew : ¬ e.table.contains u.name = true) :
    Faultless start (exec (creator depth u.generic u.wanted u.annots) e) := by
  induction depth generalizing u e with
  | zero => exact .tooDeep
  | succ depth ih =>
    obtain ⟨hargs, declared, hknown, harity⟩ := hu
    -- The generic has been there from the start, so what its body applies has been there as well.
    have hcovers := hcoherent.covers hknown (harity ▸ List.length_pos_iff.2 hargs)
    have hnested : Faultless start
        (exec ((u.nested declared).forM (ensure (creator depth))) (e.begun u declared.arity)) :=
      faultless_forM_ensure ih (fun v hv => hcovers.provides (Use.mem_uses_of_nested hv))
        (he.begun hnew declared.arity)
    rw [creator, instantiate_eq, exec_specialize _ u (he.known hknown) harity
      fun habstract => he.contains (hcovers.abstract habstract)]
    exact .filled _ _ _ hnested

/-- A definition that is in the table at the start is expanded without faults. -/
theorem faultless_expandDefinition (hcoherent : start.Coherent) (depth : Nat) (keepPoly : Bool)
    {d : TypeDef} (hknown : start.known d.name = some (d.arity, some d.normalize))
    (hcovers : start.Covers d.body.normalize) (he : Keeps start e) :
    Faultless start (exec (expandDefinition depth keepPoly d) e) := by
  cases hkept : d.isKept keepPoly with
  | false =>
    rw [exec_expandDefinition_skip hkept]
    exact .done he
  | true =>
    obtain ⟨entry, hfind, heq⟩ := Option.map_eq_some_iff.1 (he.known hknown)
    have huses : Faultless start (exec (d.uses.forM (ensure (creator depth))) e) :=
      faultless_forM_ensure (faultless_creator hcoherent depth) (fun u hu => hcovers.provides hu) he
    rw [exec_expandDefinition hkept hfind (Prod.mk.inj heq).2]
    exact .filled _ _ _ huses

end Engine

section Expansion

variable {catalogue : List Builtin} {definitions : List TypeDef}

/-- Definitions in which all names are defined or built in are expanded without faults. -/
theorem expand_ne_fault (hcatalogue : Catalogue.Coherent catalogue)
    (hnodup : (definitions.map TypeDef.name ++ catalogue.map Builtin.name).Nodup)
    (hresolved : ∀ d ∈ definitions, d.body.Resolved catalogue definitions) (keepPoly : Bool) (depth : Nat)
    (fault : Fault) : (expand depth catalogue definitions keepPoly).1 ≠ .error (.fault fault) := by
  have hcoherent := Engine.coherent_seed hcatalogue hnodup hresolved
  have hall : Engine.Faultless (Engine.seed catalogue definitions).table
      (Engine.exec (Engine.expandAll depth keepPoly definitions) (Engine.seed catalogue definitions)) := by
    refine (Engine.faultless_forM (fun d hd _ he => ?_) fun _ _ => rfl).bind fun he => .done he
    exact Engine.faultless_expandDefinition hcoherent depth keepPoly (Engine.known_seed_definition hnodup hd)
      (Engine.seed_covers hcatalogue hnodup (hresolved d hd)).normalize he
  have hexpand : (expand depth catalogue definitions keepPoly).1 =
      (Engine.exec (Engine.expandAll depth keepPoly definitions) (Engine.seed catalogue definitions)).1 := rfl
  rw [hexpand]
  intro hfault
  generalize Engine.exec _ (Engine.seed catalogue definitions) = outcome at hall hfault
  cases hall with
  | done keeps => cases hfault
  | tooDeep => cases hfault

/-- The checker sees to the names that are not those of containers. -/
theorem WellFormed.resolved (h : WellFormed catalogue definitions) {d : TypeDef} (hd : d ∈ definitions)
    (hcontainers : ∀ kind element a, .container kind element a ∈ d.body.subterms →
      HasArity catalogue definitions kind.name 1) : d.body.Resolved catalogue definitions := by
  intro node hnode head hhead
  cases node with
  | container kind element a =>
    obtain rfl := Option.some.inj hhead
    exact hcontainers kind element a hnode
  | named name args a =>
    obtain rfl := Option.some.inj hhead
    exact h.known d hd name args a hnode
  | _ => cases hhead

end Expansion

namespace Source

variable {catalogue : List Builtin} {items : List Item}

/-- A file without errors is expanded without faults, if the containers in it are built in or defined. -/
theorem expand_faultless (hcatalogue : Catalogue.Coherent catalogue)
    (hcheck : hasErrors (check catalogue items) = false)
    (hcontainers : ∀ item ∈ items, ∀ kind element a,
      .container kind element a ∈ item.definition.body.subterms →
        HasArity catalogue (items.map Item.definition) kind.name 1)
    (keepPoly : Bool) (depth : Nat) (fault : Fault) :
    (expand depth catalogue (items.map Item.definition) keepPoly).1 ≠ .error (.fault fault) := by
  have hwell := Check.wellFormed_of_check hcheck
  refine expand_ne_fault hcatalogue (List.nodup_append.2 ⟨hwell.names, hcatalogue.names, ?_⟩) ?_ _ _ _
  · rintro name hname other hother rfl
    obtain ⟨d, hd, rfl⟩ := List.mem_map.1 hname
    exact hwell.fresh d hd hother
  · intro d hd
    obtain ⟨item, hitem, rfl⟩ := List.mem_map.1 hd
    exact hwell.resolved hd (hcontainers item hitem)

/-- A catalogue in which options are the only containers. -/
def optional : List Builtin := [Catalogue.atom "int", Catalogue.containerType .option]

/-- A list of optional numbers, with its place. -/
def readings : Item :=
  ⟨⟨"readings", [], ∅, .container .list (.container .option (.atom "int") ∅) ∅⟩, ⟨0, 33⟩⟩

/-- The checker accepts a list where the catalogue has none, and the engine then misses its definition. -/
theorem expand_unlisted :
    Catalogue.Coherent optional ∧
    (∀ b ∈ optional, ∀ d ∈ b.definition, d.params.Nodup ∧ d.body.IsNormal) ∧
    readings.definition.body.IsNormal ∧ hasErrors (check optional [readings]) = false ∧
    ∀ keepPoly, (expand 2 optional [readings.definition] keepPoly).1 =
      .error (.fault (.missingDefinition "list")) := by
  decide +kernel

/-- A definition of lists, with its place. -/
def lists : Item :=
  ⟨⟨"list", ["a"], ∅, .container .option (.tuple [.var "a" ∅, .container .list (.var "a" ∅) ∅] ∅) ∅⟩,
    ⟨34, 71⟩⟩

/-- The file defines the container that the catalogue lacks. -/
theorem expand_faultless_lists :
    Catalogue.Coherent optional ∧ hasErrors (check optional [readings, lists]) = false ∧
    (∀ item ∈ [readings, lists], item.definition.body.Resolved optional
      [readings.definition, lists.definition]) ∧
    ∀ keepPoly depth fault, (expand depth optional [readings.definition, lists.definition] keepPoly).1 ≠
      .error (.fault fault) := by
  have hcatalogue : Catalogue.Coherent optional := by decide +kernel
  have hcheck : hasErrors (check optional [readings, lists]) = false := by decide +kernel
  have hresolved : ∀ item ∈ [readings, lists], item.definition.body.Resolved optional
      [readings.definition, lists.definition] := by decide +kernel
  exact ⟨hcatalogue, hcheck, hresolved, expand_faultless hcatalogue hcheck
    fun item hitem _ _ _ hnode => hresolved item hitem _ hnode _ rfl⟩

end Source

end Monomorph
