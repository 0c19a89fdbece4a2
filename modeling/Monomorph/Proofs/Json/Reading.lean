import Mathlib.Order.MinMax
import Monomorph.Json.Definition
import Monomorph.Proofs.Association

/-!
# Reading without a bound

An expression inside another one is read with a bound on its nesting, and the depth of a value is always
enough. `TypeExpr.nested?` reads such an expression with a bound that its own depth gives, and the equations
`TypeExpr.nested?_eq` and `TypeExpr.ofJson?_eq` say how an expression is read from the readings of what is
inside it, with no bound left in them.

The bound does not matter because a node asks only for what lies deeper in the value: two ways of reading that
agree below some depth, `Json.AgreeBelow`, are extended by each step of the reading to ways that still agree.
-/

namespace Monomorph

namespace Json

variable {α β : Type} {json value : Json} {name : String}

/-! ## Depth -/

theorem depth_lt_of_mem_items {items : List Json} (h : value ∈ items) :
    value.depth < (array items).depth := by
  refine Nat.lt_succ_of_le ?_
  induction items with
  | nil => cases h
  | cons item rest ih =>
    obtain rfl | h := List.mem_cons.1 h
    · exact Nat.le_max_left _ _
    · exact (ih h).trans (Nat.le_max_right _ _)

theorem depth_lt_of_mem_members {members : List (String × Json)} (h : (name, value) ∈ members) :
    value.depth < (object members).depth := by
  refine Nat.lt_succ_of_le ?_
  induction members with
  | nil => cases h
  | cons member rest ih =>
    obtain rfl | h := List.mem_cons.1 h
    · exact Nat.le_max_left _ _
    · exact (ih h).trans (Nat.le_max_right _ _)

theorem depth_lt_of_member? (h : json.member? name = some value) : value.depth < json.depth := by
  cases json with
  | object members => exact depth_lt_of_mem_members (Association.mem_of_lookup h)
  | _ => cases h

theorem depthOfMembers_zip_le (names : List String) (items : List Json) :
    depthOfMembers (names.zip items) ≤ depthOfItems items := by
  induction names generalizing items with
  | nil => exact Nat.zero_le _
  | cons name names ih =>
    cases items with
    | nil => exact Nat.le_refl _
    | cons item rest => exact max_le_max (Nat.le_refl _) (ih rest)

theorem depth_parts?_le {names : List String} {parts : Json} (h : json.parts? names = some parts) :
    parts.depth ≤ json.depth := by
  cases json with
  | object members => exact Option.some.inj h ▸ Nat.le_refl _
  | array items =>
    obtain ⟨-, h⟩ := Option.ite_none_right_eq_some.1 h
    obtain rfl := Option.some.inj h
    exact Nat.succ_le_succ (depthOfMembers_zip_le names items)
  | _ => cases h

theorem depth_tagged?_le {alternatives : List (Alternative α)} {byPlace : Bool} {kind : α} {parts : Json}
    (h : json.tagged? alternatives byPlace = some (kind, parts)) : parts.depth ≤ json.depth := by
  cases json with
  | object members =>
    obtain ⟨tag, -, h⟩ := Option.bind_eq_some_iff.1 h
    obtain ⟨alternative, -, h⟩ := Option.bind_eq_some_iff.1 h
    obtain ⟨-, rfl⟩ := Prod.mk.inj (Option.some.inj h)
    exact Nat.le_refl _
  | array items =>
    cases items with
    | nil => cases h
    | cons tag items =>
      obtain ⟨alternative, -, h⟩ := Option.bind_eq_some_iff.1 h
      obtain ⟨object, hobject, h⟩ := Option.bind_eq_some_iff.1 h
      obtain ⟨-, rfl⟩ := Prod.mk.inj (Option.some.inj h)
      exact (depth_parts?_le hobject).trans (Nat.succ_le_succ (Nat.le_max_right _ _))
  | _ => cases h

/-! ## Members and items -/

theorem optional?_of_ne_null {read : Json → Option α} (h : json.member? name = some value)
    (hne : value ≠ null) : json.optional? read name = (read value).map some := by
  rw [optional?, h]
  cases value <;> first | rfl | exact absurd rfl hne

/-- The items of an array are read one by one. -/
theorem toList?_array (read : Json → Option α) (items : List Json) :
    (array items).toList? read = (items.map read).mapM id := by
  rw [List.mapM_map, Function.id_comp]
  rfl

theorem mapM_id_eq_some_iff {results : List (Option α)} {values : List α} :
    results.mapM id = some values ↔ results = values.map some := by
  induction results generalizing values with
  | nil => cases values <;> simp
  | cons result results ih =>
    cases values with
    | nil => cases result <;> simp [Option.bind_eq_some_iff]
    | cons value values =>
      cases result with
      | none => simp
      | some x => simpa [ih, Option.bind_eq_some_iff] using and_comm

/-- An array is read if each of its items is. -/
theorem toList?_array_eq_some_iff {read : Json → Option α} {items : List Json} {values : List α} :
    (array items).toList? read = some values ↔ items.map read = values.map some := by
  rw [toList?_array, mapM_id_eq_some_iff]

theorem exists_of_map_eq {read : Json → Option α} {items : List Json} {values : List α}
    (h : items.map read = values.map some) {item : Json} (hitem : item ∈ items) :
    ∃ v, read item = some v := by
  have hmem : read item ∈ values.map some := h ▸ List.mem_map_of_mem hitem
  obtain ⟨v, -, hv⟩ := List.mem_map.1 hmem
  exact ⟨v, hv.symm⟩

/-! ## Ways of reading that agree -/

/-- Two ways of reading agree on the values of less than some depth. -/
def AgreeBelow (n : Nat) (read read' : Json → Option α) : Prop :=
  ∀ value, value.depth < n → read value = read' value

namespace AgreeBelow

variable {n : Nat} {read read' : Json → Option α}

theorem required? (h : AgreeBelow n read read') (hdepth : json.depth ≤ n) (name : String) :
    json.required? read name = json.required? read' name :=
  Option.bind_congr fun value hvalue => h value (Nat.lt_of_lt_of_le (depth_lt_of_member? hvalue) hdepth)

theorem optional? (h : AgreeBelow n read read') (hdepth : json.depth ≤ n) (name : String) :
    json.optional? read name = json.optional? read' name := by
  rw [Json.optional?, Json.optional?]
  split
  · rfl
  · rfl
  · next value _ hvalue => rw [h value (Nat.lt_of_lt_of_le (depth_lt_of_member? hvalue) hdepth)]

theorem toList? (h : AgreeBelow n read read') : AgreeBelow n (Json.toList? read) (Json.toList? read') := by
  intro value hvalue
  cases value with
  | array items =>
    rw [toList?_array, toList?_array, List.map_congr_left fun item hitem =>
      h item ((depth_lt_of_mem_items hitem).trans hvalue)]
  | _ => rfl

end AgreeBelow

end Json

namespace TypeExpr

open Json

variable {n : Nat} {read read' : Json → Option TypeExpr} {json : Json}

theorem agree_variantOfJson? (h : AgreeBelow n read read') :
    AgreeBelow n (variantOfJson? read) (variantOfJson? read') := fun json hjson =>
  Option.bind_congr fun parts hparts => Option.bind_congr fun tag _ => by
    rw [h.optional? ((depth_parts?_le hparts).trans hjson.le)]

theorem agree_fieldOfJson? (h : AgreeBelow n read read') :
    AgreeBelow n (fieldOfJson? read) (fieldOfJson? read') := fun json hjson =>
  Option.bind_congr fun ⟨kind, parts⟩ hparts => by
    have hdepth := (depth_tagged?_le hparts).trans hjson.le
    cases kind with
    | labelled => simp only [h.required? hdepth]
    | inherit => simp only [h.required? hdepth]

/-- To read a node is to read what is inside it, and nothing else. -/
theorem nodeOfJson?_congr (h : AgreeBelow n read read') (hdepth : json.depth ≤ n) (byPlace : Bool) :
    nodeOfJson? byPlace read json = nodeOfJson? byPlace read' json :=
  Option.bind_congr fun ⟨kind, parts⟩ hparts => Option.bind_congr fun a _ => by
    have hdepth := (depth_tagged?_le hparts).trans hdepth
    cases kind with
    | sum => simp only [(agree_variantOfJson? h).toList?.required? hdepth]
    | record => simp only [(agree_fieldOfJson? h).toList?.required? hdepth]
    | tuple => simp only [h.toList?.required? hdepth]
    | container => simp only [h.required? hdepth]
    | var => rfl
    | named => simp only [h.toList?.required? hdepth]

/-- A bound that is greater than the depth of a value may be any other such bound. -/
theorem agree_innerOfJson? {fuel : Nat} (h : n ≤ fuel) :
    AgreeBelow n (innerOfJson? n) (innerOfJson? fuel) := by
  induction n generalizing fuel with
  | zero => exact fun value hvalue => absurd hvalue (Nat.not_lt_zero _)
  | succ n ih =>
    obtain ⟨fuel, rfl⟩ := Nat.exists_eq_add_of_lt h
    exact fun value hvalue => nodeOfJson?_congr (ih (by omega)) (Nat.le_of_lt_succ hvalue) true

/-- Read an expression inside another one. -/
def nested? (json : Json) : Option TypeExpr := innerOfJson? (json.depth + 1) json

theorem agree_nested? (n : Nat) : AgreeBelow n (innerOfJson? n) nested? := fun value hvalue =>
  (agree_innerOfJson? hvalue value (Nat.lt_succ_self _)).symm

theorem nested?_eq (json : Json) : nested? json = nodeOfJson? true nested? json :=
  nodeOfJson?_congr (agree_nested? json.depth) (Nat.le_refl _) true

theorem ofJson?_eq (json : Json) : ofJson? json = nodeOfJson? false nested? json :=
  nodeOfJson?_congr (agree_nested? json.depth) (Nat.le_refl _) false

end TypeExpr

end Monomorph
