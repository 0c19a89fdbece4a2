import Mathlib.Data.Set.List
import Mathlib.Logic.Relation
import Monomorph.Proofs.Json.Roles
import Monomorph.Proofs.Json.RoundTrip

/-!
# Values that are read as the same definition

A definition is read from more values than the one that it is written as. `Json.Edit` lists what may be done
to a value without a change in what is read from it: a member that is not known where it stands may be added,
null may be written for a payload or a value that is absent, and the entries of a list of annotations may be
permuted and repeated, at any depth, whether a structure is given as an object or as an array.

An object that only names the kind of a container is not a structure with members, and nothing can be added
to it.

Each edit keeps what the value is read as, in its role: `Json.Edit.keeps`, by induction on the place of the
edit. `TypeDef.ofJson?_of_edits` is the run of any number of edits, from any value of which a definition is
read.
-/

namespace Monomorph

namespace Json

/-- What may be done to a value in a role. -/
inductive Edit : Role → Json → Json → Prop
  /-- A member is added whose name is not known. -/
  | unknown {role before after name} (value) (h : name ∉ role.names ((before ++ after).lookup "kind")) :
    Edit role (object (before ++ after)) (object (before ++ (name, value) :: after))
  /-- Null is written for a payload or a value that is absent. -/
  | null {role before after name} (hname : name ∈ Role.nullable) (h : (before ++ after).lookup name = none) :
    Edit role (object (before ++ after)) (object (before ++ (name, null) :: after))
  /-- Null is written where an array ends before the payload. -/
  | nullPayload (tag) : Edit .variant (array [tag]) (array [tag, null])
  /-- Null is written where an array ends before the value. -/
  | nullValue (group key) : Edit .annot (array [group, key]) (array [group, key, null])
  /-- Annotations are permuted or repeated. -/
  | entries {entries entries'} (h : ∀ entry, entry ∈ entries ↔ entry ∈ entries') :
    Edit .annots (array entries) (array entries')
  /-- An edit inside a member of an object. -/
  | member {role inner before after name x y} (h : Role.ofMember? name = some inner) (edit : Edit inner x y) :
    Edit role (object (before ++ (name, x) :: after)) (object (before ++ (name, y) :: after))
  /-- An edit inside a part of a structure that is given as an array. -/
  | part {role inner before after name x y}
    (hname : (role.names (before ++ x :: after).head?)[before.length]? = some name)
    (h : Role.ofMember? name = some inner) (edit : Edit inner x y) :
    Edit role (array (before ++ x :: after)) (array (before ++ y :: after))
  /-- An edit inside an item of a list. -/
  | item {role inner before after x y} (h : role.item? = some inner) (edit : Edit inner x y) :
    Edit role (array (before ++ x :: after)) (array (before ++ y :: after))

/-! ## One edit -/

section Edits

variable {before after : List (String × Json)} {name : String} {role inner : Role} {x y : Json}

theorem keepsMembers_unknown {names : List String} (h : name ∉ names) (value : Json) :
    KeepsMembers names (object (before ++ after)) (object (before ++ (name, value) :: after)) := by
  intro other hother
  have hne : other ≠ name := by
    rintro rfl
    exact h hother
  rw [member?, member?, Association.lookup_insert_of_ne hne]
  exact .same

theorem keepsMembers_null (names : List String) (hname : name ∈ Role.nullable)
    (h : (before ++ after).lookup name = none) :
    KeepsMembers names (object (before ++ after)) (object (before ++ (name, .null) :: after)) := by
  intro other _
  rw [member?, member?]
  by_cases heq : other = name
  · subst heq
    have hbefore : before.lookup other = none ∧ after.lookup other = none := by
      rwa [List.lookup_append, Option.or_eq_none_iff] at h
    rw [h, List.lookup_append, hbefore.1, List.lookup_cons_self]
    exact .null hname
  · rw [Association.lookup_insert_of_ne heq]
    exact .same

theorem keepsMembers_inside (names : List String) (hrole : Role.ofMember? name = some inner) (hx : x ≠ .null)
    (hy : y ≠ .null) (h : Keeps inner x y) :
    KeepsMembers names (object (before ++ (name, x) :: after)) (object (before ++ (name, y) :: after)) := by
  intro other _
  rw [member?, member?]
  by_cases heq : other = name
  · subst heq
    rw [List.lookup_append, List.lookup_append, List.lookup_cons_self, List.lookup_cons_self]
    cases before.lookup other with
    | none => exact .inside hrole hx hy h
    | some value => exact .same
  · rw [Association.lookup_insert_of_ne heq, Association.lookup_insert_of_ne heq]
    exact .same

/-- An edit inside a part of an array is one inside a member of the object for which the array stands. -/
theorem keeps_part {before after : List Json}
    (hname : (role.names (before ++ x :: after).head?)[before.length]? = some name)
    (hrole : Role.ofMember? name = some inner) (hx : x ≠ .null) (hy : y ≠ .null) (h : Keeps inner x y) :
    Keeps role (array (before ++ x :: after)) (array (before ++ y :: after)) := by
  have hstructure : role.item? = none := by
    cases role with
    | nodes => cases hname
    | variants => cases hname
    | lines => cases hname
    | annots => cases hname
    | _ => rfl
  -- The tag of a structure has no role, so the part is not the tag.
  have hnames : role.names (before ++ y :: after).head? = role.names (before ++ x :: after).head? := by
    cases before with
    | cons item before => rfl
    | nil =>
      cases role with
      | node byPlace =>
        obtain rfl := Option.some.inj hname
        cases hrole
      | line =>
        obtain rfl := Option.some.inj hname
        cases hrole
      | _ => rfl
  obtain ⟨pre, post, hzip⟩ := exists_zip_append_cons hname after
  rw [Keeps, read_array hstructure, read_array hstructure, hnames, hzip, hzip]
  have hlength : (before ++ y :: after).length = (before ++ x :: after).length := by
    rw [List.length_append, List.length_append, List.length_cons, List.length_cons]
  rw [hlength]
  split
  · exact keeps_object (keepsMembers_inside _ hrole hx hy h)
  · exact .refl _

theorem carries_toList? {α : Type} {read : Json → Option α} (h : Carries (read x) (read y))
    (before after : List Json) :
    Carries ((array (before ++ x :: after)).toList? read) ((array (before ++ y :: after)).toList? read) := by
  intro values hvalues
  rw [toList?_array_eq_some_iff] at hvalues ⊢
  obtain ⟨v, hv⟩ := exists_of_map_eq hvalues (List.mem_append_right before List.mem_cons_self)
  rw [← hvalues, List.map_append, List.map_append, List.map_cons, List.map_cons, h v hv, hv]

theorem keeps_item (hitem : role.item? = some inner) (h : Keeps inner x y) (before after : List Json) :
    Keeps role (array (before ++ x :: after)) (array (before ++ y :: after)) := by
  cases role with
  | nodes | variants | lines =>
    obtain rfl := Option.some.inj hitem
    exact carries_toList? h before after
  | annots =>
    obtain rfl := Option.some.inj hitem
    exact (carries_toList? h before after).map Annots.ofList
  | _ => cases hitem

theorem mem_iff_of_map_eq {α : Type} {read : Json → Option α} {items : List Json} {values : List α}
    (h : items.map read = values.map some) (v : α) : v ∈ values ↔ ∃ item ∈ items, read item = some v := by
  rw [← List.mem_map, h, List.mem_map_of_injective (Option.some_injective α)]

/-- A set of annotations has neither an order nor repetitions. -/
theorem keeps_entries {entries entries' : List Json} (h : ∀ entry, entry ∈ entries ↔ entry ∈ entries') :
    Keeps .annots (array entries) (array entries') := by
  intro a ha
  obtain ⟨values, hvalues, rfl⟩ := Option.map_eq_some_iff.1 ha
  rw [toList?_array_eq_some_iff] at hvalues
  have hall : entries'.map Annot.ofJson? ∈ Set.range (List.map some) := by
    rw [Set.range_list_map]
    intro result hresult
    obtain ⟨entry, hentry, rfl⟩ := List.mem_map.1 hresult
    obtain ⟨v, hv⟩ := exists_of_map_eq hvalues ((h entry).2 hentry)
    exact ⟨v, hv.symm⟩
  obtain ⟨values', hvalues'⟩ := hall
  refine Option.map_eq_some_iff.2 ⟨values', toList?_array_eq_some_iff.2 hvalues'.symm, ?_⟩
  refine Annots.ext_mem fun v => ?_
  simp only [Annots.mem_ofList, mem_iff_of_map_eq hvalues, mem_iff_of_map_eq hvalues'.symm, h]

theorem Edit.ne_null (h : Edit role x y) : x ≠ .null ∧ y ≠ .null := by
  cases h <;> exact ⟨nofun, nofun⟩

/-- An edit keeps what a value is read as. -/
theorem Edit.keeps (h : Edit role x y) : Keeps role x y := by
  induction h with
  | unknown value h => exact keeps_object (keepsMembers_unknown h value)
  | null hname h => exact keeps_object (keepsMembers_null _ hname h)
  | nullPayload tag =>
    show Keeps .variant (object [("tag", tag)]) (object [("tag", tag), ("payload", .null)])
    exact keeps_object (@keepsMembers_null [("tag", tag)] [] "payload" _ (by decide) rfl)
  | nullValue group key =>
    show Keeps .annot (object [("section", group), ("key", key)])
      (object [("section", group), ("key", key), ("value", .null)])
    exact keeps_object (@keepsMembers_null [("section", group), ("key", key)] [] "value" _ (by decide) rfl)
  | entries h => exact keeps_entries h
  | member hrole edit ih => exact keeps_object (keepsMembers_inside _ hrole edit.ne_null.1 edit.ne_null.2 ih)
  | part hname hrole edit ih => exact keeps_part hname hrole edit.ne_null.1 edit.ne_null.2 ih
  | item hitem edit ih => exact keeps_item hitem ih _ _

/-- Any number of edits keeps what a value is read as. -/
theorem keeps_of_edits (h : Relation.ReflTransGen (Edit role) x y) : Keeps role x y := by
  induction h with
  | refl => exact .refl _
  | tail _ edit ih => exact fun v hv => edit.keeps v (ih v hv)

end Edits

end Json

namespace TypeDef

open Json

/-- A definition is read from what it is written as, and if it is read from some value, it is read from
whatever becomes of the value by edits. -/
theorem ofJson?_of_edits (d : TypeDef) : ofJson? d.toJson = some d ∧
    ∀ x y, ofJson? x = some d → Relation.ReflTransGen (Edit .definition) x y → ofJson? y = some d :=
  ⟨d.ofJson?_toJson, fun _ _ hx hedits => keeps_of_edits hedits d hx⟩

/-- A definition whose body is not in normal form. -/
def crate : TypeDef :=
  ⟨"crate", ["a"], Annots.ofList [⟨"doc", "fruit", none⟩, ⟨"doc", "text", some "a crate"⟩],
    .sum [⟨"Empty", none⟩, ⟨"Full", some (.named "list" [.var "a" ∅] ∅)⟩] ∅⟩

/-- An object from which `crate` is read, with given annotations, members of the empty variant, and further
members of the body. -/
def crateObject (entries : List Json) (empty more : List (String × Json)) : Json :=
  object [("name", .string "crate"), ("params", array [.string "a"]), ("annots", array entries),
    ("body", object ([("kind", .string "sum"),
      ("variants", array [object (("tag", .string "Empty") :: empty), object [("tag", .string "Full"),
        ("payload", (TypeExpr.named "list" [.var "a" ∅] ∅).toJson)]])] ++ more))]

/-- Annotations are exchanged and one is repeated, the payload of the empty variant is null, and the body has
a member that is known in other bodies. -/
theorem ofJson?_of_edits_crate :
    let fruit := (Annot.mk "doc" "fruit" none).toJson
    let text := (Annot.mk "doc" "text" (some "a crate")).toJson
    let edited := crateObject [text, fruit, text] [("payload", .null)] [("items", .bool true)]
    ofJson? (crateObject [fruit, text] [] []) = some crate ∧
    Relation.ReflTransGen (Edit .definition) (crateObject [fruit, text] [] []) edited ∧
    ofJson? edited = some crate := by
  intro fruit text edited
  have hread : ofJson? (crateObject [fruit, text] [] []) = some crate := by rfl
  have hentries : Edit .definition (crateObject [fruit, text] [] [])
      (crateObject [text, fruit, text] [] []) := by
    refine @Edit.member .definition .annots [_, _] [_] "annots" _ _ rfl (.entries fun entry => ?_)
    simp only [List.mem_cons, List.not_mem_nil, or_false]
    tauto
  have hpayload : Edit .definition (crateObject [text, fruit, text] [] [])
      (crateObject [text, fruit, text] [("payload", .null)] []) := by
    refine @Edit.member .definition (.node false) [_, _, _] [] "body" _ _ rfl ?_
    refine @Edit.member (.node false) .variants [_] [] "variants" _ _ rfl ?_
    exact @Edit.item .variants .variant [] _ _ _ rfl (@Edit.null .variant [_] [] "payload" (by decide) rfl)
  have hitems : Edit .definition (crateObject [text, fruit, text] [("payload", .null)] []) edited := by
    refine @Edit.member .definition (.node false) [_, _, _] [] "body" _ _ rfl ?_
    exact @Edit.unknown (.node false) [_, _] [] "items" (.bool true) (by decide)
  have hedits := ((Relation.ReflTransGen.single hentries).tail hpayload).tail hitems
  exact ⟨hread, hedits, (ofJson?_of_edits crate).2 _ _ hread hedits⟩

end TypeDef

end Monomorph
