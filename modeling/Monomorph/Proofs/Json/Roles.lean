import Monomorph.Proofs.Json.Reading

/-!
# Roles of values

What is read from a value inside a definition depends on the role that it plays there, `Json.Role`: which
members are known in it, and what these are read as. Whether a structure is given as an object or as an array
makes no difference, `Json.read_array`.

`Json.Keeps` says that one value is read as everything that another is read as. Two objects keep their role if
their known members correspond, `Json.Kept`, and no other member plays a part: `Json.keeps_object`, from one
lemma for each structure.
-/

namespace Monomorph

namespace Json

/-! ## Roles -/

/-- The roles that values play in a definition. The kind of a node may be told by its place, or may not. -/
inductive Role where
  | definition
  | node (byPlace : Bool)
  | variant
  | line
  | annot
  | nodes
  | variants
  | lines
  | annots

namespace Role

/-- What a value is read as. -/
def Value : Role → Type
  | definition => TypeDef
  | node _ => TypeExpr
  | variant => Variant TypeExpr
  | line => Field TypeExpr
  | annot => Annot
  | nodes => List TypeExpr
  | variants => List (Variant TypeExpr)
  | lines => List (Field TypeExpr)
  | annots => Annots

/-- Read a value in a role. -/
def read : (role : Role) → Json → Option role.Value
  | definition => TypeDef.ofJson?
  | node false => TypeExpr.ofJson?
  | node true => TypeExpr.nested?
  | variant => TypeExpr.variantOfJson? TypeExpr.nested?
  | line => TypeExpr.fieldOfJson? TypeExpr.nested?
  | annot => Annot.ofJson?
  | nodes => toList? TypeExpr.nested?
  | variants => toList? (TypeExpr.variantOfJson? TypeExpr.nested?)
  | lines => toList? (TypeExpr.fieldOfJson? TypeExpr.nested?)
  | annots => Annots.ofJson?

theorem read_node (byPlace : Bool) (json : Json) :
    (node byPlace).read json = TypeExpr.nodeOfJson? byPlace TypeExpr.nested? json := by
  cases byPlace with
  | false => exact TypeExpr.ofJson?_eq json
  | true => exact TypeExpr.nested?_eq json

/-- The names of the tag and the parts of a tagged structure. -/
def taggedNames {α : Type} (alternatives : List (Alternative α)) (byPlace : Bool) (tag : Option Json) :
    List String :=
  "kind" :: ((tag.bind (alternative? alternatives byPlace)).map Alternative.parts).getD []

/-- The names that are known in a structure, in their order, where its tag is given if it has one. -/
def names : Role → Option Json → List String
  | definition, _ => ["name", "params", "annots", "body"]
  | variant, _ => ["tag", "payload"]
  | annot, _ => ["section", "key", "value"]
  | node byPlace, tag => taggedNames TypeExpr.NodeKind.alternatives byPlace tag
  | line, tag => taggedNames TypeExpr.FieldKind.alternatives true tag
  | _, _ => []

/-- The role of the items of a list. -/
def item? : Role → Option Role
  | nodes => some (node true)
  | variants => some variant
  | lines => some line
  | annots => some annot
  | _ => none

/-- The role of a member, unless it is a plain text or a list of them. -/
def ofMember? : String → Option Role
  | "body" => some (node false)
  | "elem" | "ty" | "payload" => some (node true)
  | "items" | "args" => some nodes
  | "variants" => some variants
  | "fields" => some lines
  | "annots" => some annots
  | _ => none

/-- The members that may be null when they are absent. -/
def nullable : List String := ["payload", "value"]

end Role

/-! ## Readings that carry over -/

/-- If the one reading succeeds, so does the other, with the same result. -/
def Carries {α : Type} (result result' : Option α) : Prop := ∀ v, result = some v → result' = some v

theorem Carries.bind {α β : Type} {result result' : Option α} {f f' : α → Option β}
    (h : Carries result result') (hf : ∀ a, Carries (f a) (f' a)) :
    Carries (result.bind f) (result'.bind f') := by
  intro v hv
  obtain ⟨a, ha, hv⟩ := Option.bind_eq_some_iff.1 hv
  exact Option.bind_eq_some_iff.2 ⟨a, h a ha, hf a v hv⟩

theorem Carries.map {α β : Type} {result result' : Option α} (h : Carries result result') (f : α → β) :
    Carries (result.map f) (result'.map f) := by
  intro v hv
  obtain ⟨a, ha, rfl⟩ := Option.map_eq_some_iff.1 hv
  exact Option.map_eq_some_iff.2 ⟨a, h a ha, rfl⟩

theorem Carries.refl {α : Type} (result : Option α) : Carries result result := fun _ => id

/-- What a value is read as, another value is read as, too. -/
def Keeps (role : Role) (x y : Json) : Prop := Carries (role.read x) (role.read y)

/-! ## Members of two objects -/

/-- A member of an object and the one of that name in another: they are the same, or null has been written
for a missing one, or what the one is read as the other is read as, too. -/
inductive Kept (name : String) : Option Json → Option Json → Prop
  | same {value} : Kept name value value
  | null (h : name ∈ Role.nullable) : Kept name none (some null)
  | inside {role x y} (h : Role.ofMember? name = some role) (hx : x ≠ .null) (hy : y ≠ .null)
    (hkeeps : Keeps role x y) : Kept name (some x) (some y)

namespace Kept

variable {x y : Json} {name : String}

/-- A text or a list of texts is not touched. -/
theorem plain {α : Type} {read : Json → Option α} (h : Kept name (x.member? name) (y.member? name))
    (hrole : Role.ofMember? name = none) (hname : name ∉ Role.nullable) :
    Carries (x.required? read name) (y.required? read name) := by
  have heq : x.member? name = y.member? name := by
    generalize x.member? name = u, y.member? name = w at h
    cases h with
    | same => rfl
    | null h => exact absurd h hname
    | inside h => cases hrole.symm.trans h
  rw [required?, required?, heq]
  exact .refl _

theorem required? (role : Role) (h : Kept name (x.member? name) (y.member? name))
    (hrole : Role.ofMember? name = some role) :
    Carries (x.required? role.read name) (y.required? role.read name) := by
  rw [Json.required?, Json.required?]
  generalize x.member? name = u, y.member? name = w at h
  cases h with
  | same => exact .refl _
  | null => nofun
  | inside hrole' _ _ hkeeps =>
    obtain rfl := Option.some.inj (hrole.symm.trans hrole')
    exact hkeeps

theorem annots (h : Kept "annots" (x.member? "annots") (y.member? "annots")) :
    Carries (Annots.ofMember? x) (Annots.ofMember? y) := by
  rw [Annots.ofMember?, Annots.ofMember?, defaulted?, defaulted?]
  generalize x.member? "annots" = u, y.member? "annots" = w at h
  cases h with
  | same => exact .refl _
  | null h => exact absurd h (by decide)
  | inside h _ _ hkeeps =>
    obtain rfl := Option.some.inj h
    exact hkeeps

theorem optional? {α : Type} {read : Json → Option α} (h : Kept name (x.member? name) (y.member? name))
    (hread : ∀ role u w, Role.ofMember? name = some role → Keeps role u w → Carries (read u) (read w)) :
    Carries (x.optional? read name) (y.optional? read name) := by
  cases hx : x.member? name <;> cases hy : y.member? name <;> rw [hx, hy] at h <;> cases h
  case none.none.same | none.some.null | some.some.same =>
    rw [Json.optional?, Json.optional?, hx, hy]
    exact .refl _
  case some.some.inside hrole hu hw hkeeps =>
    rw [optional?_of_ne_null hx hu, optional?_of_ne_null hy hw]
    exact (hread _ _ _ hrole hkeeps).map some

end Kept

/-! ## Structures -/

section Structures

variable {members members' : List (String × Json)}

/-- The members of some names are kept. -/
def KeepsMembers (names : List String) (x y : Json) : Prop :=
  ∀ name ∈ names, Kept name (x.member? name) (y.member? name)

theorem keeps_definition (h : KeepsMembers (Role.definition.names none) (object members) (object members')) :
    Keeps .definition (object members) (object members') := by
  refine ((h "name" (by decide)).plain rfl (by decide)).bind fun name => ?_
  refine ((h "params" (by decide)).plain rfl (by decide)).bind fun params => ?_
  refine (h "annots" (by decide)).annots.bind fun a => ?_
  exact ((h "body" (by decide)).required? (.node false) rfl).bind fun body => .refl _

theorem keeps_variant (h : KeepsMembers (Role.variant.names none) (object members) (object members')) :
    Keeps .variant (object members) (object members') := by
  refine ((h "tag" (by decide)).plain rfl (by decide)).bind fun tag => ?_
  refine ((h "payload" (by decide)).optional? ?_).bind fun payload => .refl _
  intro role u w hrole hkeeps
  obtain rfl := Option.some.inj hrole
  exact hkeeps

theorem keeps_annot (h : KeepsMembers (Role.annot.names none) (object members) (object members')) :
    Keeps .annot (object members) (object members') := by
  refine ((h "section" (by decide)).plain rfl (by decide)).bind fun group => ?_
  refine ((h "key" (by decide)).plain rfl (by decide)).bind fun key => ?_
  exact ((h "value" (by decide)).optional? fun _ _ _ hrole => nomatch hrole).bind fun value => .refl _

theorem mem_of_alternative? {α : Type} {alternatives : List (Alternative α)} {byPlace : Bool} {tag : Json}
    {alternative : Alternative α} (h : alternative? alternatives byPlace tag = some alternative) :
    alternative ∈ alternatives := by
  rw [alternative?.eq_def] at h
  split at h
  · exact List.mem_of_find?_eq_some h
  · obtain ⟨-, h⟩ := Option.ite_none_right_eq_some.1 h
    obtain ⟨place, -, h⟩ := Option.bind_eq_some_iff.1 h
    exact List.mem_of_getElem? h

/-- Where the known members are kept, so is the tag, and the parts of the alternative that it selects. -/
theorem carries_tagged {α β : Type} {alternatives : List (Alternative α)} {byPlace : Bool}
    {f f' : α × Json → Option β}
    (h : KeepsMembers (Role.taggedNames alternatives byPlace (members.lookup "kind")) (object members)
      (object members'))
    (hf : ∀ alternative ∈ alternatives, KeepsMembers alternative.parts (object members) (object members') →
      Carries (f (alternative.value, object members)) (f' (alternative.value, object members'))) :
    Carries (((object members).tagged? alternatives byPlace).bind f)
      (((object members').tagged? alternatives byPlace).bind f') := by
  intro v hv
  obtain ⟨opened, hopened, hv⟩ := Option.bind_eq_some_iff.1 hv
  obtain ⟨tag, htag, hopened⟩ := Option.bind_eq_some_iff.1 hopened
  obtain ⟨alternative, halternative, hopened⟩ := Option.bind_eq_some_iff.1 hopened
  obtain rfl := Option.some.inj hopened
  have hnames : Role.taggedNames alternatives byPlace (members.lookup "kind") =
      "kind" :: alternative.parts := by
    rw [Role.taggedNames, htag, Option.bind_some, halternative]
    rfl
  rw [hnames] at h
  have hkind : members'.lookup "kind" = some tag := by
    have hcarries : Carries ((object members).required? some "kind")
        ((object members').required? some "kind") :=
      (h "kind" List.mem_cons_self).plain rfl (by decide)
    rw [required?, required?, Option.bind_fun_some, Option.bind_fun_some] at hcarries
    exact hcarries tag htag
  have hopened : (object members').tagged? alternatives byPlace =
      some (alternative.value, object members') := by
    simp only [tagged?, hkind, Option.bind_eq_bind, Option.bind_some, halternative]
    rfl
  rw [hopened, Option.bind_some]
  have hparts : KeepsMembers alternative.parts (object members) (object members') := fun name hname =>
    h name (List.mem_cons_of_mem _ hname)
  exact hf alternative (mem_of_alternative? halternative) hparts v hv

/-- One step of the reading of a node, in which what is inside it is kept. -/
theorem keeps_node {byPlace : Bool} (h : KeepsMembers ((Role.node byPlace).names (members.lookup "kind"))
    (object members) (object members')) : Keeps (.node byPlace) (object members) (object members') := by
  rw [Keeps, Role.read_node, Role.read_node]
  refine carries_tagged h fun alternative halternative h => ?_
  have hannots : ∀ alternative ∈ TypeExpr.NodeKind.alternatives, "annots" ∈ alternative.parts := by decide
  refine (h "annots" (hannots _ halternative)).annots.bind fun a => ?_
  -- Each kind of node has one alternative, and its own members.
  simp only [TypeExpr.NodeKind.alternatives, List.mem_cons, List.not_mem_nil, or_false] at halternative
  obtain rfl | rfl | rfl | rfl | rfl | rfl := halternative
  · exact ((h "variants" (by decide)).required? .variants rfl).bind fun variants => .refl _
  · exact ((h "fields" (by decide)).required? .lines rfl).bind fun fields => .refl _
  · exact ((h "items" (by decide)).required? .nodes rfl).bind fun items => .refl _
  · refine ((h "container" (by decide)).plain rfl (by decide)).bind fun kind => ?_
    exact ((h "elem" (by decide)).required? (.node true) rfl).bind fun element => .refl _
  · exact ((h "name" (by decide)).plain rfl (by decide)).bind fun name => .refl _
  · refine ((h "name" (by decide)).plain rfl (by decide)).bind fun name => ?_
    exact ((h "args" (by decide)).required? .nodes rfl).bind fun args => .refl _

theorem keeps_line (h : KeepsMembers (Role.line.names (members.lookup "kind"))
    (object members) (object members')) : Keeps .line (object members) (object members') := by
  refine carries_tagged h fun alternative halternative h => ?_
  simp only [TypeExpr.FieldKind.alternatives, List.mem_cons, List.not_mem_nil, or_false] at halternative
  obtain rfl | rfl := halternative
  · refine ((h "label" (by decide)).plain rfl (by decide)).bind fun label => ?_
    exact ((h "ty" (by decide)).required? (.node true) rfl).bind fun type => .refl _
  · exact ((h "ty" (by decide)).required? (.node true) rfl).bind fun type => .refl _

/-- Two objects of which the known members correspond are read alike. -/
theorem keeps_object {role : Role}
    (h : KeepsMembers (role.names (members.lookup "kind")) (object members) (object members')) :
    Keeps role (object members) (object members') := by
  cases role with
  | definition => exact keeps_definition h
  | node byPlace => exact keeps_node h
  | variant => exact keeps_variant h
  | line => exact keeps_line h
  | annot => exact keeps_annot h
  | nodes => nofun
  | variants => nofun
  | lines => nofun
  | annots => nofun

/-! ## Structures that are given as arrays -/

theorem bind_parts?_array {α : Type} (names : List String) (items : List Json) (f : Json → Option α) :
    ((array items).parts? names).bind f =
      if items.length ≤ names.length then f (object (names.zip items)) else none := by
  rw [parts?]
  split <;> rfl

theorem bind_tagged?_array {α β : Type} (alternatives : List (Alternative α)) (byPlace : Bool)
    (items : List Json) {f : α × Json → Option β} (hf : ∀ alternative ∈ alternatives, ∀ tag members,
      f (alternative.value, object (("kind", tag) :: members)) = f (alternative.value, object members)) :
    ((array items).tagged? alternatives byPlace).bind f =
      if items.length ≤ (Role.taggedNames alternatives byPlace items.head?).length then
        ((object ((Role.taggedNames alternatives byPlace items.head?).zip items)).tagged?
          alternatives byPlace).bind f
      else none := by
  cases items with
  | nil => rfl
  | cons tag items =>
    cases halternative : alternative? alternatives byPlace tag with
    | none => simp [tagged?, Role.taggedNames, halternative]
    | some alternative =>
      have hkind := hf alternative (mem_of_alternative? halternative) tag (alternative.parts.zip items)
      simp only [tagged?, parts?, Role.taggedNames, List.head?_cons, Option.bind_some, halternative,
        Option.map_some, Option.getD_some, List.length_cons, Nat.add_le_add_iff_right, List.zip_cons_cons,
        List.lookup_cons_self, Option.bind_eq_bind]
      split
      · exact hkind.symm
      · rfl

/-- A structure that is given as an array is read as the object of its parts. -/
theorem read_array {role : Role} (h : role.item? = none) (items : List Json) :
    role.read (array items) = if items.length ≤ (role.names items.head?).length then
      role.read (object ((role.names items.head?).zip items)) else none := by
  cases role with
  | definition => exact bind_parts?_array ..
  | node byPlace =>
    rw [Role.read_node, Role.read_node]
    refine bind_tagged?_array _ _ _ fun alternative halternative tag members => ?_
    revert alternative
    simp [TypeExpr.NodeKind.alternatives, required?, Annots.ofMember?, defaulted?, member?, List.lookup_cons]
  | variant => exact bind_parts?_array ..
  | line =>
    refine bind_tagged?_array _ _ _ fun alternative halternative tag members => ?_
    revert alternative
    simp [TypeExpr.FieldKind.alternatives, required?, member?, List.lookup_cons]
  | annot => exact bind_parts?_array ..
  | nodes => cases h
  | variants => cases h
  | lines => cases h
  | annots => cases h

theorem exists_zip_append_cons {names : List String} {name : String} {before : List Json}
    (h : names[before.length]? = some name) (after : List Json) :
    ∃ pre post, ∀ x, names.zip (before ++ x :: after) = pre ++ (name, x) :: post := by
  induction before generalizing names with
  | nil =>
    cases names with
    | nil => cases h
    | cons first names =>
      obtain rfl := Option.some.inj h
      exact ⟨[], names.zip after, fun x => rfl⟩
  | cons item before ih =>
    cases names with
    | nil => cases h
    | cons first names =>
      obtain ⟨pre, post, heq⟩ := ih h
      exact ⟨(first, item) :: pre, post, fun x => congrArg ((first, item) :: ·) (heq x)⟩

end Structures

end Json

end Monomorph
