import Monomorph.Text.Quoted
import Monomorph.TypeExpr.Basic

/-!
# Writing type expressions and definitions

Application is written after its arguments and every compound form is delimited, so no parenthesis
depends on the context. Annotations follow the node that carries them, one pair of angle brackets
for each group.

`signature` writes an application that need not exist as a node; `signature_container` says that a
reserved container name with one argument is written like the container itself.
-/

namespace Monomorph

/-- `key` or `key="value"`. -/
def Annot.render (a : Annot) : String :=
  match a.value with
  | none => a.key
  | some value => a.key ++ "=" ++ Text.Quoted.write value

namespace Annots

/-- Write entries in order, where the brackets of the group `current` are open; a new group closes
them and opens its own. -/
def renderFrom (current : Option String) : List Annot → String
  | [] => if current.isSome then ">" else ""
  | a :: rest =>
    let opening :=
      if current = some a.group then ""
      else if current.isSome then "> <" ++ a.group
      else " <" ++ a.group
    opening ++ " " ++ a.render ++ renderFrom (some a.group) rest

/-- Every group as `<group key="value" key>`, each after a blank. -/
def render (s : Annots) : String := renderFrom none s.toList

@[simp] theorem render_empty : (∅ : Annots).render = "" := rfl

end Annots

namespace TypeExpr

/-- A name after its written arguments. -/
def renderApplication (name : String) : List String → String
  | [] => name
  | [arg] => arg ++ " " ++ name
  | args => "(" ++ ", ".intercalate args ++ ") " ++ name

/-- Parts between delimiters, each delimiter a blank away from what is inside. -/
def renderBlock (left right separator : String) : List String → String
  | [] => left ++ " " ++ right
  | parts => left ++ " " ++ separator.intercalate parts ++ " " ++ right

mutual

/-- The written form of an expression. -/
def render : TypeExpr → String
  | sum variants a => renderBlock "[" "]" " | " (renderVariants variants) ++ a.render
  | record fields a => renderBlock "\x7b" "\x7d" "; " (renderFields fields) ++ a.render
  | tuple items a => "(" ++ " * ".intercalate (renderAll items) ++ ")" ++ a.render
  | container kind element a => renderApplication kind.name [render element] ++ a.render
  | var name a => "'" ++ name ++ a.render
  | named name args a => renderApplication name (renderAll args) ++ a.render

/-- The written variants of a sum. -/
def renderVariants : List (Variant TypeExpr) → List String
  | [] => []
  | ⟨tag, none⟩ :: rest => tag :: renderVariants rest
  | ⟨tag, some t⟩ :: rest => (tag ++ " of " ++ render t) :: renderVariants rest

/-- The written lines of a record. -/
def renderFields : List (Field TypeExpr) → List String
  | [] => []
  | .labelled label t :: rest => (label ++ " : " ++ render t) :: renderFields rest
  | .inherit t :: rest => ("inherit " ++ render t) :: renderFields rest

/-- The written expressions of a list. -/
def renderAll : List TypeExpr → List String
  | [] => []
  | t :: rest => render t :: renderAll rest

end

/-- The written form of the application of a name to arguments, with annotations. -/
def signature (name : String) (args : List TypeExpr) (a : Annots) : String :=
  renderApplication name (args.map render) ++ a.render

/-- The written form of one variant. -/
def renderVariant (v : Variant TypeExpr) : String :=
  match v.payload with
  | none => v.tag
  | some t => v.tag ++ " of " ++ t.render

/-- The written form of one record line. -/
def renderField : Field TypeExpr → String
  | .labelled label t => label ++ " : " ++ t.render
  | .inherit t => "inherit " ++ t.render

theorem renderAll_eq_map (items : List TypeExpr) : renderAll items = items.map render := by
  induction items with
  | nil => rfl
  | cons t rest ih => simp [renderAll, ih]

theorem renderFields_eq_map (fields : List (Field TypeExpr)) :
    renderFields fields = fields.map renderField := by
  induction fields with
  | nil => rfl
  | cons f rest ih => cases f <;> simp [renderFields, renderField, ih]

theorem renderVariants_eq_map (variants : List (Variant TypeExpr)) :
    renderVariants variants = variants.map renderVariant := by
  induction variants with
  | nil => rfl
  | cons v rest ih =>
    obtain ⟨tag, payload⟩ := v
    cases payload <;> simp [renderVariants, renderVariant, ih]

theorem signature_named (name : String) (args : List TypeExpr) (a : Annots) :
    signature name args a = (named name args a).render := by
  rw [signature, render, renderAll_eq_map]

theorem signature_container (kind : ContainerKind) (element : TypeExpr) (a : Annots) :
    signature kind.name [element] a = (container kind element a).render := by
  rw [signature, render, List.map_cons, List.map_nil]

end TypeExpr

namespace TypeDef

/-- The parameters of a head, followed by a blank if there are any. -/
def renderParams : List String → String
  | [] => ""
  | [param] => "'" ++ param ++ " "
  | params => "(" ++ ", ".intercalate (params.map ("'" ++ ·)) ++ ") "

/-- The written form of a definition, on one line unless a quoted value breaks it. -/
def render (d : TypeDef) : String :=
  "type " ++ renderParams d.params ++ d.name ++ d.annots.render ++ " = " ++ d.body.render

/-- Definitions one after the other, each ended by a line feed. -/
def renderAll (defs : List TypeDef) : String := String.join (defs.map fun d => d.render ++ "\n")

end TypeDef

end Monomorph
