import Mathlib.Logic.Function.Basic
import Monomorph.Surface.Basic

/-!
# Derivations in a grammar

A rule of a grammar is built from kinds of tokens and from the symbols of the grammar, by sequence,
choice, option and repetition. A `Derivation` is a tree that says how a rule is followed, and its
`yield` is the sequence of tokens at its leaves: a sequence is derivable from a rule if it is the yield
of some derivation by that rule.

What a derivation means is computed from its leaves. An interpretation says for each symbol what the
values of the parts of its rule make together, and `Derivation.value` follows it through the tree.
`yield_eq_spell` and `map_value` say when the tokens, or another interpretation, can be read off the
values; `value_injective` says when a derivation can be.
-/

namespace Monomorph

namespace TokenKind

/-- What a token of some kind carries. -/
def Carried : TokenKind → Type
  | mark _ => Unit
  | var | text | ident => String

/-- The token of some kind that carries a value. -/
def token : (kind : TokenKind) → kind.Carried → Token
  | mark m, _ => .mark m
  | var, name => .var name
  | text, value => .text value
  | ident, name => .ident name

end TokenKind

namespace Surface.Grammar

/-- A rule of a grammar. -/
inductive Rule (Symbol : Type) where
  | token (kind : TokenKind)
  | symbol (name : Symbol)
  | seq (first second : Rule Symbol)
  | either (left right : Rule Symbol)
  | optional (rule : Rule Symbol)
  | many (rule : Rule Symbol)

variable {Symbol : Type} {grammar : Symbol → Rule Symbol} {r s : Rule Symbol}

/-- Once or more often. -/
def Rule.oneOrMore (rule : Rule Symbol) : Rule Symbol := .seq rule (.many rule)

/-- How a rule is followed. -/
inductive Derivation (grammar : Symbol → Rule Symbol) : Rule Symbol → Type where
  | token (kind : TokenKind) (value : kind.Carried) : Derivation grammar (.token kind)
  | symbol (name : Symbol) (body : Derivation grammar (grammar name)) :
      Derivation grammar (.symbol name)
  | seq {first second : Rule Symbol} (head : Derivation grammar first)
      (tail : Derivation grammar second) : Derivation grammar (.seq first second)
  | left {left right : Rule Symbol} (part : Derivation grammar left) :
      Derivation grammar (.either left right)
  | right {left right : Rule Symbol} (part : Derivation grammar right) :
      Derivation grammar (.either left right)
  | absent {rule : Rule Symbol} : Derivation grammar (.optional rule)
  | present {rule : Rule Symbol} (part : Derivation grammar rule) : Derivation grammar (.optional rule)
  | done {rule : Rule Symbol} : Derivation grammar (.many rule)
  | more {rule : Rule Symbol} (part : Derivation grammar rule)
      (rest : Derivation grammar (.many rule)) : Derivation grammar (.many rule)

/-- The tokens of a derivation. -/
def Derivation.yield {rule : Rule Symbol} : Derivation grammar rule → List Token
  | token kind value => [kind.token value]
  | symbol _ body => body.yield
  | seq head tail => head.yield ++ tail.yield
  | left part | right part | present part => part.yield
  | absent | done => []
  | more part rest => part.yield ++ rest.yield

/-! ## Values -/

variable {V W : Symbol → Type}

/-- The values that the parts of a rule can have, where a symbol has values in `V`. -/
def Rule.Value (V : Symbol → Type) : Rule Symbol → Type
  | token kind => kind.Carried
  | symbol name => V name
  | seq first second => first.Value V × second.Value V
  | either left right => left.Value V ⊕ right.Value V
  | optional rule => Option (rule.Value V)
  | many rule => List (rule.Value V)

/-- Change the values of symbols. -/
def Rule.map (h : ∀ name, V name → W name) : (rule : Rule Symbol) → rule.Value V → rule.Value W
  | token _ => id
  | symbol name => h name
  | seq first second => Prod.map (first.map h) (second.map h)
  | either left right => Sum.map (left.map h) (right.map h)
  | optional rule => Option.map (rule.map h)
  | many rule => List.map (rule.map h)

/-- The tokens of values, where those of symbols are known. -/
def Rule.spell (tokens : ∀ name, V name → List Token) : (rule : Rule Symbol) → rule.Value V → List Token
  | token kind, value => [kind.token value]
  | symbol name, value => tokens name value
  | seq first second, value => first.spell tokens value.1 ++ second.spell tokens value.2
  | either left _, .inl value => left.spell tokens value
  | either _ right, .inr value => right.spell tokens value
  | optional _, none => []
  | optional rule, some value => rule.spell tokens value
  | many rule, values => values.flatMap (rule.spell tokens)

namespace Derivation

/-- The value of a derivation under an interpretation of the symbols. -/
def value (interpret : ∀ name, (grammar name).Value V → V name) {rule : Rule Symbol} :
    Derivation grammar rule → rule.Value V
  | token _ value => value
  | symbol name body => interpret name (body.value interpret)
  | seq head tail => (head.value interpret, tail.value interpret)
  | left part => .inl (part.value interpret)
  | right part => .inr (part.value interpret)
  | absent => none
  | present part => some (part.value interpret)
  | done => []
  | more part rest => part.value interpret :: rest.value interpret

variable {interpret : ∀ name, (grammar name).Value V → V name}

/-- If the values of symbols are spelled like the parts that make them, the value of a derivation is
spelled by its tokens. -/
theorem yield_eq_spell {tokens : ∀ name, V name → List Token}
    (h : ∀ name value, tokens name (interpret name value) = (grammar name).spell tokens value)
    (d : Derivation grammar r) : d.yield = r.spell tokens (d.value interpret) := by
  induction d with
  | token kind value => rfl
  | symbol name body ih => exact ih.trans (h name _).symm
  | seq head tail ihHead ihTail => exact congrArg₂ (· ++ ·) ihHead ihTail
  | left part ih => exact ih
  | right part ih => exact ih
  | absent => rfl
  | present part ih => exact ih
  | done => rfl
  | more part rest ihPart ihRest => exact congrArg₂ (· ++ ·) ihPart ihRest

/-- A function that commutes with two interpretations carries the values of the one to those of the
other. -/
theorem map_value {other : ∀ name, (grammar name).Value W → W name} {f : ∀ name, V name → W name}
    (h : ∀ name value, f name (interpret name value) = other name ((grammar name).map f value))
    (d : Derivation grammar r) : r.map f (d.value interpret) = d.value other := by
  induction d with
  | token kind value => rfl
  | symbol name body ih => exact (h name _).trans (congrArg (other name) ih)
  | seq head tail ihHead ihTail => exact congrArg₂ Prod.mk ihHead ihTail
  | left part ih => exact congrArg Sum.inl ih
  | right part ih => exact congrArg Sum.inr ih
  | absent => rfl
  | present part ih => exact congrArg some ih
  | done => rfl
  | more part rest ihPart ihRest => exact congrArg₂ List.cons ihPart ihRest

/-- If the value of a symbol determines those of its parts, the value of a derivation determines the
derivation. -/
theorem value_injective (h : ∀ name, Function.Injective (interpret name)) (d : Derivation grammar r) :
    ∀ d' : Derivation grammar r, d.value interpret = d'.value interpret → d = d' := by
  induction d with
  | token kind value =>
    intro d' heq
    cases d' with
    | token _ value' => exact congrArg (token kind) heq
  | symbol name body ih =>
    intro d' heq
    cases d' with
    | symbol _ body' => exact congrArg (symbol name) (ih body' (h name heq))
  | seq head tail ihHead ihTail =>
    intro d' heq
    cases d' with
    | seq head' tail' =>
      obtain ⟨hhead, htail⟩ := Prod.mk.inj heq
      exact congrArg₂ seq (ihHead head' hhead) (ihTail tail' htail)
  | left part ih =>
    intro d' heq
    cases d' with
    | left part' => exact congrArg left (ih part' (Sum.inl.inj heq))
    | right part' => cases heq
  | right part ih =>
    intro d' heq
    cases d' with
    | left part' => cases heq
    | right part' => exact congrArg right (ih part' (Sum.inr.inj heq))
  | absent =>
    intro d' heq
    cases d' with
    | absent => rfl
    | present part' => cases heq
  | present part ih =>
    intro d' heq
    cases d' with
    | absent => cases heq
    | present part' => exact congrArg present (ih part' (Option.some.inj heq))
  | done =>
    intro d' heq
    cases d' with
    | done => rfl
    | more part' rest' => cases heq
  | more part rest ihPart ihRest =>
    intro d' heq
    cases d' with
    | done => cases heq
    | more part' rest' =>
      obtain ⟨hpart, hrest⟩ := List.cons.inj heq
      exact congrArg₂ more (ihPart part' hpart) (ihRest rest' hrest)

end Derivation

/-! ## The values that occur -/

/-- A value is that of some derivation. -/
def Derived (interpret : ∀ name, (grammar name).Value V → V name) (rule : Rule Symbol)
    (value : rule.Value V) : Prop :=
  ∃ d : Derivation grammar rule, d.value interpret = value

namespace Derived

variable {interpret : ∀ name, (grammar name).Value V → V name}

theorem token (kind : TokenKind) (value : kind.Carried) : Derived interpret (.token kind) value :=
  ⟨.token kind value, rfl⟩

theorem symbol {name : Symbol} {value : (grammar name).Value V}
    (h : Derived interpret (grammar name) value) :
    Derived interpret (.symbol name) (interpret name value) := by
  obtain ⟨d, rfl⟩ := h
  exact ⟨.symbol name d, rfl⟩

theorem of_symbol {name : Symbol} {value : V name} (h : Derived interpret (.symbol name) value) :
    ∃ parts, Derived interpret (grammar name) parts ∧ interpret name parts = value := by
  obtain ⟨d, rfl⟩ := h
  cases d with
  | symbol _ body => exact ⟨body.value interpret, ⟨body, rfl⟩, rfl⟩

theorem seq {x : r.Value V} {y : s.Value V} (hx : Derived interpret r x)
    (hy : Derived interpret s y) : Derived interpret (.seq r s) (x, y) := by
  obtain ⟨d, rfl⟩ := hx
  obtain ⟨d', rfl⟩ := hy
  exact ⟨.seq d d', rfl⟩

theorem of_seq {x : r.Value V} {y : s.Value V} (h : Derived interpret (.seq r s) (x, y)) :
    Derived interpret r x ∧ Derived interpret s y := by
  obtain ⟨d, heq⟩ := h
  cases d with
  | seq head tail =>
    obtain ⟨rfl, rfl⟩ := Prod.mk.inj heq
    exact ⟨⟨head, rfl⟩, tail, rfl⟩

theorem left {x : r.Value V} (h : Derived interpret r x) :
    Derived interpret (.either r s) (.inl x) := by
  obtain ⟨d, rfl⟩ := h
  exact ⟨.left d, rfl⟩

theorem right {x : s.Value V} (h : Derived interpret s x) :
    Derived interpret (.either r s) (.inr x) := by
  obtain ⟨d, rfl⟩ := h
  exact ⟨.right d, rfl⟩

theorem absent : Derived interpret (.optional r) none := ⟨.absent, rfl⟩

theorem present {x : r.Value V} (h : Derived interpret r x) :
    Derived interpret (.optional r) (some x) := by
  obtain ⟨d, rfl⟩ := h
  exact ⟨.present d, rfl⟩

theorem many {values : List (r.Value V)} (h : ∀ x ∈ values, Derived interpret r x) :
    Derived interpret (.many r) values := by
  induction values with
  | nil => exact ⟨.done, rfl⟩
  | cons x rest ih =>
    obtain ⟨hx, hrest⟩ := List.forall_mem_cons.1 h
    obtain ⟨d, rfl⟩ := hx
    obtain ⟨d', rfl⟩ := ih hrest
    exact ⟨.more d d', rfl⟩

theorem of_many {values : List (r.Value V)} (h : Derived interpret (.many r) values) :
    ∀ x ∈ values, Derived interpret r x := by
  induction values with
  | nil => nofun
  | cons x rest ih =>
    obtain ⟨d, heq⟩ := h
    cases d with
    | done => cases heq
    | more part rest' =>
      obtain ⟨rfl, rfl⟩ := List.cons.inj heq
      exact List.forall_mem_cons.2 ⟨⟨part, rfl⟩, ih ⟨rest', rfl⟩⟩

end Derived

end Surface.Grammar

end Monomorph
