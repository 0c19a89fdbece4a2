import Monomorph.Proofs.Printing.Words
import Monomorph.Proofs.Signature.Balanced
import Monomorph.Proofs.TypeExpr.Variables

/-!
# Reading signatures back

The names that occur in expansions are identifiers and the names of specializations, in which other
such names are nested; `Admissible` says so. A second scanner reads them all: a word that starts with
`@(` reaches to the parenthesis that closes it, and the tuple without items is a word of its own.

So a written application is never ambiguous, not even between tuples of one item and their content:
`signature_inj` recovers the name, the arguments up to their normal form, and the annotations.
-/

namespace Monomorph

open Surface

/-- The names that occur in expansions: identifiers, and the names of specializations. -/
inductive Admissible : String → Prop where
  | identifier {name : String} : IsIdentifier name → Admissible name
  | synthetic {generic : String} {args : List TypeExpr} {a : Annots} : IsIdentifier generic →
      (∀ t ∈ args, ∀ name ∈ t.names, Admissible name) →
      (∀ t ∈ args, ∀ name ∈ t.varNames, IsVariable name) →
      (∀ t ∈ args, ∀ b ∈ t.annotations, IsIdentifier b.group ∧ IsIdentifier b.key) →
      (∀ b ∈ a.toList, IsIdentifier b.group ∧ IsIdentifier b.key) →
      Admissible ("@(" ++ TypeExpr.signature generic args a ++ ")")

/-- The words of expansions. -/
def Vocabulary.admissible : Vocabulary := ⟨Admissible, IsIdentifier⟩

namespace TypeExpr

theorem writtenIn_named {V : Vocabulary} {name : String} {args : List TypeExpr} {a : Annots}
    (hname : V.name name) (hargs : ∀ t ∈ args, t.WrittenIn V) (ha : ∀ b ∈ a.toList, b.WrittenIn V) :
    (named name args a).WrittenIn V := by
  refine writtenIn_iff.2 ⟨?_, nofun, ha, hargs⟩
  intro n hn
  rwa [List.mem_singleton.1 hn]

theorem writtenIn_var {V : Vocabulary} {name : String} {a : Annots} (hname : IsVariable name)
    (ha : ∀ b ∈ a.toList, b.WrittenIn V) : (var name a).WrittenIn V := by
  refine writtenIn_iff.2 ⟨nofun, ?_, ha, nofun⟩
  intro n hn
  rwa [← Option.some.inj hn]

end TypeExpr

namespace Signature

/-- The names of expansions are balanced, so that each can stand inside another one. -/
theorem Balanced.of_admissible {name : String} (h : Admissible name) : Balanced name.toList := by
  induction h with
  | identifier h => exact Balanced.of_word h.all_isWordPart
  | @synthetic generic args a hgeneric _ hvars hannots ha ih =>
    have hsignature : Balanced (TypeExpr.signature generic args a).toList := by
      rw [TypeExpr.signature_named]
      refine Balanced.render (TypeExpr.writtenIn_named ?_ (fun t ht => ?_) ha)
      · exact Balanced.of_word hgeneric.all_isWordPart
      · exact ⟨ih t ht, hvars t ht, hannots t ht⟩
    have htext : ("@(" ++ TypeExpr.signature generic args a ++ ")").toList =
        ['@'] ++ '(' :: ((TypeExpr.signature generic args a).toList ++ [')']) := by
      simp
    rw [htext]
    exact (Balanced.of_inert rfl).append hsignature.parens

/-- A name is a word, or stands in parentheses after the sign of specializations. -/
theorem admissible_cases {name : String} (h : Admissible name) : IsIdentifier name ∨
    ∃ inside, Balanced inside ∧ name.toList = '@' :: '(' :: (inside ++ [')']) := by
  cases h with
  | identifier h => exact Or.inl h
  | @synthetic generic args a hgeneric hnames hvars hannots ha =>
    refine Or.inr ⟨(TypeExpr.signature generic args a).toList, ?_, by simp⟩
    rw [TypeExpr.signature_named]
    refine Balanced.render (TypeExpr.writtenIn_named ?_ (fun t ht => ?_) ha)
    · exact Balanced.of_word hgeneric.all_isWordPart
    · exact ⟨fun n hn => Balanced.of_admissible (hnames t ht n hn), hvars t ht, hannots t ht⟩

/-! ## The scanner -/

/-- The name at the start of a text, and what follows it. -/
def nameAt : List Char → Option (List Char × List Char)
  | '@' :: '(' :: rest => some ((closing .outside 0 rest).map (['@', '('] ++ ·) id)
  | [] => none
  | c :: rest =>
    if Lexer.isWordStart c then
      some (c :: rest.takeWhile Lexer.isWordPart, rest.dropWhile Lexer.isWordPart)
    else none

/-- The tokens that start with a name, with the slot and the text that follow. In the slot of a tag
or of a record line, a keyword is only read as one from what stands after it. -/
def nameTokens (name rest : List Char) : Slot → List Token × Slot × List Char
  | .plain => ([.ident (String.ofList name)], .plain, rest)
  | .tag =>
    if " of ".toList.isPrefixOf rest then
      ([.ident (String.ofList name), .mark .of], .plain, rest.drop 4)
    else ([.ident (String.ofList name)], .plain, rest)
  | .line =>
    if " : ".toList.isPrefixOf rest then
      ([.ident (String.ofList name), .mark .colon], .plain, rest.drop 3)
    else if name = "inherit".toList then ([.mark .inherit], .plain, rest)
    else ([.ident (String.ofList name)], .plain, rest)

/-- The slot after a token. -/
def slotAfter : Token → Slot
  | .mark m => .after m
  | .var _ | .text _ | .ident _ => .plain

/-- The first tokens of a text, with the slot and the text that follow. Tokens that are no names are
read by the lexer. -/
def next (slot : Slot) (source : List Char) : Option (List Token × Slot × List Char) :=
  match source with
  | ' ' :: rest => some ([], slot, rest)
  | '(' :: ')' :: rest => some ([.ident TypeExpr.emptyTuple], .plain, rest)
  | source =>
    match nameAt source with
    | some (name, rest) => some (nameTokens name rest slot)
    | none =>
      match Lexer.segments source with
      | .token token text :: _ => some ([token], slotAfter token, source.drop text.length)
      | _ => none

/-- The tokens of a text, up to where no token starts. -/
def read (slot : Slot) (source : List Char) : List (Option Token) :=
  match next slot source with
  | none => []
  | some (tokens, slot, rest) =>
    if rest.length < source.length then tokens.map some ++ read slot rest else []
termination_by source.length

theorem read_of_next {slot after : Slot} {source rest : List Char} {tokens : List Token}
    (h : next slot source = some (tokens, after, rest)) (hlength : rest.length < source.length) :
    read slot source = tokens.map some ++ read after rest := by
  rw [read, h]
  exact if_pos hlength

theorem takeWhile_of_stops {rest : List Char} (h : Stops rest) :
    rest.takeWhile Lexer.isWordPart = [] := by
  cases rest with
  | nil => rfl
  | cons c rest => rw [List.takeWhile_cons, stops_cons.1 h]; rfl

theorem dropWhile_of_stops {rest : List Char} (h : Stops rest) :
    rest.dropWhile Lexer.isWordPart = rest := by
  cases rest with
  | nil => rfl
  | cons c rest => rw [List.dropWhile_cons, stops_cons.1 h]; rfl

theorem nameAt_append {name : String} (h : Admissible name) {rest : List Char} (hrest : Stops rest) :
    nameAt (name.toList ++ rest) = some (name.toList, rest) := by
  obtain hname | ⟨inside, hinside, htext⟩ := admissible_cases h
  · obtain ⟨c, text, htext, hc, htail⟩ := hname.exists_cons
    have hat : c ≠ '@' := by
      rintro rfl
      exact absurd hc (by decide)
    have hpart : ∀ c ∈ text, Lexer.isWordPart c = true := List.all_eq_true.1 htail
    have htake : (text ++ rest).takeWhile Lexer.isWordPart = text := by
      rw [List.takeWhile_append_of_pos hpart, takeWhile_of_stops hrest, List.append_nil]
    have hdrop : (text ++ rest).dropWhile Lexer.isWordPart = rest := by
      rw [List.dropWhile_append_of_pos hpart, dropWhile_of_stops hrest]
    rw [htext, List.cons_append, nameAt]
    · rw [if_pos hc, htake, hdrop]
    · exact fun _ hsign _ => hat hsign
  · have hclose : closing .outside 0 (inside ++ ')' :: rest) = (inside ++ [')'], rest) := by
      rw [hinside]
      rfl
    rw [htext, List.cons_append, List.cons_append, List.append_assoc, List.singleton_append, nameAt,
      hclose]
    rfl

/-- What a name starts with. -/
theorem head_admissible {name : String} (h : Admissible name) :
    ∃ c text, name.toList = c :: text ∧ c ≠ ' ' ∧ c ≠ '(' ∧ c ≠ ')' ∧ c ≠ ':' := by
  obtain hname | ⟨inside, _, htext⟩ := admissible_cases h
  · obtain ⟨c, text, htext, hc, _⟩ := hname.exists_cons
    refine ⟨c, text, htext, ?_, ?_, ?_, ?_⟩ <;> rintro rfl <;> revert hc <;> decide
  · exact ⟨'@', _, htext, by decide, by decide, by decide, by decide⟩

theorem length_lt_append {name : String} (h : Admissible name) (rest : List Char) :
    rest.length < (name.toList ++ rest).length := by
  obtain ⟨c, text, htext, _⟩ := head_admissible h
  rw [htext, List.length_append, List.length_cons]
  omega

theorem next_name {name : String} (h : Admissible name) {rest : List Char} (hrest : Stops rest)
    (slot : Slot) : next slot (name.toList ++ rest) = some (nameTokens name.toList rest slot) := by
  obtain ⟨c, text, htext, hblank, hparen, _⟩ := head_admissible h
  have hname := nameAt_append h hrest
  rw [htext, List.cons_append] at hname ⊢
  rw [next, hname]
  · exact fun _ hc => hblank (List.cons.inj hc).1
  · exact fun _ hc => hparen (List.cons.inj hc).1

/-- A token that is no name is read by the lexer. -/
theorem read_token {c : Char} {more rest : List Char} {token : Token} (slot : Slot)
    (hword : Lexer.isWordStart c = false) (hsign : c ≠ '@') (hblank : c ≠ ' ')
    (hparen : c = '(' → (more ++ rest).head? ≠ some ')')
    (hsegments : Lexer.segments (c :: (more ++ rest)) =
      .token token (c :: more) :: Lexer.segments rest) :
    read slot (c :: (more ++ rest)) = some token :: read (slotAfter token) rest := by
  have hname : nameAt (c :: (more ++ rest)) = none := by
    rw [nameAt]
    · rw [hword]
      rfl
    · exact fun _ hc _ => hsign hc
  have hnext : next slot (c :: (more ++ rest)) = some ([token], slotAfter token, rest) := by
    rw [next, hname, hsegments]
    · simp
    · exact fun _ hc => hblank (List.cons.inj hc).1
    · intro tail hc
      obtain ⟨hc, htail⟩ := List.cons.inj hc
      exact hparen hc (by rw [htail]; rfl)
  have hlength : rest.length < (c :: (more ++ rest)).length := by
    rw [List.length_cons, List.length_append]
    omega
  exact read_of_next hnext hlength

theorem read_blank (slot : Slot) (rest : List Char) : read slot (' ' :: rest) = read slot rest := by
  have hnext : next slot (' ' :: rest) = some ([], slot, rest) := rfl
  exact read_of_next hnext (by simp)

theorem read_mark (slot : Slot) {c : Char} {m : Mark} {rest : List Char}
    (h : Mark.ofChar? c = some m) (hparen : c = '(' → rest.head? ≠ some ')') :
    read slot (c :: rest) = some (.mark m) :: read (.after m) rest := by
  have hmode := Lexer.start_of_ofChar? h
  refine @read_token c [] rest (.mark m) slot ?_ ?_ ?_ hparen (Lexer.segments_sign h rest)
  · apply Bool.eq_false_iff.2
    intro hword
    rw [Lexer.start_of_isWordStart hword] at hmode
    cases hmode
  all_goals
    rintro rfl
    cases h

theorem read_name {name : String} (h : Admissible name) {rest : List Char} (hrest : Stops rest) :
    read .plain (name.toList ++ rest) = some (.ident name) :: read .plain rest := by
  have hnext := next_name h hrest .plain
  rw [nameTokens, String.ofList_toList] at hnext
  exact read_of_next hnext (length_lt_append h rest)

theorem read_tag {name : String} (h : Admissible name) {rest : List Char} (hrest : EndsVariant rest) :
    read .tag (name.toList ++ rest) = some (.ident name) :: read .plain rest := by
  have hof : " of ".toList.isPrefixOf rest = false := by
    obtain ⟨c, tail, rfl, rfl | rfl⟩ := hrest <;> rfl
  have htokens : nameTokens name.toList rest .tag = ([.ident name], .plain, rest) := by
    rw [nameTokens, hof, String.ofList_toList]
    rfl
  have hnext := next_name h hrest.stops .tag
  rw [htokens] at hnext
  exact read_of_next hnext (length_lt_append h rest)

theorem read_payload {name : String} (h : Admissible name) (rest : List Char) :
    read .tag (name.toList ++ " of ".toList ++ rest) =
      some (.ident name) :: some (.mark .of) :: read .plain rest := by
  have hstops : Stops (" of ".toList ++ rest) := stops_cons.2 rfl
  have htokens : nameTokens name.toList (" of ".toList ++ rest) .tag =
      ([.ident name, .mark .of], .plain, rest) := by
    have hof : " of ".toList.isPrefixOf (" of ".toList ++ rest) = true := rfl
    rw [nameTokens, hof, String.ofList_toList]
    rfl
  have hnext := next_name h hstops .tag
  rw [htokens, ← List.append_assoc] at hnext
  have hlength := length_lt_append h rest
  rw [List.length_append] at hlength
  apply read_of_next hnext
  rw [List.length_append, List.length_append]
  omega

theorem read_label {name : String} (h : Admissible name) (rest : List Char) :
    read .line (name.toList ++ " : ".toList ++ rest) =
      some (.ident name) :: some (.mark .colon) :: read .plain rest := by
  have hstops : Stops (" : ".toList ++ rest) := stops_cons.2 rfl
  have htokens : nameTokens name.toList (" : ".toList ++ rest) .line =
      ([.ident name, .mark .colon], .plain, rest) := by
    have hcolon : " : ".toList.isPrefixOf (" : ".toList ++ rest) = true := rfl
    rw [nameTokens, hcolon, String.ofList_toList]
    rfl
  have hnext := next_name h hstops .line
  rw [htokens, ← List.append_assoc] at hnext
  have hlength := length_lt_append h rest
  rw [List.length_append] at hlength
  apply read_of_next hnext
  rw [List.length_append, List.length_append]
  omega

theorem read_inherit {rest : List Char} (hrest : rest.head? ≠ some ':') :
    read .line ("inherit ".toList ++ rest) = some (.mark .inherit) :: read .plain rest := by
  have hname : Admissible "inherit" := .identifier (by decide)
  have hstops : Stops (' ' :: rest) := stops_cons.2 rfl
  have hcolon : " : ".toList.isPrefixOf (' ' :: rest) = false := by
    cases rest with
    | nil => rfl
    | cons c rest =>
      have hc : ':' ≠ c := fun h => hrest (congrArg some h.symm)
      simp [List.isPrefixOf, hc]
  have htokens : nameTokens "inherit".toList (' ' :: rest) .line =
      ([.mark .inherit], .plain, ' ' :: rest) := by
    rw [nameTokens, hcolon]
    rfl
  have hnext := next_name hname hstops .line
  rw [htokens] at hnext
  have hread := read_of_next hnext (by simp)
  rw [read_blank] at hread
  exact hread

/-- Every word of expansions is read, the tuple without items too. -/
def scanner : Scanner .admissible where
  read := read
  readsEmpty := True
  name_head name h := by
    obtain ⟨c, text, htext, _, _, hparen, hcolon⟩ := head_admissible h
    exact ⟨c, text, htext, hparen, hcolon⟩
  name_kind kind := .identifier (isPlain_kind kind).1
  blank := read_blank
  mark slot _ _ _ h hparen := read_mark slot h hparen
  empty _ rest := by
    have hnext : next .plain ('(' :: ')' :: rest) =
      some ([.ident TypeExpr.emptyTuple], .plain, rest) := rfl
    have hlength : rest.length < ('(' :: ')' :: rest).length := by
      rw [List.length_cons, List.length_cons]
      omega
    exact read_of_next hnext hlength
  name _ _ h hrest := read_name h hrest
  key _ _ h hrest := read_name (.identifier h) hrest
  var name rest h hrest := by
    have hsegments := Lexer.segments_var h hrest
    exact read_token .plain rfl (by decide) (by decide) (fun h => absurd h (by decide)) hsegments
  text value rest := by
    have hsegments := Lexer.segments_text value rest
    have hwrite : (Text.Quoted.write value).toList =
        '"' :: (Text.Quoted.encode value.toList ++ ['"']) := by
      simp [Text.Quoted.write]
    rw [hwrite] at hsegments ⊢
    exact read_token .plain rfl (by decide) (by decide) (fun h => absurd h (by decide)) hsegments
  tag _ _ h hrest := read_tag h hrest
  payload _ rest h := read_payload h rest
  label _ rest h := read_label h rest
  inherit _ hrest := read_inherit hrest

/-! ## Injectivity -/

/-- A single expression in parentheses is a tuple of one item. -/
def exact : Expr.Interpretation where
  single t := .tuple [t] ∅
  atom name := if name = TypeExpr.emptyTuple then .tuple [] ∅ else .atom name

theorem interpretedBy_exact {t : TypeExpr} (h : t.WrittenIn .admissible) {u : TypeExpr}
    (hu : u ∈ t.subterms) : u.InterpretedBy exact := by
  match u, hu with
  | .tuple [] _, _ => simp [TypeExpr.InterpretedBy, exact]
  | .tuple [_] _, _ => exact fun _ => rfl
  | .named name [] a, hu =>
    have hname : Admissible name := h.names name (List.mem_flatMap.2
      ⟨.named name [] a, hu, List.mem_singleton_self name⟩)
    apply if_neg
    intro hempty
    obtain ⟨c, text, htext, _, hparen, _⟩ := head_admissible hname
    rw [hempty] at htext
    exact hparen (List.cons.inj htext).1.symm
  | .tuple (_ :: _ :: _) _, _ | .named _ (_ :: _) _, _ => trivial
  | .sum _ _, _ | .record _ _, _ | .container _ _ _, _ | .var _ _, _ => trivial

/-- Expressions that are written alike have the same normal form. -/
theorem normalize_eq_of_render_eq {t u : TypeExpr} (ht : t.WrittenIn .admissible)
    (hu : u.WrittenIn .admissible) (h : t.render = u.render) : t.normalize = u.normalize := by
  have hread : ∀ {t : TypeExpr}, t.WrittenIn .admissible →
      read .plain t.render.toList = t.spell.tokens.map some ++ read .plain [] := by
    intro t ht
    have hread := scanner.read_render ht (fun _ _ => trivial) [] stops_nil
    rwa [List.append_nil] at hread
  have htokens : t.spell.tokens = u.spell.tokens := by
    have hmap : t.spell.tokens.map some ++ read .plain [] =
        u.spell.tokens.map some ++ read .plain [] := by
      rw [← hread ht, ← hread hu, h]
    exact (List.map_inj_right fun _ _ => Option.some.inj).1 (List.append_cancel_right hmap)
  have hspell := Parser.tokens_injective htokens
  rw [← TypeExpr.interpret_spell fun _ hmem => interpretedBy_exact ht hmem,
    ← TypeExpr.interpret_spell fun _ hmem => interpretedBy_exact hu hmem, hspell]

end Signature

namespace TypeExpr

theorem render_apply (name : String) (args : List TypeExpr) (a : Annots) :
    (apply name args a).render = signature name args a := by
  unfold apply
  split
  · next kind element hkind =>
    rw [← ContainerKind.ofName?_eq_some.1 hkind, signature_container]
  · rw [signature_named]

/-- An expression is written like its normal form. -/
theorem render_normalize (t : TypeExpr) : t.normalize.render = t.render := by
  induction t with
  | sum variants a ih =>
    have hvariants : (variants.map (Variant.map normalize)).map renderVariant =
        variants.map renderVariant := by
      rw [List.map_map]
      apply List.map_congr_left
      intro v hv
      obtain ⟨tag, payload⟩ := v
      cases payload with
      | none => rfl
      | some t => exact congrArg (tag ++ " of " ++ ·) (ih _ hv t rfl)
    rw [normalize, rebuild_sum, render, render, renderVariants_eq_map, renderVariants_eq_map]
    exact congrArg (renderBlock "[" "]" " | " · ++ a.render) hvariants
  | record fields a ih =>
    have hfields : (fields.map (Field.map normalize)).map renderField = fields.map renderField := by
      rw [List.map_map]
      apply List.map_congr_left
      intro f hf
      cases f with
      | labelled label t => exact congrArg (label ++ " : " ++ ·) (ih _ hf)
      | inherit t => exact congrArg ("inherit " ++ ·) (ih _ hf)
    rw [normalize, rebuild_record, render, render, renderFields_eq_map, renderFields_eq_map]
    exact congrArg (renderBlock "\x7b" "\x7d" "; " · ++ a.render) hfields
  | tuple items a ih =>
    have hitems : (items.map normalize).map render = items.map render := by
      rw [List.map_map]
      exact List.map_congr_left ih
    rw [normalize, rebuild_tuple, render, render, renderAll_eq_map, renderAll_eq_map]
    exact congrArg ("(" ++ " * ".intercalate · ++ ")" ++ a.render) hitems
  | container kind element a ih =>
    rw [normalize, rebuild_container, render, render]
    exact congrArg (renderApplication kind.name [·] ++ a.render) ih
  | var name a => rw [normalize, rebuild_var]
  | named name args a ih =>
    have hargs : (args.map normalize).map render = args.map render := by
      rw [List.map_map]
      exact List.map_congr_left ih
    rw [normalize, rebuild_named, render_apply, ← signature_named]
    exact congrArg (renderApplication name · ++ a.render) hargs

theorem signature_map_normalize (name : String) (args : List TypeExpr) (a : Annots) :
    signature name (args.map normalize) a = signature name args a := by
  rw [signature, signature, List.map_map]
  exact congrArg (renderApplication name · ++ a.render)
    (List.map_congr_left fun t _ => render_normalize t)

/-- An application in normal form shows what is applied to what. -/
theorem apply_inj {name name' : String} {args args' : List TypeExpr} {a a' : Annots}
    (h : apply name args a = apply name' args' a') : name = name' ∧ args = args' ∧ a = a' := by
  obtain ⟨kind, element, rfl, rfl, happly⟩ | ⟨_, happly⟩ := apply_cases name args a
  · obtain ⟨kind', element', rfl, rfl, happly'⟩ | ⟨_, happly'⟩ := apply_cases name' args' a'
    · rw [happly, happly'] at h
      obtain ⟨rfl, rfl, rfl⟩ := container.inj h
      exact ⟨rfl, rfl, rfl⟩
    · rw [happly, happly'] at h
      cases h
  · obtain ⟨kind', element', rfl, rfl, happly'⟩ | ⟨_, happly'⟩ := apply_cases name' args' a'
    · rw [happly, happly'] at h
      cases h
    · rw [happly, happly'] at h
      exact named.inj h

/-- A written application determines the name, the annotations, and the arguments up to their normal
form. -/
theorem signature_inj {name name' : String} {args args' : List TypeExpr} {a a' : Annots}
    (h : (named name args a).WrittenIn .admissible)
    (h' : (named name' args' a').WrittenIn .admissible) :
    signature name args a = signature name' args' a' ↔
      name = name' ∧ args.map normalize = args'.map normalize ∧ a = a' := by
  constructor
  · intro hsignature
    rw [signature_named, signature_named] at hsignature
    have hnormal := Signature.normalize_eq_of_render_eq h h' hsignature
    rw [normalize, rebuild_named, rebuild_named] at hnormal
    exact apply_inj hnormal
  · rintro ⟨rfl, hargs, rfl⟩
    rw [← signature_map_normalize, hargs, signature_map_normalize]

end TypeExpr

end Monomorph
