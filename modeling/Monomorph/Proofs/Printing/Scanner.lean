import Monomorph.Proofs.TypeExpr.Spelling
import Monomorph.Proofs.TypeExpr.Variables

/-!
# Reading printed text word by word

A scanner splits text into tokens. It may look at where a word stands: a tag and a label are read
apart from the words around them, so that a name may be spelled like a keyword. The laws of
`Scanner` are about single words; `Scanner.read_render` derives from them that printed expressions
give back the tokens of their surface trees, whatever follows.

The lexer of source texts is such a scanner for plain words, and there is another one that also reads
the names of specializations. The laws are stated for words that something ends: a text `Stops` a
word if it does not go on with a letter, digit or underscore.
-/

namespace Monomorph

open Surface

/-- The text cannot prolong a word. -/
def Stops (rest : List Char) : Prop := ∀ c ∈ rest.head?, Lexer.isWordPart c = false

theorem stops_nil : Stops [] := nofun

theorem stops_cons {c : Char} {rest : List Char} :
    Stops (c :: rest) ↔ Lexer.isWordPart c = false := by
  simp [Stops]

theorem isWordPart_blank : Lexer.isWordPart ' ' = false := rfl

theorem isWordPart_greater : Lexer.isWordPart '>' = false := rfl

/-- The text goes on after a variant without payload: another variant, or the end of the sum. -/
def EndsVariant (rest : List Char) : Prop :=
  ∃ c tail, rest = ' ' :: c :: tail ∧ (c = '|' ∨ c = ']')

theorem EndsVariant.stops {rest : List Char} (h : EndsVariant rest) : Stops rest := by
  obtain ⟨c, tail, rfl, _⟩ := h
  exact stops_cons.2 (by decide)

/-- Where a word stands: at the tag of a variant, at the start of a record line, or elsewhere. -/
inductive Slot where
  | plain
  | tag
  | line
deriving DecidableEq, Repr

/-- What a mark announces. -/
def Slot.after : Mark → Slot
  | .leftBracket | .bar => tag
  | .leftBrace | .semicolon => line
  | _ => plain

/-- A way to split text into tokens, with its laws for the words of a vocabulary. Text that is no
token gives `none`. -/
structure Scanner (V : Vocabulary) where
  read : Slot → List Char → List (Option Token)
  /-- Whether the tuple without items is read as a name. -/
  readsEmpty : Prop
  /-- No name starts like the end of a group or the type after a label. -/
  name_head : ∀ name, V.name name → ∃ c rest, name.toList = c :: rest ∧ c ≠ ')' ∧ c ≠ ':'
  name_kind : ∀ kind : ContainerKind, V.name kind.name
  blank : ∀ slot rest, read slot (' ' :: rest) = read slot rest
  mark : ∀ slot c m rest, Mark.ofChar? c = some m → (c = '(' → rest.head? ≠ some ')') →
    read slot (c :: rest) = some (.mark m) :: read (.after m) rest
  empty : readsEmpty → ∀ rest,
    read .plain ('(' :: ')' :: rest) = some (.ident TypeExpr.emptyTuple) :: read .plain rest
  name : ∀ name rest, V.name name → Stops rest →
    read .plain (name.toList ++ rest) = some (.ident name) :: read .plain rest
  key : ∀ key rest, V.key key → Stops rest →
    read .plain (key.toList ++ rest) = some (.ident key) :: read .plain rest
  var : ∀ name rest, IsVariable name → Stops rest →
    read .plain ('\'' :: (name.toList ++ rest)) = some (.var name) :: read .plain rest
  text : ∀ value rest, read .plain ((Text.Quoted.write value).toList ++ rest) =
    some (.text value) :: read .plain rest
  tag : ∀ name rest, V.name name → EndsVariant rest →
    read .tag (name.toList ++ rest) = some (.ident name) :: read .plain rest
  payload : ∀ name rest, V.name name → read .tag (name.toList ++ " of ".toList ++ rest) =
    some (.ident name) :: some (.mark .of) :: read .plain rest
  label : ∀ name rest, V.name name → read .line (name.toList ++ " : ".toList ++ rest) =
    some (.ident name) :: some (.mark .colon) :: read .plain rest
  inherit : ∀ rest, rest.head? ≠ some ':' → read .line ("inherit ".toList ++ rest) =
    some (.mark .inherit) :: read .plain rest

namespace Scanner

variable {V : Vocabulary} (R : Scanner V)

theorem sign (slot : Slot) (c : Char) (m : Mark) (rest : List Char) (h : Mark.ofChar? c = some m)
    (hne : c ≠ '(') : R.read slot (c :: rest) = some (.mark m) :: R.read (.after m) rest :=
  R.mark slot c m rest h fun heq => absurd heq hne

/-! ## Annotations -/

/-- The tokens of annotations in order, where the brackets of the group `current` are open. -/
def annotTokens (current : Option String) : List Annot → List Token
  | [] => if current.isSome then [.mark .greater] else []
  | a :: rest =>
    let opening : List Token :=
      if current = some a.group then []
      else if current.isSome then [.mark .greater, .mark .less, .ident a.group]
      else [.mark .less, .ident a.group]
    opening ++ a.entry.tokens ++ annotTokens (some a.group) rest

/-- The tokens of what is left of an open group and of the groups after it. -/
def closingTokens (group : String) : List Group → List Token
  | [] => [.mark .greater]
  | g :: groups =>
    if g.name = group then
      g.entries.flatMap Entry.tokens ++ .mark .greater :: groups.flatMap Group.tokens
    else .mark .greater :: (g :: groups).flatMap Group.tokens

theorem tokens_groupsOf_cons (a : Annot) (rest : List Annot) :
    (Annots.groupsOf (a :: rest)).flatMap Group.tokens =
      .mark .less :: .ident a.group ::
        (a.entry.tokens ++ closingTokens a.group (Annots.groupsOf rest)) := by
  rw [Annots.groupsOf]
  split
  · next hrest => simp [hrest, Group.tokens, Group.entries, closingTokens]
  · next g groups hrest =>
    rw [hrest]
    split
    · next hname => simp [Group.tokens, Group.entries, closingTokens, hname]
    · next hname => simp [Group.tokens, Group.entries, closingTokens, hname]

theorem closingTokens_groupsOf_cons (a : Annot) (rest : List Annot) :
    closingTokens a.group (Annots.groupsOf (a :: rest)) =
      a.entry.tokens ++ closingTokens a.group (Annots.groupsOf rest) := by
  rw [Annots.groupsOf]
  split
  · next hrest => simp [hrest, Group.entries, closingTokens]
  · next g groups hrest =>
    rw [hrest]
    split
    · next hname => simp [Group.entries, closingTokens, hname]
    · next hname => simp [Group.entries, closingTokens, hname]

theorem closingTokens_groupsOf_of_ne {group : String} {a : Annot} (h : group ≠ a.group)
    (rest : List Annot) :
    closingTokens group (Annots.groupsOf (a :: rest)) =
      .mark .greater :: (Annots.groupsOf (a :: rest)).flatMap Group.tokens := by
  have hname : ∃ g groups, Annots.groupsOf (a :: rest) = g :: groups ∧ g.name = a.group := by
    rw [Annots.groupsOf]
    split
    · exact ⟨_, _, rfl, rfl⟩
    · split
      · next hname => exact ⟨_, _, rfl, hname⟩
      · exact ⟨_, _, rfl, rfl⟩
  obtain ⟨g, groups, hgroups, hname⟩ := hname
  rw [hgroups, closingTokens, if_neg (hname ▸ h.symm)]

/-- Annotations in order are their groups in order. -/
theorem annotTokens_eq (entries : List Annot) :
    annotTokens none entries = (Annots.groupsOf entries).flatMap Group.tokens ∧
      ∀ group, annotTokens (some group) entries =
        closingTokens group (Annots.groupsOf entries) := by
  induction entries with
  | nil => exact ⟨rfl, fun _ => rfl⟩
  | cons a rest ih =>
    constructor
    · rw [tokens_groupsOf_cons, ← ih.2]
      rfl
    · intro group
      by_cases h : group = a.group
      · subst h
        rw [closingTokens_groupsOf_cons, ← ih.2]
        simp [annotTokens]
      · rw [closingTokens_groupsOf_of_ne h, tokens_groupsOf_cons, ← ih.2]
        simp [annotTokens, h]

/-- One entry, between the brackets of its group. -/
theorem read_entry {a : Annot} (ha : a.WrittenIn V) {rest : List Char} (hrest : Stops rest) :
    R.read .plain (a.render.toList ++ rest) = a.entry.tokens.map some ++ R.read .plain rest := by
  obtain ⟨group, key, value⟩ := a
  cases value with
  | none => simpa [Annot.render, Annot.entry, Entry.tokens] using R.key key rest ha.2 hrest
  | some value =>
    have hequals : ∀ tail, R.read .plain ('=' :: tail) =
      some (.mark .equals) :: R.read .plain tail := fun tail => R.sign .plain '=' .equals tail rfl (by decide)
    have hkey := R.key key ('=' :: ((Text.Quoted.write value).toList ++ rest)) ha.2
      (stops_cons.2 (by decide))
    rw [hequals, R.text] at hkey
    simpa [Annot.render, Annot.entry, Entry.tokens] using hkey

theorem stops_renderFrom (current : Option String) (entries : List Annot) {rest : List Char}
    (hrest : Stops rest) : Stops ((Annots.renderFrom current entries).toList ++ rest) := by
  cases entries with
  | nil =>
    cases current with
    | none => simpa [Annots.renderFrom] using hrest
    | some group => simp [Annots.renderFrom, stops_cons, isWordPart_greater]
  | cons a entries =>
    simp only [Annots.renderFrom]
    split
    · simp [stops_cons, isWordPart_blank]
    · split
      · simp [stops_cons, isWordPart_greater]
      · simp [stops_cons, isWordPart_blank]

/-- The bracket and the name that open a group. -/
theorem read_opening {group : String} (hgroup : V.key group) {rest : List Char}
    (hrest : Stops rest) : R.read .plain ('<' :: (group.toList ++ rest)) =
      some (.mark .less) :: some (.ident group) :: R.read .plain rest := by
  rw [R.sign .plain '<' .less _ rfl (by decide)]
  exact congrArg _ (R.key group rest hgroup hrest)

theorem read_renderFrom {entries : List Annot} (h : ∀ a ∈ entries, a.WrittenIn V)
    (current : Option String) {rest : List Char} (hrest : Stops rest) :
    R.read .plain ((Annots.renderFrom current entries).toList ++ rest) =
      (annotTokens current entries).map some ++ R.read .plain rest := by
  have hclose : ∀ tail, R.read .plain ('>' :: tail) =
    some (.mark .greater) :: R.read .plain tail := fun tail => R.sign .plain '>' .greater tail rfl (by decide)
  induction entries generalizing current with
  | nil =>
    cases current with
    | none => simp [Annots.renderFrom, annotTokens]
    | some group => simpa [Annots.renderFrom, annotTokens] using hclose rest
  | cons a entries ih =>
    obtain ⟨ha, hentries⟩ := List.forall_mem_cons.1 h
    have hentry : R.read .plain (' ' :: (a.render.toList ++
          ((Annots.renderFrom (some a.group) entries).toList ++ rest))) =
        (a.entry.tokens ++ annotTokens (some a.group) entries).map some ++ R.read .plain rest := by
      rw [R.blank, R.read_entry ha (stops_renderFrom _ entries hrest), ih hentries,
        List.map_append, List.append_assoc]
    have hopening := fun tail => R.read_opening ha.1 (stops_cons.2 (by decide) : Stops (' ' :: tail))
    by_cases hsame : current = some a.group
    · simpa [Annots.renderFrom, annotTokens, hsame] using hentry
    · cases current with
      | none =>
        simp only [Annots.renderFrom, annotTokens, String.toList_append]
        simpa [R.blank, hopening] using hentry
      | some group =>
        have hne : group ≠ a.group := fun h => hsame (congrArg some h)
        simp only [Annots.renderFrom, annotTokens, String.toList_append]
        simpa [R.blank, hclose, hopening, hne] using hentry

theorem stops_annots (s : Annots) {rest : List Char} (hrest : Stops rest) :
    Stops (s.render.toList ++ rest) :=
  stops_renderFrom none s.toList hrest

/-- The annotations of a node. -/
theorem read_annots {s : Annots} (h : ∀ a ∈ s.toList, a.WrittenIn V) {rest : List Char}
    (hrest : Stops rest) : R.read .plain (s.render.toList ++ rest) =
      (s.groups.flatMap Group.tokens).map some ++ R.read .plain rest := by
  rw [Annots.groups, ← (annotTokens_eq s.toList).1]
  exact R.read_renderFrom h none hrest

/-! ## Lists -/

/-- Parts with a separator between every two, where each part is read in a slot of its own and the
separator leads to the next such slot. -/
theorem read_separated {α : Type} {slot : Slot} {separator : List Char} {m : Mark}
    {ends : List Char → Prop} {text : α → List Char} {tokens : α → List Token}
    (hseparator : ∀ rest, ends (separator ++ rest) ∧
      R.read .plain (separator ++ rest) = some (.mark m) :: R.read slot rest)
    {first : α} {others : List α}
    (hparts : ∀ part ∈ first :: others, ∀ rest, ends rest →
      R.read slot (text part ++ rest) = (tokens part).map some ++ R.read .plain rest)
    {rest : List Char} (hrest : ends rest) :
    R.read slot (separator.intercalate ((first :: others).map text) ++ rest) =
      ([.mark m].intercalate ((first :: others).map tokens)).map some ++ R.read .plain rest := by
  simp only [List.map_cons, intercalate_cons, List.append_assoc]
  induction others generalizing first with
  | nil => simpa using hparts first List.mem_cons_self rest hrest
  | cons next others ih =>
    have hfirst := hparts first List.mem_cons_self
    have hnext := ih fun part hpart => hparts part (List.mem_cons_of_mem first hpart)
    simp only [List.map_cons, List.flatMap_cons, List.append_assoc] at hnext ⊢
    rw [hfirst _ (hseparator _).1, (hseparator _).2, hnext]
    simp

include R in
/-- A printed expression starts neither like the end of a group nor like what follows a label. -/
theorem head_render {t : TypeExpr} (h : t.WrittenIn V) :
    ∃ c rest, t.render.toList = c :: rest ∧ c ≠ ')' ∧ c ≠ ':' := by
  induction t with
  | sum variants a _ =>
    rw [TypeExpr.render, TypeExpr.renderBlock.eq_def]
    split <;> exact ⟨'[', _, by simp; rfl, by decide, by decide⟩
  | record fields a _ =>
    rw [TypeExpr.render, TypeExpr.renderBlock.eq_def]
    split <;> exact ⟨'\x7b', _, by simp; rfl, by decide, by decide⟩
  | tuple items a _ => exact ⟨'(', _, by simp [TypeExpr.render]; rfl, by decide, by decide⟩
  | container kind element a ih =>
    obtain ⟨c, rest, hrender, hc⟩ := ih ((TypeExpr.writtenIn_iff.1 h).2.2.2 element
      (List.mem_singleton_self element))
    exact ⟨c, _, by simp [TypeExpr.render, TypeExpr.renderApplication, hrender]; rfl, hc⟩
  | var name a => exact ⟨'\'', _, by simp [TypeExpr.render]; rfl, by decide, by decide⟩
  | named name args a ih =>
    rw [TypeExpr.render, TypeExpr.renderAll_eq_map]
    cases args with
    | nil =>
      obtain ⟨c, rest, hname, hc⟩ := R.name_head name
        ((TypeExpr.writtenIn_iff.1 h).1 name (List.mem_singleton_self name))
      exact ⟨c, _, by simp [TypeExpr.renderApplication, hname]; rfl, hc⟩
    | cons arg args =>
      cases args with
      | nil =>
        obtain ⟨c, rest, hrender, hc⟩ := ih arg (List.mem_singleton_self arg)
          ((TypeExpr.writtenIn_iff.1 h).2.2.2 arg (List.mem_singleton_self arg))
        exact ⟨c, _, by simp [TypeExpr.renderApplication, hrender]; rfl, hc⟩
      | cons second rest =>
        exact ⟨'(', _, by simp [TypeExpr.renderApplication]; rfl, by decide, by decide⟩

/-! ## Expressions -/

/-- The text of an expression gives the tokens of its surface tree, whatever stops it. -/
def Reads (t : TypeExpr) : Prop := ∀ rest, Stops rest →
  R.read .plain (t.render.toList ++ rest) = t.spell.tokens.map some ++ R.read .plain rest

/-- A node whose text without annotations gives the tokens of a tree without annotations. -/
theorem reads_of_core {t : TypeExpr} {core : String} {tree : Expr} (h : t.WrittenIn V)
    (hrender : t.render = core ++ t.annots.render) (hspell : t.spell = tree.withGroups t.annots.groups)
    (hcore : ∀ rest, Stops rest →
      R.read .plain (core.toList ++ rest) = tree.tokens.map some ++ R.read .plain rest) :
    R.Reads t := by
  intro rest hrest
  rw [hrender, hspell, Expr.tokens_withGroups, String.toList_append, List.append_assoc,
    hcore _ (stops_annots t.annots hrest),
    R.read_annots (TypeExpr.writtenIn_iff.1 h).2.2.1 hrest, List.map_append, List.append_assoc]

theorem read_variant {v : Variant TypeExpr} (htag : V.name v.tag)
    (hpayload : ∀ t ∈ v.payload, R.Reads t) {rest : List Char} (hrest : EndsVariant rest) :
    R.read .tag ((TypeExpr.renderVariant v).toList ++ rest) =
      (.ident v.tag :: Expr.payloadTokens (v.map TypeExpr.spell)).map some ++
        R.read .plain rest := by
  obtain ⟨tag, payload⟩ := v
  cases payload with
  | none => simpa [TypeExpr.renderVariant, Expr.payloadTokens] using R.tag tag rest htag hrest
  | some t =>
    have hof := R.payload tag (t.render.toList ++ rest) htag
    rw [hpayload t rfl rest hrest.stops] at hof
    simpa [TypeExpr.renderVariant, Expr.payloadTokens] using hof

theorem read_line {f : Field TypeExpr} (hwritten : f.type.WrittenIn V)
    (hlabel : ∀ label t, f = .labelled label t → V.name label) (htype : R.Reads f.type)
    {rest : List Char} (hrest : Stops rest) :
    R.read .line ((TypeExpr.renderField f).toList ++ rest) =
      (Expr.lineTokens (f.map TypeExpr.spell)).map some ++ R.read .plain rest := by
  cases f with
  | labelled label t =>
    have ht : R.Reads t := htype
    have hcolon := R.label label (t.render.toList ++ rest) (hlabel label t rfl)
    rw [ht rest hrest] at hcolon
    simpa [TypeExpr.renderField, Field.map, Expr.lineTokens] using hcolon
  | inherit t =>
    have ht : R.Reads t := htype
    obtain ⟨c, tail, hrender, _, hc⟩ := R.head_render hwritten
    have hhead : (t.render.toList ++ rest).head? ≠ some ':' := by
      change t.render.toList = c :: tail at hrender
      simp [hrender, hc]
    have hinherit := R.inherit _ hhead
    rw [ht rest hrest] at hinherit
    simpa [TypeExpr.renderField, Field.map, Expr.lineTokens] using hinherit

/-- Parts between delimiters, each delimiter a blank away from what is inside. -/
theorem read_block {α : Type} {left right separator : String} {leftChar rightChar : Char}
    {opening closing m : Mark} {ends : List Char → Prop} {text : α → String}
    {tokens : α → List Token} (hleft : left.toList = [leftChar]) (hright : right.toList = [rightChar])
    (hopening : ∀ rest, R.read .plain (leftChar :: rest) =
      some (.mark opening) :: R.read (.after opening) rest)
    (hclosing : ∀ slot rest, R.read slot (rightChar :: rest) =
      some (.mark closing) :: R.read .plain rest)
    (hends : ∀ rest, ends (' ' :: rightChar :: rest))
    (hseparator : ∀ rest, ends (separator.toList ++ rest) ∧
      R.read .plain (separator.toList ++ rest) = some (.mark m) :: R.read (.after opening) rest)
    {parts : List α} (hparts : ∀ part ∈ parts, ∀ rest, ends rest →
      R.read (.after opening) ((text part).toList ++ rest) =
        (tokens part).map some ++ R.read .plain rest) (rest : List Char) :
    R.read .plain ((TypeExpr.renderBlock left right separator (parts.map text)).toList ++ rest) =
      (.mark opening :: [.mark m].intercalate (parts.map tokens) ++ [Token.mark closing]).map some ++
        R.read .plain rest := by
  cases parts with
  | nil => simp [TypeExpr.renderBlock, hleft, hright, hopening, hclosing, R.blank]
  | cons first others =>
    have hblank : " ".toList = [' '] := rfl
    have hseparated := R.read_separated hseparator hparts (hends rest)
    rw [R.blank, hclosing] at hseparated
    simp only [List.map_cons, TypeExpr.renderBlock, String.toList_append, hleft, hright, hblank,
      String.toList_intercalate, List.map_map, List.append_assoc, List.cons_append,
      List.nil_append, hopening, R.blank, Function.comp_def] at hseparated ⊢
    simpa using hseparated

/-- Expressions in parentheses, up to what closes them. -/
theorem read_list {separator : String} {m : Mark}
    (hseparator : ∀ tail, Stops (separator.toList ++ tail) ∧
      R.read .plain (separator.toList ++ tail) = some (.mark m) :: R.read .plain tail)
    {first : TypeExpr} {others : List TypeExpr} (hfirst : first.WrittenIn V)
    (hitems : ∀ t ∈ first :: others, R.Reads t) {rest : List Char} (hrest : Stops rest) :
    R.read .plain ('(' ::
        ((separator.intercalate ((first :: others).map TypeExpr.render)).toList ++ rest)) =
      some (.mark .leftParen) ::
        ([Token.mark m].intercalate ((first :: others).map fun t => t.spell.tokens)).map some ++
          R.read .plain rest := by
  obtain ⟨c, tail, hrender, hc, _⟩ := R.head_render hfirst
  have hhead : ((separator.intercalate ((first :: others).map TypeExpr.render)).toList ++
      rest).head? ≠ some ')' := by
    rw [String.toList_intercalate, List.map_cons, List.map_cons, intercalate_cons, hrender]
    simpa using hc
  rw [R.mark .plain '(' .leftParen _ rfl fun _ => hhead, String.toList_intercalate, List.map_map]
  exact congrArg _ (R.read_separated hseparator hitems hrest)

theorem read_star (tail : List Char) : Stops (" * ".toList ++ tail) ∧
    R.read .plain (" * ".toList ++ tail) = some (.mark .star) :: R.read .plain tail := by
  refine ⟨stops_cons.2 rfl, ?_⟩
  show R.read .plain (' ' :: '*' :: ' ' :: tail) = _
  rw [R.blank, R.sign .plain '*' .star _ rfl (by decide), R.blank]
  rfl

theorem read_comma (tail : List Char) : Stops (", ".toList ++ tail) ∧
    R.read .plain (", ".toList ++ tail) = some (.mark .comma) :: R.read .plain tail := by
  refine ⟨stops_cons.2 rfl, ?_⟩
  show R.read .plain (',' :: ' ' :: tail) = _
  rw [R.sign .plain ',' .comma _ rfl (by decide), R.blank]
  rfl

theorem read_bar (tail : List Char) : EndsVariant (" | ".toList ++ tail) ∧
    R.read .plain (" | ".toList ++ tail) = some (.mark .bar) :: R.read .tag tail := by
  refine ⟨⟨'|', ' ' :: tail, rfl, Or.inl rfl⟩, ?_⟩
  show R.read .plain (' ' :: '|' :: ' ' :: tail) = _
  rw [R.blank, R.sign .plain '|' .bar _ rfl (by decide), R.blank]
  rfl

theorem read_semicolon (tail : List Char) : Stops ("; ".toList ++ tail) ∧
    R.read .plain ("; ".toList ++ tail) = some (.mark .semicolon) :: R.read .line tail := by
  refine ⟨stops_cons.2 rfl, ?_⟩
  show R.read .plain (';' :: ' ' :: tail) = _
  rw [R.sign .plain ';' .semicolon _ rfl (by decide), R.blank]
  rfl

theorem tokens_spellApplication (name : String) (first second : Expr) (rest : List Expr) :
    (TypeExpr.spellApplication name (first :: second :: rest)).tokens =
      .mark .leftParen :: [.mark .comma].intercalate
        ((first :: second :: rest).map Expr.tokens) ++ [.mark .rightParen, .ident name] := by
  have hall : (second :: rest).map Expr.tokens = (second :: rest).dropLast.map Expr.tokens ++
      [((second :: rest).getLast (List.cons_ne_nil second rest)).tokens] := by
    have hlast := congrArg (List.map Expr.tokens)
      (List.dropLast_concat_getLast (List.cons_ne_nil second rest))
    rw [← hlast, List.map_append, List.map_cons, List.map_nil]
  rw [TypeExpr.spellApplication, Expr.tokens, Expr.allTokens_eq_map, List.map_cons,
    intercalate_cons, hall]
  simp

theorem tokens_spellTuple (first : Expr) (rest : List Expr) :
    (TypeExpr.spellTuple (first :: rest)).tokens =
      .mark .leftParen :: [.mark .star].intercalate ((first :: rest).map Expr.tokens) ++
        [.mark .rightParen] := by
  rw [TypeExpr.spellTuple, Expr.tokens, Expr.allTokens_eq_map, List.map_cons, intercalate_cons]
  simp

/-- A name after its one argument. -/
theorem read_applied {arg : TypeExpr} (harg : R.Reads arg) {name : String} (hname : V.name name)
    {rest : List Char} (hrest : Stops rest) :
    R.read .plain ((TypeExpr.renderApplication name [arg.render]).toList ++ rest) =
      (Expr.applied arg.spell name).tokens.map some ++ R.read .plain rest := by
  have hafter := harg (' ' :: (name.toList ++ rest)) (stops_cons.2 rfl)
  rw [R.blank, R.name name rest hname hrest] at hafter
  simpa [TypeExpr.renderApplication, Expr.tokens] using hafter

theorem reads_sum {variants : List (Variant TypeExpr)} {a : Annots}
    (h : (TypeExpr.sum variants a).WrittenIn V)
    (hchildren : ∀ t ∈ (TypeExpr.sum variants a).children, R.Reads t) :
    R.Reads (.sum variants a) := by
  have hvariant : ∀ v ∈ variants, ∀ rest, EndsVariant rest →
      R.read .tag ((TypeExpr.renderVariant v).toList ++ rest) =
        (.ident v.tag :: Expr.payloadTokens (v.map TypeExpr.spell)).map some ++
          R.read .plain rest := by
    intro v hv rest hrest
    have htag : V.name v.tag := (TypeExpr.writtenIn_iff.1 h).1 v.tag (List.mem_map.2 ⟨v, hv, rfl⟩)
    exact R.read_variant htag (fun t ht => hchildren t (List.mem_filterMap.2 ⟨v, hv, ht⟩)) hrest
  apply R.reads_of_core h (by rw [TypeExpr.render]; rfl) (by rw [TypeExpr.spell]; rfl)
  intro rest _
  rw [TypeExpr.renderVariants_eq_map, TypeExpr.spellVariants_eq_map, Expr.tokens,
    Expr.variantTokens_eq_map, List.map_map]
  exact R.read_block rfl rfl (fun rest => R.sign .plain '[' .leftBracket rest rfl (by decide))
    (fun slot rest => R.sign slot ']' .rightBracket rest rfl (by decide))
    (fun rest => ⟨']', rest, rfl, Or.inr rfl⟩) R.read_bar hvariant rest

theorem reads_record {fields : List (Field TypeExpr)} {a : Annots}
    (h : (TypeExpr.record fields a).WrittenIn V)
    (hchildren : ∀ t ∈ (TypeExpr.record fields a).children, R.Reads t) :
    R.Reads (.record fields a) := by
  obtain ⟨hlabels, _, _, hwritten⟩ := TypeExpr.writtenIn_iff.1 h
  have hline : ∀ f ∈ fields, ∀ rest, Stops rest →
      R.read .line ((TypeExpr.renderField f).toList ++ rest) =
        (Expr.lineTokens (f.map TypeExpr.spell)).map some ++ R.read .plain rest := by
    intro f hf rest hrest
    have hchild : f.type ∈ (TypeExpr.record fields a).children := List.mem_map.2 ⟨f, hf, rfl⟩
    refine R.read_line (hwritten f.type hchild) ?_ (hchildren f.type hchild) hrest
    rintro label t rfl
    exact hlabels label (List.mem_filterMap.2 ⟨.labelled label t, hf, rfl⟩)
  apply R.reads_of_core h (by rw [TypeExpr.render]; rfl) (by rw [TypeExpr.spell]; rfl)
  intro rest _
  rw [TypeExpr.renderFields_eq_map, TypeExpr.spellFields_eq_map, Expr.tokens,
    Expr.fieldTokens_eq_map, List.map_map]
  exact R.read_block rfl rfl (fun rest => R.sign .plain '\x7b' .leftBrace rest rfl (by decide))
    (fun slot rest => R.sign slot '\x7d' .rightBrace rest rfl (by decide))
    (fun rest => stops_cons.2 rfl) R.read_semicolon hline rest

theorem reads_tuple {items : List TypeExpr} {a : Annots} (h : (TypeExpr.tuple items a).WrittenIn V)
    (hempty : items = [] → R.readsEmpty) (hitems : ∀ t ∈ items, R.Reads t) :
    R.Reads (.tuple items a) := by
  apply R.reads_of_core h (by rw [TypeExpr.render]; rfl) (by rw [TypeExpr.spell]; rfl)
  intro rest _
  rw [TypeExpr.renderAll_eq_map, TypeExpr.spellAll_eq_map]
  cases items with
  | nil => exact R.empty (hempty rfl) rest
  | cons first others =>
    have hclose : R.read .plain (')' :: rest) = some (.mark .rightParen) :: R.read .plain rest :=
      R.sign .plain ')' .rightParen rest rfl (by decide)
    have hlist := R.read_list R.read_star ((TypeExpr.writtenIn_iff.1 h).2.2.2 first List.mem_cons_self)
      hitems (stops_cons.2 rfl : Stops (')' :: rest))
    have htree : (TypeExpr.spellTuple ((first :: others).map TypeExpr.spell)).tokens = _ :=
      tokens_spellTuple first.spell (others.map TypeExpr.spell)
    rw [hclose] at hlist
    rw [htree]
    simpa [Function.comp_def] using hlist

theorem reads_named {name : String} {args : List TypeExpr} {a : Annots}
    (h : (TypeExpr.named name args a).WrittenIn V) (hargs : ∀ t ∈ args, R.Reads t) :
    R.Reads (.named name args a) := by
  obtain ⟨hnames, _, _, hwritten⟩ := TypeExpr.writtenIn_iff.1 h
  have hname : V.name name := hnames name (List.mem_singleton_self name)
  apply R.reads_of_core h (by rw [TypeExpr.render]; rfl) (by rw [TypeExpr.spell]; rfl)
  intro rest hrest
  rw [TypeExpr.renderAll_eq_map, TypeExpr.spellAll_eq_map]
  cases args with
  | nil => exact R.name name rest hname hrest
  | cons first args =>
    cases args with
    | nil => exact R.read_applied (hargs first (List.mem_singleton_self first)) hname hrest
    | cons second others =>
      have hclose : R.read .plain (')' :: ' ' :: (name.toList ++ rest)) =
          some (.mark .rightParen) :: some (.ident name) :: R.read .plain rest := by
        rw [R.sign .plain ')' .rightParen _ rfl (by decide), R.blank]
        exact congrArg _ (R.name name rest hname hrest)
      have hlist := R.read_list R.read_comma (hwritten first List.mem_cons_self) hargs
        (stops_cons.2 rfl : Stops (')' :: ' ' :: (name.toList ++ rest)))
      have htree : (TypeExpr.spellApplication name
          ((first :: second :: others).map TypeExpr.spell)).tokens = _ :=
        tokens_spellApplication name first.spell second.spell (others.map TypeExpr.spell)
      rw [hclose] at hlist
      rw [htree]
      simpa [TypeExpr.renderApplication, Function.comp_def] using hlist

/-- Printed expressions give the tokens of their surface trees. -/
theorem read_render {t : TypeExpr} (h : t.WrittenIn V)
    (hempty : ∀ a, .tuple [] a ∈ t.subterms → R.readsEmpty) : R.Reads t := by
  induction t using TypeExpr.children_induct with
  | node t ih =>
    obtain ⟨_, hvar, _, hwritten⟩ := TypeExpr.writtenIn_iff.1 h
    have hchildren : ∀ u ∈ t.children, R.Reads u := fun u hu =>
      ih u hu (hwritten u hu) fun a ha => hempty a (TypeExpr.subterms_child hu ha)
    cases t with
    | sum variants a => exact R.reads_sum h hchildren
    | record fields a => exact R.reads_record h hchildren
    | tuple items a =>
      refine R.reads_tuple h ?_ hchildren
      rintro rfl
      exact hempty a (TypeExpr.self_mem_subterms _)
    | container kind element a =>
      apply R.reads_of_core h (by rw [TypeExpr.render]; rfl) (by rw [TypeExpr.spell]; rfl)
      have helement : R.Reads element := hchildren element (List.mem_singleton_self element)
      exact fun rest hrest => R.read_applied helement (R.name_kind kind) hrest
    | var name a =>
      apply R.reads_of_core h (by rw [TypeExpr.render]; rfl) (by rw [TypeExpr.spell]; rfl)
      intro rest hrest
      simpa [Expr.tokens] using R.var name rest (hvar name rfl) hrest
    | named name args a => exact R.reads_named h hchildren

end Scanner

end Monomorph
