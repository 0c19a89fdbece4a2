import Monomorph.Proofs.Printing.Words
import Monomorph.Source

/-!
# Reading printed definitions

`TypeDef.Writable` collects what a source text can say: its words, tuples of at least two items, and
bodies in normal form. Definitions of this kind are read back unchanged from their printed form.
-/

namespace Monomorph

open Surface

/-- A definition that a source text can contain. -/
structure TypeDef.Writable (d : TypeDef) : Prop where
  name : IsPlain d.name
  params : ∀ param ∈ d.params, IsVariable param
  annots : ∀ a ∈ d.annots.toList, a.WrittenIn .plain
  body : d.body.WrittenIn .plain
  wide : d.body.IsWide
  normal : d.body.IsNormal

/-! ## The tree of a definition -/

/-- The surface tree of the parameters of a head. -/
def Surface.Params.ofNames : List String → Params
  | [] => .absent
  | [param] => .bare param
  | first :: rest => .listed first rest

theorem Surface.Params.meaning_ofNames (params : List String) : (ofNames params).meaning = params := by
  match params with
  | [] => rfl
  | [_] => rfl
  | _ :: _ :: _ => rfl

namespace TypeDef

/-- The surface tree that the printer writes down for a definition. -/
def spell (d : TypeDef) : Surface.Def := ⟨.ofNames d.params, d.name, d.annots.groups, d.body.spell⟩

theorem Writable.interpretedBy {d : TypeDef} (h : d.Writable) {u : TypeExpr}
    (hu : u ∈ d.body.subterms) : u.InterpretedBy .grouping := by
  match u, hu with
  | .tuple [] a, hu => exact absurd (h.wide [] a hu) (by simp)
  | .tuple [t] a, hu => exact absurd (h.wide [t] a hu) (by simp)
  | .tuple (_ :: _ :: _) _, _ => trivial
  | .named _ [] _, _ => rfl
  | .named _ (_ :: _) _, _ => trivial
  | .sum _ _, _ | .record _ _, _ | .container _ _ _, _ | .var _ _, _ => trivial

/-- The tree of a definition stands for the definition. -/
theorem Writable.meaning_spell {d : TypeDef} (h : d.Writable) : d.spell.meaning = d := by
  have hbody : d.body.spell.meaning.normalize = d.body := by
    rw [Expr.meaning_eq_interpret, TypeExpr.interpret_spell fun u hu => h.interpretedBy hu,
      TypeExpr.normalize_eq_self h.normal]
  simp [Surface.Def.meaning, spell, Params.meaning_ofNames, hbody]

/-! ## The text of a definition -/

theorem words_renderParams {params : List String} (h : ∀ param ∈ params, IsVariable param)
    (rest : List Char) : Lexer.words ((renderParams params).toList ++ rest) =
      (Params.ofNames params).tokens.map some ++ Lexer.words rest := by
  match params with
  | [] => rfl
  | [param] =>
    have hvar := Lexer.words_var (h param (List.mem_singleton_self param))
      (stops_cons.2 rfl : Stops (' ' :: rest))
    rw [Lexer.words_blank (c := ' ') rfl] at hvar
    simpa [renderParams, Params.ofNames, Params.tokens] using hvar
  | first :: second :: others =>
    have hclose : Lexer.words (')' :: ' ' :: rest) =
        some (.mark .rightParen) :: Lexer.words rest := by
      rw [Lexer.words_sign (m := .rightParen) rfl, Lexer.words_blank rfl]
    have hopen : ∀ tail, Lexer.words ('(' :: tail) = some (.mark .leftParen) :: Lexer.words tail :=
      fun tail => Lexer.words_sign rfl tail
    have hparam : ∀ param ∈ first :: second :: others, ∀ rest, Stops rest →
        Scanner.plain.read .plain (('\'' :: param.toList) ++ rest) =
          [Token.var param].map some ++ Scanner.plain.read .plain rest :=
      fun param hparam _ hstop => Lexer.words_var (h param hparam) hstop
    have hlist := Scanner.plain.read_separated Scanner.plain.read_comma hparam
      (stops_cons.2 rfl : Stops (')' :: ' ' :: rest))
    simp only [Scanner.plain_read, hclose] at hlist
    simp only [List.map_cons, intercalate_cons] at hlist
    simp only [renderParams, Params.ofNames, Params.tokens, String.toList_append,
      String.toList_intercalate, List.map_map, List.map_cons, intercalate_cons]
    simpa [hopen, List.flatMap_map, Function.comp_def] using hlist

/-- The text of a definition gives the tokens of its tree. -/
theorem Writable.words_render {d : TypeDef} (h : d.Writable) {rest : List Char} (hrest : Stops rest) :
    Lexer.words (d.render.toList ++ rest) = d.spell.tokens.map some ++ Lexer.words rest := by
  have hbody := Scanner.plain.read_render h.body
    (fun a ha => absurd (h.wide [] a ha) (by simp)) rest hrest
  have hequals : ∀ tail, Lexer.words (" = ".toList ++ tail) =
      some (.mark .equals) :: Lexer.words tail := by
    intro tail
    show Lexer.words (' ' :: '=' :: ' ' :: tail) = _
    rw [Lexer.words_blank rfl, Lexer.words_sign (m := .equals) rfl, Lexer.words_blank rfl]
  have hstop : ∀ tail, Stops (" = ".toList ++ tail) := fun tail => stops_cons.2 rfl
  have hannots := Scanner.plain.read_annots h.annots (hstop (d.body.render.toList ++ rest))
  have hname := Lexer.words_word h.name.1
    (Scanner.stops_annots d.annots (hstop (d.body.render.toList ++ rest)))
  have htype : ∀ tail, Lexer.words ("type ".toList ++ tail) =
      some (.mark .type) :: Lexer.words tail := by
    intro tail
    have hword := Lexer.words_word (by decide : IsIdentifier "type")
      (stops_cons.2 rfl : Stops (' ' :: tail))
    rw [Lexer.words_blank rfl] at hword
    exact hword
  simp only [Scanner.plain_read] at hbody hannots
  simp only [render, String.toList_append, List.append_assoc]
  rw [htype, words_renderParams h.params, hname, h.name.ofWord, hannots, hequals, hbody]
  simp [spell, Surface.Def.tokens]

/-- The text of a list of definitions gives the tokens of their trees. -/
theorem words_renderAll {defs : List TypeDef} (h : ∀ d ∈ defs, d.Writable) :
    Lexer.words (renderAll defs).toList = ((defs.map spell).flatMap Surface.Def.tokens).map some := by
  induction defs with
  | nil => rfl
  | cons d rest ih =>
    obtain ⟨hd, hrest⟩ := List.forall_mem_cons.1 h
    have hline : (renderAll (d :: rest)).toList =
        d.render.toList ++ '\n' :: (renderAll rest).toList := by
      simp [renderAll]
    rw [hline, hd.words_render (stops_cons.2 rfl), Lexer.words_blank rfl, ih hrest]
    simp

end TypeDef

namespace Source

theorem map_definition_locate (defs : List Surface.Def) (lexemes : List Lexeme) :
    (locate defs lexemes).map Item.definition = defs.map Surface.Def.meaning := by
  induction defs generalizing lexemes with
  | nil => rfl
  | cons d rest ih => simp [locate, ih]

/-- The text of writable definitions is read without an error, as their trees. -/
theorem parse_text {defs : List TypeDef} (h : ∀ d ∈ defs, d.Writable) :
    parse (TypeDef.renderAll defs) =
      ⟨[], .ok (locate (defs.map TypeDef.spell) (Lexed.ofSource (TypeDef.renderAll defs)).lexemes)⟩ := by
  have hwords := TypeDef.words_renderAll h
  have hunmatched : (Lexed.ofSource (TypeDef.renderAll defs)).unmatched = [] := by
    rw [Lexed.unmatched_ofSource_eq_nil_iff, hwords]
    simp
  have htokens : (Lexed.ofSource (TypeDef.renderAll defs)).tokens =
      (defs.map TypeDef.spell).flatMap Surface.Def.tokens := by
    rw [Lexed.tokens_ofSource, hwords]
    simp
  simp only [parse, hunmatched, htokens, parse_tokens]

/-- The trees of writable definitions stand for the definitions, wherever they are. -/
theorem definitions_locate {defs : List TypeDef} (h : ∀ d ∈ defs, d.Writable) (lexemes : List Lexeme) :
    (locate (defs.map TypeDef.spell) lexemes).map Item.definition = defs := by
  rw [map_definition_locate, List.map_map]
  exact (List.map_congr_left fun d hd => (h d hd).meaning_spell).trans (List.map_id defs)

/-- Reading undoes writing: definitions that a source text can contain are read back, in order, from
their printed form, and nothing in the printed form is an error. -/
theorem parse_renderAll {defs : List TypeDef} (h : ∀ d ∈ defs, d.Writable) :
    ∃ items, parse (TypeDef.renderAll defs) = ⟨[], .ok items⟩ ∧
      items.map Item.definition = defs :=
  ⟨_, parse_text h, definitions_locate h _⟩

/-- Two parameters, every compound form, and a quoted value with a quote, a backslash, a line feed and
the sign of a comment in it. -/
def table : TypeDef where
  name := "table"
  params := ["k", "v"]
  annots := .ofList [⟨"doc", "note", some "a \"b\" \\ \n # é"⟩]
  body := .record [.labelled "rows" (.container .list (.tuple [.var "k" ∅, .var "v" ∅] ∅) ∅),
    .inherit (.named "base" [.sum [] ∅] (.ofList [⟨"doc", "open", none⟩]))] ∅

theorem table_writable : table.Writable where
  name := by decide
  params := by decide
  annots := by decide
  body := ⟨by decide, by decide, by decide⟩
  wide items a h := by
    simp [table, TypeExpr.subterms_eq, TypeExpr.children, Field.type] at h
    obtain ⟨rfl, rfl⟩ := h
    decide
  normal name args a h := by
    simp [table, TypeExpr.subterms_eq, TypeExpr.children, Field.type] at h
    obtain ⟨rfl, rfl, rfl⟩ := h
    decide

theorem parse_renderAll_table : table.Writable ∧
    ∃ items, parse (TypeDef.renderAll [table]) = ⟨[], .ok items⟩ ∧
      items.map Item.definition = [table] :=
  ⟨table_writable, parse_renderAll fun _ h => List.mem_singleton.1 h ▸ table_writable⟩

end Source

end Monomorph
