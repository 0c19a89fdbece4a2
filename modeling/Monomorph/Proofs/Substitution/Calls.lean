import Monomorph.Proofs.Expansion.Parts

/-!
# The calls of an instantiator

An instantiator can have a state and can fail, so what it returns for one call may depend on all calls before
it. `Settles` says what an expression becomes where it answers them in whatever way: a list of visits, one for
each node and parts before the whole, tells what becomes of the node's children and of the node itself. The
calls are read off the visits, at the applications and containers with a part other than a variable.

`Instantiator.recorded` keeps a record of the calls that are made. `Obeys` relates what is recorded to the
visits that are possible; it passes through sequences and lists, and `obeys_substitute` goes through an
expression. A failure ends the record with the failed call: whatever that call had returned instead, the calls
up to it would have been the same.
-/

namespace Monomorph

/-- A call of an instantiator that can fail, and what it comes to. -/
abbrev Reply (ε : Type) := Use × Except ε TypeExpr

/-- Keep a record of the calls of an instantiator. -/
def Instantiator.recorded {ε σ : Type} (instantiate : Instantiator (ExceptT ε (StateM σ))) :
    Instantiator (ExceptT ε (StateM (σ × List (Reply ε)))) := fun name args a =>
  ExceptT.mk fun (s, log) =>
    let (reply, s) := (instantiate name args a).run.run s
    (reply, (s, log ++ [(⟨name, args, a⟩, reply)]))

/-- A node without its children. -/
def TypeExpr.outline (t : TypeExpr) : TypeExpr := t.mapChildren fun _ => default

/-- A node of an expression, what becomes of its children, and what becomes of the node. -/
structure Visit where
  node : TypeExpr
  parts : List TypeExpr
  value : TypeExpr

namespace Visit

/-- The call that is made for a node: for an application or a container, if not all that its arguments have
become are variables. -/
def call? (v : Visit) : Option Use :=
  match v.node with
  | .container kind _ a => if v.parts.all TypeExpr.isVar then none else some ⟨kind.name, v.parts, a⟩
  | .named name _ a => if v.parts.all TypeExpr.isVar then none else some ⟨name, v.parts, a⟩
  | _ => none

/-- The call with what is returned for it. -/
def reply? (v : Visit) : Option (Use × TypeExpr) := v.call?.map (·, v.value)

/-- What becomes of a node for which no call is made: a variable is replaced, and every other node is kept
above what has become of its children. -/
structure Lawful (env : Environment) (v : Visit) : Prop where
  bound : ∀ name a, v.node = .var name a → v.value = env.occurrence name a
  kept : v.node.var? = none → v.call? = none →
    v.value.outline = v.node.outline ∧ v.value.children = v.parts

/-- The calls of some visits, with what is returned for them. -/
def replies (visits : List Visit) : List (Use × TypeExpr) := visits.filterMap reply?

@[simp] theorem replies_append (visits more : List Visit) :
    replies (visits ++ more) = replies visits ++ replies more := List.filterMap_append

/-- No call has nothing but variables for arguments. -/
theorem not_all_isVar_of_call? {v : Visit} {call : Use} (h : v.call? = some call) :
    call.args.all TypeExpr.isVar = false := by
  unfold call? at h
  split at h
  · split at h
    · cases h
    · next hopen =>
      obtain rfl := Option.some.inj h
      exact Bool.eq_false_iff.2 hopen
  · split at h
    · cases h
    · next hopen =>
      obtain rfl := Option.some.inj h
      exact Bool.eq_false_iff.2 hopen
  · cases h

end Visit

/-- The items of a list are visited in order, and each of them comes to something. -/
inductive Each {α β : Type} (R : α → List Visit → β → Prop) : List α → List Visit → List β → Prop
  | nil : Each R [] [] []
  | cons {x : α} {y : β} {items : List α} {values : List β} {visits more : List Visit}
      (head : R x visits y) (tail : Each R items more values) :
      Each R (x :: items) (visits ++ more) (y :: values)

namespace Each

variable {α β : Type} {R : α → List Visit → β → Prop}

theorem single {x : α} {visits : List Visit} {y : β} (h : R x visits y) : Each R [x] visits [y] := by
  rw [← List.append_nil visits]
  exact .cons h .nil

theorem append {items rest : List α} {visits more : List Visit} {values others : List β}
    (h : Each R items visits values) (h' : Each R rest more others) :
    Each R (items ++ rest) (visits ++ more) (values ++ others) := by
  induction h with
  | nil => exact h'
  | cons head _ ih =>
    rw [List.append_assoc]
    exact .cons head ih

theorem length_eq {items : List α} {visits : List Visit} {values : List β} (h : Each R items visits values) :
    values.length = items.length := by
  induction h with
  | nil => rfl
  | cons _ _ ih => rw [List.length_cons, List.length_cons, ih]

/-- Items that hold lists of parts, in a frame that stays: the parts of all items are visited in order. -/
theorem parts {γ δ ι : Type} {frame : γ → ι} {parts : γ → List α} {parts' : δ → List β} {frame' : δ → ι}
    {items : List γ} {visits : List Visit} {values : List δ}
    (h : Each (fun x visits y => frame' y = frame x ∧ Each R (parts x) visits (parts' y)) items visits values) :
    values.map frame' = items.map frame ∧ Each R (items.flatMap parts) visits (values.flatMap parts') := by
  induction h with
  | nil => exact ⟨rfl, .nil⟩
  | cons head _ ih =>
    refine ⟨?_, head.2.append ih.2⟩
    rw [List.map_cons, List.map_cons, head.1, ih.1]

end Each

/-- An expression becomes another one by way of some visits. -/
inductive Settles (env : Environment) : TypeExpr → List Visit → TypeExpr → Prop
  | node {v : Visit} {before : List Visit}
      (parts : Each (Settles env) v.node.children before v.parts) (lawful : v.Lawful env) :
      Settles env v.node (before ++ [v]) v.value

theorem Each.map_node {α β : Type} {R : α → List Visit → β → Prop} {nodes : α → List TypeExpr}
    {items : List α} {values : List β} {visits : List Visit} (h : Each R items visits values)
    (hR : ∀ x ∈ items, ∀ {visits y}, R x visits y → visits.map Visit.node = nodes x) :
    visits.map Visit.node = items.flatMap nodes := by
  induction h with
  | nil => rfl
  | cons head _ ih =>
    obtain ⟨hx, hrest⟩ := List.forall_mem_cons.1 hR
    rw [List.map_append, hx head, ih hrest, List.flatMap_cons]

/-- Each node of an expression is visited once, parts before the whole. -/
theorem Settles.map_node {env : Environment} {t value : TypeExpr} {visits : List Visit}
    (h : Settles env t visits value) : visits.map Visit.node = t.postorder := by
  induction t using TypeExpr.children_induct generalizing visits value with
  | node t ih =>
    cases h with
    | node parts _ =>
      rw [List.map_append, parts.map_node fun c hc _ _ h => ih c hc h, TypeExpr.postorder_eq]
      rfl

/-! ## Records of calls -/

/-- How an action ends that is run with a record of its calls, and without one. What is recorded are the
calls of possible visits, all of them if the action returns; if not, the last one has failed, and whatever it
had returned instead, there are possible visits with the calls up to it. -/
inductive Recorded {ε σ α : Type} (P : List Visit → α → Prop) (log : List (Reply ε)) :
    Except ε α × σ × List (Reply ε) → Except ε α × σ → Prop
  | done {visits : List Visit} {value : α} {s : σ} (possible : P visits value) :
      Recorded P log (.ok value, s, log ++ (Visit.replies visits).map (Prod.map id .ok)) (.ok value, s)
  | failed {before : List (Use × TypeExpr)} {call : Use} {e : ε} {s : σ}
      (possible : ∀ answer, ∃ visits value, P visits value ∧
        before ++ [(call, answer)] <+: Visit.replies visits) :
      Recorded P log (.error e, s, log ++ before.map (Prod.map id .ok) ++ [(call, .error e)]) (.error e, s)

/-- An action is the same with a record of its calls and without one, and the record agrees with possible
visits. Some answers let the action return. -/
structure Obeys {ε σ α : Type} (recorded : ExceptT ε (StateM (σ × List (Reply ε))) α)
    (action : ExceptT ε (StateM σ) α) (P : List Visit → α → Prop) : Prop where
  possible : ∃ visits value, P visits value
  run : ∀ s log, Recorded P log (recorded.run.run (s, log)) (action.run.run s)

theorem run_bind {ε σ α β : Type} (x : ExceptT ε (StateM σ) α) (f : α → ExceptT ε (StateM σ) β) (s : σ) :
    (x >>= f).run.run s =
      match x.run.run s with
      | (.ok a, s) => (f a).run.run s
      | (.error e, s) => (.error e, s) := by
  rw [ExceptT.run_bind, StateT.run_bind]
  rcases x.run.run s with ⟨_ | _, _⟩ <;> rfl

namespace Obeys

variable {ε σ α β : Type}

theorem pure {value : α} {P : List Visit → α → Prop} {visits : List Visit} (h : P visits value)
    (hreplies : Visit.replies visits = []) :
    Obeys (ε := ε) (σ := σ) (Pure.pure value) (Pure.pure value) P where
  possible := ⟨visits, value, h⟩
  run s log := by
    have hdone := @Recorded.done ε σ α P log visits value s h
    rw [hreplies, List.map_nil, List.append_nil] at hdone
    exact hdone

/-- Nothing is visited, and no call is made. -/
theorem idle {value : α} {P : List Visit → α → Prop} (h : P [] value) :
    Obeys (ε := ε) (σ := σ) (Pure.pure value) (Pure.pure value) P := pure h rfl

theorem bind {recorded : ExceptT ε (StateM (σ × List (Reply ε))) α} {action : ExceptT ε (StateM σ) α}
    {P : List Visit → α → Prop} (h : Obeys recorded action P)
    {recordedNext : α → ExceptT ε (StateM (σ × List (Reply ε))) β} {next : α → ExceptT ε (StateM σ) β}
    {Q : List Visit → β → Prop}
    (hnext : ∀ {visits value}, P visits value →
      Obeys (recordedNext value) (next value) fun more => Q (visits ++ more)) :
    Obeys (recorded >>= recordedNext) (action >>= next) Q where
  possible := by
    obtain ⟨visits, value, hP⟩ := h.possible
    obtain ⟨more, result, hQ⟩ := (hnext hP).possible
    exact ⟨visits ++ more, result, hQ⟩
  run s log := by
    have hrun := h.run s log
    rw [run_bind, run_bind]
    generalize recorded.run.run (s, log) = withRecord at hrun ⊢
    generalize action.run.run s = without at hrun ⊢
    cases hrun with
    | @failed before call e s possible =>
      refine .failed fun answer => ?_
      obtain ⟨visits, value, hP, hprefix⟩ := possible answer
      obtain ⟨more, result, hQ⟩ := (hnext hP).possible
      refine ⟨visits ++ more, result, hQ, ?_⟩
      rw [Visit.replies_append]
      exact hprefix.trans (List.prefix_append _ _)
    | @done visits value s possible =>
      have hrest := (hnext possible).run s (log ++ (Visit.replies visits).map (Prod.map id .ok))
      dsimp only
      generalize (recordedNext value).run.run _ = withRecord at hrest ⊢
      generalize (next value).run.run s = without at hrest ⊢
      cases hrest with
      | @done more result s possible' =>
        rw [List.append_assoc, ← List.map_append, ← Visit.replies_append]
        exact .done possible'
      | @failed before call e s possible' =>
        rw [List.append_assoc log, ← List.map_append]
        refine .failed fun answer => ?_
        obtain ⟨more, result, hQ, hprefix⟩ := possible' answer
        refine ⟨visits ++ more, result, hQ, ?_⟩
        rw [Visit.replies_append, List.append_assoc]
        exact (List.prefix_append_right_inj _).2 hprefix

/-- Items are visited in order. -/
theorem mapM {act : α → ExceptT ε (StateM (σ × List (Reply ε))) β} {act' : α → ExceptT ε (StateM σ) β}
    {R : α → List Visit → β → Prop} {items : List α} (h : ∀ x ∈ items, Obeys (act x) (act' x) (R x)) :
    Obeys (items.mapM act) (items.mapM act') (Each R items) := by
  induction items with
  | nil => exact pure .nil rfl
  | cons x rest ih =>
    obtain ⟨hx, hrest⟩ := List.forall_mem_cons.1 h
    rw [List.mapM_cons, List.mapM_cons]
    refine hx.bind fun hhead => (ih hrest).bind fun htail => ?_
    exact idle (by rw [List.append_nil]; exact .cons hhead htail)

/-- A call is recorded, and its answer is what becomes of the node. -/
theorem call (instantiate : Instantiator (ExceptT ε (StateM σ))) {u : Use} {P : List Visit → TypeExpr → Prop}
    {visit : TypeExpr → Visit} (hcall : ∀ answer, (visit answer).reply? = some (u, answer))
    (hP : ∀ answer, P [visit answer] answer) :
    Obeys (instantiate.recorded u.generic u.args u.annots) (instantiate u.generic u.args u.annots) P where
  possible := ⟨_, default, hP default⟩
  run s log := by
    have hreplies : ∀ answer, Visit.replies [visit answer] = [(u, answer)] := fun answer => by
      rw [Visit.replies, List.filterMap_cons, hcall answer, List.filterMap_nil]
    have hrecorded : (instantiate.recorded u.generic u.args u.annots).run.run (s, log) =
      (((instantiate u.generic u.args u.annots).run.run s).1,
        ((instantiate u.generic u.args u.annots).run.run s).2,
        log ++ [(u, ((instantiate u.generic u.args u.annots).run.run s).1)]) := rfl
    rw [hrecorded]
    rcases (instantiate u.generic u.args u.annots).run.run s with ⟨e | answer, s'⟩
    · have hfailed := @Recorded.failed _ _ _ P log [] u e s'
        fun answer => ⟨_, answer, hP answer, by rw [hreplies]; exact List.prefix_refl _⟩
      rw [List.map_nil, List.append_nil] at hfailed
      exact hfailed
    · have hdone := @Recorded.done ε _ _ P log _ _ s' (hP answer)
      rw [hreplies] at hdone
      exact hdone

end Obeys

/-! ## Substitution -/

namespace Settles

variable {env : Environment} {before : List Visit}

/-- A node for which no call is made stays above what becomes of its children. -/
theorem kept {t value : TypeExpr} (hparts : Each (Settles env) t.children before value.children)
    (houtline : value.outline = t.outline) (hvar : t.var? = none) :
    Settles env t (before ++ [⟨t, value.children, value⟩]) value := by
  refine .node (v := ⟨t, value.children, value⟩) hparts ⟨fun name a heq => ?_, fun _ _ => ⟨houtline, rfl⟩⟩
  change t = _ at heq
  rw [heq] at hvar
  cases hvar

/-- A node for which a call is made becomes the answer, whatever it is. -/
theorem called {v : Visit} {call : Use} (hparts : Each (Settles env) v.node.children before v.parts)
    (hcall : v.call? = some call) : Settles env v.node (before ++ [v]) v.value := by
  refine .node hparts ⟨fun name a heq => ?_, fun _ hnone => ?_⟩
  · rw [Visit.call?, heq] at hcall
    cases hcall
  · rw [hnone] at hcall
    cases hcall

theorem replaced (name : String) (a : Annots) :
    Settles env (.var name a) [⟨.var name a, [], env.occurrence name a⟩] (env.occurrence name a) := by
  refine @Settles.node env ⟨.var name a, [], env.occurrence name a⟩ [] .nil ⟨?_, nofun⟩
  intro name' a' heq
  obtain ⟨rfl, rfl⟩ := TypeExpr.var.inj heq
  rfl

end Settles

section Substitution

variable {ε σ : Type} (instantiate : Instantiator (ExceptT ε (StateM σ))) {env : Environment}

theorem obeys_variant {v : Variant TypeExpr} (h : ∀ t ∈ v.payload,
      Obeys (t.substitute instantiate.recorded env) (t.substitute instantiate env) (Settles env t)) :
    Obeys (v.mapM (TypeExpr.substitute instantiate.recorded env)) (v.mapM (TypeExpr.substitute instantiate env))
      fun visits v' => v'.map (fun _ => default) = v.map (fun _ => (default : TypeExpr)) ∧
        Each (Settles env) v.payload.toList visits v'.payload.toList := by
  obtain ⟨tag, payload⟩ := v
  cases payload with
  | none => exact .idle ⟨rfl, .nil⟩
  | some t =>
    refine (h t rfl).bind fun hsettles => .idle ⟨rfl, ?_⟩
    rw [List.append_nil]
    exact .single hsettles

theorem obeys_field {f : Field TypeExpr}
    (h : Obeys (f.type.substitute instantiate.recorded env) (f.type.substitute instantiate env)
      (Settles env f.type)) :
    Obeys (f.mapM (TypeExpr.substitute instantiate.recorded env)) (f.mapM (TypeExpr.substitute instantiate env))
      fun visits f' => f'.map (fun _ => default) = f.map (fun _ => (default : TypeExpr)) ∧
        Each (Settles env) [f.type] visits [f'.type] := by
  cases f <;>
  · refine h.bind fun hsettles => .idle ⟨rfl, ?_⟩
    rw [List.append_nil]
    exact .single hsettles

theorem obeys_container {kind : ContainerKind} {element element' : TypeExpr} {a : Annots}
    {before : List Visit} (h : Settles env element before element') :
    Obeys (if element'.isVar then pure (.container kind element' a)
        else instantiate.recorded kind.name [element'] a)
      (if element'.isVar then pure (.container kind element' a) else instantiate kind.name [element'] a)
      fun visits => Settles env (.container kind element a) (before ++ visits) := by
  have hcall : ∀ answer, Visit.call? ⟨.container kind element a, [element'], answer⟩ =
      if element'.isVar then none else some ⟨kind.name, [element'], a⟩ := fun answer => by
    simp [Visit.call?]
  cases hvar : element'.isVar with
  | true =>
    refine .pure (.kept (.single h) rfl rfl) ?_
    simp [Visit.replies, Visit.reply?, TypeExpr.children, hcall, hvar]
  | false =>
    simp only [hvar] at hcall
    exact .call instantiate (u := ⟨kind.name, [element'], a⟩) (fun answer => by simp [Visit.reply?, hcall])
      fun answer => .called (.single h) (hcall answer)

theorem obeys_named {name : String} {args args' : List TypeExpr} {a : Annots} {before : List Visit}
    (h : Each (Settles env) args before args') :
    Obeys (if args'.all TypeExpr.isVar then pure (.named name args' a)
        else instantiate.recorded name args' a)
      (if args'.all TypeExpr.isVar then pure (.named name args' a) else instantiate name args' a)
      fun visits => Settles env (.named name args a) (before ++ visits) := by
  have hcall : ∀ answer, Visit.call? ⟨.named name args a, args', answer⟩ =
      if args'.all TypeExpr.isVar then none else some ⟨name, args', a⟩ := fun _ => rfl
  cases hvar : args'.all TypeExpr.isVar with
  | true =>
    have houtline : (TypeExpr.named name args' a).outline = (TypeExpr.named name args a).outline := by
      simp [TypeExpr.outline, TypeExpr.mapChildren, h.length_eq]
    refine .pure (.kept h houtline rfl) ?_
    simp [Visit.replies, Visit.reply?, TypeExpr.children, hcall, hvar]
  | false =>
    simp only [hvar] at hcall
    exact .call instantiate (u := ⟨name, args', a⟩) (fun answer => by simp [Visit.reply?, hcall])
      fun answer => .called h (hcall answer)

/-- Substitution calls the instantiator as the visits of an expression say. -/
theorem obeys_substitute (t : TypeExpr) :
    Obeys (t.substitute instantiate.recorded env) (t.substitute instantiate env) (Settles env t) := by
  induction t with
  | sum variants a ih =>
    rw [TypeExpr.substitute_sum, TypeExpr.substitute_sum]
    refine (Obeys.mapM fun v hv => obeys_variant instantiate (ih v hv)).bind fun h => ?_
    obtain ⟨houtline, hparts⟩ := h.parts
    rw [← List.filterMap_eq_flatMap_toList, ← List.filterMap_eq_flatMap_toList] at hparts
    exact .pure (.kept hparts (congrArg (TypeExpr.sum · a) houtline) rfl) rfl
  | record fields a ih =>
    rw [TypeExpr.substitute_record, TypeExpr.substitute_record]
    refine (Obeys.mapM fun f hf => obeys_field instantiate (ih f hf)).bind fun h => ?_
    obtain ⟨houtline, hparts⟩ := h.parts
    rw [← List.map_eq_flatMap, ← List.map_eq_flatMap] at hparts
    exact .pure (.kept hparts (congrArg (TypeExpr.record · a) houtline) rfl) rfl
  | tuple items a ih =>
    rw [TypeExpr.substitute_tuple, TypeExpr.substitute_tuple]
    refine (Obeys.mapM ih).bind fun {before items'} h => ?_
    have houtline : (TypeExpr.tuple items' a).outline = (TypeExpr.tuple items a).outline := by
      simp [TypeExpr.outline, TypeExpr.mapChildren, h.length_eq]
    exact .pure (.kept h houtline rfl) rfl
  | container kind element a ih =>
    rw [TypeExpr.substitute_container, TypeExpr.substitute_container]
    exact ih.bind fun h => obeys_container instantiate h
  | var name a =>
    rw [TypeExpr.substitute_var, TypeExpr.substitute_var]
    exact .pure (.replaced name a) rfl
  | named name args a ih =>
    rw [TypeExpr.substitute_named, TypeExpr.substitute_named]
    exact (Obeys.mapM ih).bind fun h => obeys_named instantiate h

/-- What is recorded of the calls while an expression becomes a result: no call has nothing but variables for
arguments, and the calls are those of visits of the nodes of the expression, in the order of the nodes. -/
structure CallsInOrder (env : Environment) (t : TypeExpr) (log : List (Reply ε))
    (result : Except ε TypeExpr) : Prop where
  concrete : ∀ reply ∈ log, reply.1.args.all TypeExpr.isVar = false
  /-- If the result is an expression, all calls of the visits are made, and all of them succeed. -/
  returned : ∀ value, result = .ok value → ∃ visits, Settles env t visits value ∧
    visits.map Visit.node = t.postorder ∧ log = (Visit.replies visits).map (Prod.map id .ok)
  /-- If the result is an error, it is that of the last call that is made. Whatever this call had returned
  instead, the calls are the first ones of some visits. -/
  failed : ∀ e, result = .error e → ∃ before call,
    log = before.map (Prod.map id .ok) ++ [(call, .error e)] ∧
    ∀ answer, ∃ visits value, Settles env t visits value ∧
      visits.map Visit.node = t.postorder ∧ before ++ [(call, answer)] <+: Visit.replies visits

theorem Visit.concrete_of_mem_replies {visits : List Visit} {reply : Use × TypeExpr}
    (h : reply ∈ Visit.replies visits) : reply.1.args.all TypeExpr.isVar = false := by
  obtain ⟨v, -, hreply⟩ := List.mem_filterMap.1 h
  obtain ⟨call, hcall, rfl⟩ := Option.map_eq_some_iff.1 hreply
  exact Visit.not_all_isVar_of_call? hcall

/-- A record that agrees with possible visits of an expression. -/
theorem Recorded.callsInOrder {t : TypeExpr} {s : σ} {log : List (Reply ε)} {result : Except ε TypeExpr}
    (h : Recorded (Settles env t) [] (result, s, log) (result, s)) : CallsInOrder env t log result := by
  cases h with
  | @done visits value _ possible =>
    refine ⟨fun reply hreply => ?_, fun value' heq => ?_, nofun⟩
    · obtain ⟨called, hcalled, rfl⟩ := List.mem_map.1 hreply
      exact Visit.concrete_of_mem_replies hcalled
    · obtain rfl := Except.ok.inj heq
      exact ⟨visits, possible, possible.map_node, rfl⟩
  | @failed before call e _ possible =>
    refine ⟨fun reply hreply => ?_, nofun, fun e' heq => ?_⟩
    · obtain ⟨visits, -, -, hprefix⟩ := possible default
      rw [List.nil_append, List.mem_append, List.mem_singleton] at hreply
      obtain hreply | rfl := hreply
      · obtain ⟨called, hcalled, rfl⟩ := List.mem_map.1 hreply
        exact Visit.concrete_of_mem_replies (List.IsPrefix.subset hprefix (List.mem_append_left _ hcalled))
      · exact @Visit.concrete_of_mem_replies _ (call, default)
          (List.IsPrefix.subset hprefix (List.mem_append_right _ List.mem_cons_self))
    · obtain rfl := Except.error.inj heq
      refine ⟨before, call, rfl, fun answer => ?_⟩
      obtain ⟨visits, value, hsettles, hprefix⟩ := possible answer
      exact ⟨visits, value, hsettles, hsettles.map_node, hprefix⟩

/-- Substitution is the same with a record of its calls, and the calls that it makes are recorded in order. -/
theorem TypeExpr.substitute_calls (env : Environment) (t : TypeExpr) (s : σ) : ∃ log,
    (t.substitute instantiate.recorded env).run.run (s, []) =
      (((t.substitute instantiate env).run.run s).1, ((t.substitute instantiate env).run.run s).2, log) ∧
    CallsInOrder env t log ((t.substitute instantiate env).run.run s).1 := by
  have hrun := (@obeys_substitute _ _ instantiate env t).run s []
  generalize (t.substitute instantiate.recorded env).run.run (s, []) = withRecord at hrun ⊢
  generalize (t.substitute instantiate env).run.run s = without at hrun ⊢
  obtain ⟨result, s', log⟩ := withRecord
  obtain ⟨rfl, rfl⟩ : without.1 = result ∧ without.2 = s' := by cases hrun <;> exact ⟨rfl, rfl⟩
  exact ⟨log, rfl, hrun.callsInOrder⟩

/-- Nested containers are called for from the inside out. -/
example : ((TypeExpr.container .list (.container .option (.atom "int") ∅) ∅).substitute
      (Instantiator.recorded fun name _ _ => (pure (.atom name) : ExceptT Unit (StateM Unit) TypeExpr))
      Environment.empty).run.run ((), []) =
    (.ok (.atom "list"), (), [(⟨"option", [.atom "int"], ∅⟩, .ok (.atom "option")),
      (⟨"list", [.atom "option"], ∅⟩, .ok (.atom "list"))]) := by
  rfl

end Substitution

end Monomorph
