import CommittedChoice.Proofs.OnDemand.Session
import CommittedChoice.Proofs.Wording

/-!
# On-demand runs that word their messages differently

What the on-demand engine works on is related part by part, and every operation of the engine keeps related what is. Both
runs take the same steps, so they take the same fuel.

- `Wording.Lates`, `Promises`, `Frames`, `Answers`, `Suspensions`: work that is the same in both runs but for messages;
- `Means.Worded`: means that do the same with it; so does then all that is made of them, up to the node of a list
  (`Means.Worded.computeNode`);
- `means_worded`, `means_worded_verdict`: the engine under settings that differ.
-/

namespace CommittedChoice

open OnDemand

namespace Wording

variable (W : Wording)

/-! ## Work -/

/-- Something late in both. -/
inductive Lates {α : Type} (A : α → α → Prop) : Late α → Late α → Prop
  | known {a b} : A a b → Lates A (.known a) (.known b)
  | later {act act'} : W.Acts A act act' → Lates A (.later act) (.later act')
  | mapped {l l' f f'} : Lates A l l' → (∀ a b, A a b → W.Acts A (f a) (f' b)) → Lates A (.mapped l f) (.mapped l' f')

/-- A success in both. -/
structure Promises (p p' : Promise) : Prop where
  rest : W.Lates (· = ·) p.rest p'.rest
  value : W.Lates (· = ·) p.value p'.value
  finish : Option.Rel (W.Lates W.Finishes) p.finish p'.finish

/-- What is done with an answer in both. -/
inductive Frames : Frame → Frame → Prop
  | bind {k k'} : (∀ v, W.Acts W.Parsers (k v) (k' v)) → Frames (.bind k) (.bind k')
  | map {f f'} : (∀ v, W.Acts (· = ·) (f v) (f' v)) → Frames (.map f) (.map f')
  | reword {f f'} : (∀ m m', W.messages m m' → W.Acts W.messages (f m) (f' m')) → Frames (.reword f) (.reword f')
  | restoring (state) : Frames (.restoring state) (.restoring state)
  | orElse {q q'} (z) : W.Parsers q q' → Frames (.orElse q z) (.orElse q' z)
  | loop {step step'} : (∀ v, W.Acts W.Parsers (step v) (step' v)) → Frames (.loop step) (.loop step')

mutual

/-- An answer in both. -/
inductive Answers : Answer → Answer → Prop
  | success {p p'} : W.Promises p p' → Answers (.success p) (.success p')
  | failure (z) {m m'} : W.messages m m' → Answers (.failure z m) (.failure z m')
  | committed {s s'} : Suspensions s s' → Answers (.committed s) (.committed s')

/-- Something suspended in both. -/
inductive Suspensions : Suspended → Suspended → Prop
  | ready {a a'} : Answers a a' → Suspensions (.ready a) (.ready a')
  | apply {p p'} (z) : W.Parsers p p' → Suspensions (.apply p z) (.apply p' z)
  | afresh {p p'} (z) : W.Parsers p p' → Suspensions (.afresh p z) (.afresh p' z)
  | after {act act' s s'} : W.Acts (· = ·) act act' → Suspensions s s' → Suspensions (.after act s) (.after act' s')
  | framed {s s' f f'} : Suspensions s s' → W.Frames f f' → Suspensions (.framed s f) (.framed s' f')

end

/-- An answer without its commitment in both. -/
inductive Settleds : Settled → Settled → Prop
  | success {p p'} : W.Promises p p' → Settleds (.success p) (.success p')
  | failure (z) {m m'} : W.messages m m' → Settleds (.failure z m) (.failure z m')

/-- What a turn of a loop leads to in both. -/
inductive Turns : Means.Turn → Means.Turn → Prop
  | finished {a a'} : W.Answers a a' → Turns (.finished a) (.finished a')
  | again (state z) : Turns (.again state z) (.again state z)

/-- A verdict in both. -/
inductive Verdicts : Verdict Context Value → Verdict Context Value → Prop
  | success (z v) : Verdicts (.success z v) (.success z v)
  | failure (z) {m m'} : W.messages m m' → Verdicts (.failure z m) (.failure z m')

variable {W}

theorem Answers.known (z : Context) (v : Value) : W.Answers (.known z v) (.known z v) :=
  .success ⟨.known rfl, .known rfl, .none⟩

theorem Promises.disclosed {p p' : Promise} (h : W.Promises p p') : W.Promises p.disclosed p'.disclosed :=
  ⟨h.rest, h.value, .none⟩

/-- A list is the same success in both. -/
theorem Answers.ofList (i : Nat) : W.Answers (.ofList i) (.ofList i) := by
  refine .success ⟨.later ?_, .known rfl, .some (.later ?_)⟩
  · exact .walk i fun _ _ _ h => .pure h.rest
  · exact .walk i fun _ _ _ h => .pure h.finish

/-- Changing the failures that a success may turn out to be. -/
theorem Promises.onFailure {p p' : Promise} (h : W.Promises p p') {f f' : Context → String → Act (Context × String)}
    (hf : ∀ z m m', W.messages m m' → W.Acts (fun x y => x.1 = y.1 ∧ W.messages x.2 y.2) (f z m) (f' z m')) :
    W.Promises (p.onFailure f) (p'.onFailure f') := by
  refine ⟨h.rest, h.value, ?_⟩
  have hfinish := h.finish
  show Option.Rel _ (p.finish.map _) (p'.finish.map _)
  generalize p.finish = l at hfinish ⊢
  generalize p'.finish = l' at hfinish ⊢
  cases hfinish with
  | none => exact .none
  | some hl =>
    refine .some (.mapped hl fun a b hab => ?_)
    cases hab with
    | plain => exact .pure .plain
    | committed => exact .pure .committed
    | failed z hm =>
      refine (hf z _ _ hm).bind fun x y hxy => ?_
      obtain ⟨z', m⟩ := x
      obtain ⟨_, m'⟩ := y
      obtain ⟨rfl, hm'⟩ := hxy
      exact .pure (.failed z' hm')

/-- The frame of a parser in both. -/
theorem Parsers.frame? (z : Context) {p p' : Parser} (h : W.Parsers p p') :
    (OnDemand.frame? z p = none ∧ OnDemand.frame? z p' = none) ∨
      ∃ q q' f f', OnDemand.frame? z p = some (q, f) ∧ OnDemand.frame? z p' = some (q', f') ∧
        W.Parsers q q' ∧ W.Frames f f' := by
  cases h with
  | map hp hf => exact .inr ⟨_, _, _, _, rfl, rfl, hp, .map hf⟩
  | bind S hp hk hS => exact .inr ⟨_, _, _, _, rfl, rfl, hp, .bind fun v => (hk v).mono hS⟩
  | orElse hp hq => exact .inr ⟨_, _, _, _, rfl, rfl, hp, .orElse z hq⟩
  | reword hp hf => exact .inr ⟨_, _, _, _, rfl, rfl, hp, .reword hf⟩
  | restoring hp => exact .inr ⟨_, _, _, _, rfl, rfl, hp, .restoring z.state⟩
  | _ => exact .inl ⟨rfl, rfl⟩

/-! ## New nodes -/

theorem Worlds.makeList {w w' : World} (hw : W.Worlds w w') {u u' : Unparsed} (h : W.Waits u u') :
    W.Worlds (Means.makeList u w).2 (Means.makeList u' w').2 := by
  refine ⟨hw.feed, hw.journal, hw.marks, hw.made, ?_, fun l k => ?_⟩
  · show (w.lists.push _).size = (w'.lists.push _).size
    rw [Array.size_push, Array.size_push, hw.size]
  · rw [World.nodesOf_makeList, World.nodesOf_makeList, ← hw.size]
    split
    · cases k with
      | zero => exact .some (.pending h)
      | succ k => exact .none
    · exact hw.cells l k

theorem Runs.makeList {u u' : Unparsed} (h : W.Waits u u') :
    W.Runs (· = ·) (Means.makeList u) (Means.makeList u') :=
  fun _ _ hw => .ok (congrArg (nodeNumber · 0) hw.size) (hw.makeList h)

theorem Runs.addNode (l : Nat) {u u' : Unparsed} (h : W.Waits u u') :
    W.Runs (· = ·) (Means.addNode l u) (Means.addNode l u') := by
  intro w w' hw
  refine .ok (congrArg (nodeNumber l) (hw.size_nodesOf l)) ⟨hw.feed, hw.journal, hw.marks, hw.made, ?_, fun l' k => ?_⟩
  · show (w.lists.modify l _).size = (w'.lists.modify l _).size
    rw [Array.size_modify, Array.size_modify, hw.size]
  · show Option.Rel _ ((Means.addNode l u w).2.nodesOf l')[k]? ((Means.addNode l u' w').2.nodesOf l')[k]?
    rw [World.nodesOf_addNode, World.nodesOf_addNode, ← hw.size]
    split
    · rw [Array.getElem?_push, Array.getElem?_push, ← hw.size_nodesOf l']
      split
      · exact .some (.pending h)
      · exact hw.cells l' k
    · exact hw.cells l' k

theorem Worlds.set {w w' : World} (hw : W.Worlds w w') (l k : Nat) {c c' : Cell Unparsed Node} (hc : W.Cells c c') :
    W.Worlds ((World.listNodes l).set k c w) ((World.listNodes l).set k c' w') := by
  refine ⟨hw.feed, hw.journal, hw.marks, hw.made, ?_, fun l' k' => ?_⟩
  · show (w.lists.modify l _).size = (w'.lists.modify l _).size
    rw [Array.size_modify, Array.size_modify, hw.size]
  · rw [World.nodesOf_set, World.nodesOf_set]
    split
    · rw [Array.getElem?_setIfInBounds, Array.getElem?_setIfInBounds, ← hw.size_nodesOf l']
      split
      · split
        · exact .some hc
        · exact .none
      · exact hw.cells l' k'
    · exact hw.cells l' k'

/-- A node is computed in both runs or in neither. -/
theorem Runs.force {l : Nat} {compute compute' : Unparsed → Run Node}
    (h : ∀ u u', W.Waits u u' → W.Runs W.Nodes (compute u) (compute' u')) (k : Nat) :
    W.Runs W.Nodes ((World.listNodes l).force compute (.fault .reentered) k)
      ((World.listNodes l).force compute' (.fault .reentered) k) := by
  intro w w' hw
  have hcell : Option.Rel W.Cells ((World.listNodes l).cells w)[k]? ((World.listNodes l).cells w')[k]? := hw.cells l k
  unfold Table.force
  generalize ((World.listNodes l).cells w)[k]? = c at hcell ⊢
  generalize ((World.listNodes l).cells w')[k]? = c' at hcell ⊢
  cases hcell with
  | none => exact .fault (.same _) hw
  | some hc =>
    cases hc with
    | forcing => exact .fault (.same _) hw
    | forced hx => exact .ok hx hw
    | @pending u u' hu =>
      have hcompute := h u u' hu _ _ (hw.set l k .forcing)
      dsimp only
      generalize compute u _ = r at hcompute ⊢
      generalize compute' u' _ = r' at hcompute ⊢
      cases hcompute with
      | ok hx hw₁ => exact .ok hx (hw₁.set l k (.forced hx))
      | fault he hw₁ => exact .fault he (hw₁.set l k (.pending hu))
      | outOfFuel w₁ w₁' => exact .outOfFuel _ _
      | overlong_left h w₁ r => exact .overlong_left h _ _
      | overlong_right h r w₁ => exact .overlong_right h _ _

end Wording

namespace OnDemand

variable {W : Wording}

/-! ## Means -/

variable (W) in
/-- Means that do the same with what is the same but for messages. -/
structure Means.Worded (m m' : Means) : Prop where
  grammar : ∀ name, W.Parsers (m.env.grammar name) (m'.env.grammar name)
  width : W.widths m.env.settings.indent m'.env.settings.indent
  stateful : m.env.stateful = m'.env.stateful
  node : ∀ i, W.Runs W.Nodes (m.lists.node i) (m'.lists.node i)
  walk : ∀ i, W.Runs (fun x y => x.1 = y.1 ∧ W.Stops x.2 y.2) (m.lists.walk i) (m'.lists.walk i)
  answer : ∀ {s s'}, W.Suspensions s s' → W.Runs W.Answers (m.answer s) (m'.answer s')

namespace Means.Worded

variable {m m' : Means} (h : m.Worded W m')

include h

theorem exec {α : Type} {A : α → α → Prop} {act act' : Act α} (hact : W.Acts A act act') :
    W.Runs A (m.exec act) (m'.exec act') := hact.runs h.width h.node h.walk

theorem late {α : Type} {A : α → α → Prop} {l l' : Late α} (hl : W.Lates A l l') : W.Runs A (m.late l) (m'.late l') := by
  induction hl with
  | known hab => exact .pure hab
  | later hact => rw [late_later, late_later]; exact h.exec hact
  | mapped _ hf ih => rw [late_mapped, late_mapped]; exact ih.bind fun a b hab => h.exec (hf a b hab)

theorem finish {p p' : Promise} (hp : W.Promises p p') : W.Runs W.Finishes (m.finish p) (m'.finish p') := by
  rw [finish_eq, finish_eq]
  have hfinish := hp.finish
  generalize p.finish = l at hfinish ⊢
  generalize p'.finish = l' at hfinish ⊢
  cases hfinish with
  | none => exact .pure .plain
  | some hl => exact h.late hl

theorem bindFinished {k k' : Value → Act Parser} (hk : ∀ v, W.Acts W.Parsers (k v) (k' v)) {p p' : Promise}
    (hp : W.Promises p p') {finish finish' : Finish} (hfinish : W.Finishes finish finish') :
    W.Runs W.Answers (m.bindFinished k p finish) (m'.bindFinished k' p' finish') := by
  cases hfinish with
  | plain =>
    refine (h.late hp.rest).bind fun z _ hz => (h.late hp.value).bind fun v _ hv => ?_
    subst hz hv
    exact (h.exec (hk v)).bind fun q q' hq => h.answer (.apply z hq)
  | committed => exact .pure (.committed (.framed (.ready (.success hp.disclosed)) (.bind hk)))
  | failed z hm => exact .pure (.committed (.ready (.failure z hm)))

theorem settlement : ∀ (fuel : Nat) {s s' : Suspended}, W.Suspensions s s' →
    W.Runs W.Settleds (m.settlement fuel s) (m'.settlement fuel s')
  | 0, _, _, _ => .outOfFuel
  | fuel + 1, s, s', hs => by
    rw [settlement_succ, settlement_succ]
    refine (h.answer hs).bind fun a a' ha => ?_
    cases ha with
    | success hp => exact .pure (.success hp)
    | failure z hm => exact .pure (.failure z hm)
    | committed hinner => exact settlement fuel hinner

theorem disclosure {t t' : Settled} (ht : W.Settleds t t') : W.Runs W.Settleds (m.disclosure t) (m'.disclosure t') := by
  cases ht with
  | failure z hm => exact .pure (.failure z hm)
  | success hp =>
    refine (h.finish hp).bind fun finish finish' hfinish => ?_
    cases hfinish with
    | failed z hm => exact .pure (.failure z hm)
    | plain => exact .pure (.success hp.disclosed)
    | committed => exact .pure (.success hp.disclosed)

/-! ### Loops -/

theorem turnValue {p p' : Promise} (hp : W.Promises p p') : W.Runs W.Turns (m.turnValue p) (m'.turnValue p') := by
  refine (h.late hp.value).bind fun v _ hv => ?_
  subst hv
  cases v.toStep with
  | done value => exact .pure (.finished (.success ⟨hp.rest, .known rfl, .none⟩))
  | again state => exact (h.late hp.rest).bind fun z _ hz => hz ▸ .pure (.again state z)

section Loop

variable {step step' : Value → Act Parser} (hstep : ∀ v, W.Acts W.Parsers (step v) (step' v))

include hstep

theorem turnFinished (committed : Bool) {p p' : Promise} (hp : W.Promises p p') {finish finish' : Finish}
    (hfinish : W.Finishes finish finish') :
    W.Runs W.Turns (m.turnFinished step committed p finish) (m'.turnFinished step' committed p' finish') := by
  cases hfinish with
  | plain => exact h.turnValue hp
  | committed =>
    cases committed with
    | true => exact h.turnValue hp
    | false => exact .pure (.finished (.committed (.framed (.ready (.success hp.disclosed)) (.loop hstep))))
  | failed z hm =>
    cases committed with
    | true => exact .pure (.finished (.failure z hm))
    | false => exact .pure (.finished (.committed (.ready (.failure z hm))))

theorem turnAnswer (fuel : Nat) (committed : Bool) {a a' : Answer} (ha : W.Answers a a') :
    W.Runs W.Turns (m.turnAnswer fuel step committed a) (m'.turnAnswer fuel step' committed a') := by
  cases ha with
  | failure z hm => exact .pure (.finished (.failure z hm))
  | success hp => exact (h.finish hp).bind fun _ _ hfinish => h.turnFinished hstep committed hp hfinish
  | committed hinner =>
    cases committed with
    | false => exact .pure (.finished (.committed (.framed hinner (.loop hstep))))
    | true =>
      refine (h.settlement fuel hinner).bind fun t t' ht => ?_
      cases ht with
      | failure z hm => exact .pure (.finished (.failure z hm))
      | success hp => exact (h.finish hp).bind fun _ _ hfinish => h.turnFinished hstep true hp hfinish

omit h hstep in
theorem afterTurn {next next' : Value → Context → Run Answer} (h : ∀ state z, W.Runs W.Answers (next state z) (next' state z))
    {t t' : Turn} (ht : W.Turns t t') : W.Runs W.Answers (Means.afterTurn next t) (Means.afterTurn next' t') := by
  cases ht with
  | finished ha => exact .pure ha
  | again state z => exact h state z

theorem turns (committed : Bool) : ∀ (fuel : Nat) (state : Value) (z : Context),
    W.Runs W.Answers (m.turns step committed fuel state z) (m'.turns step' committed fuel state z)
  | 0, _, _ => .outOfFuel
  | fuel + 1, state, z => by
    rw [turns_succ, turns_succ]
    exact (h.exec (hstep state)).bind fun p p' hp => (h.answer (.apply z hp)).bind fun a a' ha =>
      (h.turnAnswer hstep fuel committed ha).bind fun t t' => afterTurn (turns committed fuel)

end Loop

/-! ### Frames and primitives -/

theorem resumption (fuel : Nat) {f f' : Frame} (hf : W.Frames f f') {a a' : Answer} (ha : W.Answers a a') :
    W.Runs W.Answers (m.resumption fuel f a) (m'.resumption fuel f' a') := by
  cases hf with
  | bind hk =>
    cases ha with
    | success hp =>
      rw [resumption_bind_success, resumption_bind_success]
      exact (h.finish hp).bind fun _ _ hfinish => h.bindFinished hk hp hfinish
    | failure z hm => exact .pure (.failure z hm)
    | committed hinner => exact .pure (.committed (.framed hinner (.bind hk)))
  | map hf =>
    cases ha with
    | success hp => exact .pure (.success ⟨hp.rest, .mapped hp.value fun a _ hab => hab ▸ hf a, hp.finish⟩)
    | failure z hm => exact .pure (.failure z hm)
    | committed hinner => exact .pure (.committed (.framed hinner (.map hf)))
  | reword hf =>
    cases ha with
    | success hp =>
      exact .pure (.success (hp.onFailure fun z m m' hm => (hf m m' hm).bind fun _ _ hm' => .pure ⟨rfl, hm'⟩))
    | failure z hm =>
      rw [resumption_reword_failure, resumption_reword_failure]
      exact (h.exec (hf _ _ hm)).bind fun _ _ hm' => .pure (.failure z hm')
    | committed hinner => exact .pure (.committed (.framed hinner (.reword hf)))
  | restoring state =>
    cases ha with
    | success hp => exact .pure (.success (hp.onFailure fun z m m' hm => .pure ⟨rfl, hm⟩))
    | failure z hm => exact .pure (.failure _ hm)
    | committed hinner => exact .pure (.committed (.framed hinner (.restoring state)))
  | orElse z hq =>
    cases ha with
    | success hp => exact .pure (.success hp)
    | failure _ _ =>
      rw [resumption_orElse_failure, resumption_orElse_failure]
      exact h.answer (.apply z hq)
    | committed hinner => exact .pure (.committed hinner)
  | loop hstep =>
    rw [resumption_loop, resumption_loop]
    exact (h.turnAnswer hstep fuel true ha).bind fun t t' => afterTurn (h.turns hstep true fuel)

theorem alternatives (z : Context) {fs gs : List (String × String)}
    (hfs : List.Forall₂ (fun f g => f.1 = g.1 ∧ W.messages f.2 g.2) fs gs) {ps ps' : List (String × Parser)}
    (hps : List.Forall₂ (fun a b => a.1 = b.1 ∧ W.Parsers a.2 b.2) ps ps') :
    W.Runs W.Answers (m.alternatives z fs ps) (m'.alternatives z gs ps') := by
  induction hps generalizing fs gs with
  | nil => exact (Wording.Runs.report h.width (List.rel_reverse hfs)).bind fun _ _ hm => .pure (.failure z hm)
  | @cons a b ps ps' hab _ ih =>
    obtain ⟨label, p⟩ := a
    obtain ⟨_, p'⟩ := b
    obtain ⟨rfl, hp⟩ := hab
    refine (h.answer (.apply z hp)).bind fun a a' ha => ?_
    cases ha with
    | success hp => exact .pure (.success hp)
    | committed hinner => exact .pure (.committed hinner)
    | failure _ hm => exact (Wording.Runs.print _ _).bind fun _ _ _ => ih (.cons ⟨rfl, hm⟩ hfs)

theorem primitive (fuel : Nat) {p p' : Parser} (hp : W.Parsers p p') (z : Context) :
    W.Runs W.Answers (m.primitive fuel p z) (m'.primitive fuel p' z) := by
  have hparser : W.Suspensions (.apply p z) (.apply p' z) := .apply z hp
  cases hp with
  | pure v => exact .pure (.known z v)
  | fail hm => exact .pure (.failure z hm)
  | commit hp => exact .pure (.committed (.afresh z hp))
  | loop init S hstep hS => exact h.turns (fun v => (hstep v).mono hS) false fuel init z
  | choice S hps hS => exact h.alternatives z .nil (hps.imp fun a b hab => ⟨hab.1, hS _ _ hab.2⟩)
  | next =>
    refine (Wording.Runs.next? z.input).bind fun answer _ ha => ?_
    subst ha
    cases answer with
    | none => exact .pure (.failure z (W.refl _))
    | some x => exact .pure (.known _ _)
  | eof =>
    refine (Wording.Runs.next? z.input).bind fun answer _ ha => ?_
    subst ha
    cases answer with
    | none => exact .pure (.known _ _)
    | some x => exact .pure (.failure z (W.refl _))
  | satisfy htest =>
    refine (Wording.Runs.next? z.input).bind fun answer _ ha => ?_
    subst ha
    cases answer with
    | none => exact .pure (.failure z (W.refl _))
    | some x =>
      obtain ⟨t, rest⟩ := x
      refine (h.exec (htest t)).bind fun b _ hb => ?_
      subst hb
      cases b with
      | true => exact .pure (.known _ _)
      | false => exact (Wording.Runs.unexpected t).bind fun _ _ hm => .pure (.failure z (hm ▸ W.refl _))
  | pushBack ts => exact .pure (.known _ _)
  | position => exact .pure (.known _ _)
  | get => exact .pure (.known _ _)
  | put state => exact .pure (.known _ _)
  | @stream q q' hp =>
    have hu : W.Waits ⟨q, z, false⟩ ⟨q', z, false⟩ := ⟨hp, rfl, rfl⟩
    refine (Wording.Runs.makeList hu).bind fun i _ hi => ?_
    subst hi
    exact .pure (.ofList i)
  | rule name => exact h.answer (.apply z (h.grammar name))
  | map | bind | orElse | reword | restoring => exact h.answer hparser

/-! ### List nodes -/

section Nodes

variable (l : Nat) {u u' : Unparsed} (hu : W.Waits u u') (committed : Bool) {p p' : Promise} (hp : W.Promises p p')

include hu hp

theorem nodeValue : W.Runs W.Nodes (m.nodeValue l u committed p) (m'.nodeValue l u' committed p') := by
  refine (h.late hp.rest).bind fun z _ hz => ?_
  subst hz
  rw [← hu.start]
  split
  · refine .pure (.ended ⟨rfl, ?_⟩)
    cases committed with
    | true => exact .committed
    | false => exact .plain
  · refine (h.late hp.value).bind fun v _ hv => ?_
    subst hv
    have hnew : W.Waits ⟨u.item, z, committed⟩ ⟨u'.item, z, committed⟩ := ⟨hu.item, rfl, rfl⟩
    refine (Wording.Runs.addNode l hnew).bind fun next _ hnext => ?_
    subst hnext
    have hemit : m.emit v z next = m'.emit v z next := by
      unfold emit
      rw [h.stateful]
    rw [← hemit]
    exact .pure (.item _ _)

theorem nodeFinished {finish finish' : Finish} (hfinish : W.Finishes finish finish') :
    W.Runs W.Nodes (m.nodeFinished l u committed p finish) (m'.nodeFinished l u' committed p' finish') := by
  cases hfinish with
  | failed z hm => exact .pure (.ended ⟨hu.start, .failed z hm⟩)
  | plain => exact h.nodeValue l hu _ hp
  | committed => exact h.nodeValue l hu _ hp

omit hp

theorem computeNode (fuel : Nat) : W.Runs W.Nodes (m.computeNode fuel l u) (m'.computeNode fuel l u') := by
  rw [computeNode_eq, computeNode_eq, ← hu.start, ← hu.committed]
  refine (h.answer (.apply u.start hu.item)).bind fun a a' ha => ?_
  cases ha with
  | failure _ _ =>
    refine .pure (.ended ⟨rfl, ?_⟩)
    cases u.committed with
    | true => exact .committed
    | false => exact .plain
  | success hp => exact (h.finish hp).bind fun _ _ hfinish => h.nodeFinished l hu u.committed hp hfinish
  | committed hinner =>
    refine (h.settlement fuel hinner).bind fun t t' ht => ?_
    cases ht with
    | failure z hm => exact .pure (.ended ⟨rfl, .failed z hm⟩)
    | success hp => exact (h.finish hp).bind fun _ _ hfinish => h.nodeFinished l hu true hp hfinish

end Nodes

end Means.Worded

/-! ## The engine -/

theorem walk_worded {node node' : Nat → Run Node} (h : ∀ i, W.Runs W.Nodes (node i) (node' i)) :
    ∀ (fuel i : Nat) (done : List Value),
      W.Runs (fun x y => x.1 = y.1 ∧ W.Stops x.2 y.2) (walk node fuel i done) (walk node' fuel i done)
  | 0, _, _ => .outOfFuel
  | fuel + 1, i, done => by
    unfold walk
    refine (h i).bind fun x x' hx => ?_
    cases hx with
    | item v next => exact walk_worded h fuel next (v :: done)
    | ended he => exact .pure ⟨rfl, he⟩

section Engine

variable {env env' : Env} (hg : ∀ name, W.Parsers (env.grammar name) (env'.grammar name))
  (hwidth : W.widths env.settings.indent env'.settings.indent) (hstateful : env.stateful = env'.stateful)

include hg hwidth hstateful

/-- **The on-demand engine does the same under both settings.** -/
theorem means_worded : ∀ n, (means env n).Worded W (means env' n)
  | 0 => ⟨hg, hwidth, hstateful, fun _ => .outOfFuel, fun _ => .outOfFuel, fun _ => .outOfFuel⟩
  | n + 1 => by
    have ih := means_worded n
    have hnode : ∀ i, W.Runs W.Nodes (node env (n + 1) i) (node env' (n + 1) i) := by
      intro i w w' hw
      rw [node_succ, node_succ]
      dsimp only
      rw [← hw.size_nodesOf]
      split
      · exact Wording.Runs.force (fun u u' hu => ih.computeNode (listOf i) hu n) _ w w' hw
      · exact .fault (.same _) hw
    refine ⟨hg, hwidth, hstateful, hnode, fun i => walk_worded hnode (n + 1) i [], fun hs => ?_⟩
    cases hs with
    | ready ha => rw [means_answer_ready, means_answer_ready]; exact .pure ha
    | afresh z hp => rw [means_answer_afresh, means_answer_afresh]; exact ih.answer (.apply z hp)
    | after hact hs =>
      rw [means_answer_after, means_answer_after]
      exact (ih.exec hact).bind fun _ _ _ => ih.answer hs
    | framed hs hf =>
      rw [means_answer_framed, means_answer_framed]
      exact (ih.answer hs).bind fun _ _ ha => ih.resumption n hf ha
    | apply z hp =>
      rw [means_answer_apply, means_answer_apply]
      obtain ⟨hnone, hnone'⟩ | ⟨q, q', f, f', hsome, hsome', hq, hf⟩ := hp.frame? z
      · rw [hnone, hnone']
        exact ih.primitive n hp z
      · rw [hsome, hsome']
        exact ih.answer (.framed (.apply z hq) hf)

theorem means_worded_verdict (n : Nat) {p p' : Parser} (hp : W.Parsers p p') (z : Context) :
    W.Runs W.Verdicts ((means env n).verdict n p z) ((means env' n).verdict n p' z) := by
  have h := means_worded hg hwidth hstateful n
  rw [verdict_eq, verdict_eq]
  have hsettled : ∀ {a a' : Answer}, W.Answers a a' →
      W.Runs W.Settleds ((means env n).settleAnswer n a) ((means env' n).settleAnswer n a') := by
    intro a a' ha
    cases ha with
    | success hp => exact .pure (.success hp)
    | failure z hm => exact .pure (.failure z hm)
    | committed hinner => exact h.settlement n hinner
  refine (h.answer (.apply z hp)).bind fun a a' ha =>
    ((hsettled ha).bind fun t t' ht => h.disclosure ht).bind fun t t' ht => ?_
  cases ht with
  | failure z hm => exact .pure (.failure z hm)
  | success hp =>
    unfold Means.readAll
    rw [← h.stateful]
    dsimp only
    split
    · exact (h.late hp.rest).bind fun z _ hz => (h.late hp.value).bind fun v _ hv => hz ▸ hv ▸ .pure (.success z v)
    · exact (h.late hp.value).bind fun v _ hv => (h.late hp.rest).bind fun z _ hz => hz ▸ hv ▸ .pure (.success z v)

end Engine

end OnDemand

end CommittedChoice
