import CommittedChoice.Proofs.Accounting

/-!
# Repetition ends

A repetition goes on only after a turn that consumed a token, and a turn that puts no token back leaves fewer tokens than it
found. So on finitely many tokens the turns come to an end if each of them does.

- `Act.Listless`: callbacks that read no lists, which end in every engine;
- `Engine.Orderly`: a parser puts no token back and ends wherever it is applied to what is left of some tokens; one lemma
  for each way to make a parser of others, and `Orderly.loop` for loops whose turns leave fewer tokens;
- `Engine.Meets`: what holds of a parser where it succeeds; `meets_foldTurn` and `meets_untilTurn` say what a turn leaves;
- `Orderly.repeatFold`, `Orderly.manyUntil` and the repetitions made of them;
- `meets_many`: no more items than tokens.
-/

namespace CommittedChoice

open Run (limit Ends)
open Strict (Outcome)

/-! ## Callbacks without lists -/

namespace Act

variable {α β : Type}

/-- The callback reads no list. -/
def Listless : Act α → Prop
  | .pure _ | .throw _ => True
  | .note _ act => act.Listless
  | .width k => ∀ w, (k w).Listless
  | .count _ k => ∀ c, (k c).Listless
  | .fresh k => ∀ id, (k id).Listless
  | .node _ _ | .walk _ _ => False

theorem Listless.bind {act : Act α} {k : α → Act β} (h : act.Listless) (hk : ∀ a, (k a).Listless) :
    (act >>= k).Listless := by
  show (Act.bind act k).Listless
  induction act with
  | pure a => exact hk a
  | throw e => trivial
  | note id next ih => exact ih h
  | width f ih => exact fun w => ih w (h w)
  | count mark f ih => exact fun c => ih c (h c)
  | fresh f ih => exact fun id => ih id (h id)
  | node i f => exact h.elim
  | walk i f => exact h.elim

/-- Such a callback answers or throws, whatever its lists are. -/
theorem Listless.ends {act : Act α} (h : act.Listless) (env : Env) (lists : Lists) (w : World) :
    ∃ (x : Except Fault α) (w' : World), act.exec env lists w = (x.mapError .fault, w') := by
  induction act generalizing w with
  | pure a => exact ⟨.ok a, w, rfl⟩
  | throw e => exact ⟨.error e, w, rfl⟩
  | note id next ih => exact ih h _
  | width k ih => exact ih _ (h _) w
  | count mark k ih => exact ih _ (h _) _
  | fresh k ih => exact ih _ (h _) _
  | node i k => exact h.elim
  | walk i k => exact h.elim

theorem listless_pure (a : α) : (Act.pure a).Listless := trivial

theorem listless_ofExcept : ∀ x : Except Fault α, (ofExcept x).Listless
  | .ok _ | .error _ => trivial

theorem listless_array (items : List Value) : (array items).Listless := fun _ => trivial

theorem listless_text (s : String) : (text s).Listless := by
  unfold text
  split <;> trivial

theorem listless_apply (op : Operation) (l r : Value) : (op.apply l r).Listless := by
  cases op with
  | pair => exact listless_array _
  | cat => exact listless_text _
  | _ => trivial

end Act

/-- The functions that a program defines read no lists. -/
def Definitions.Listless (ds : Definitions) : Prop := ∀ n held args, (ds n held args).Listless

theorem Definitions.listless_none : Definitions.none.Listless := fun _ _ _ => trivial

namespace Act

variable {ds : Definitions} (hds : ds.Listless)

include hds

theorem listless_call (name : String) (f : Value) (args : List Value) : (call ds name f args).Listless := by
  unfold call
  dsimp only
  split
  · exact (listless_ofExcept _).bind fun _ => trivial
  · split
    · exact listless_apply _ _ _
    · exact listless_apply _ _ _
  · exact listless_text _
  · exact listless_apply _ _ _
  · exact hds _ _ _
  · trivial

theorem listless_groupRight (x : Value) : ∀ (links : List Value) (acc : Value),
    (Parser.groupRight ds x acc links).Listless
  | [], _ => trivial
  | [_], _ => listless_call hds _ _ _
  | _ :: before :: links, _ => (listless_call hds _ _ _).bind fun acc => listless_groupRight x (before :: links) acc

end Act

/-! ## Courses that end -/

namespace Course

variable {α β : Type}

/-- The computation ends from this world on. -/
def Halts (x : Course α) (w : World) : Prop := ∃ b, x w = some b

theorem Halts.pure (a : α) (w : World) : Halts (Pure.pure a) w := ⟨_, rfl⟩

theorem Halts.bind {x : Course α} {f : α → Course β} {w : World} (hx : x.Halts w)
    (hf : ∀ a w', x w = some (.ok a, w') → (f a).Halts w') : (x >>= f).Halts w := by
  obtain ⟨⟨e | a, w'⟩, hb⟩ := hx
  · exact ⟨_, bind_of_error hb⟩
  · obtain ⟨b, hb'⟩ := hf a w' hb
    exact ⟨b, (bind_of_ok hb).trans hb'⟩

theorem Halts.ofExcept (x : Except Fault α) (w : World) : Halts (ofRun (Run.ofExcept x)) w :=
  ⟨(x, w), ofRun_eq_some.2 rfl⟩

end Course

namespace Engine

variable {e : Engine} {env : Env}

theorem halts_exec {α : Type} {act : Act α} (h : act.Listless) (w : World) : ((e.semantics env).exec act).Halts w := by
  unfold semantics
  cases e.onDemand with
  | true =>
    obtain ⟨x, w', hx⟩ := h.ends env (OnDemand.means env 0).lists w
    exact ⟨(x, w'), (Run.limit_eq_some (OnDemand.steady_exec env act)).2 ⟨0, hx⟩⟩
  | false =>
    obtain ⟨x, w', hx⟩ := h.ends env .none w
    exact ⟨(x, w'), Course.ofRun_eq_some.2 hx⟩

theorem exec_pure {α : Type} (a : α) : (e.semantics env).exec (.pure a) = pure a := by
  unfold semantics
  cases e.onDemand with
  | true => exact OnDemand.exec_pure a
  | false => rfl

theorem exec_bind {α β : Type} (act : Act α) (k : α → Act β) :
    (e.semantics env).exec (act >>= k) = (e.semantics env).exec act >>= fun a => (e.semantics env).exec (k a) := by
  unfold semantics
  cases e.onDemand with
  | true => exact OnDemand.exec_bind act k
  | false =>
    show Course.ofRun ((act >>= k).exec env .none) = _
    rw [Act.exec_bind]
    exact Course.ofRun_bind _ _

/-- A new array is an array of its items. -/
theorem exec_array {items : List Value} {v : Value} {w w' : World}
    (h : (e.semantics env).exec (Act.array items) w = some (.ok v, w')) : ∃ id, v = .array id items := by
  unfold semantics at h
  cases he : e.onDemand with
  | true =>
    rw [he] at h
    obtain ⟨n, hn⟩ := (Run.limit_eq_some (OnDemand.steady_exec env _)).1 h
    cases hn
    exact ⟨_, rfl⟩
  | false =>
    rw [he] at h
    cases h
    exact ⟨_, rfl⟩

/-- **The equation of an engine.** -/
theorem eval_meaning {p : Parser} (hp : p.isStream = false) (z : Context) :
    (e.semantics env).eval p z = (e.semantics env).meaning env p z := by
  unfold semantics
  cases e.onDemand with
  | true => exact OnDemand.eval_meaning hp z
  | false => exact Strict.eval_eq p z

/-- Going on with a parser that a callback gives at once. -/
theorem eval_bind_pure (p : Parser) (q : Value → Parser) (z : Context) :
    (e.semantics env).eval (.bind p fun v => .pure (q v)) z =
      (e.semantics env).eval p z >>= fun r => r.bind fun z' v => (e.semantics env).eval (q v) z' := by
  rw [eval_meaning rfl]
  simp only [Semantics.meaning, exec_pure, pure_bind]

/-- How many of these tokens are left. -/
def tokensLeft (ts : List Value) (z : Context) : Nat := (z.input.left ts).length

variable (e env) in
/-- The parser ends wherever it is applied to what is left of these tokens, and it puts no token back. -/
structure Orderly (ts : List Value) (p : Parser) : Prop where
  halts : ∀ z w, z.input.Fits ts w.feed → ((e.semantics env).eval p z).Halts w
  pushFree : p.PushFree

variable (e env) in
/-- Wherever the parser is applied to this context and succeeds, this holds of the context after it and of its value. -/
def Meets (ts : List Value) (p : Parser) (z : Context) (Q : Context → Value → Prop) : Prop :=
  ∀ w r w' z' v, z.input.Fits ts w.feed → (e.semantics env).eval p z w = some (.ok r, w') →
    r.verdict = .success z' v → Q z' v

/-! ## What a parser leaves -/

theorem later_eval {p : Parser} {z : Context} {w w' : World} {r : Outcome}
    (hr : (e.semantics env).eval p z w = some (.ok r, w')) : w.feed.Later w'.feed := by
  have hall : ∀ q : Parser, q.Throughout OnDemand.everywhere.Admits :=
    Parser.throughout_of_forall fun _ _ _ _ _ _ => trivial
  exact (eval_within (D := OnDemand.everywhere) (fun name => hall _) (hall p) trivial hr).1

variable {ts : List Value} {p q : Parser} {z : Context} {Q : Context → Value → Prop}

section Grammar

variable (hg : ∀ name, (env.grammar name).PushFree)

include hg

/-- A parser that puts no token back leaves some of the tokens, and has counted the others. -/
theorem spends (hp : p.PushFree) {w w' : World} (hz : z.input.Fits ts w.feed) {r : Outcome}
    (hr : (e.semantics env).eval p z w = some (.ok r, w')) : r.verdict.rest.input.Fits ts w'.feed ∧
      ∃ d, r.verdict.rest.input.consumed = z.input.consumed + d ∧
        tokensLeft ts z = d + tokensLeft ts r.verdict.rest := by
  have hadmits : ∀ q : Parser, q.PushFree → q.Throughout (accounts ts False z.input).Admits :=
    fun q hq => Parser.Throughout.weaken admits_accounts q (.inr hq)
  obtain ⟨-, hfits, haccounts⟩ := eval_within (fun name => hadmits _ (hg name)) (hadmits p hp) ⟨hz, .refl z.input⟩ hr
  obtain ⟨us, hleft, -, hconsumed⟩ := haccounts.dropped id
  refine ⟨hfits, us.length, hconsumed, ?_⟩
  rw [tokensLeft, tokensLeft, hleft, List.length_append]

theorem meets_spent (hp : p.PushFree) (z : Context) : e.Meets env ts p z fun z' _ =>
    ∃ d, z'.input.consumed = z.input.consumed + d ∧ tokensLeft ts z = d + tokensLeft ts z' := by
  intro w r w' z' v hz hr hv
  obtain ⟨-, hspent⟩ := spends hg hp hz hr
  rwa [hv] at hspent

/-! ## Sequences -/

theorem Orderly.bind {q : Value → Parser} (hp : e.Orderly env ts p) (hq : ∀ v, e.Orderly env ts (q v)) :
    e.Orderly env ts (.bind p fun v => .pure (q v)) where
  pushFree := ⟨rfl, hp.pushFree, fun v => (hq v).pushFree⟩
  halts z w hz := by
    rw [eval_bind_pure]
    refine (hp.halts z w hz).bind fun r w' hr => ?_
    obtain ⟨hfits, -⟩ := spends hg hp.pushFree hz hr
    match r, hfits with
    | .plain (.success z' v), hfits => exact (hq v).halts z' w' hfits
    | .committed (.success z' v), hfits => exact ((hq v).halts z' w' hfits).bind fun _ _ _ => .pure _ _
    | .plain (.failure _ _), _ | .committed (.failure _ _), _ => exact .pure _ _

theorem meets_bind {q : Value → Parser} (hfree : p.PushFree)
    (h : e.Meets env ts p z fun z' v => e.Meets env ts (q v) z' Q) :
    e.Meets env ts (.bind p fun v => .pure (q v)) z Q := by
  intro w r w' z' v hz hr hv
  rw [eval_bind_pure] at hr
  obtain ⟨r₁, w₁, hr₁, hr⟩ := Course.bind_eq_ok hr
  obtain ⟨hfits, -⟩ := spends hg hfree hz hr₁
  match r₁, hfits with
  | .plain (.success z₁ v₁), hfits => exact h w _ w₁ z₁ v₁ hz hr₁ rfl w₁ r w' z' v hfits hr hv
  | .committed (.success z₁ v₁), hfits =>
    obtain ⟨r₂, w₂, hr₂, hpure⟩ := Course.bind_eq_ok hr
    cases hpure
    exact h w _ w₁ z₁ v₁ hz hr₁ rfl w₁ r₂ w' z' v hfits hr₂ hv
  | .plain (.failure _ _), _ | .committed (.failure _ _), _ => cases hr; cases hv

theorem Orderly.seqRight (hp : e.Orderly env ts p) (hq : e.Orderly env ts q) : e.Orderly env ts (.seqRight p q) :=
  hp.bind hg fun _ => hq

end Grammar

theorem Meets.imp {P Q : Context → Value → Prop} (h : e.Meets env ts p z P) (himp : ∀ z' v, P z' v → Q z' v) :
    e.Meets env ts p z Q :=
  fun w r w' z' v hz hr hv => himp z' v (h w r w' z' v hz hr hv)

/-! ## Other parsers -/

theorem Orderly.pure (v : Value) : e.Orderly env ts (.pure v) where
  pushFree := rfl
  halts z w _ := by
    rw [eval_meaning rfl]
    exact .pure _ _

theorem meets_pure {v : Value} (h : Q z v) : e.Meets env ts (.pure v) z Q := by
  intro w r w' z' v' _ hr hv
  rw [eval_meaning rfl] at hr
  cases hr
  cases hv
  exact h

theorem Orderly.fail (message : String) : e.Orderly env ts (.fail message) where
  pushFree := rfl
  halts z w _ := by
    rw [eval_meaning rfl]
    exact .pure _ _

theorem meets_fail (message : String) : e.Meets env ts (.fail message) z Q := by
  intro w r w' z' v' _ hr hv
  rw [eval_meaning rfl] at hr
  cases hr
  cases hv

theorem Orderly.position : e.Orderly env ts .position where
  pushFree := rfl
  halts z w _ := by
    rw [eval_meaning rfl]
    exact .pure _ _

theorem meets_position (h : Q z (.nat z.input.consumed)) : e.Meets env ts .position z Q := by
  intro w r w' z' v' _ hr hv
  rw [eval_meaning rfl] at hr
  cases hr
  cases hv
  exact h

theorem Orderly.next : e.Orderly env ts .next where
  pushFree := rfl
  halts z w hz := by
    rw [eval_meaning rfl]
    obtain ⟨feed, -, ⟨hnext, -⟩ | ⟨t, rest, hnext, -⟩⟩ := hz.next?
    · obtain ⟨journal, hrun⟩ := Run.next?_of hnext
      exact ⟨_, Course.bind_of_ok (Course.ofRun_eq_some.2 hrun)⟩
    · obtain ⟨journal, hrun⟩ := Run.next?_of hnext
      exact ⟨_, Course.bind_of_ok (Course.ofRun_eq_some.2 hrun)⟩

section Map

variable {f : Value → Act Value}

theorem Orderly.map (hp : e.Orderly env ts p) (hf : ∀ v, (f v).Listless) : e.Orderly env ts (.map p f) where
  pushFree := ⟨rfl, hp.pushFree⟩
  halts z w hz := by
    rw [eval_meaning rfl]
    refine (hp.halts z w hz).bind fun r w' _ => ?_
    match r with
    | .plain (.success z' v) | .committed (.success z' v) => exact (halts_exec (hf v) w').bind fun _ _ _ => .pure _ _
    | .plain (.failure _ _) | .committed (.failure _ _) => exact .pure _ _

theorem meets_map (h : e.Meets env ts p z fun z' v =>
    ∀ w v' w', (e.semantics env).exec (f v) w = some (.ok v', w') → Q z' v') : e.Meets env ts (.map p f) z Q := by
  intro w r w' z' v hz hr hv
  rw [eval_meaning rfl] at hr
  obtain ⟨r₁, w₁, hr₁, hr⟩ := Course.bind_eq_ok hr
  match r₁ with
  | .plain (.success z₁ v₁) | .committed (.success z₁ v₁) =>
    obtain ⟨v₂, w₂, hv₂, hpure⟩ := Course.bind_eq_ok hr
    cases hpure
    cases hv
    exact h w _ w₁ z' v₁ hz hr₁ rfl w₁ v w' hv₂
  | .plain (.failure _ _) | .committed (.failure _ _) => cases hr; cases hv

end Map

theorem Orderly.orElse (hp : e.Orderly env ts p) (hq : e.Orderly env ts q) : e.Orderly env ts (.orElse p q) where
  pushFree := ⟨rfl, hp.pushFree, hq.pushFree⟩
  halts z w hz := by
    rw [eval_meaning rfl]
    refine (hp.halts z w hz).bind fun r w' hr => ?_
    match r, hr with
    | .plain (.failure _ _), hr => exact hq.halts z w' (hz.later (later_eval hr))
    | .plain (.success _ _), _ | .committed _, _ => exact .pure _ _

theorem meets_orElse (hp : e.Meets env ts p z Q) (hq : e.Meets env ts q z Q) : e.Meets env ts (.orElse p q) z Q := by
  intro w r w' z' v hz hr hv
  rw [eval_meaning rfl] at hr
  obtain ⟨r₁, w₁, hr₁, hr⟩ := Course.bind_eq_ok hr
  match r₁ with
  | .plain (.failure _ _) => exact hq w₁ r w' z' v (hz.later (later_eval hr₁)) hr hv
  | .plain (.success _ _) | .committed _ => cases hr; exact hp w _ w' z' v hz hr₁ hv

section Choice

theorem halts_alternatives : ∀ (failures : List (String × String)) {ps : List (String × Parser)} (w : World),
    (∀ x ∈ ps, e.Orderly env ts x.2) → z.input.Fits ts w.feed →
      ((e.semantics env).alternatives env z failures ps).Halts w
  | _, [], w, _, _ => (Course.Halts.ofExcept _ w).bind fun _ _ _ => .pure _ _
  | failures, (label, p) :: ps, w, hps, hz => by
    refine ((hps _ List.mem_cons_self).halts z w hz).bind fun r w' hr => ?_
    match r, hr with
    | .plain (.failure _ message), hr =>
      -- printing leaves what can be read as it was
      exact halts_alternatives _ _ (fun x hx => hps x (List.mem_cons_of_mem _ hx)) (hz.later (later_eval hr))
    | .plain (.success _ _), _ | .committed _, _ => exact .pure _ _

theorem each_pushFree : ∀ {ps : List (String × Parser)}, (∀ x ∈ ps, e.Orderly env ts x.2) →
    Parser.Each (fun q => q.isPushBack = false) ps
  | [], _ => trivial
  | _ :: _, hps => ⟨(hps _ List.mem_cons_self).pushFree, each_pushFree fun x hx => hps x (List.mem_cons_of_mem _ hx)⟩

variable {ps : List (String × Parser)}

theorem Orderly.choice (hps : ∀ x ∈ ps, e.Orderly env ts x.2) : e.Orderly env ts (.choice ps) where
  pushFree := ⟨rfl, each_pushFree hps⟩
  halts z w hz := by
    rw [eval_meaning rfl]
    exact halts_alternatives [] w hps hz

theorem meets_alternatives : ∀ (failures : List (String × String)) {ps : List (String × Parser)} (w : World),
    (∀ x ∈ ps, e.Meets env ts x.2 z Q) → z.input.Fits ts w.feed →
      ∀ r w' z' v, (e.semantics env).alternatives env z failures ps w = some (.ok r, w') →
        r.verdict = .success z' v → Q z' v
  | _, [], w, _, _, r, w', z', v, hr, hv => by
    obtain ⟨message, w₁, -, hpure⟩ := Course.bind_eq_ok hr
    cases hpure
    cases hv
  | failures, (label, p) :: ps, w, hps, hz, r, w', z', v, hr, hv => by
    obtain ⟨r₁, w₁, hr₁, hr⟩ := Course.bind_eq_ok hr
    match r₁ with
    | .plain (.failure _ message) =>
      obtain ⟨_, w₂, htrace, hr⟩ := Course.bind_eq_ok hr
      cases htrace
      refine meets_alternatives _ _ (fun x hx => hps x (List.mem_cons_of_mem _ hx)) ?_ r w' z' v hr hv
      exact hz.later (later_eval hr₁)
    | .plain (.success _ _) | .committed _ => cases hr; exact hps _ List.mem_cons_self w _ w' z' v hz hr₁ hv

theorem meets_choice (hps : ∀ x ∈ ps, e.Meets env ts x.2 z Q) : e.Meets env ts (.choice ps) z Q := by
  intro w r w' z' v hz hr hv
  rw [eval_meaning rfl] at hr
  exact meets_alternatives [] w hps hz r w' z' v hr hv

end Choice

theorem Orderly.commit (hp : e.Orderly env ts p) : e.Orderly env ts (.commit p) where
  pushFree := ⟨rfl, hp.pushFree⟩
  halts z w hz := by
    rw [eval_meaning rfl]
    exact (hp.halts z w hz).bind fun _ _ _ => .pure _ _

theorem Orderly.headed (hp : e.Orderly env ts p) (headline : String) : e.Orderly env ts (.headed headline p) where
  pushFree := ⟨rfl, hp.pushFree⟩
  halts z w hz := by
    rw [Parser.headed, eval_meaning rfl]
    refine (hp.halts z w hz).bind fun r w' _ => ?_
    match r with
    | .plain (.failure _ m) | .committed (.failure _ m) =>
      refine (halts_exec ?_ w').bind fun _ _ _ => .pure _ _
      exact fun width => Act.listless_ofExcept _
    | .plain (.success _ _) | .committed (.success _ _) => exact .pure _ _

/-! ## Loops -/

theorem body_pure (q : Value → Parser) (s : Value) (z : Context) :
    (e.semantics env).body (fun s => .pure (q s)) s z = (e.semantics env).eval (q s) z := by
  rw [Semantics.body, exec_pure, pure_bind]

section Repetition

variable (hg : ∀ name, (env.grammar name).PushFree)

include hg

/-- **A loop ends if its turns do and if each turn that is followed by another one leaves fewer tokens.** -/
theorem Orderly.loop {q : Value → Parser} (hq : ∀ s, e.Orderly env ts (q s)) (hturn : ∀ s z, e.Meets env ts (q s) z
    fun z' v => ∀ state, v.toStep = .again state → tokensLeft ts z' < tokensLeft ts z) (init : Value) :
    e.Orderly env ts (.loop init fun s => .pure (q s)) where
  pushFree := ⟨rfl, fun s => (hq s).pushFree⟩
  halts z w hz := by
    rw [eval_meaning rfl, Semantics.meaning]
    generalize false = c, init = s, hleft : tokensLeft ts z = left
    -- the induction is on the number of tokens that are left before the turn
    induction left using Nat.strong_induction_on generalizing c s z w with
    | _ left ih =>
      rw [Semantics.loop, Course.Turn.loop_unfold, body_pure]
      refine ((hq s).halts z w hz).bind fun r w' hr => ?_
      obtain ⟨hfits, -⟩ := spends hg (hq s).pushFree hz hr
      rw [Semantics.turn_after]
      cases hv : r.verdict with
      | failure z' message => exact .pure _ _
      | success z' v =>
        rw [hv] at hfits
        dsimp only
        cases hstep : v.toStep with
        | done value => exact .pure _ _
        | again state =>
          have hlt := hturn s z w r w' z' v hz hr hv state hstep
          exact ih (tokensLeft ts z') (hleft ▸ hlt) z' w' hfits _ state rfl

/-- What holds of the state and the context of a loop before every turn holds when it is done. -/
theorem meets_loop {q : Value → Parser} (hfree : ∀ s, (q s).PushFree) {I : Value → Context → Prop}
    (hturn : ∀ s z, I s z → e.Meets env ts (q s) z fun z' v =>
      match v.toStep with
      | .done value => Q z' value
      | .again state => I state z') {init : Value} (hinit : I init z) :
    e.Meets env ts (.loop init fun s => .pure (q s)) z Q := by
  intro w r w' z' v hz hr hv
  rw [eval_meaning rfl, Semantics.meaning] at hr
  refine Course.Turn.loop_induction (R := fun _ s z w b => I s z → z.input.Fits ts w.feed → ∀ r w' z' v, b = (.ok r, w') →
    r.verdict = .success z' v → Q z' v) ?_ hr hinit hz r w' z' v rfl hv
  rintro f hf c s z w b hb hI hz r w' z' v rfl hv
  rw [body_pure] at hb
  obtain ⟨r₁, w₁, hr₁, hafter⟩ := Course.bind_eq_ok hb
  obtain ⟨hfits, -⟩ := spends hg (hfree s) hz hr₁
  have hverdict : ∀ {x : Outcome} {b : Bool}, (x.commitIf b).verdict = x.verdict := fun {x b} => by cases b <;> rfl
  rw [Semantics.turn_after] at hafter
  cases hv₁ : r₁.verdict with
  | failure z₁ message =>
    rw [hv₁] at hafter
    cases hafter
    rw [hverdict] at hv
    cases hv
  | success z₁ v₁ =>
    have hmeets := hturn s z hI w r₁ w₁ z₁ v₁ hz hr₁ hv₁
    rw [hv₁] at hafter hfits
    dsimp only at hafter
    cases hstep : v₁.toStep with
    | done value =>
      rw [hstep] at hafter hmeets
      cases hafter
      rw [hverdict] at hv
      cases hv
      exact hmeets
    | again state =>
      rw [hstep] at hafter hmeets
      exact hf _ _ _ _ _ hafter hmeets hfits r w' z' v rfl hv

/-! ### Folding -/

omit hg in
/-- One turn of a fold. -/
def foldTurn (p : Parser) (f : Value → Value → Act Value) (acc : Value) : Parser :=
  .orElse
    (.bind .position fun before => .pure <|
      .bind p fun a => .pure <|
        .map .position fun after =>
          if after.same before then .pure (.done acc) else do return .again (← f acc a))
    (.pure (.done acc))

omit hg in
theorem repeatFold_eq (p : Parser) (init : Value) (f : Value → Value → Act Value) :
    Parser.repeatFold p init f = .loop init fun acc => .pure (foldTurn p f acc) := rfl

section Fold

variable {f : Value → Value → Act Value}

theorem Orderly.foldTurn (hp : e.Orderly env ts p) (hf : ∀ acc a, (f acc a).Listless) (acc : Value) :
    e.Orderly env ts (foldTurn p f acc) := by
  refine .orElse (.bind hg .position fun before => .bind hg hp fun a => .map .position fun after => ?_) (.pure _)
  split
  · trivial
  · exact (hf acc a).bind fun _ => trivial

/-- **A turn of a fold that is followed by another one leaves fewer tokens,** and the next state is that of the fold. -/
theorem meets_foldTurn (hp : p.PushFree) (acc : Value) (z : Context) : e.Meets env ts (Engine.foldTurn p f acc) z fun z' v =>
    match v.toStep with
    | .done value => value = acc ∧ tokensLeft ts z' ≤ tokensLeft ts z
    | .again state => tokensLeft ts z' < tokensLeft ts z ∧
        ∃ a w w', (e.semantics env).exec (f acc a) w = some (.ok state, w') := by
  refine meets_orElse (meets_bind hg rfl (meets_position (meets_bind hg hp ?_))) (meets_pure ⟨rfl, Nat.le_refl _⟩)
  refine (meets_spent hg hp z).imp fun z' a hspent => meets_map (meets_position fun w v w' hv => ?_)
  obtain ⟨d, hconsumed, hleft⟩ := hspent
  rw [Value.same_nat] at hv
  by_cases h : z'.input.consumed = z.input.consumed
  · rw [if_pos (beq_iff_eq.2 h), exec_pure] at hv
    cases hv
    exact ⟨rfl, by omega⟩
  · rw [if_neg fun heq => h (beq_iff_eq.1 heq), exec_bind] at hv
    obtain ⟨state, w₁, hstate, hpure⟩ := Course.bind_eq_ok hv
    rw [show (pure (Value.again state) : Act Value) = .pure (.again state) from rfl, exec_pure] at hpure
    cases hpure
    exact ⟨by omega, a, w, w', hstate⟩

theorem Orderly.repeatFold (hp : e.Orderly env ts p) (hf : ∀ acc a, (f acc a).Listless) (init : Value) :
    e.Orderly env ts (.repeatFold p init f) := by
  rw [repeatFold_eq]
  refine .loop hg (hp.foldTurn hg hf) (fun acc z => ?_) init
  refine (meets_foldTurn hg hp.pushFree acc z).imp fun z' v h state hstep => ?_
  rw [hstep] at h
  exact h.1

end Fold

theorem Orderly.many (hp : e.Orderly env ts p) : e.Orderly env ts (.many p) :=
  .map (hp.repeatFold hg (fun _ _ => Act.listless_pure _) _) fun _ => Act.listless_array _

theorem Orderly.many1 (hp : e.Orderly env ts p) : e.Orderly env ts (.many1 p) :=
  .bind hg (hp.headed _) fun _ => .map (hp.many hg) fun _ => Act.listless_array _

theorem Orderly.skipMany (hp : e.Orderly env ts p) : e.Orderly env ts (.skipMany p) :=
  hp.repeatFold hg (fun _ _ => Act.listless_pure _) _

section Separators

variable {sep op : Parser}

theorem Orderly.sepBy1 (hp : e.Orderly env ts p) (hsep : e.Orderly env ts sep) : e.Orderly env ts (.sepBy1 p sep) :=
  .headed (.bind hg hp fun _ => .map ((hsep.seqRight hg hp).many hg) fun _ => Act.listless_array _) _

theorem Orderly.sepBy (hp : e.Orderly env ts p) (hsep : e.Orderly env ts sep) : e.Orderly env ts (.sepBy p sep) :=
  .orElse (hp.sepBy1 hg hsep) (.pure _)

theorem Orderly.pair (hp : e.Orderly env ts p) (hq : e.Orderly env ts q) : e.Orderly env ts (.pair p q) :=
  .bind hg hp fun _ => .map hq fun _ => Act.listless_array _

variable {ds : Definitions} (hds : ds.Listless)

include hds

theorem Orderly.chainl1 (hp : e.Orderly env ts p) (hop : e.Orderly env ts op) : e.Orderly env ts (.chainl1 p op ds) :=
  .bind hg hp fun _ => (hop.pair hg hp).repeatFold hg (fun _ _ => Act.listless_call hds _ _ _) _

theorem Orderly.chainr1 (hp : e.Orderly env ts p) (hop : e.Orderly env ts op) : e.Orderly env ts (.chainr1 p op ds) := by
  refine .bind hg hp fun x => .map ((hop.pair hg hp).repeatFold hg (fun _ _ => Act.listless_pure _) _) fun links => ?_
  split
  · exact Act.listless_groupRight hds _ _ _
  · trivial

end Separators

/-! ### Items up to a terminator -/

section Until

variable {terminator opening sep closing : Parser}

omit hg in
/-- One turn of a repetition up to a terminator. -/
def untilTurn (p terminator : Parser) (acc : Value) : Parser := .choice [
  ("item in a sequence",
    .bind .position fun before => .pure <|
      .bind p fun a => .pure <|
        .bind .position fun after => .pure <|
          if after.same before then .fail Message.emptyItem else .pure (.again (.keep a acc))),
  ("sequence terminator", .map terminator fun _ => do return .done (← .array acc.items.reverse))]

omit hg in
theorem manyUntil_eq (p terminator : Parser) :
    Parser.manyUntil p terminator = .loop (.kept []) fun acc => .pure (untilTurn p terminator acc) := rfl

theorem Orderly.untilTurn (hp : e.Orderly env ts p) (ht : e.Orderly env ts terminator) (acc : Value) :
    e.Orderly env ts (untilTurn p terminator acc) := by
  refine .choice fun x hx => ?_
  simp only [List.mem_cons, List.not_mem_nil, or_false] at hx
  rcases hx with rfl | rfl
  · refine .bind hg .position fun before => .bind hg hp fun a => .bind hg .position fun after => ?_
    split
    · exact .fail _
    · exact .pure _
  · exact .map ht fun _ => (Act.listless_array _).bind fun _ => trivial

/-- **A turn up to a terminator that is followed by another one leaves fewer tokens.** -/
theorem meets_untilTurn (hp : p.PushFree) (acc : Value) (z : Context) :
    e.Meets env ts (Engine.untilTurn p terminator acc) z fun z' v => ∀ state, v.toStep = .again state →
      tokensLeft ts z' < tokensLeft ts z := by
  refine meets_choice fun x hx => ?_
  simp only [List.mem_cons, List.not_mem_nil, or_false] at hx
  rcases hx with rfl | rfl
  · refine meets_bind hg rfl (meets_position (meets_bind hg hp ?_))
    refine (meets_spent hg hp z).imp fun z' a hspent => meets_bind hg rfl (meets_position ?_)
    obtain ⟨d, hconsumed, hleft⟩ := hspent
    rw [Value.same_nat]
    by_cases h : z'.input.consumed = z.input.consumed
    · rw [if_pos (beq_iff_eq.2 h)]
      exact meets_fail _
    · rw [if_neg fun heq => h (beq_iff_eq.1 heq)]
      exact meets_pure fun _ _ => by omega
  · refine meets_map fun w r w' z' v _ _ _ w₁ v' w₂ hv' state hstep => ?_
    rw [exec_bind] at hv'
    obtain ⟨array, w₃, -, hpure⟩ := Course.bind_eq_ok hv'
    rw [show (pure (Value.done array) : Act Value) = .pure (.done array) from rfl, exec_pure] at hpure
    cases hpure
    cases hstep

theorem Orderly.manyUntil (hp : e.Orderly env ts p) (ht : e.Orderly env ts terminator) :
    e.Orderly env ts (.manyUntil p terminator) := by
  rw [manyUntil_eq]
  exact .loop hg (hp.untilTurn hg ht) (meets_untilTurn hg hp.pushFree) _

theorem Orderly.listBetween (hopening : e.Orderly env ts opening) (hsep : e.Orderly env ts sep)
    (hclosing : e.Orderly env ts closing) (hp : e.Orderly env ts p) :
    e.Orderly env ts (.listBetween opening sep closing p) := by
  have hitems := (hsep.seqRight hg hp).manyUntil hg (hclosing.headed "When looking for closing bracket").commit
  refine .orElse (hopening.seqRight hg (hclosing.seqRight hg (.pure _))) ?_
  exact (hopening.headed _).seqRight hg (.bind hg (hp.headed _) fun _ => .map hitems fun _ => Act.listless_array _)

end Until

/-! ### How many items -/

/-- **There are no more items than tokens.** -/
theorem meets_many (hp : p.PushFree) (z : Context) : e.Meets env ts (.many p) z fun z' v =>
    ∃ id vs, v = .array id vs ∧ vs.length + tokensLeft ts z' ≤ tokensLeft ts z := by
  -- items so far and tokens left are no more than the tokens at first
  let I : Value → Context → Prop := fun acc z' => ∃ vs, acc = .kept vs ∧ vs.length + tokensLeft ts z' ≤ tokensLeft ts z
  have hfold : e.Meets env ts (.repeatFold p (.kept []) fun acc a => .pure (.keep a acc)) z fun z' v => I v z' := by
    rw [repeatFold_eq]
    refine meets_loop hg (I := I) (fun acc => ?_) (fun acc z₁ hI => ?_) ⟨[], rfl, by simp⟩
    · exact ⟨rfl, ⟨rfl, rfl, fun _ => ⟨rfl, hp, fun _ => ⟨rfl, rfl⟩⟩⟩, rfl⟩
    · obtain ⟨vs, rfl, hvs⟩ := hI
      refine (meets_foldTurn hg hp _ z₁).imp fun z' v h => ?_
      cases hstep : v.toStep with
      | done value =>
        rw [hstep] at h
        obtain ⟨rfl, hle⟩ := h
        exact ⟨vs, rfl, by omega⟩
      | again state =>
        rw [hstep] at h
        obtain ⟨hlt, a, w, w', hstate⟩ := h
        rw [exec_pure] at hstate
        cases hstate
        exact ⟨a :: vs, rfl, by simp only [List.length_cons]; omega⟩
  refine meets_map (hfold.imp fun z' v hv w v' w' hexec => ?_)
  obtain ⟨vs, rfl, hle⟩ := hv
  obtain ⟨id, rfl⟩ := exec_array hexec
  exact ⟨id, _, rfl, by simpa using hle⟩

end Repetition

end Engine

end CommittedChoice
