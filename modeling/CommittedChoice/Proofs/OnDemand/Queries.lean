import CommittedChoice.Proofs.OnDemand.Attempts
import CommittedChoice.Proofs.Readers

/-!
# What a consumer is shown

A consumer holds the outcome of a parser and asks what it says, what it settles to, and for the value and the rest of a
success; and it reads the lists that it is shown on the way. This module says what each of these queries shows, and how an
attempt at one ends if the source may fail.

- `Query.ask`: what is shown, and what is kept of the work. `Query.shows`: the same with enough fuel (`Query.ends_iff`);
- `Stage.Showns`: what is shown in two runs, the same but for names;
- `Query.ask_attempts`: an attempt at a query beside a run over a source that never fails.
-/

namespace CommittedChoice

open OnDemand
open Run (limit Steady)

namespace OnDemand

/-! ## Queries -/

/-- What a consumer asks: something of the outcome that it holds, or something of a list from a node on. -/
inductive Query where
  | outcome (d : Demand)
  | uncons (i : Nat)
  | toArray (i : Nat)

/-- What a consumer is shown. -/
inductive Shown where
  | success
  | committed
  | failure (z : Context) (message : String)
  /-- A failure has no value and no rest. -/
  | missing
  | value (v : Value)
  | rest (z : Context)
  | cell (c : Option (Value × Nat))
  | items (vs : List Value)

/-- What shows of an answer at once. -/
def Answer.shown : Answer → Shown
  | .success _ => .success
  | .failure z message => .failure z message
  | .committed _ => .committed

/-- A part of a success. -/
def Shown.ofPart {α : Type} (show' : α → Shown) : Option α → Shown
  | some a => show' a
  | none => .missing

/-- Asks something of an answer. -/
def Demand.askAnswer (m : Means) (fuel : Nat) : Demand → Hold Answer Shown
  | .force => do return (← Hold.get).shown
  | .settle => do return (← m.settled fuel).toAnswer.shown
  | .value => do return .ofPart .value (← m.onPromise fuel (Promise.forceValue m.env m.lists))
  | .rest => do return .ofPart .rest (← m.onPromise fuel (Promise.forceRest m.env m.lists))

/-- Asks something. -/
def Query.ask (m : Means) (fuel : Nat) : Query → Hold Suspended Shown
  | .outcome d => m.onAnswer (d.askAnswer m fuel)
  | .uncons i => Hold.lift do return .cell (← m.exec (.uncons i))
  | .toArray i => Hold.lift do return .items (← m.exec (.toArray i))

/-- The query ends like this if there is enough fuel, and leaves `s'` in hand. -/
def Query.Ends (env : Env) (q : Query) (s : Suspended) (w : World) (x : Except Fault Shown) (s' : Suspended) (w' : World) :
    Prop := ∃ n, q.ask (means env n) n s w = (x.mapError .fault, s', w')

/-! ## With enough fuel -/

section Course

variable (env : Env)

/-- A part of a settled answer, with the part known from then on. -/
noncomputable def Settled.showPart (c : Bool) (part : Promise → Course (Shown × Promise)) : Settled → Course (Shown × Answer)
  | .failure z message => pure (.missing, Settled.under c (.failure z message))
  | .success q => part q >>= fun x => pure (x.1, Settled.under c (.success x.2))

/-- The value of a success, and the success with its value known. -/
noncomputable def Promise.showValue (q : Promise) : Course (Shown × Promise) :=
  late env q.value >>= fun v => pure (.value v, { q with value := .known v })

/-- The rest after a success, and the success with its rest known. -/
noncomputable def Promise.showRest (q : Promise) : Course (Shown × Promise) :=
  late env q.rest >>= fun z => pure (.rest z, { q with rest := .known z })

/-- What is shown of an answer, and the answer that is kept. -/
noncomputable def Demand.showAnswer : Demand → Answer → Course (Shown × Answer)
  | .force, a => pure (a.shown, a)
  | .settle, a => settleAnswer env a >>= fun t => pure (t.toAnswer.shown, t.under a.isCommitted)
  | .value, a => settleAnswer env a >>= Settled.showPart a.isCommitted (Promise.showValue env)
  | .rest, a => settleAnswer env a >>= Settled.showPart a.isCommitted (Promise.showRest env)

/-- What is shown, and the outcome that is kept. -/
noncomputable def Query.shows : Query → Suspended → Course (Shown × Suspended)
  | .outcome d, s => answer env s >>= fun a => d.showAnswer env a >>= fun x => pure (x.1, .ready x.2)
  | .uncons i, s => exec env (.uncons i) >>= fun c => pure (.cell c, s)
  | .toArray i, s => exec env (.toArray i) >>= fun vs => pure (.items vs, s)

end Course

/-! ### Runs and courses -/

section Runs

variable {env : Env} {n : Nat} {w w' : World}

theorem Promise.showValue_of_force {q q' : Promise} {y : Except Fault Value}
    (h : Promise.forceValue env (means env n).lists q w = (y.mapError .fault, q', w')) :
    q.showValue env w = some (y.map fun v => (.value v, q'), w') := by
  obtain ⟨hlate, hput⟩ := late_of_put q.value (fun l => { q with value := l }) h
  cases y with
  | error e => exact Course.bind_of_error hlate
  | ok v =>
    rw [hput v rfl]
    exact Course.bind_of_ok hlate

theorem Promise.showRest_of_force {q q' : Promise} {y : Except Fault Context}
    (h : Promise.forceRest env (means env n).lists q w = (y.mapError .fault, q', w')) :
    q.showRest env w = some (y.map fun z => (.rest z, q'), w') := by
  obtain ⟨hlate, hput⟩ := late_of_put q.rest (fun l => { q with rest := l }) h
  cases y with
  | error e => exact Course.bind_of_error hlate
  | ok z =>
    rw [hput z rfl]
    exact Course.bind_of_ok hlate

/-- What a run for a part of an answer comes to. -/
theorem showPart_of_ask {α : Type} {f : Hold Promise α} {show' : α → Shown} {part : Promise → Course (Shown × Promise)}
    (hf : ∀ {q q' : Promise} {y : Except Fault α} {w w' : World}, f q w = (y.mapError .fault, q', w') →
      part q w = some (y.map fun a => (show' a, q'), w')) {a a' : Answer} {x : Except Fault Shown}
    (h : ((means env n).onPromise n f >>= fun o => pure (Shown.ofPart show' o)) a w = (x.mapError .fault, a', w')) :
    (settleAnswer env a >>= Settled.showPart a.isCommitted part) w = some (x.map (·, a'), w') := by
  obtain ⟨y, hy, rfl⟩ := Hold.map_cases h
  rcases onPromise_cases hy with ⟨e, rfl, hs, -⟩ | ⟨z, message, rfl, hs, rfl⟩ | ⟨q, w₁, q', u, hs, hu, rfl, rfl⟩
  · exact Course.bind_of_error hs
  · exact Course.bind_of_ok hs
  · rw [Course.bind_of_ok hs]
    cases u with
    | error e => exact Course.bind_of_error (hf hu)
    | ok v => exact Course.bind_of_ok (hf hu)

theorem Demand.showAnswer_of_ask {d : Demand} {a a' : Answer} {x : Except Fault Shown}
    (h : d.askAnswer (means env n) n a w = (x.mapError .fault, a', w')) :
    d.showAnswer env a w = some (x.map (·, a'), w') := by
  cases d with
  | force =>
    cases x with
    | error e => cases h
    | ok r =>
      cases h
      rfl
  | settle =>
    obtain ⟨y, hy, rfl⟩ := Hold.map_cases h
    have hs := settleAnswer_of_settled hy
    cases y with
    | error e => exact Course.bind_of_error hs
    | ok t =>
      rw [settled_keeps hy]
      exact Course.bind_of_ok hs
  | value => exact showPart_of_ask (fun h => Promise.showValue_of_force h) h
  | rest => exact showPart_of_ask (fun h => Promise.showRest_of_force h) h

/-- Reading a list leaves the outcome in hand as it is. -/
theorem Query.ask_list {q : Query} (hq : ∀ d, q ≠ .outcome d) {m : Means} {fuel : Nat} {s s' : Suspended}
    {r : Except Halt Shown} (h : q.ask m fuel s w = (r, s', w')) : s' = s := by
  cases q with
  | outcome d => exact absurd rfl (hq d)
  | uncons i =>
    change Hold.lift (m.exec (.uncons i) >>= fun c => pure (Shown.cell c)) s w = _ at h
    exact (lift_eq_iff.1 h).2
  | toArray i =>
    change Hold.lift (m.exec (.toArray i) >>= fun vs => pure (Shown.items vs)) s w = _ at h
    exact (lift_eq_iff.1 h).2

/-- What a run that reads a list comes to. -/
theorem exec_of_lift {α : Type} {act : Act α} {g : α → Shown} {s s' : Suspended} {x : Except Fault Shown}
    (h : (Hold.lift do return g (← (means env n).exec act) : Hold Suspended Shown) s w = (x.mapError .fault, s', w')) :
    (exec env act >>= fun a => pure (g a, s)) w = some (x.map (·, s'), w') := by
  obtain ⟨hrun, rfl⟩ := lift_eq_iff.1 h
  have hrun : Run.bind ((means env n).exec act) (fun a => pure (g a)) w = (x.mapError .fault, w') := hrun
  unfold Run.bind at hrun
  rcases hact : (means env n).exec act w with ⟨(e | _) | a, w₁⟩ <;> rw [hact] at hrun
  · cases x with
    | ok r => cases hrun
    | error e =>
      cases hrun
      exact Course.bind_of_error ((Run.limit_eq_some (steady_exec env act)).2 ⟨n, hact⟩)
  · cases x <;> cases hrun
  · cases x with
    | error e => cases hrun
    | ok r =>
      cases hrun
      exact Course.bind_of_ok ((Run.limit_eq_some (steady_exec env act)).2 ⟨n, hact⟩)

/-- **What a query ends with is what it shows.** -/
theorem Query.Ends.shows {q : Query} {s s' : Suspended} {x : Except Fault Shown} (h : q.Ends env s w x s' w') :
    q.shows env s w = some (x.map (·, s'), w') := by
  obtain ⟨n, h⟩ := h
  cases q with
  | outcome d =>
    rcases onAnswer_cases h with ⟨e, rfl, ha⟩ | ⟨a, w₁, a', ha, hd, rfl⟩
    · exact Course.bind_of_error ha
    · show (answer env s >>= _) w = _
      rw [Course.bind_of_ok ha]
      have hshow := Demand.showAnswer_of_ask hd
      cases x with
      | error e => exact Course.bind_of_error hshow
      | ok r => exact Course.bind_of_ok hshow
  | uncons i => exact exec_of_lift h
  | toArray i => exact exec_of_lift h

/-- A part of a settled answer, without what is kept. -/
def Settled.part {α : Type} (f : Promise → Run α) : Settled → Run (Option α)
  | .failure _ _ => pure none
  | .success q => f q >>= fun a => pure (some a)

theorem on_onPromise {α : Type} (f : Hold Promise α) (a : Answer) :
    Hold.on a ((means env n).onPromise n f) = (means env n).settleAnswer n a >>= Settled.part fun q => Hold.on q f := by
  rw [← on_settled]
  refine Hold.on_bind_of_ok fun w t a' w' h => ?_
  rw [settled_keeps h]
  cases t with
  | failure z message => rfl
  | success q =>
    rw [Hold.on_get_bind]
    cases a.isCommitted <;> exact Hold.on_bind fun _ _ => rfl

/-- What is asked of an answer, without what is kept. -/
theorem on_askAnswer (d : Demand) (a : Answer) : Hold.on a (d.askAnswer (means env n) n) =
    match d with
    | .force => pure a.shown
    | .settle => (means env n).settleAnswer n a >>= fun t => pure t.toAnswer.shown
    | .value => (means env n).settleAnswer n a >>= Settled.part (fun q => (means env n).late q.value) >>= fun o =>
      pure (.ofPart .value o)
    | .rest => (means env n).settleAnswer n a >>= Settled.part (fun q => (means env n).late q.rest) >>= fun o =>
      pure (.ofPart .rest o) := by
  cases d with
  | force => rfl
  | settle =>
    dsimp only
    rw [← on_settled]
    exact Hold.on_bind fun _ _ => rfl
  | value =>
    refine (Hold.on_bind (g := fun o => pure (.ofPart .value o)) fun _ _ => rfl).trans ?_
    rw [on_onPromise]
    rfl
  | rest =>
    refine (Hold.on_bind (g := fun o => pure (.ofPart .rest o)) fun _ _ => rfl).trans ?_
    rw [on_onPromise]
    rfl

section Related

variable {R : {α : Type} → Run α → Run α → Prop} (hR : Run.Congruence R) {n' : Nat}

include hR

theorem part_related {α : Type} {f f' : Promise → Run α} (hf : ∀ q, R (f q) (f' q)) (t : Settled) :
    R (Settled.part f t) (Settled.part f' t) := by
  cases t with
  | failure z message => exact hR.pure _
  | success q => exact hR.bind (hf q) fun _ => hR.pure _

variable (hn : n ≤ n') (h : (means env n).Related R (means env n'))

include hn h

theorem settleAnswer_related (a : Answer) : R ((means env n).settleAnswer n a) ((means env n').settleAnswer n' a) := by
  cases a with
  | success q => exact hR.pure _
  | failure z message => exact hR.pure _
  | committed inner => exact h.settlement hR hn inner

theorem askAnswer_related (d : Demand) (a : Answer) :
    R (Hold.on a (d.askAnswer (means env n) n)) (Hold.on a (d.askAnswer (means env n') n')) := by
  have hsettle := settleAnswer_related hR hn h a
  rw [on_askAnswer, on_askAnswer]
  cases d with
  | force => exact hR.pure _
  | settle => exact hR.bind hsettle fun _ => hR.pure _
  | value => exact hR.bind (hR.bind hsettle (part_related hR fun q => h.late hR q.value)) fun _ => hR.pure _
  | rest => exact hR.bind (hR.bind hsettle (part_related hR fun q => h.late hR q.rest)) fun _ => hR.pure _

/-- Queries of related means are related. -/
theorem Query.ask_related (q : Query) (s : Suspended) :
    R (Hold.on s (q.ask (means env n) n)) (Hold.on s (q.ask (means env n') n')) := by
  cases q with
  | outcome d =>
    rw [Query.ask, Query.ask, Means.on_onAnswer, Means.on_onAnswer]
    exact hR.bind (h.answer s) fun a => askAnswer_related hR hn h d a
  | uncons i => exact hR.bind (h.exec hR _) fun _ => hR.pure _
  | toArray i => exact hR.bind (h.exec hR _) fun _ => hR.pure _

end Related

theorem steady_part {α : Type} {f : Nat → Promise → Run α} (hf : ∀ q, Steady fun n => f n q) (t : Settled) :
    Steady fun n => Settled.part (f n) t := fun n => part_related .le (fun q => hf q n) t

theorem steady_askAnswer (d : Demand) (a : Answer) : Steady fun n => Hold.on a (d.askAnswer (means env n) n) :=
  fun n => askAnswer_related .le (Nat.le_succ n) (means_le env n) d a

theorem Query.steady_ask (q : Query) (s : Suspended) : Steady fun n => Hold.on s (q.ask (means env n) n) :=
  fun n => Query.ask_related .le (Nat.le_succ n) (means_le env n) q s

/-- A part of an answer with enough fuel. -/
theorem limit_part {α : Type} {f : Nat → Promise → Run α} {show' : α → Shown} {part : Promise → Course (Shown × Promise)}
    (hf : ∀ q, Steady fun n => f n q)
    (hpart : ∀ q, (limit fun n => f n q) >>= (fun a => pure (show' a)) = Prod.fst <$> part q) (a : Answer) :
    (limit fun n => (means env n).settleAnswer n a >>= Settled.part (f n) >>= fun o => pure (.ofPart show' o)) =
      Prod.fst <$> (settleAnswer env a >>= Settled.showPart a.isCommitted part) := by
  rw [Run.limit_bind_const (.bind (steady_settleAnswer a) (steady_part hf)),
    Run.limit_bind (steady_settleAnswer a) (steady_part hf), limit_settleAnswer, bind_assoc, map_bind]
  refine bind_congr fun t => ?_
  cases t with
  | failure z message =>
    rw [show (limit fun n => Settled.part (f n) (.failure z message)) = pure none from Run.limit_const _]
    rfl
  | success q =>
    have hsome : (limit fun n => Settled.part (f n) (.success q)) = (limit fun n => f n q) >>= fun a => pure (some a) :=
      Run.limit_bind_const (hf q) _
    rw [hsome, bind_assoc]
    refine (hpart q).trans ?_
    rw [Settled.showPart, map_bind, map_eq_pure_bind]
    rfl

/-- What is asked of an answer shows what it shows, with enough fuel. -/
theorem limit_askAnswer (d : Demand) (a : Answer) :
    (limit fun n => Hold.on a (d.askAnswer (means env n) n)) = Prod.fst <$> d.showAnswer env a := by
  simp only [on_askAnswer]
  cases d with
  | force => exact Run.limit_const _
  | settle =>
    rw [Run.limit_bind_const (steady_settleAnswer a), limit_settleAnswer, Demand.showAnswer, map_bind]
    rfl
  | value =>
    refine limit_part (fun q => steady_late env q.value) (fun q => ?_) a
    rw [Promise.showValue, map_bind]
    rfl
  | rest =>
    refine limit_part (fun q => steady_late env q.rest) (fun q => ?_) a
    rw [Promise.showRest, map_bind]
    rfl

theorem Query.limit_ask (q : Query) (s : Suspended) :
    (limit fun n => Hold.on s (q.ask (means env n) n)) = Prod.fst <$> q.shows env s := by
  cases q with
  | outcome d =>
    simp only [Query.ask, Means.on_onAnswer]
    rw [Run.limit_bind (steady_answer env s) (steady_askAnswer d), Query.shows, map_bind]
    refine bind_congr fun a => ?_
    rw [limit_askAnswer, map_bind, map_eq_pure_bind]
    rfl
  | uncons i =>
    rw [Query.shows, map_bind]
    exact Run.limit_bind_const (steady_exec env _) _
  | toArray i =>
    rw [Query.shows, map_bind]
    exact Run.limit_bind_const (steady_exec env _) _

/-- **A query that shows something ends with it.** -/
theorem Query.ends_of_shows {q : Query} {s : Suspended} {y : Except Fault (Shown × Suspended)}
    (h : q.shows env s w = some (y, w')) :
    ∃ s', q.Ends env s w (y.map Prod.fst) s' w' ∧ y = (y.map Prod.fst).map (·, s') := by
  have hfst : (Prod.fst <$> q.shows env s) w = some (y.map Prod.fst, w') := by
    rw [map_eq_pure_bind]
    cases y with
    | error e => exact Course.bind_of_error h
    | ok x => exact Course.bind_of_ok h
  rw [← Query.limit_ask] at hfst
  obtain ⟨n, hn⟩ := (Run.limit_eq_some (q.steady_ask s)).1 hfst
  change Hold.on s (q.ask (means env n) n) w = _ at hn
  unfold Hold.on at hn
  rcases hask : q.ask (means env n) n s w with ⟨r, s', w₁⟩
  rw [hask] at hn
  cases hn
  have hends : q.Ends env s w (y.map Prod.fst) s' w' := ⟨n, hask⟩
  refine ⟨s', hends, ?_⟩
  have hshows := hends.shows
  rw [h] at hshows
  exact (Prod.mk.inj (Option.some.inj hshows)).1

end Runs

end OnDemand

/-! ## Two runs -/

namespace Stage

variable {α β : Type} {ρ σ τ : Stage} {S : Supply} {w w' : World}

/-- What is shown in both runs. -/
inductive Showns (σ : Stage) : Shown → Shown → Prop
  | success : Showns σ .success .success
  | committed : Showns σ .committed .committed
  | failure {z z'} (m) : σ.Contexts z z' → Showns σ (.failure z m) (.failure z' m)
  | missing : Showns σ .missing .missing
  | value {v v'} : σ.Values v v' → Showns σ (.value v) (.value v')
  | rest {z z'} : σ.Contexts z z' → Showns σ (.rest z) (.rest z')
  | cell {v v' i i'} : σ.Values v v' → σ.Places i i' → Showns σ (.cell (some (v, i))) (.cell (some (v', i')))
  | noCell : Showns σ (.cell none) (.cell none)
  | items {vs vs'} : List.Forall₂ σ.Values vs vs' → Showns σ (.items vs) (.items vs')

/-- The same query in both runs. -/
inductive Queries (σ : Stage) : Query → Query → Prop
  | outcome (d : Demand) : Queries σ (.outcome d) (.outcome d)
  | uncons {i i'} : σ.Places i i' → Queries σ (.uncons i) (.uncons i')
  | toArray {i i'} : σ.Places i i' → Queries σ (.toArray i) (.toArray i')

/-- How something ends in both runs: with answers that are the same, or with one fault that is not one of the source. -/
inductive Endings (A : Stage → α → α → Prop) (σ : Stage) : Except Fault α → Except Fault α → Prop
  | ok {a a'} : A σ a a' → Endings A σ (.ok a) (.ok a')
  | error {e} : (∀ n, e ≠ .source n) → Endings A σ (.error e) (.error e)

theorem Showns.mono (h : ρ ≤ σ) {r r' : Shown} (hr : ρ.Showns r r') : σ.Showns r r' := by
  cases hr with
  | success => exact .success
  | committed => exact .committed
  | failure m hz => exact .failure m (hz.mono h)
  | missing => exact .missing
  | value hv => exact .value (hv.mono h)
  | rest hz => exact .rest (hz.mono h)
  | cell hv hi => exact .cell (hv.mono h) (hi.mono h)
  | noCell => exact .noCell
  | items hvs => exact .items (Values.mono_all h hvs)

theorem Queries.mono (h : ρ ≤ σ) {q q' : Query} (hq : ρ.Queries q q') : σ.Queries q q' := by
  cases hq with
  | outcome d => exact .outcome d
  | uncons hi => exact .uncons (hi.mono h)
  | toArray hi => exact .toArray (hi.mono h)

theorem Endings.mono {A : Stage → α → α → Prop} (hA : Monotone A) (h : ρ ≤ σ) {x x' : Except Fault α}
    (hx : Endings A ρ x x') : Endings A σ x x' := by
  cases hx with
  | ok ha => exact .ok (hA h _ _ ha)
  | error he => exact .error he

/-- The end of a list is read alike. -/
theorem Stops.reading {A : Stage → α → α → Prop} {e e' : ListEnd} (he : σ.Stops e e') {a a' : α} (ha : A σ a a') :
    Endings A σ (e.reading a) (e'.reading a') := by
  have hfault : e.fault? = e'.fault? := by
    have hfinish := he.finish
    unfold ListEnd.fault?
    generalize e.finish = f at hfinish ⊢
    generalize e'.finish = f' at hfinish ⊢
    cases hfinish with
    | plain => rfl
    | committed => rfl
    | failed m hz =>
      dsimp only
      rw [hz.input.offset]
  unfold ListEnd.reading
  rw [← hfault]
  cases h : e.fault? with
  | none => exact .ok ha
  | some fault =>
    refine .error fun n hn => ?_
    subst hn
    unfold ListEnd.fault? at h
    split at h <;> cases h

/-- An attempt whose answer is read like the end of a list. -/
theorem Tries.reading {γ δ : Type} {A : Stage → α → α → Prop} {B : Stage → β → β → Prop} {x y : Run α}
    (g g' : α → Except Fault β) {c : Course γ} {d : Course δ} (h : Tries S A c σ w w' (x w) (y w'))
    (hB : ∀ τ a a', A τ a a' → Endings B τ (g a) (g' a')) (hc : ∀ w₁', c w₁' = c w' → d w₁' = d w') :
    Tries S B d σ w w' ((x >>= fun a => Run.ofExcept (g a)) w) ((y >>= fun a => Run.ofExcept (g' a)) w') := by
  show Tries S B d σ w w' (Run.bind x _ w) (Run.bind y _ w')
  unfold Run.bind
  generalize x w = r at h ⊢
  generalize y w' = r' at h ⊢
  cases h with
  | fault he hw₁ hsince => exact .fault he hw₁ hsince
  | stopped _ hw₁ hsince hc₁ hbefore hfails => exact .stopped _ hw₁ hsince (hc _ hc₁) hbefore hfails
  | outOfFuel => exact .outOfFuel _ _
  | ok hab hw₁ hsince =>
    have hends := hB _ _ _ hab
    dsimp only
    generalize g _ = u at hends ⊢
    generalize g' _ = u' at hends ⊢
    cases hends with
    | ok hb => exact .ok hb hw₁ hsince
    | error he => exact .fault he hw₁ hsince

end Stage

namespace OnDemand

open Stage

/-! ## Attempts -/

/-- What a node says to a reader. -/
def Node.cell : Node → Except Fault (Option (Value × Nat))
  | .item v next => .ok (some (v, next))
  | .ended e => e.reading none

theorem Means.exec_uncons (m : Means) (i : Nat) :
    m.exec (.uncons i) = m.lists.node i >>= fun x => Run.ofExcept (Node.cell x) := by
  refine (Act.exec_node ..).trans (bind_congr fun x => ?_)
  cases x with
  | item v next => rfl
  | ended e =>
    unfold Node.cell ListEnd.reading
    dsimp only
    cases e.fault? <;> rfl

theorem Means.exec_toArray (m : Means) (i : Nat) :
    m.exec (.toArray i) = m.lists.walk i >>= fun x => Run.ofExcept (x.2.reading x.1) := by
  refine (Act.exec_walk ..).trans (bind_congr fun x => ?_)
  unfold ListEnd.reading
  cases x.2.fault? <;> rfl

/-- What `onPromise` does with what an answer settles to. -/
def Means.ofSettled {α : Type} (f : Hold Promise α) : Settled → Hold Answer (Option α)
  | .failure _ _ => pure none
  | .success p => do
    match ← Hold.get with
    | .committed _ => some <$> Hold.within (fun p => .committed (.ready (.success p))) p f
    | _ => some <$> Hold.within .success p f

theorem Means.onPromise_eq {α : Type} (m : Means) (fuel : Nat) (f : Hold Promise α) :
    m.onPromise fuel f = m.settled fuel >>= Means.ofSettled f := by
  unfold Means.onPromise
  refine congrArg (m.settled fuel >>= ·) (funext fun t => ?_)
  cases t <;> rfl

section Attempts

variable {env : Env} (hg : ∀ name, (env.grammar name).Pure) {S : Supply} {σ : Stage} {w w' : World}

theorem showns_of_answers {a a' : Answer} (ha : Answers 0 0 σ a a') : σ.Showns a.shown a'.shown := by
  cases ha with
  | success _ => exact .success
  | failure m hz => exact .failure m hz
  | committed _ => exact .committed

/-- What is settled under a commitment or not. -/
theorem answers_under (c : Bool) {t t' : Settled} (ht : Settleds 0 0 σ t t') : Answers 0 0 σ (t.under c) (t'.under c) := by
  cases c with
  | false => exact answers_of_settled ht
  | true => exact .committed (.ready (answers_of_settled ht))

include hg

/-- An attempt at what an answer settles to. -/
theorem settled_attempts (n : Nat) {a a' : Answer} (ha : Answers 0 0 σ a a') (hw : Worlds S 0 0 σ w w') {β : Type}
    (k : Bool → Settled → Course β) :
    Attempts S (fun τ b b' => Answers 0 0 τ b b' ∧ b'.isCommitted = a'.isCommitted) (Settleds 0 0)
      (fun t' b' => b' = t'.under a'.isCommitted) (fun b' => settleAnswer env b' >>= k b'.isCommitted) σ a' w w'
      ((means env n).settled n a w) ((means env n).settled n a' w') := by
  cases ha with
  | success hp => exact .ok (.success hp) ⟨.success hp, rfl⟩ rfl hw (.refl σ w)
  | failure m hz => exact .ok (.failure m hz) ⟨.failure m hz, rfl⟩ rfl hw (.refl σ w)
  | @committed inner inner' hinner =>
    refine Attempts.within (z := .committed inner) Answer.committed Answer.committed
      (settle_attempts (force_attempts hg n) (Nat.le_refl n) hinner hw) ?_ ?_ ?_
    · exact fun _ _ _ _ h => ⟨.committed h, rfl⟩
    · rintro t' _ rfl
      rfl
    · exact fun _ _ hc => Course.bind_congr_worlds hc _

/-- An attempt at a part of a success. -/
theorem onPromise_attempts (n : Nat) {α : Type} {A : Stage → α → α → Prop} {f : Hold Promise α}
    {part : Promise → Course (Shown × Promise)}
    (hf : ∀ {τ : Stage} {q q' : Promise} {w w' : World}, Promises 0 0 τ q q' → Worlds S 0 0 τ w w' →
      Attempts S (Promises 0 0) A (fun _ _ => True) part τ q' w w' (f q w) (f q' w'))
    {a a' : Answer} (ha : Answers 0 0 σ a a') (hw : Worlds S 0 0 σ w w') :
    Attempts S (Answers 0 0) (fun τ => Option.Rel (A τ)) (fun _ _ => True)
      (fun b' => settleAnswer env b' >>= Settled.showPart b'.isCommitted part) σ a' w w'
      ((means env n).onPromise n f a w) ((means env n).onPromise n f a' w') := by
  rw [Means.onPromise_eq]
  refine (settled_attempts hg n ha hw fun c => Settled.showPart c part).bind (fun _ _ _ _ h => h.1) (fun _ _ _ _ _ hc => hc) ?_
  rintro τ hτ t t' b _ w₁ w₁' hy ht ⟨hb, -⟩ rfl hw₁
  have hsettle := settleAnswer_of_settled (x := .ok t') hy
  have hunder : ∀ u : Settled, (settleAnswer env (u.under a'.isCommitted) >>=
      Settled.showPart (u.under a'.isCommitted).isCommitted part) = Settled.showPart a'.isCommitted part u := by
    intro u
    rw [settleAnswer_under, Settled.isCommitted_under, pure_bind]
  refine ⟨?_, ?_⟩
  · rw [hunder, Course.bind_of_ok hsettle]
  cases ht with
  | failure m hz => exact .ok .none hb trivial hw₁ (.refl τ w₁)
  | @success q q' hq =>
    -- the success is put back in its place, under the commitment or not
    have hpart : ∀ c : Bool, a'.isCommitted = c → Attempts S (Answers 0 0) (fun τ => Option.Rel (A τ)) (fun _ _ => True)
        (fun b' => settleAnswer env b' >>= Settled.showPart b'.isCommitted part) τ ((Settled.success q').under c) w₁ w₁'
        ((Hold.within (fun q => (Settled.success q).under c) q f >>= fun x => pure (some x)) b w₁)
        ((Hold.within (fun q => (Settled.success q).under c) q' f >>= fun x => pure (some x))
          ((Settled.success q').under c) w₁') := by
      rintro _ rfl
      refine (Attempts.within _ _ (hf hq hw₁) ?_ (fun _ _ h => h) ?_).map _ _ (fun _ _ _ h => .some h) fun _ _ h => h
      · exact fun υ _ _ _ h => answers_under _ (.success h)
      · intro q₁ w₂' hc
        rw [hunder, hunder]
        exact Course.bind_congr_worlds hc _
    cases hc : a'.isCommitted with
    | false =>
      rw [hc] at hb
      cases hb with
      | success _ => exact hpart false hc
    | true =>
      rw [hc] at hb
      cases hb with
      | committed _ => exact hpart true hc

theorem showValue_attempts (n : Nat) {q q' : Promise} (hq : Promises 0 0 σ q q') (hw : Worlds S 0 0 σ w w') :
    Attempts S (Promises 0 0) Values (fun _ _ => True) (Promise.showValue env) σ q' w w'
      (Promise.forceValue env (means env n).lists q w) (Promise.forceValue env (means env n).lists q' w') := by
  refine (value_attempts hg n hq hw).since.imp ?_ (fun _ _ _ _ _ _ => trivial) ?_
  · rintro τ _ _ ⟨hτ, l, l', rfl, rfl, hl⟩
    exact Promises.withValue (hq.mono hτ) hl
  · rintro τ _ _ w₁' ⟨-, l, l', rfl, rfl, -⟩ hc
    exact Course.bind_congr_worlds hc _

theorem showRest_attempts (n : Nat) {q q' : Promise} (hq : Promises 0 0 σ q q') (hw : Worlds S 0 0 σ w w') :
    Attempts S (Promises 0 0) Contexts (fun _ _ => True) (Promise.showRest env) σ q' w w'
      (Promise.forceRest env (means env n).lists q w) (Promise.forceRest env (means env n).lists q' w') := by
  refine (rest_attempts hg n hq hw).since.imp ?_ (fun _ _ _ _ _ _ => trivial) ?_
  · rintro τ _ _ ⟨hτ, l, l', rfl, rfl, hl⟩
    exact Promises.withRest (hq.mono hτ) hl
  · rintro τ _ _ w₁' ⟨-, l, l', rfl, rfl, -⟩ hc
    exact Course.bind_congr_worlds hc _

/-- An attempt at what is asked of an answer. -/
theorem askAnswer_attempts (n : Nat) (d : Demand) {a a' : Answer} (ha : Answers 0 0 σ a a') (hw : Worlds S 0 0 σ w w') :
    Attempts S (Answers 0 0) Showns (fun _ _ => True) (d.showAnswer env) σ a' w w'
      (d.askAnswer (means env n) n a w) (d.askAnswer (means env n) n a' w') := by
  have hpart : ∀ {α : Type} {A : Stage → α → α → Prop} {show' : α → Shown},
      (∀ τ b b', A τ b b' → τ.Showns (show' b) (show' b')) → ∀ τ o o', Option.Rel (A τ) o o' →
        τ.Showns (.ofPart show' o) (.ofPart show' o') := by
    rintro α A show' hshow τ _ _ (hb | _)
    · exact hshow _ _ _ hb
    · exact .missing
  cases d with
  | force => exact .ok (showns_of_answers ha) ha trivial hw (.refl σ w)
  | settle =>
    have hsettled := (settled_attempts hg n ha hw fun c t => pure (t.toAnswer.shown, t.under c)).imp
      (Q := fun _ _ => True) (fun _ _ _ h => h.1) (fun _ _ _ _ _ _ => trivial) fun _ _ _ _ _ hc => hc
    refine hsettled.map (fun t => t.toAnswer.shown) (fun t => t.toAnswer.shown) ?_ ?_
    · exact fun τ t t' ht => showns_of_answers (answers_of_settled ht)
    · exact fun _ _ _ => trivial
  | value =>
    exact (onPromise_attempts hg n (showValue_attempts hg n) ha hw).map _ _ (hpart fun _ _ _ => .value) fun _ _ h => h
  | rest =>
    exact (onPromise_attempts hg n (showRest_attempts hg n) ha hw).map _ _ (hpart fun _ _ _ => .rest) fun _ _ h => h

omit hg in
theorem uncons_reading (τ : Stage) {l l' : Nat} {x x' : Node} (hx : Nodes l l' τ x x') :
    Endings (fun τ c c' => τ.Showns (.cell c) (.cell c')) τ (Node.cell x) (Node.cell x') := by
  cases hx with
  | item k hv hl => exact .ok (.cell hv (.mk hl k))
  | ended he => exact he.reading .noCell

/-- **An attempt at a query.** What is left to do comes to the same beside it; reading a list leaves the outcome alone. -/
theorem Query.ask_attempts (n : Nat) {q q' : Query} (hq : σ.Queries q q') {s s' : Suspended} (hs : Suspensions 0 0 σ s s')
    (hw : Worlds S 0 0 σ w w') :
    Attempts S (fun τ x x' => Suspensions 0 0 τ x x' ∧ ((∀ d, q' ≠ .outcome d) → x' = s')) Showns (fun _ _ => True)
      (q'.shows env) σ s' w w' (q.ask (means env n) n s w) (q'.ask (means env n) n s' w') := by
  have hlist : ∀ τ, σ ≤ τ → Suspensions 0 0 τ s s' ∧ ((∀ d, q' ≠ .outcome d) → s' = s') := fun τ hτ => ⟨hs.mono hτ, fun _ => rfl⟩
  cases hq with
  | outcome d =>
    have hready : ∀ a, (Query.outcome d).shows env (.ready a) = d.showAnswer env a >>= fun x => pure (x.1, .ready x.2) := by
      intro a
      rw [Query.shows, answer_ready, pure_bind]
    have hattempt : Attempts S (Suspensions 0 0) Showns (fun _ _ => True) ((Query.outcome d).shows env) σ s' w w'
        (((means env n).force >>= fun a => Hold.within .ready a (d.askAnswer (means env n) n)) s w)
        (((means env n).force >>= fun a => Hold.within .ready a (d.askAnswer (means env n) n)) s' w') := by
      refine (force_attempts hg n hs hw).bind (fun _ _ _ _ h => h) ?_ ?_
      · exact fun τ s₁ s₁' w₁' _ hc => Course.bind_congr_worlds hc _
      rintro τ hτ a a' s₁ _ w₁ w₁' hy ha hs₁ rfl hw₁
      refine ⟨?_, Attempts.within _ _ (askAnswer_attempts hg n d ha hw₁) ?_ (fun _ _ h => h) ?_⟩
      · rw [hready, Query.shows, Course.bind_of_ok (answer_of_force (x := .ok a') hy)]
      · exact fun υ _ _ _ h => .ready h
      · intro a₁' w₂' hc
        rw [hready, hready]
        exact Course.bind_congr_worlds hc _
    exact hattempt.imp (fun _ _ _ h => ⟨h, fun hd => absurd rfl (hd d)⟩) (fun _ _ _ _ _ _ => trivial) fun _ _ _ _ _ hc => hc
  | @uncons i i' hi =>
    have htries : Tries S (fun τ c c' => τ.Showns (.cell c) (.cell c')) (exec env (.uncons i')) σ w w'
        ((means env n).exec (.uncons i) w) ((means env n).exec (.uncons i') w') := by
      rw [Means.exec_uncons, Means.exec_uncons]
      refine (node_tries hg n hi hw).reading _ _ (fun τ x x' hx => uncons_reading τ hx) fun w₁' hc => ?_
      rw [Act.uncons, exec_node]
      exact Course.bind_congr_worlds hc _
    have hshown := htries.map (B := Showns) Shown.cell Shown.cell (fun _ _ _ _ h => h) fun _ hc => hc
    refine hshown.lift ?_ ?_ ?_
    · exact hlist
    · exact fun _ => trivial
    · intro w₁' hc
      rw [Query.shows]
      exact Course.bind_congr_worlds hc _
  | @toArray i i' hi =>
    have htries : Tries S (fun τ => List.Forall₂ τ.Values) (exec env (.toArray i')) σ w w'
        ((means env n).exec (.toArray i) w) ((means env n).exec (.toArray i') w') := by
      rw [Means.exec_toArray, Means.exec_toArray]
      refine (walk_tries hg n n hi .nil hw).reading (fun x => x.2.reading x.1) (fun x => x.2.reading x.1)
        (fun τ x x' hx => hx.2.reading hx.1) fun w₁' hc => ?_
      rw [Act.toArray, exec_walk]
      exact Course.bind_congr_worlds hc _
    have hshown := htries.map (B := Showns) Shown.items Shown.items (fun _ _ _ _ h => .items h) fun _ hc => hc
    refine hshown.lift ?_ ?_ ?_
    · exact hlist
    · exact fun _ => trivial
    · intro w₁' hc
      rw [Query.shows]
      exact Course.bind_congr_worlds hc _

end Attempts

end OnDemand

end CommittedChoice
