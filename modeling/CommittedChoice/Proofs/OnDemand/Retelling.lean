import CommittedChoice.Proofs.OnDemand.Queries

/-!
# Queries that are asked again

What a consumer was shown once is known from then on, to the outcome in hand or to the nodes of a list. So it is shown the
same whenever it asks again, and that changes nothing, whatever was asked or stopped in between.

- `Answer.Tells`: what an answer says at once. It says so after every other query (`Answer.Tells.ask`);
- `World.Listed`: a list whose items and whose end are known;
- `Query.Told`: a query whose reply is known. It is after it was answered (`Query.Ends.told`), it stays so
  (`Query.Told.after`), and asking again changes nothing (`Query.Told.ends`).
-/

namespace CommittedChoice

/-- All nodes of a list from this one on are known: they are these items and this end. -/
inductive World.Listed (w : World) : Nat → List Value → ListEnd → Prop
  | ended {i e} : w.cell i = some (.forced (.ended e)) → Listed w i [] e
  | item {i v next vs e} : w.cell i = some (.forced (.item v next)) → Listed w next vs e → Listed w i (v :: vs) e

namespace OnDemand

open Run (limit Steady)

variable {env : Env} {n : Nat} {w w' : World}

/-! ## Answers -/

/-- What is settled says this at once when it is asked something. -/
inductive Settled.Tells : Settled → Demand → Shown → Prop
  | settle (t) : Tells t .settle t.toAnswer.shown
  | noValue (z m) : Tells (.failure z m) .value .missing
  | noRest (z m) : Tells (.failure z m) .rest .missing
  | value {q v} : q.value = .known v → Tells (.success q) .value (.value v)
  | rest {q z} : q.rest = .known z → Tells (.success q) .rest (.rest z)

/-- An answer says at once what shows of it, and the rest if it has settled. -/
inductive Answer.Tells : Answer → Demand → Shown → Prop
  | force (a) : Tells a .force a.shown
  | settled (c) {t d r} : t.Tells d r → Tells (Settled.under c t) d r

/-- A success whose parts that were known are known to be the same. -/
structure Promise.Retains (q q' : Promise) : Prop where
  value : ∀ v, q.value = .known v → q'.value = .known v
  rest : ∀ z, q.rest = .known z → q'.rest = .known z

/-- The same of what is settled. -/
inductive Settled.Retains : Settled → Settled → Prop
  | failure (z m) : Retains (.failure z m) (.failure z m)
  | success {q q'} : q.Retains q' → Retains (.success q) (.success q')

theorem Promise.Retains.refl (q : Promise) : q.Retains q := ⟨fun _ => id, fun _ => id⟩

theorem Settled.Retains.refl (t : Settled) : t.Retains t := by
  cases t with
  | failure z m => exact .failure z m
  | success q => exact .success (.refl q)

theorem forceValue_retains {q q' : Promise} {y : Except Fault Value}
    (h : Promise.forceValue env (means env n).lists q w = (y.mapError .fault, q', w')) : q.Retains q' := by
  obtain ⟨-, l, rfl, hl⟩ := part_of_late q.value (fun l => { q with value := l }) h
  exact ⟨hl, fun _ => id⟩

theorem forceRest_retains {q q' : Promise} {y : Except Fault Context}
    (h : Promise.forceRest env (means env n).lists q w = (y.mapError .fault, q', w')) : q.Retains q' := by
  obtain ⟨-, l, rfl, hl⟩ := part_of_late q.rest (fun l => { q with rest := l }) h
  exact ⟨fun _ => id, hl⟩

namespace Settled.Tells

variable {t t' : Settled} {d : Demand} {r : Shown}

/-- What was said is said as long as the parts that are known are. -/
theorem retained (h : t.Tells d r) (ht : t.Retains t') : t'.Tells d r := by
  cases h with
  | settle =>
    have hshown : t'.toAnswer.shown = t.toAnswer.shown := by cases ht <;> rfl
    rw [← hshown]
    exact .settle t'
  | noValue z m =>
    cases ht
    exact .noValue z m
  | noRest z m =>
    cases ht
    exact .noRest z m
  | value hv =>
    cases ht with
    | success hq => exact .value (hq.value _ hv)
  | rest hz =>
    cases ht with
    | success hq => exact .rest (hq.rest _ hz)

/-- What is said is shown of the answer, and nothing changes. -/
theorem showAnswer (h : t.Tells d r) (c : Bool) (w : World) :
    d.showAnswer env (t.under c) w = some (.ok (r, t.under c), w) := by
  have hsettle : settleAnswer env (t.under c) w = some (.ok t, w) := by
    rw [settleAnswer_under]
    rfl
  cases h with
  | settle | noValue z m | noRest z m =>
    rw [Demand.showAnswer, Course.bind_of_ok hsettle, Settled.isCommitted_under]
    rfl
  | @value q v hv =>
    obtain ⟨rest, value, finish⟩ := q
    cases hv
    rw [Demand.showAnswer, Course.bind_of_ok hsettle, Settled.isCommitted_under, Settled.showPart, Promise.showValue,
      late_known, pure_bind, pure_bind]
    rfl
  | @rest q z hz =>
    obtain ⟨rest, value, finish⟩ := q
    cases hz
    rw [Demand.showAnswer, Course.bind_of_ok hsettle, Settled.isCommitted_under, Settled.showPart, Promise.showRest,
      late_known, pure_bind, pure_bind]
    rfl

end Settled.Tells

namespace Answer.Tells

variable {a a' : Answer} {d d' : Demand} {r : Shown}

/-- What was shown of an answer is said at once by the answer that is kept. -/
theorem of_showAnswer (h : d.showAnswer env a w = some (.ok (r, a'), w')) : a'.Tells d r := by
  cases d with
  | force =>
    cases h
    exact .force a
  | settle =>
    obtain ⟨t, w₁, -, ht⟩ := Course.bind_eq_ok h
    cases ht
    exact .settled _ (.settle t)
  | value =>
    obtain ⟨t, w₁, -, ht⟩ := Course.bind_eq_ok h
    cases t with
    | failure z m =>
      cases ht
      exact .settled _ (.noValue z m)
    | success q =>
      obtain ⟨x, w₂, hx, hq⟩ := Course.bind_eq_ok ht
      obtain ⟨v, w₃, -, hv⟩ := Course.bind_eq_ok hx
      cases hv
      cases hq
      exact .settled _ (.value rfl)
  | rest =>
    obtain ⟨t, w₁, -, ht⟩ := Course.bind_eq_ok h
    cases t with
    | failure z m =>
      cases ht
      exact .settled _ (.noRest z m)
    | success q =>
      obtain ⟨x, w₂, hx, hq⟩ := Course.bind_eq_ok ht
      obtain ⟨z, w₃, -, hz⟩ := Course.bind_eq_ok hx
      cases hz
      cases hq
      exact .settled _ (.rest rfl)

/-- What an answer says at once is shown of it, and nothing changes. -/
theorem showAnswer (h : a.Tells d r) (w : World) : d.showAnswer env a w = some (.ok (r, a), w) := by
  cases h with
  | force => rfl
  | settled c h => exact h.showAnswer c w

/-- An answer that has settled says what it said before. -/
theorem after (h : a.Tells d r) {t t' : Settled} {w₁ : World} (ht : settleAnswer env a w = some (.ok t, w₁))
    (ht' : t.Retains t') : (t'.under a.isCommitted).Tells d r := by
  cases h with
  | force =>
    have hshown : (t'.under a.isCommitted).shown = a.shown := by
      cases a with
      | success q =>
        cases ht
        cases ht'
        rfl
      | failure z m =>
        cases ht
        cases ht'
        rfl
      | committed inner => rfl
    rw [← hshown]
    exact .force _
  | settled c h =>
    rw [settleAnswer_under] at ht
    cases ht
    rw [Settled.isCommitted_under]
    exact .settled c (h.retained ht')

/-- An answer that was stopped before it settled says what it said before: it was only asked what shows of it. -/
theorem unsettled (h : a.Tells d r) {e : Fault} {w₁ : World} (hs : settleAnswer env a w = some (.error e, w₁))
    (htag : a'.tag = a.tag) : a'.Tells d r := by
  cases h with
  | force =>
    cases a with
    | success q => cases hs
    | failure z m => cases hs
    | committed inner =>
      cases a' with
      | success q => cases htag
      | failure z m => cases htag
      | committed inner' => exact .force (.committed inner')
  | settled c _ =>
    rw [settleAnswer_under] at hs
    cases hs

/-- After a demand for a part of a success, an answer says what it said before. -/
theorem onPromise (h : a.Tells d r) {α : Type} {f : Hold Promise α} {x : Except Fault (Option α)}
    (hf : ∀ {q q' : Promise} {y : Except Fault α} {w w' : World}, f q w = (y.mapError .fault, q', w') → q.Retains q')
    (hpart : (means env n).onPromise n f a w = (x.mapError .fault, a', w')) : a'.Tells d r := by
  rcases onPromise_cases hpart with ⟨e, rfl, hs, htag⟩ | ⟨z, message, rfl, hs, rfl⟩ | ⟨q, w₁, q', y, hs, hy, rfl, rfl⟩
  · exact h.unsettled hs htag
  · exact h.after hs (.refl _)
  · exact h.after hs (.success (hf hy))

/-- **What an answer says it says after every demand**, whatever became of that. -/
theorem ask (h : a.Tells d r) {x : Except Fault Shown}
    (hask : d'.askAnswer (means env n) n a w = (x.mapError .fault, a', w')) : a'.Tells d r := by
  cases d' with
  | force =>
    have hkept : a = a' := congrArg (fun y => y.2.1) hask
    exact hkept ▸ h
  | settle =>
    obtain ⟨y, hy, rfl⟩ := Hold.map_cases hask
    have hs := settleAnswer_of_settled hy
    cases y with
    | error e => exact h.unsettled hs (settled_tag hy)
    | ok t =>
      rw [settled_keeps hy]
      exact h.after hs (.refl t)
  | value =>
    obtain ⟨y, hy, rfl⟩ := Hold.map_cases hask
    exact h.onPromise (fun h => forceValue_retains h) hy
  | rest =>
    obtain ⟨y, hy, rfl⟩ := Hold.map_cases hask
    exact h.onPromise (fun h => forceRest_retains h) hy

end Answer.Tells

end OnDemand

/-! ## Lists -/

theorem ListEnd.reading_eq_ok {α : Type} {e : ListEnd} {a b : α} (h : e.reading a = .ok b) : a = b := by
  unfold ListEnd.reading at h
  split at h <;> cases h
  rfl

namespace World.Listed

variable {w w' : World} {i : Nat} {vs : List Value} {e : ListEnd}

theorem before (h : w.Listed i vs e) (hbefore : w.Before w') : w'.Listed i vs e := by
  induction h with
  | ended hcell => exact .ended (hbefore.cell hcell)
  | item hcell _ ih => exact .item (hbefore.cell hcell) ih

open OnDemand in
/-- Walking such a list gives what is known and changes nothing. -/
theorem walkFrom {env : Env} (h : w.Listed i vs e) (done : List Value) :
    OnDemand.walkFrom env i done w = some (.ok (done.reverse ++ vs, e), w) := by
  induction h generalizing done with
  | ended hcell =>
    rw [walkFrom_eq, Course.bind_of_ok (nodeAt_of_cell hcell), List.append_nil]
    rfl
  | @item i v next vs e hcell _ ih =>
    rw [walkFrom_eq, Course.bind_of_ok (nodeAt_of_cell hcell), List.append_cons, ← List.reverse_cons]
    exact ih (v :: done)

end World.Listed

namespace OnDemand

open Run (limit Steady)

variable {env : Env} {n : Nat} {w w' : World}

theorem walk_grows (env : Env) (n fuel i : Nat) (done : List Value) : (walk (node env n) fuel i done).Grows :=
  @walk_related _ .grows (node env n) (node env n) (means_grows env n).node _ _ (Nat.le_refl fuel) i done

/-- The items and the end of a list that was walked are known. -/
theorem walk_listed {fuel i : Nat} {done us : List Value} {e : ListEnd}
    (h : walk (node env n) fuel i done w = (.ok (us, e), w')) : ∃ vs, us = done.reverse ++ vs ∧ w'.Listed i vs e := by
  induction fuel generalizing i done w with
  | zero => cases h
  | succ fuel ih =>
    obtain ⟨x, w₁, hx, hrest⟩ := Run.bind_eq_ok h
    cases x with
    | ended e' =>
      cases hrest
      exact ⟨[], (List.append_nil _).symm, .ended (cell_of_node hx)⟩
    | item v next =>
      obtain ⟨vs, hvs, hlisted⟩ := ih hrest
      have hbefore : w₁.Before w' := by
        have hgrows := walk_grows env n fuel next (v :: done) w₁
        rwa [show walk (node env n) fuel next (v :: done) w₁ = (.ok (us, e), w') from hrest] at hgrows
      refine ⟨v :: vs, ?_, .item (hbefore.cell (cell_of_node hx)) hlisted⟩
      rw [hvs, List.reverse_cons, List.append_assoc, List.singleton_append]

/-! ## Queries -/

namespace Query

/-- A query whose reply is known. -/
inductive Told : Query → Suspended → World → Shown → Prop
  | outcome {d a w r} : a.Tells d r → Told (.outcome d) (.ready a) w r
  | uncons {i s w x c} : w.cell i = some (.forced x) → Node.cell x = .ok c → Told (.uncons i) s w (.cell c)
  | toArray {i s w vs e} : w.Listed i vs e → e.reading vs = .ok vs → Told (.toArray i) s w (.items vs)

variable {q q' : Query} {s s' : Suspended} {r : Shown} {x : Except Fault Shown}

theorem Ends.before (h : q.Ends env s w x s' w') : w.Before w' := by
  obtain ⟨n, hn⟩ := h
  have hgrows := q.ask_related .grows (Nat.le_refl n) (means_grows env n) s w
  unfold Hold.on at hgrows
  rwa [hn] at hgrows

theorem ofExcept_eq_ok {α : Type} {y : Except Fault α} {a : α} (h : Run.ofExcept y w = (.ok a, w')) :
    y = .ok a ∧ w = w' := by
  cases y with
  | error e => cases h
  | ok b =>
    cases h
    exact ⟨rfl, rfl⟩

/-- What is read off a list is all that there is to a query about it. -/
theorem run_of_lift {α : Type} (act : Act α) {g : α → Shown}
    (h : (Hold.lift do return g (← (means env n).exec act) : Hold Suspended Shown) s w = (.ok r, s', w')) :
    ∃ a, (means env n).exec act w = (.ok a, w') ∧ r = g a := by
  obtain ⟨a, w₁, ha, hr⟩ := Run.bind_eq_ok (lift_eq_iff.1 h).1
  cases hr
  exact ⟨a, ha, rfl⟩

/-- **A query that was answered is told.** -/
theorem Ends.told (h : q.Ends env s w (.ok r) s' w') : q.Told s' w' r := by
  cases q with
  | outcome d =>
    obtain ⟨a, w₁, -, hshow⟩ := Course.bind_eq_ok h.shows
    obtain ⟨x, w₂, hx, hr⟩ := Course.bind_eq_ok hshow
    obtain ⟨r₁, a₁⟩ := x
    cases hr
    exact .outcome (.of_showAnswer hx)
  | uncons i =>
    obtain ⟨n, hn⟩ := h
    obtain ⟨c, hc, rfl⟩ := run_of_lift (.uncons i) hn
    rw [Means.exec_uncons] at hc
    obtain ⟨x, w₁, hx, hcell⟩ := Run.bind_eq_ok hc
    obtain ⟨hxc, rfl⟩ := ofExcept_eq_ok hcell
    exact .uncons (cell_of_node hx) hxc
  | toArray i =>
    obtain ⟨n, hn⟩ := h
    obtain ⟨us, hus, rfl⟩ := run_of_lift (.toArray i) hn
    rw [Means.exec_toArray] at hus
    obtain ⟨⟨vs, e⟩, w₁, hx, hread⟩ := Run.bind_eq_ok hus
    obtain ⟨hreading, rfl⟩ := ofExcept_eq_ok hread
    obtain ⟨_, rfl, hlisted⟩ := walk_listed hx
    cases ListEnd.reading_eq_ok hreading
    exact .toArray hlisted hreading

/-- **A query that was told stays told**, whatever becomes of the next one. -/
theorem Told.after (h : q.Told s w r) (h' : q'.Ends env s w x s' w') : q.Told s' w' r := by
  cases h with
  | uncons hcell hc => exact .uncons (h'.before.cell hcell) hc
  | toArray hlisted hreading => exact .toArray (hlisted.before h'.before) hreading
  | @outcome d a w r htells =>
    by_cases hlist : ∃ d', q' = .outcome d'
    · obtain ⟨d', rfl⟩ := hlist
      obtain ⟨n, hn⟩ := h'
      rcases onAnswer_cases hn with ⟨e, rfl, ha⟩ | ⟨a₁, w₁, a', ha, hask, rfl⟩
      · rw [answer_ready] at ha
        cases ha
      · rw [answer_ready] at ha
        cases ha
        exact .outcome (htells.ask hask)
    · obtain ⟨n, hn⟩ := h'
      rw [ask_list (fun d' hd' => hlist ⟨d', hd'⟩) hn]
      exact .outcome htells

/-- **Asking it again changes nothing.** -/
theorem Told.ends (h : q.Told s w r) : q.Ends env s w (.ok r) s w := by
  have hshows : q.shows env s w = some (.ok (r, s), w) := by
    cases h with
    | outcome htells =>
      rw [shows, answer_ready, pure_bind, Course.bind_of_ok (htells.showAnswer w)]
      rfl
    | @uncons i s w x c hcell hc =>
      have hexec : exec env (.uncons i) w = some (.ok c, w) := by
        rw [Act.uncons, exec_node, Course.bind_of_ok (nodeAt_of_cell hcell), ← hc]
        cases x with
        | item v next => exact congrFun (exec_pure _) w
        | ended e => exact Trail.exec_reading none w
      rw [shows, Course.bind_of_ok hexec]
      rfl
    | @toArray i s w vs e hlisted hreading =>
      have hexec : exec env (.toArray i) w = some (.ok vs, w) := by
        rw [Act.toArray, exec_walk, Course.bind_of_ok (hlisted.walkFrom []), ← hreading]
        exact Trail.exec_reading vs w
      rw [shows, Course.bind_of_ok hexec]
      rfl
  obtain ⟨s', hends, hs'⟩ := ends_of_shows hshows
  cases hs'
  exact hends

end Query

end OnDemand

end CommittedChoice
