import Mathlib.Data.List.Permutation
import CommittedChoice.Proofs.OnDemand.Retelling
import CommittedChoice.Proofs.Opening

/-!
# Parsing that is taken up again

A source may fail at some calls without giving a token. Whoever is stopped by such a call asks the same again, until the
source does not fail. What is shown in the end is what a source that never fails would have led to.

- `Holder`: who holds an outcome, what was asked and told so far, and the query that was stopped. `Holder.Step`: one
  attempt;
- `Holder.Beside`: a holder beside one whose source never fails. Every attempt of the first one is none of the second
  one, or its next query (`Beside.step`); every query of the second one is answered to the first one after enough attempts
  (`Beside.answered`);
- `Strict.Applied`: a strict parser that is applied again and again to one stream;
- `parsing_resumes`: both, from the start.
-/

namespace CommittedChoice

open OnDemand
open Stage (Endings)

/-! ## Names -/

/-- The names in a remainder. What comes from a source has none. -/
def Remainder.names : Remainder → List Name
  | .tokens ts _ => Value.namesAll ts
  | .chars _ _ | .fed _ => []
  | .pushed t more base _ => t.names ++ Value.namesAll more ++ base.names
  | .shifted base _ => base.names

/-- The names in a context. -/
def Context.names (z : Context) : List Name := z.input.names ++ z.state.names

namespace Stage

variable {σ : Stage}

theorem Remainders.names {s s' : Remainder} (h : σ.Remainders s s') : List.Forall₂ σ.Names s.names s'.names := by
  induction h with
  | tokens hts _ => exact Values.namesAll hts
  | chars _ _ | fed _ => exact .nil
  | pushed ht hmore _ _ ih => exact List.rel_append (List.rel_append ht.names (Values.namesAll hmore)) ih
  | shifted _ _ ih => exact ih

theorem Contexts.names {z z' : Context} (h : σ.Contexts z z') : List.Forall₂ σ.Names z.names z'.names :=
  List.rel_append h.input.names h.state.names

end Stage

namespace OnDemand

/-- The names in what is shown. -/
def Shown.names : Shown → List Name
  | .failure z _ | .rest z => z.names
  | .value v => v.names
  | .cell (some (v, i)) => v.names ++ [.node i]
  | .items vs => Value.namesAll vs
  | .success | .committed | .missing | .cell none => []

theorem Shown.forall₂_names {σ : Stage} {r r' : Shown} (h : σ.Showns r r') : List.Forall₂ σ.Names r.names r'.names := by
  cases h with
  | success | committed | missing | noCell => exact .nil
  | failure _ hz | rest hz => exact hz.names
  | value hv => exact hv.names
  | cell hv hi => exact List.rel_append hv.names (.cons (.node hi) .nil)
  | items hvs => exact Stage.Values.namesAll hvs

/-! ## Holders -/

/-- A query and what it came to. -/
structure Exchange where
  query : Query
  reply : Except Fault Shown

namespace Exchange

/-- The names that were shown. -/
def names (e : Exchange) : List Name :=
  match e.reply with
  | .ok r => r.names
  | .error _ => []

/-- There is something to ask after this. A demand on the outcome has to be answered for that; a list may also end in an
error, such as a committed failure. -/
def GoesOn (e : Exchange) : Prop := ∀ d, e.query = .outcome d → ∃ r, e.reply = .ok r

end Exchange

/-- The query is about the outcome in hand, or about a list that was shown. -/
def Query.On (names : List Name) : Query → Prop
  | .outcome _ => True
  | .uncons i | .toArray i => .node i ∈ names

/-- A holder of an outcome. -/
structure Holder where
  /-- What was asked and told, the last first. -/
  told : List Exchange := []
  /-- What was asked last, if the source has stopped it. -/
  waiting : Option Query := none
  held : Suspended
  world : World

namespace Holder

/-- A holder that has asked nothing yet, with a source that was not called yet. -/
def start (p : Parser) (u : Value) (source : Nat → Pull) : Holder where
  held := .apply p ⟨.ofFeed, u⟩
  world := { feed := { source := source } }

/-- The names that were shown so far. -/
def names (k : Holder) : List Name := k.told.flatMap Exchange.names

/-- There is something to ask. -/
def GoesOn (k : Holder) : Prop := ∀ e ∈ k.told, e.GoesOn

/-- What may be asked next: a query that was stopped is asked again. -/
structure MayAsk (k : Holder) (q : Query) : Prop where
  on : q.On k.names
  again : ∀ q₁, k.waiting = some q₁ → q = q₁
  goesOn : k.GoesOn

variable (env : Env)

/-- One attempt of a holder. -/
inductive Step : Holder → Holder → Prop
  | stopped {k q c s w} : k.MayAsk q → q.Ends env k.held k.world (.error (.source c)) s w →
      Step k { k with waiting := some q, held := s, world := w }
  | told {k q x s w} : k.MayAsk q → q.Ends env k.held k.world x s w → (∀ c, x ≠ .error (.source c)) →
      Step k { told := ⟨q, x⟩ :: k.told, held := s, world := w }

/-- What a holder comes to by attempts. -/
abbrev Reaches : Holder → Holder → Prop := Relation.ReflTransGen (Step env)

variable {env} {k k₁ : Holder}

theorem Step.before (h : k.Step env k₁) : k.world.Before k₁.world := by
  cases h with
  | stopped _ hends => exact hends.before
  | told _ hends _ => exact hends.before

theorem Reaches.before (h : k.Reaches env k₁) : k.world.Before k₁.world := by
  induction h with
  | refl => exact .refl _
  | tail _ hstep ih => exact ih.trans hstep.before

/-- **What was told stays told.** -/
theorem Reaches.told {p : Parser} {u : Value} {source : Nat → Pull} (h : (start p u source).Reaches env k) :
    ∀ e ∈ k.told, ∀ r, e.reply = .ok r → e.query.Told k.held k.world r := by
  induction h with
  | refl => exact fun _ he => absurd he List.not_mem_nil
  | tail _ hstep ih =>
    cases hstep with
    | stopped _ hends => exact fun e he r hr => (ih e he r hr).after hends
    | told _ hends _ =>
      intro e he r hr
      rcases List.mem_cons.1 he with rfl | he
      · cases hr
        exact hends.told
      · exact (ih e he r hr).after hends

end Holder

end OnDemand

/-! ## A holder whose source never fails -/

namespace Stage

/-- The same query in both runs, which ends alike. -/
structure Exchanges (σ : Stage) (e e' : Exchange) : Prop where
  query : σ.Queries e.query e'.query
  reply : Endings Showns σ e.reply e'.reply

variable {ρ σ τ : Stage} {e e' : Exchange}

theorem showns_monotone : Monotone Showns := fun _ _ h _ _ hr => hr.mono h

theorem Exchanges.mono (h : ρ ≤ σ) (he : ρ.Exchanges e e') : σ.Exchanges e e' :=
  ⟨he.query.mono h, he.reply.mono showns_monotone h⟩

theorem Exchanges.mono_all (h : ρ ≤ σ) {es es' : List Exchange} (hes : List.Forall₂ ρ.Exchanges es es') :
    List.Forall₂ σ.Exchanges es es' := hes.imp fun _ _ => mono h

/-- What ends in both runs is not stopped by the source. -/
theorem Endings.first_ne {α : Type} {A : Stage → α → α → Prop} {x x' : Except Fault α} (h : Endings A σ x x') (c : Nat) :
    x ≠ .error (.source c) := by
  cases h with
  | ok _ => exact nofun
  | error he =>
    rintro ⟨⟩
    exact he c rfl

theorem Endings.second_ne {α : Type} {A : Stage → α → α → Prop} {x x' : Except Fault α} (h : Endings A σ x x') (c : Nat) :
    x' ≠ .error (.source c) := by
  cases h with
  | ok _ => exact nofun
  | error he =>
    rintro ⟨⟩
    exact he c rfl

/-- The names that were shown are the same names. -/
theorem Exchanges.names {es es' : List Exchange} (h : List.Forall₂ σ.Exchanges es es') :
    List.Forall₂ σ.Names (es.flatMap Exchange.names) (es'.flatMap Exchange.names) := by
  refine List.rel_flatMap h fun e e' he => ?_
  have hreply := he.reply
  unfold Exchange.names
  generalize e.reply = x at hreply ⊢
  generalize e'.reply = x' at hreply ⊢
  cases hreply with
  | ok hr => exact Shown.forall₂_names hr
  | error _ => exact .nil

theorem Exchanges.goesOn_iff (h : σ.Exchanges e e') : e.GoesOn ↔ e'.GoesOn := by
  obtain ⟨q, x⟩ := e
  obtain ⟨q', x'⟩ := e'
  obtain ⟨hquery, hreply⟩ := h
  cases hquery with
  | outcome d =>
    cases hreply with
    | ok hr => exact ⟨fun _ _ _ => ⟨_, rfl⟩, fun _ _ _ => ⟨_, rfl⟩⟩
    | error he => exact ⟨fun h => absurd (h d rfl) nofun, fun h => absurd (h d rfl) nofun⟩
  | uncons hi => exact ⟨nofun, nofun⟩
  | toArray hi => exact ⟨nofun, nofun⟩

theorem exists_of_forall₂ {α β : Type} {R : α → β → Prop} {as : List α} {bs : List β} (h : List.Forall₂ R as bs) {a : α}
    (ha : a ∈ as) : ∃ b ∈ bs, R a b := by
  induction h with
  | nil => exact absurd ha List.not_mem_nil
  | cons hab _ ih =>
    rcases List.mem_cons.1 ha with rfl | ha
    · exact ⟨_, List.mem_cons_self, hab⟩
    · obtain ⟨b, hb, hR⟩ := ih ha
      exact ⟨b, List.mem_cons_of_mem _ hb, hR⟩

/-- A query about what was shown in the first run is one about what was shown in the second run. -/
theorem Queries.exists_second {ns ns' : List Name} (h : List.Forall₂ σ.Names ns ns') {q : Query} (hq : q.On ns) :
    ∃ q', σ.Queries q q' ∧ q'.On ns' := by
  have hnode : ∀ {i}, .node i ∈ ns → ∃ i', σ.Places i i' ∧ .node i' ∈ ns' := by
    intro i hi
    obtain ⟨_, hmem, hname⟩ := exists_of_forall₂ h hi
    cases hname with
    | node hi' => exact ⟨_, hi', hmem⟩
  cases q with
  | outcome d => exact ⟨_, .outcome d, trivial⟩
  | uncons i =>
    obtain ⟨i', hi', hmem⟩ := hnode hq
    exact ⟨_, .uncons hi', hmem⟩
  | toArray i =>
    obtain ⟨i', hi', hmem⟩ := hnode hq
    exact ⟨_, .toArray hi', hmem⟩

/-- And the other way round. -/
theorem Queries.exists_first {ns ns' : List Name} (h : List.Forall₂ σ.Names ns ns') {q' : Query} (hq : q'.On ns') :
    ∃ q, σ.Queries q q' ∧ q.On ns := by
  have hnode : ∀ {i'}, .node i' ∈ ns' → ∃ i, σ.Places i i' ∧ .node i ∈ ns := by
    intro i' hi'
    obtain ⟨_, hmem, hname⟩ := exists_of_forall₂ h.flip hi'
    cases hname with
    | node hi => exact ⟨_, hi, hmem⟩
  cases q' with
  | outcome d => exact ⟨_, .outcome d, trivial⟩
  | uncons i' =>
    obtain ⟨i, hi, hmem⟩ := hnode hq
    exact ⟨_, .uncons hi, hmem⟩
  | toArray i' =>
    obtain ⟨i, hi, hmem⟩ := hnode hq
    exact ⟨_, .toArray hi, hmem⟩

end Stage

namespace OnDemand

open Stage

variable {env : Env} {S : Supply} {σ τ : Stage}

/-- A query ends in one way. What a demand leaves of an outcome does not matter if it ends in an error. -/
theorem Query.Ends.unique {q : Query} {s s₁ s₂ : Suspended} {w w₁ w₂ : World} {x₁ x₂ : Except Fault Shown}
    (h₁ : q.Ends env s w x₁ s₁ w₁) (h₂ : q.Ends env s w x₂ s₂ w₂) :
    x₁ = x₂ ∧ w₁ = w₂ ∧ (Exchange.GoesOn ⟨q, x₁⟩ → s₁ = s₂) := by
  have hshows := h₁.shows.symm.trans h₂.shows
  cases x₁ with
  | ok r₁ =>
    cases x₂ with
    | error e => cases hshows
    | ok r₂ =>
      cases hshows
      exact ⟨rfl, rfl, fun _ => rfl⟩
  | error e₁ =>
    cases x₂ with
    | ok r => cases hshows
    | error e₂ =>
      cases hshows
      refine ⟨rfl, rfl, fun hgoes => ?_⟩
      have hlist : ∀ d, q ≠ .outcome d := fun d hd => absurd (hgoes d hd) nofun
      obtain ⟨n₁, hn₁⟩ := h₁
      obtain ⟨n₂, hn₂⟩ := h₂
      rw [Query.ask_list hlist hn₁, Query.ask_list hlist hn₂]

/-- A query that was stopped, beside one over a source that never fails: from `x` and `v`, where the second run would be
stopped, it comes to what it comes to from its start. -/
structure Midway (env : Env) (S : Supply) (σ : Stage) (q' : Query) (s : Suspended) (w : World) (s' : Suspended) (w' : World)
    (x : Suspended) (v : World) : Prop where
  held : Suspensions 0 0 σ s x
  worlds : Worlds S 0 0 σ w v
  shows : q'.shows env x v = q'.shows env s' w'
  /-- Reading a list leaves the outcome as it is. -/
  list : (∀ d, q' ≠ .outcome d) → x = s'

section Attempts

variable (hg : ∀ name, (env.grammar name).Pure) {q q' : Query} {s s₁ s' s₁' x : Suspended} {w w₁ w' w₁' v : World}
  {y y' : Except Fault Shown}

include hg

/-- **One attempt at a query.** It is stopped where the source fails, and is somewhere on its way again; or it ends like the
query of the second run. -/
theorem Midway.attempt (h : Midway env S σ q' s w s' w' x v) (hq : σ.Queries q q') (hy : q.Ends env s w y s₁ w₁) :
    (∃ c τ x₁ v₁, y = .error (.source c) ∧ w.feed.Fails w₁.feed c ∧ σ ≤ τ ∧ Midway env S τ q' s₁ w₁ s' w' x₁ v₁) ∨
      ∃ τ y' s₁' w₁', σ ≤ τ ∧ q'.Ends env s' w' y' s₁' w₁' ∧ Endings Showns τ y y' ∧ Worlds S 0 0 τ w₁ w₁' ∧
        (Exchange.GoesOn ⟨q, y⟩ → Suspensions 0 0 τ s₁ s₁') := by
  obtain ⟨n, hn⟩ := hy
  have hattempt := Query.ask_attempts hg n hq h.held h.worlds
  rw [hn] at hattempt
  rcases hask : q'.ask (means env n) n x v with ⟨r', x₁, v₁⟩
  rw [hask] at hattempt
  -- what the second run comes to from where it would be stopped, it comes to from its start
  have hends : ∀ y' : Except Fault Shown, r' = y'.mapError .fault →
      ∃ s₁', q'.Ends env s' w' y' s₁' v₁ ∧ ((∃ r, y' = .ok r) → x₁ = s₁') := by
    rintro y' rfl
    have hshows : q'.shows env s' w' = some (y'.map (·, x₁), v₁) := by
      rw [← h.shows]
      exact Query.Ends.shows ⟨n, hask⟩
    obtain ⟨s₁', hends, heq⟩ := Query.ends_of_shows hshows
    cases y' with
    | error e => exact ⟨s₁', hends, nofun⟩
    | ok r =>
      cases heq
      exact ⟨_, hends, fun _ => rfl⟩
  generalize hr : y.mapError Halt.fault = r at hattempt
  cases hattempt with
  | @ok τ r r' _ _ _ _ hshown hΦ _ hw₁ hsince =>
    cases y with
    | error e => cases hr
    | ok r₀ =>
      cases hr
      obtain ⟨s₁', hends, hs₁'⟩ := hends (.ok r') rfl
      refine .inr ⟨τ, _, s₁', v₁, hsince.le, hends, .ok hshown, hw₁, fun _ => ?_⟩
      rw [← hs₁' ⟨_, rfl⟩]
      exact hΦ.1
  | @fault τ e _ _ _ _ he hw₁ hsince =>
    cases y with
    | ok r₀ => cases hr
    | error e₀ =>
      cases hr
      obtain ⟨s₁', hends, -⟩ := hends (.error e) rfl
      refine .inr ⟨τ, _, s₁', v₁, hsince.le, hends, .error he, hw₁, fun hgoes => ?_⟩
      have hlist : ∀ d, q ≠ .outcome d := fun d hd => absurd (hgoes d hd) nofun
      have hlist' : ∀ d, q' ≠ .outcome d := by
        cases hq with
        | outcome d => exact absurd rfl (hlist d)
        | uncons _ => exact nofun
        | toArray _ => exact nofun
      obtain ⟨n', hn'⟩ := hends
      rw [Query.ask_list hlist hn, Query.ask_list hlist' hn', ← h.list hlist']
      exact h.held.mono hsince.le
  | @stopped τ c _ x₁ _ v₁ _ hΦ hw₁ hsince hc hfails =>
    cases y with
    | ok r₀ => cases hr
    | error e₀ =>
      cases hr
      exact .inl ⟨c, τ, x₁, v₁, rfl, hfails, hsince.le, hΦ.1, hw₁, hc.trans h.shows,
        fun hlist => (hΦ.2 hlist).trans (h.list hlist)⟩
  | outOfFuel => cases y <;> cases hr

/-- A query ends for the first run in some way, if it ends for the second one. -/
theorem Midway.tried (h : Midway env S σ q' s w s' w' x v) (hq : σ.Queries q q') (hy' : q'.Ends env s' w' y' s₁' w₁') :
    ∃ y s₁ w₁, q.Ends env s w y s₁ w₁ := by
  have hshows : q'.shows env x v = some (y'.map (·, s₁'), w₁') := h.shows.trans hy'.shows
  obtain ⟨_, ⟨n, hn⟩, -⟩ := Query.ends_of_shows hshows
  have hattempt := Query.ask_attempts hg n hq h.held h.worlds
  rw [hn] at hattempt
  rcases hask : q.ask (means env n) n s w with ⟨r, s₁, w₁⟩
  rw [hask] at hattempt
  generalize hr : (y'.map (·, s₁')).map Prod.fst = y₀ at hattempt
  generalize hr₀ : y₀.mapError Halt.fault = r₀ at hattempt
  cases hattempt with
  | @ok _ r => exact ⟨.ok r, s₁, w₁, n, hask⟩
  | @fault _ e => exact ⟨.error e, s₁, w₁, n, hask⟩
  | @stopped _ c => exact ⟨.error (.source c), s₁, w₁, n, hask⟩
  | outOfFuel => cases y₀ <;> cases hr₀

end Attempts

namespace Holder

/-- How a holder that may ask something stands beside one whose source never fails. -/
inductive Stands (env : Env) (S : Supply) (σ : Stage) (k k' : Holder) : Prop
  | rests : k.waiting = none → Suspensions 0 0 σ k.held k'.held → Worlds S 0 0 σ k.world k'.world → Stands env S σ k k'
  | waits {q q' x v} : k.waiting = some q → σ.Queries q q' → q'.On k'.names →
      Midway env S σ q' k.held k.world k'.held k'.world x v → Stands env S σ k k'

/-- A holder beside one whose source never fails. -/
structure Beside (env : Env) (S : Supply) (σ : Stage) (k k' : Holder) : Prop where
  told : List.Forall₂ σ.Exchanges k.told k'.told
  ready : k'.waiting = none
  stands : k.GoesOn → Stands env S σ k k'

namespace Beside

variable {k k' k₁ k₁' : Holder} {q q' : Query}

theorem goesOn_iff (h : Beside env S σ k k') : k.GoesOn ↔ k'.GoesOn := by
  have htold := h.told
  constructor
  · intro hgoes e' he'
    obtain ⟨e, he, hee'⟩ := exists_of_forall₂ htold.flip he'
    exact (Exchanges.goesOn_iff hee').1 (hgoes e he)
  · intro hgoes e he
    obtain ⟨e', he', hee'⟩ := exists_of_forall₂ htold he
    exact hee'.goesOn_iff.2 (hgoes e' he')

/-- What the first holder may ask is somewhere on its way, and the second one may ask it. -/
theorem midway (h : Beside env S σ k k') (hq : k.MayAsk q) : ∃ q' x v, σ.Queries q q' ∧ k'.MayAsk q' ∧
    Midway env S σ q' k.held k.world k'.held k'.world x v := by
  have hgoes : k'.GoesOn := h.goesOn_iff.1 hq.goesOn
  have hagain : ∀ (q' : Query) q₁, k'.waiting = some q₁ → q' = q₁ := by
    intro q' q₁ hq₁
    rw [h.ready] at hq₁
    cases hq₁
  cases h.stands hq.goesOn with
  | rests hwaiting hheld hworlds =>
    obtain ⟨q', hqq', hon⟩ := Queries.exists_second (Exchanges.names h.told) hq.on
    exact ⟨q', _, _, hqq', ⟨hon, hagain q', hgoes⟩, hheld, hworlds, rfl, fun _ => rfl⟩
  | waits hwaiting hqq' hon hmidway =>
    cases hq.again _ hwaiting
    exact ⟨_, _, _, hqq', ⟨hon, hagain _, hgoes⟩, hmidway⟩

variable (hg : ∀ name, (env.grammar name).Pure)

include hg

/-- **An attempt of the first holder** is none of the second one, or its next query. -/
theorem step (h : Beside env S σ k k') (hstep : k.Step env k₁) :
    ∃ τ k₁', σ ≤ τ ∧ k'.Reaches env k₁' ∧ Beside env S τ k₁ k₁' := by
  cases hstep with
  | @stopped q c s w hq hends =>
    obtain ⟨q', x, v, hqq', hq', hmidway⟩ := h.midway hq
    rcases hmidway.attempt hg hqq' hends with ⟨_, τ, x₁, v₁, -, -, hτ, hmidway₁⟩ | ⟨_, _, _, _, -, -, hreply, -, -⟩
    · exact ⟨τ, k', hτ, .refl, Exchanges.mono_all hτ h.told, h.ready,
        fun _ => .waits rfl (hqq'.mono hτ) hq'.on hmidway₁⟩
    · exact absurd rfl (hreply.first_ne c)
  | @told q x s w hq hends hx =>
    obtain ⟨q', _, _, hqq', hq', hmidway⟩ := h.midway hq
    rcases hmidway.attempt hg hqq' hends with ⟨c, _, _, _, rfl, -⟩ | ⟨τ, y', s₁', w₁', hτ, hends', hreply, hworlds, hheld⟩
    · exact absurd rfl (hx c)
    · have hexchange : τ.Exchanges ⟨q, x⟩ ⟨q', y'⟩ := ⟨hqq'.mono hτ, hreply⟩
      refine ⟨τ, _, hτ, .single (.told hq' hends' hreply.second_ne), .cons hexchange (Exchanges.mono_all hτ h.told), rfl,
        fun hgoes => ?_⟩
      exact .rests rfl (hheld (hgoes _ List.mem_cons_self)) hworlds

/-- A holder that is stopped is stopped by a call at which the source fails. -/
theorem fails (h : Beside env S σ k k') (hq : k.MayAsk q) {c : Nat} {s : Suspended} {w : World}
    (hends : q.Ends env k.held k.world (.error (.source c)) s w) : k.world.feed.Fails w.feed c := by
  obtain ⟨q', _, _, hqq', -, hmidway⟩ := h.midway hq
  rcases hmidway.attempt hg hqq' hends with ⟨_, _, _, _, ⟨⟩, hfails, -⟩ | ⟨_, _, _, _, -, -, hreply, -, -⟩
  · exact hfails
  · exact absurd rfl (hreply.first_ne c)

/-- **A query that ends for the second holder is answered to the first one** after enough attempts, if its source fails at
no call from some call on. -/
theorem answered {N : Nat} {y' : Except Fault Shown} {s₁' : Suspended} {w₁' : World}
    (hends : q'.Ends env k'.held k'.world y' s₁' w₁') {x : Suspended} {v : World} (hq : k.MayAsk q) (hqq' : σ.Queries q q')
    (htold : List.Forall₂ σ.Exchanges k.told k'.told) (hmidway : Midway env S σ q' k.held k.world k'.held k'.world x v)
    (hN : ∀ c, N ≤ c → k.world.feed.source c ≠ .failed) :
    ∃ τ k₁, k.Reaches env k₁ ∧ k₁.waiting = none ∧
      Beside env S τ k₁ { told := ⟨q', y'⟩ :: k'.told, held := s₁', world := w₁' } := by
  -- the calls that may still fail become fewer with every attempt
  induction hm : N - k.world.feed.calls using Nat.strong_induction_on generalizing k σ x v with
  | _ m ih =>
    obtain ⟨y, s, w, hy⟩ := hmidway.tried hg hqq' hends
    rcases hmidway.attempt hg hqq' hy with
      ⟨c, τ, x₁, v₁, rfl, hfails, hτ, hmidway₁⟩ | ⟨τ, _, _, _, hτ, hends', hreply, hworlds, hheld⟩
    · have hstep : k.Step env { k with waiting := some q, held := s, world := w } := .stopped hq hy
      have hfewer : N - w.feed.calls < m := by
        have hlt : c - 1 < N := Nat.lt_of_not_le fun hle => hN _ hle hfails.failed
        have hbefore := hfails.before
        have hafter := hfails.after
        omega
      have hN₁ : ∀ c, N ≤ c → w.feed.source c ≠ .failed := by
        rw [hstep.before.feed.source_eq]
        exact hN
      have hq₁ : MayAsk { k with waiting := some q, held := s, world := w } q :=
        ⟨hq.on, fun _ h => Option.some.inj h, hq.goesOn⟩
      obtain ⟨υ, k₁, hreaches, hwaiting, hbeside⟩ :=
        ih _ hfewer hq₁ (hqq'.mono hτ) (Exchanges.mono_all hτ htold) hmidway₁ hN₁ rfl
      exact ⟨υ, k₁, .head hstep hreaches, hwaiting, hbeside⟩
    · obtain ⟨rfl, rfl, hs₁'⟩ := hends'.unique hends
      have hexchange : τ.Exchanges ⟨q, y⟩ ⟨q', _⟩ := ⟨hqq'.mono hτ, hreply⟩
      refine ⟨τ, _, .single (.told hq hy hreply.first_ne), rfl, .cons hexchange (Exchanges.mono_all hτ htold), rfl,
        fun hgoes => ?_⟩
      have hgoes₁ := hgoes _ List.mem_cons_self
      refine .rests rfl ?_ hworlds
      rw [← hs₁' (hexchange.goesOn_iff.1 hgoes₁)]
      exact hheld hgoes₁

end Beside

end Holder

end OnDemand

/-! ## A strict parser -/

namespace Strict

open Stage

/-- A strict parser that is applied to one stream again and again, and what it came to where the source did not stop it, the
last first. -/
inductive Applied (env : Env) (p : Parser) (z : Context) (w₀ : World) : List (Except Fault Outcome) → World → Prop
  | start : Applied env p z w₀ [] w₀
  | stopped {xs w c w₁} : Applied env p z w₀ xs w → Run.Ends (fun n => run env n p z) w (.error (.source c)) w₁ →
      Applied env p z w₀ xs w₁
  | ended {xs w x w₁} : Applied env p z w₀ xs w → Run.Ends (fun n => run env n p z) w x w₁ →
      (∀ c, x ≠ .error (.source c)) → Applied env p z w₀ (x :: xs) w₁

variable {env : Env} {S : Supply} {σ : Stage} {p : Parser} {z : Context} {w₀ w₀' w w' w₁ w₁' : World}

theorem outcomes_monotone : Monotone Outcomes := fun _ _ h _ _ hr => hr.mono h

section Attempts

variable (hg : ∀ name, (env.grammar name).Pure) (hp : σ.Parsers p p) (hz : σ.Contexts z z)

include hg hp hz

/-- An application that the source stops can be taken back. -/
theorem run_stopped (hw : Worlds S 0 0 σ w w') {c : Nat} (h : Run.Ends (fun n => run env n p z) w (.error (.source c)) w₁) :
    Worlds S 0 0 σ w₁ w' ∧ w.feed.Fails w₁.feed c := by
  obtain ⟨n, hn⟩ := h
  have hruns : ∀ f f', Stage.Runs S f f' Outcomes σ (run env n p z) (run env n p z) := fun f f' => run_interrupted hg n hp hz
  obtain ⟨hw₁, -, hfails⟩ := Stage.Runs.untouched hruns hw hn
  exact ⟨hw₁, hfails⟩

/-- Any other one ends alike over a source that never fails. -/
theorem run_ended (hw : Worlds S 0 0 σ w w') {x : Except Fault Outcome} (h : Run.Ends (fun n => run env n p z) w x w₁)
    (hx : ∀ c, x ≠ .error (.source c)) : ∃ τ x' w₁', σ ≤ τ ∧ Run.Ends (fun n => run env n p z) w' x' w₁' ∧
      Endings Outcomes τ x x' ∧ Worlds S 0 0 τ w₁ w₁' := by
  obtain ⟨n, hn⟩ := h
  have hends : Stage.Ends S 0 0 Outcomes σ w w' (run env n p z w) (run env n p z w') :=
    run_interrupted hg n hp hz σ (le_refl σ) w w' hw
  rcases hn' : run env n p z w' with ⟨r', w₁'⟩
  rw [show run env n p z w = _ from hn, hn'] at hends
  cases x with
  | ok r =>
    cases hends with
    | ok hr hw₁ hon => exact ⟨_, .ok _, w₁', hon.le, ⟨n, hn'⟩, .ok hr, hw₁⟩
  | error e =>
    cases hends with
    | fault he hw₁ hon => exact ⟨_, .error e, w₁', hon.le, ⟨n, hn'⟩, .error he, hw₁⟩
    | stopped _ _ _ => exact absurd rfl (hx _)

/-- If it ends there, it ends here in some way. -/
theorem run_tried (hw : Worlds S 0 0 σ w w') {x' : Except Fault Outcome}
    (h : Run.Ends (fun n => run env n p z) w' x' w₁') : ∃ x w₁, Run.Ends (fun n => run env n p z) w x w₁ := by
  obtain ⟨n, hn'⟩ := h
  have hends : Stage.Ends S 0 0 Outcomes σ w w' (run env n p z w) (run env n p z w') :=
    run_interrupted hg n hp hz σ (le_refl σ) w w' hw
  rcases hn : run env n p z w with ⟨r, w₁⟩
  rw [hn, show run env n p z w' = _ from hn'] at hends
  generalize hr : x'.mapError Halt.fault = r' at hends
  cases hends with
  | @ok _ r => exact ⟨.ok r, w₁, n, hn⟩
  | @fault _ e => exact ⟨.error e, w₁, n, hn⟩
  | @stopped c => exact ⟨.error (.source c), w₁, n, hn⟩
  | outOfFuel => cases x' <;> cases hr

end Attempts

/-- Strict runs end in one way. -/
theorem run_unique {x x' : Except Fault Outcome} (h : Run.Ends (fun n => run env n p z) w x w₁)
    (h' : Run.Ends (fun n => run env n p z) w x' w₁') : x = x' ∧ w₁ = w₁' := by
  have hlimit := (Run.limit_eq_some (steady_run env p z)).2 h
  rw [(Run.limit_eq_some (steady_run env p z)).2 h'] at hlimit
  cases hlimit
  exact ⟨rfl, rfl⟩

namespace Applied

variable {xs xs' : List (Except Fault Outcome)}

theorem later (h : Applied env p z w₀ xs w) : w₀.feed.Later w.feed := by
  have hends : ∀ {w₁ w₂ x}, Run.Ends (fun n => run env n p z) w₁ x w₂ → w₁.feed.Later w₂.feed := by
    rintro w₁ w₂ x ⟨n, hn⟩
    have hplain : (run env n p z).Plain := plain_run n p z
    have hlater := hplain.feed w₁
    rwa [show run env n p z w₁ = _ from hn] at hlater
  induction h with
  | start => exact .refl
  | stopped _ h ih => exact ih.trans (hends h)
  | ended _ h _ ih => exact ih.trans (hends h)

variable (hg : ∀ name, (env.grammar name).Pure) (hp : σ.Parsers p p) (hz : σ.Contexts z z)

include hg hp hz

/-- **What the applications come to** over a source that fails at some calls, they come to over one that never fails. -/
theorem simulated (hw : Worlds S 0 0 σ w₀ w₀') (h : Applied env p z w₀ xs w) :
    ∃ τ xs' w', σ ≤ τ ∧ Applied env p z w₀' xs' w' ∧ List.Forall₂ (Endings Outcomes τ) xs xs' ∧ Worlds S 0 0 τ w w' := by
  induction h with
  | start => exact ⟨σ, [], w₀', le_refl σ, .start, .nil, hw⟩
  | stopped _ hends ih =>
    obtain ⟨τ, xs', w', hτ, happlied, hxs, hw⟩ := ih
    exact ⟨τ, xs', w', hτ, happlied, hxs, (run_stopped hg (hp.mono hτ) (hz.mono hτ) hw hends).1⟩
  | ended _ hends hx ih =>
    obtain ⟨τ, xs', w', hτ, happlied, hxs, hw⟩ := ih
    obtain ⟨υ, x', w₁', hυ, hends', hxx', hw₁⟩ := run_ended hg (hp.mono hτ) (hz.mono hτ) hw hends hx
    exact ⟨υ, _, w₁', le_trans hτ hυ, .ended happlied hends' hxx'.second_ne,
      .cons hxx' (hxs.imp fun _ _ => Endings.mono outcomes_monotone hυ), hw₁⟩

/-- An application that ends over the source that never fails ends, after enough attempts, if the other source fails at no
call from some call on. -/
theorem again {N : Nat} (hw : Worlds S 0 0 σ w w') (h : Applied env p z w₀ xs w)
    (hN : ∀ c, N ≤ c → w.feed.source c ≠ .failed) {x' : Except Fault Outcome}
    (hends : Run.Ends (fun n => run env n p z) w' x' w₁') :
    ∃ τ x w₁, σ ≤ τ ∧ Applied env p z w₀ (x :: xs) w₁ ∧ Endings Outcomes τ x x' ∧ Worlds S 0 0 τ w₁ w₁' := by
  -- the calls that may still fail become fewer with every attempt
  induction hm : N - w.feed.calls using Nat.strong_induction_on generalizing w with
  | _ m ih =>
    obtain ⟨x, w₁, hx⟩ := run_tried hg hp hz hw hends
    by_cases hstopped : ∃ c, x = .error (.source c)
    · obtain ⟨c, rfl⟩ := hstopped
      obtain ⟨hw₁, hfails⟩ := run_stopped hg hp hz hw hx
      have hsource : w₁.feed.source = w.feed.source := by
        rw [(h.stopped hx).later.source_eq, h.later.source_eq]
      have hfewer : N - w₁.feed.calls < m := by
        have hlt : c - 1 < N := Nat.lt_of_not_le fun hle => hN _ hle hfails.failed
        have hbefore := hfails.before
        have hafter := hfails.after
        omega
      exact ih _ hfewer hw₁ (h.stopped hx) (hsource ▸ hN) rfl
    · have hne : ∀ c, x ≠ .error (.source c) := fun c hc => hstopped ⟨c, hc⟩
      obtain ⟨τ, x'', w₁'', hτ, hends', hxx', hw₁⟩ := run_ended hg hp hz hw hx hne
      obtain ⟨rfl, rfl⟩ := run_unique hends' hends
      exact ⟨τ, x, w₁, hτ, h.ended hx hne, hxx', hw₁⟩

/-- **What the applications come to over the source that never fails** is what they come to in the end. -/
theorem completed {N : Nat} (hw : Worlds S 0 0 σ w₀ w₀') (hself : Worlds S 0 0 σ w₀' w₀')
    (hN : ∀ c, N ≤ c → w₀.feed.source c ≠ .failed)
    (h : Applied env p z w₀' xs' w') :
    ∃ τ xs w, σ ≤ τ ∧ Applied env p z w₀ xs w ∧ List.Forall₂ (Endings Outcomes τ) xs xs' ∧ Worlds S 0 0 τ w w' := by
  induction h with
  | start => exact ⟨σ, [], w₀, le_refl σ, .start, .nil, hw⟩
  | stopped h' hends ih =>
    -- the source that never fails stops no application
    obtain ⟨τ, _, _, hτ, -, -, hw'⟩ := simulated hg hp hz hself h'
    have hfailed := (run_stopped hg (hp.mono hτ) (hz.mono hτ) hw' hends).2.failed
    rw [h'.later.source_eq] at hfailed
    exact absurd hfailed (hw.feeds.steady _)
  | ended _ hends hx ih =>
    obtain ⟨τ, xs, w, hτ, happlied, hxs, hw⟩ := ih
    have hsource : ∀ c, N ≤ c → w.feed.source c ≠ .failed := by
      rw [happlied.later.source_eq]
      exact hN
    obtain ⟨υ, x, w₁, hυ, happlied₁, hxx', hw₁⟩ := again hg (hp.mono hτ) (hz.mono hτ) hw happlied hsource hends
    exact ⟨υ, _, w₁, le_trans hτ hυ, happlied₁,
      .cons hxx' (hxs.imp fun _ _ => Endings.mono outcomes_monotone hυ), hw₁⟩

end Applied

end Strict

/-! ## From the start -/

open Stage

variable {env : Env} {S : Supply} {p : Parser} {u : Value} {source : Nat → Pull}

/-- Nothing is paired, and nothing was read. -/
def Stage.initial : Stage := ⟨.upTo 0, .upTo 0, 0⟩

theorem Stage.worlds_initial (h : S.Interrupted source) :
    Worlds S 0 0 initial { feed := { source := source } } { feed := { source := S.pull } } where
  feeds := ⟨.start h, .start Supply.interrupted_self, S.steady, Nat.zero_le _, Nat.zero_le _⟩
  floor := Nat.zero_le _
  floor' := Nat.zero_le _
  made _ _ hm := absurd hm.2 (Nat.not_lt_zero _)
  lists _ _ hl := absurd hl.2 (Nat.not_lt_zero _)
  same _ _ hl := absurd hl.2 (Nat.not_lt_zero _)

theorem Stage.contexts_initial (hu : u.names = []) : initial.Contexts ⟨.ofFeed, u⟩ ⟨.ofFeed, u⟩ :=
  ⟨.fed (Nat.zero_le _), .of_names hu⟩

namespace OnDemand.Holder

theorem beside_start (hp : p.Pure) (hu : u.names = []) (h : S.Interrupted source) :
    Beside env S .initial (start p u source) (start p u S.pull) :=
  ⟨.nil, rfl, fun _ => .rests rfl (.apply (hp _) (contexts_initial hu)) (worlds_initial h)⟩

section Reached

variable (hg : ∀ name, (env.grammar name).Pure) (hp : p.Pure) (hu : u.names = []) {k k' : Holder}

include hg hp hu

/-- Every holder has one beside it whose source never fails. -/
theorem Reaches.beside (hsource : S.Interrupted source) (h : (start p u source).Reaches env k) :
    ∃ σ k', (start p u S.pull).Reaches env k' ∧ Beside env S σ k k' := by
  induction h with
  | refl => exact ⟨_, _, .refl, beside_start hp hu hsource⟩
  | tail _ hstep ih =>
    obtain ⟨σ, k', hreaches, hbeside⟩ := ih
    obtain ⟨τ, k₁', -, hreaches', hbeside'⟩ := hbeside.step hg hstep
    exact ⟨τ, k₁', hreaches.trans hreaches', hbeside'⟩

/-- Every holder whose source never fails has one beside it whose source fails at some calls, and which waits for
nothing. -/
theorem Reaches.beside_first (hsource : S.Interrupted source) {N : Nat} (hN : ∀ c, N ≤ c → source c ≠ .failed)
    (h : (start p u S.pull).Reaches env k') :
    ∃ σ k, (start p u source).Reaches env k ∧ k.waiting = none ∧ Beside env S σ k k' := by
  induction h with
  | refl => exact ⟨_, _, .refl, rfl, beside_start hp hu hsource⟩
  | @tail k' k₁' hreaches' hstep ih =>
    cases hstep with
    | stopped hq hends =>
      -- the source that never fails stops nobody
      obtain ⟨_, _, -, hbeside⟩ := Reaches.beside hg hp hu Supply.interrupted_self hreaches'
      have hfailed := (hbeside.fails hg hq hends).failed
      rw [(Reaches.before hreaches').feed.source_eq] at hfailed
      exact absurd hfailed (S.steady _)
    | @told q' x' s' w' hq' hends hx' =>
      obtain ⟨σ, k, hreaches, hwaiting, hbeside⟩ := ih
      obtain ⟨q, hqq', hon⟩ := Queries.exists_first (Exchanges.names hbeside.told) hq'.on
      have hq : k.MayAsk q := by
        refine ⟨hon, fun q₁ hq₁ => ?_, hbeside.goesOn_iff.2 hq'.goesOn⟩
        rw [hwaiting] at hq₁
        cases hq₁
      have hsource₁ : ∀ c, N ≤ c → k.world.feed.source c ≠ .failed := by
        rw [(Reaches.before hreaches).feed.source_eq]
        exact hN
      cases hbeside.stands hq.goesOn with
      | rests _ hheld hworlds =>
        obtain ⟨τ, k₁, hreaches₁, hwaiting₁, hbeside₁⟩ :=
          Beside.answered hg hends hq hqq' hbeside.told ⟨hheld, hworlds, rfl, fun _ => rfl⟩ hsource₁
        exact ⟨τ, k₁, hreaches.trans hreaches₁, hwaiting₁, hbeside₁⟩
      | waits hwaiting' =>
        rw [hwaiting] at hwaiting'
        cases hwaiting'

end Reached

/-- A holder notices nothing of the calls at which its source fails, but the errors. -/
structure Undisturbed (env : Env) (S : Supply) (p : Parser) (u : Value) (k : Holder) : Prop where
  /-- The same queries have the same replies if the source never fails. -/
  same : ∃ (σ : Stage) (k' : Holder), (start p u S.pull).Reaches env k' ∧ k'.waiting = none ∧
    List.Forall₂ σ.Exchanges k.told k'.told
  /-- Each token was taken once, in the order of the source. -/
  tokens : S.Along k.world.feed
  /-- An error of the source comes from a call at which it fails. -/
  stops : ∀ q c s w, k.MayAsk q → q.Ends env k.held k.world (.error (.source c)) s w → k.world.feed.Fails w.feed c
  /-- What was asked before has the same reply whenever it is asked again, and that changes nothing. -/
  again : ∀ e ∈ k.told, ∀ r, e.reply = .ok r → e.query.Ends env k.held k.world (.ok r) k.held k.world

end OnDemand.Holder

/-- **Parsing is taken up again after an error of the source.** Callbacks are pure, and the source fails at some calls without
giving a token. What a holder of an outcome is told, and what a strict parser comes to that is applied again and again, is
what it is over a source that gives the same tokens and never fails; and if no call fails from some call on, all of that is
told in the end. -/
theorem parsing_resumes (hg : ∀ name, (env.grammar name).Pure) (hp : p.Pure) (hu : u.names = [])
    (hsource : S.Interrupted source) :
    (∀ k, (Holder.start p u source).Reaches env k → k.Undisturbed env S p u) ∧
      (∀ xs w, Strict.Applied env p ⟨.ofFeed, u⟩ { feed := { source := source } } xs w →
        (∃ σ xs' w', Strict.Applied env p ⟨.ofFeed, u⟩ { feed := { source := S.pull } } xs' w' ∧
          List.Forall₂ (Endings Outcomes σ) xs xs') ∧ S.Along w.feed ∧
        ∀ c w₁, Run.Ends (fun n => Strict.run env n p ⟨.ofFeed, u⟩) w (.error (.source c)) w₁ → w.feed.Fails w₁.feed c) ∧
      ∀ N, (∀ c, N ≤ c → source c ≠ .failed) →
        (∀ k', (Holder.start p u S.pull).Reaches env k' →
          ∃ (σ : Stage) (k : Holder), (Holder.start p u source).Reaches env k ∧ k.waiting = none ∧
            List.Forall₂ σ.Exchanges k.told k'.told) ∧
        ∀ xs' w', Strict.Applied env p ⟨.ofFeed, u⟩ { feed := { source := S.pull } } xs' w' →
          ∃ σ xs w, Strict.Applied env p ⟨.ofFeed, u⟩ { feed := { source := source } } xs w ∧
            List.Forall₂ (Endings Outcomes σ) xs xs' := by
  refine ⟨fun k hk => ?_, fun xs w h => ?_, fun N hN => ⟨fun k' hk' => ?_, fun xs' w' h' => ?_⟩⟩
  · obtain ⟨σ, k', hk', hbeside⟩ := Holder.Reaches.beside hg hp hu hsource hk
    refine ⟨⟨σ, k', hk', hbeside.ready, hbeside.told⟩, ?_, fun q c s w hq hends => hbeside.fails hg hq hends, ?_⟩
    · exact (Supply.Along.start hsource).later (Holder.Reaches.before hk).feed
    · exact fun e he r hr => (Holder.Reaches.told hk e he r hr).ends
  · obtain ⟨τ, xs', w', hτ, happlied, hxs, hw⟩ :=
      Strict.Applied.simulated hg (hp _) (contexts_initial hu) (worlds_initial hsource) h
    refine ⟨⟨τ, xs', w', happlied, hxs⟩, hw.feeds.first, fun c w₁ hends => ?_⟩
    exact (Strict.run_stopped hg (hp τ) ((contexts_initial hu).mono hτ) hw hends).2
  · obtain ⟨σ, k, hk, hwaiting, hbeside⟩ := Holder.Reaches.beside_first hg hp hu hsource hN hk'
    exact ⟨σ, k, hk, hwaiting, hbeside.told⟩
  · obtain ⟨τ, xs, w, -, happlied, hxs, -⟩ := Strict.Applied.completed hg (hp _) (contexts_initial hu)
      (worlds_initial hsource) (worlds_initial Supply.interrupted_self) hN h'
    exact ⟨τ, xs, w, happlied, hxs⟩

/-! ### Two tokens, and a call between them that fails -/

/-- Two texts. -/
def Supply.pair (s t : String) : Supply where
  pull
    | 0 => .token (.text s)
    | 1 => .token (.text t)
    | _ => .ended
  steady k := by rcases k with _ | _ | k <;> exact nofun
  plain k v h := by rcases k with _ | _ | k <;> cases h <;> rfl

/-- The same from a source whose second call fails. -/
def failingSecond (s t : String) : Nat → Pull
  | 0 => .token (.text s)
  | 1 => .failed
  | 2 => .token (.text t)
  | _ => .ended

theorem interrupted_failingSecond (s t : String) : (Supply.pair s t).Interrupted (failingSecond s t) := by
  have hanswered : ∀ c, answered (failingSecond s t) (c + 3) = c + 2 := by
    intro c
    induction c with
    | zero => rfl
    | succ c ih => exact congrArg (· + 1) ih
  rintro (_ | _ | _ | c)
  · exact .inr rfl
  · exact .inl rfl
  · exact .inr rfl
  · rw [hanswered c]
    exact .inr rfl

/-- A query with enough fuel. -/
theorem OnDemand.Query.Ends.of_ask {q : Query} {s : Suspended} {w : World} {x : Except Fault Shown} {n : Nat}
    (h : (q.ask (means env n) n s w).1 = x.mapError .fault) :
    q.Ends env s w x (q.ask (means env n) n s w).2.1 (q.ask (means env n) n s w).2.2 := ⟨n, Prod.ext h rfl⟩

/-- A list of two tokens is walked. The walk is stopped after the first token, and the next one gives both. -/
theorem parsing_resumes_failing_second : (Supply.pair "a" "b").Interrupted (failingSecond "a" "b") ∧
    ∃ k : Holder,
      (Holder.start (.stream .next) .absent (failingSecond "a" "b")).Reaches ⟨fun _ => .next, {}, "", false⟩ k ∧
      k.told = [⟨.toArray (nodeNumber 0 0), .ok (.items [.text "a", .text "b"])⟩,
        ⟨.outcome .value, .ok (.value (.list (nodeNumber 0 0)))⟩] ∧
      k.Undisturbed ⟨fun _ => .next, {}, "", false⟩ (Supply.pair "a" "b") (.stream .next) .absent := by
  have hreaches : ∃ k : Holder,
      (Holder.start (.stream .next) .absent (failingSecond "a" "b")).Reaches ⟨fun _ => .next, {}, "", false⟩ k ∧
      k.told = [⟨.toArray (nodeNumber 0 0), .ok (.items [.text "a", .text "b"])⟩,
        ⟨.outcome .value, .ok (.value (.list (nodeNumber 0 0)))⟩] := by
    have hshown : ∀ e ∈ [(⟨.outcome .value, .ok (.value (.list (nodeNumber 0 0)))⟩ : Exchange)], e.GoesOn := by
      intro e he
      cases List.mem_singleton.1 he
      exact fun _ _ => ⟨_, rfl⟩
    refine ⟨_, .tail (.tail (.tail .refl (.told (q := .outcome .value) (x := .ok (.value (.list (nodeNumber 0 0))))
        ⟨trivial, nofun, nofun⟩ (.of_ask (n := 10) ?_) nofun))
        (.stopped (q := .toArray (nodeNumber 0 0)) (c := 2) ⟨List.mem_singleton_self _, nofun, hshown⟩
          (.of_ask (n := 10) ?_)))
      (.told (q := .toArray (nodeNumber 0 0)) (x := .ok (.items [.text "a", .text "b"]))
        ⟨List.mem_singleton_self _, fun _ h => Option.some.inj h, hshown⟩ (.of_ask (n := 10) ?_) nofun), rfl⟩
    · cbv
    · cbv
    · cbv
  obtain ⟨k, hk, htold⟩ := hreaches
  exact ⟨interrupted_failingSecond "a" "b", k, hk, htold,
    (parsing_resumes (fun _ _ => .next) (fun _ => .stream .next) rfl (interrupted_failingSecond "a" "b")).1 k hk⟩

end CommittedChoice
