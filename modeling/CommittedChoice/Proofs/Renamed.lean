import CommittedChoice.Proofs.OnDemand.Interruption
import CommittedChoice.Proofs.Unfolding

/-!
# Results up to names

A parser with pure callbacks gives the same but for names in two worlds that are the same but for names, in every engine,
if the source never fails. Between two applications of it, either world may give out names of its own, as it does for a
value that a callback makes.

- `OnDemand.Means.Paired.result`: the result that something suspended stands for;
- `Engine.eval_renamed`: the results of a parser in both worlds;
- `Stage.Worlds.apart`: what both worlds do of their own, which leaves all lists alone;
- `World.leaves_exec`: a callback that reads no list leaves them alone.
-/

namespace CommittedChoice

open Run (Ends)
open Strict (Outcome)
open Stage

/-! ## Worlds that go on alone -/

namespace World

theorem Leaves.of_lists {f : Nat} {w w₁ : World} (hfeed : w₁.feed = w.feed) (hmade : w.made ≤ w₁.made)
    (hlists : w₁.lists = w.lists) : w.Leaves f w₁ := by
  refine ⟨hfeed ▸ .refl, hmade, Nat.le_of_eq (congrArg Array.size hlists.symm), fun l _ => ?_⟩
  rw [nodesOf, nodesOf, hlists]

/-- A callback for which there are no lists leaves all lists as they are. -/
theorem leaves_exec {α : Type} {env : Env} (f : Nat) (act : Act α) (w : World) : w.Leaves f (act.exec env .none w).2 := by
  induction act generalizing w with
  | pure a => exact .refl f w
  | throw e => exact .refl f w
  | note id next ih =>
    have hnoted : w.Leaves f { w with journal := .noted id :: w.journal } := .of_lists rfl (Nat.le_refl _) rfl
    exact hnoted.trans (ih _)
  | width k ih => exact ih _ w
  | count mark k ih =>
    have hcounted : w.Leaves f (w.addCount mark) := .of_lists rfl (Nat.le_refl _) rfl
    exact hcounted.trans (ih _ _)
  | fresh k ih =>
    have hmade : w.Leaves f { w with made := w.made + 1 } := .of_lists rfl (Nat.le_succ _) rfl
    exact hmade.trans (ih _ _)
  | node n k ih => exact .refl f w
  | walk n k ih => exact .refl f w

end World

namespace Stage

variable {S : Supply} {f f' : Nat} {σ : Stage} {w w' w₁ w₁' : World}

/-- What both worlds do of their own, and to no list, is no matter. -/
theorem Worlds.apart (h : Worlds S f f' σ w w') (hfirst : w.Leaves w.lists.size w₁)
    (hsecond : w'.Leaves w'.lists.size w₁') : Worlds S f f' σ w₁ w₁' := by
  have hfeeds := h.feeds
  refine ⟨⟨hfeeds.first.later hfirst.later, hfeeds.second.later hsecond.later, ?_,
    Nat.le_trans hfeeds.reach hfirst.later.size_le, Nat.le_trans hfeeds.reach' hsecond.later.size_le⟩,
    Nat.le_trans h.floor hfirst.size, Nat.le_trans h.floor' hsecond.size, fun m m' hm => ?_, fun l l' hl => ?_,
    fun l l' hl hf hf' k => ?_⟩
  · rw [hsecond.later.source_eq]
    exact hfeeds.steady
  · exact ⟨Nat.lt_of_lt_of_le (h.made m m' hm).1 hfirst.made, Nat.lt_of_lt_of_le (h.made m m' hm).2 hsecond.made⟩
  · exact ⟨Nat.lt_of_lt_of_le (h.lists l l' hl).1 hfirst.size, Nat.lt_of_lt_of_le (h.lists l l' hl).2 hsecond.size⟩
  · rw [hfirst.below l (h.lists l l' hl).1, hsecond.below l' (h.lists l l' hl).2]
    exact h.same l l' hl hf hf' k

end Stage

/-! ## Results -/

namespace OnDemand

variable {S : Supply} {f f' : Nat} {σ : Stage} {m : Means}

namespace Means.Paired

variable (h : m.Paired S)

include h

theorem disclosed {a a' : Answer} (ha : Answers f f' σ a a') :
    Stage.Runs S f f' (Answers f f') σ (Hold.on a m.disclosed) (Hold.on a' m.disclosed) := by
  cases ha with
  | failure message hz => exact answered (.failure message hz)
  | committed hinner => exact answered (.committed hinner)
  | @success p p' hp =>
    have hon : ∀ p : Promise, Hold.on (.success p) m.disclosed = m.finish p >>= fun finish =>
      pure (p.disclosedAs finish) := fun p => on_disclosedPromise m p
    rw [hon, hon]
    refine (h.finish hp).bind fun τ hτ finish finish' hfinish => answered ?_
    cases hfinish with
    | plain => exact .success (hp.mono hτ).disclosed
    | committed => exact .committed (.ready (.success (hp.mono hτ).disclosed))
    | failed message hz => exact .committed (.ready (.failure message hz))

theorem disclosure {t t' : Settled} (ht : Settleds f f' σ t t') :
    Stage.Runs S f f' (Settleds f f') σ (m.disclosure t) (m.disclosure t') := by
  cases ht with
  | failure message hz => exact .pure fun _ hτ => .failure message (hz.mono hτ)
  | success hp =>
    refine (h.finish hp).bind fun τ hτ finish finish' hfinish => ?_
    cases hfinish with
    | failed message hz => exact .pure fun _ hυ => .failure message (hz.mono hυ)
    | plain => exact .pure fun _ hυ => .success (hp.mono (le_trans hτ hυ)).disclosed
    | committed => exact .pure fun _ hυ => .success (hp.mono (le_trans hτ hυ)).disclosed

theorem readSettled {t t' : Settled} (ht : Settleds f f' σ t t') :
    Stage.Runs S f f' (fun τ => Verdict.Alike τ.Contexts τ.Values) σ (m.readSettled t) (m.readSettled t') := by
  cases ht with
  | failure message hz => exact .pure fun _ hτ => .failure (hz.mono hτ) message
  | success hp =>
    refine (h.late contexts_monotone hp.rest).bind fun τ hτ z z' hz => ?_
    refine (h.late values_monotone (hp.value.mono values_monotone hτ)).bind fun υ hυ v v' hv => ?_
    exact .pure fun _ hφ => .success (hz.mono (le_trans hυ hφ)) (hv.mono hφ)

end Means.Paired

/-- **What is suspended stands for results that are the same but for names.** -/
theorem result_paired {env : Env} (hg : ∀ name, (env.grammar name).Pure) (n : Nat) {s s' : Suspended}
    (hs : Suspensions f f' σ s s') :
    Stage.Runs S f f' Outcomes σ ((means env n).result n s) ((means env n).result n s') := by
  have h := means_paired (S := S) hg n
  refine (h.answer hs).bind fun τ hτ a a' ha => (h.disclosed ha).bind fun υ hυ b b' hb => ?_
  cases hb with
  | failure message hz => exact .outcome (.failure hz message)
  | success hp => exact (h.readSettled (.success hp)).bind fun _ _ v v' hv => .outcome (.plain hv)
  | @committed inner inner' hinner =>
    have hfully : Stage.Runs S f f' (Settleds f f') υ (Hold.on (.committed inner) ((means env n).fully n))
        (Hold.on (.committed inner') ((means env n).fully n)) := by
      rw [on_fully, on_fully]
      exact (h.settlement n hinner).bind fun _ _ t t' ht => h.disclosure ht
    exact hfully.bind fun _ _ t t' ht => (h.readSettled ht).bind fun _ _ v v' hv => .outcome (.committed hv)

end OnDemand

namespace Engine

variable {e : Engine} {env : Env} {S : Supply} {f f' : Nat} {σ : Stage}

theorem result_paired (hg : ∀ name, (env.grammar name).Pure) (n : Nat) {p p' : Parser} (hp : σ.Parsers p p')
    {z z' : Context} (hz : σ.Contexts z z') :
    Stage.Runs S f f' Outcomes σ (e.result env n p z) (e.result env n p' z') := by
  unfold result
  cases e.onDemand with
  | true => exact OnDemand.result_paired hg n (.apply hp hz)
  | false => exact Strict.run_interrupted hg n hp hz

/-- **Results in worlds that are the same but for names** are so too, if the source never fails. -/
theorem eval_renamed (hg : ∀ name, (env.grammar name).Pure) {p : Parser} (hp : p.Pure) {w w' w₁ w₁' : World}
    (hw : Worlds S f f' σ w w') {z z' : Context} (hz : σ.Contexts z z')
    {r r' : Outcome} (h : (e.semantics env).eval p z w = some (.ok r, w₁))
    (h' : (e.semantics env).eval p z' w' = some (.ok r', w₁')) :
    ∃ τ, σ ≤ τ ∧ τ.Outcomes r r' ∧ Worlds S f f' τ w₁ w₁' := by
  obtain ⟨n, hn⟩ := ends_result.2 h
  have hends : Stage.Ends S f f' Outcomes σ w w' (e.result env n p z w) (e.result env n p z' w') :=
    result_paired hg n (hp σ) hz σ (le_refl σ) w w' hw
  -- with fuel that is enough for the first run, the second one ends too
  rcases hn' : e.result env n p z' w' with ⟨x, w₂⟩
  rw [show e.result env n p z w = (.ok r, w₁) from hn, hn'] at hends
  cases hends with
  | ok hr hw₁ hon =>
    have hsecond : Ends (fun n => e.result env n p z') w' (.ok _) w₂ := ⟨n, hn'⟩
    cases (ends_result.1 hsecond).symm.trans h'
    exact ⟨_, hon.le, hr, hw₁⟩

end Engine

end CommittedChoice
