import CommittedChoice.Proofs.Configuration
import CommittedChoice.Proofs.Unfolding

/-!
# What is printed

An engine prints, and never looks at what was printed. So what a parser gives, and what shows of it at first, is the same
after other lines, but for what is printed then. And without lists, the strict engine and the one on demand give the same,
which print under different names.

- `Course.hushed`: how a course ends, but for what is printed;
- `Engine.hushed_result`, `Engine.hushed_rawTag`: it does not depend on what was printed before;
- `Engine.hushed_result_alike`: the two engines of a kind.
-/

namespace CommittedChoice

open Run (limit Steady)
open Strict (Outcome)

/-- How a course ends, but for what is printed. -/
def Course.hushed {α : Type} (x : Course α) (w : World) : Option (Except Fault α × World) :=
  (x w).map fun b => (b.1, { b.2 with console := [] })

/-- Courses that end alike but for what is printed. -/
theorem Course.exists_printed {α : Type} {x y : Course α} {w v w₁ : World} {a : Except Fault α}
    (h : x.hushed w = y.hushed v) (hx : x w = some (a, w₁)) : ∃ lines, y v = some (a, { w₁ with console := lines }) := by
  rw [hushed, hx, Option.map_some] at h
  obtain ⟨⟨b, w₂⟩, hy, hpair⟩ := Option.map_eq_some_iff.1 h.symm
  obtain ⟨rfl, hworld⟩ := Prod.mk.inj hpair
  exact ⟨w₂.console, hy.trans (congrArg (fun w => some (b, { w with console := w₂.console })) hworld)⟩

theorem Course.hushed_eq {α : Type} {x y : Course α} {w v : World}
    (h : ∀ a w₁, x w = some (a, w₁) → ∃ lines, y v = some (a, { w₁ with console := lines }))
    (h' : ∀ a w₁, y v = some (a, w₁) → ∃ lines, x w = some (a, { w₁ with console := lines })) :
    x.hushed w = y.hushed v := by
  unfold hushed
  rcases hx : x w with _ | ⟨a, w₁⟩
  · rcases hy : y v with _ | ⟨a, w₁⟩
    · rfl
    · obtain ⟨lines, ha⟩ := h' a w₁ hy
      cases hx.symm.trans ha
  · obtain ⟨lines, ha⟩ := h a w₁ hx
    rw [ha]
    rfl

theorem Course.hushed_congr {α : Type} {x y : Course α} {w v : World} (h : x w = y v) : x.hushed w = y.hushed v :=
  congrArg (Option.map _) h

namespace Wording

variable {α : Type} {A : α → α → Prop} {f : Nat → Run α}

/-- Runs that end alike do not depend on what was printed before. -/
theorem hushed_limit (hA : ∀ a b, A a b → a = b) (hf : Steady f) (h : ∀ n, strict.Runs A (f n) (f n)) (w : World)
    (lines : List Line) : (limit f).hushed { w with console := lines } = (limit f).hushed w := by
  have hends : ∀ (w : World) (lines : List Line) (x : Except Fault α) (w₁ : World), limit f w = some (x, w₁) →
      ∃ lines', limit f { w with console := lines } = some (x, { w₁ with console := lines' }) := by
    intro w lines x w₁ hx
    have hw : strict.Worlds w { w with console := lines } :=
      have hrefl := strict_worlds_refl w
      ⟨rfl, rfl, rfl, rfl, rfl, hrefl.cells⟩
    obtain ⟨x', w₁', hx', hsame⟩ := Runs.endAlike h hw x w₁ ((Run.limit_eq_some hf).1 hx) False.elim
    obtain ⟨hout, hw₁⟩ := hsame False.elim
    cases strict_outcomes_eq hA hout
    exact ⟨w₁'.console, strict_worlds_eq hw₁ ▸ (Run.limit_eq_some hf).2 hx'⟩
  exact Course.hushed_eq (hends _ w.console) (hends w lines)

theorem strict_results_eq {r r' : Outcome} (h : strict.Results r r') : r = r' := by
  cases h with
  | plain hv => rw [strict_verdicts_eq hv]
  | committed hv => rw [strict_verdicts_eq hv]

end Wording

namespace OnDemand

variable {W : Wording} {m m' : Means}

theorem Means.Worded.readSettled (h : m.Worded W m') {t t' : Settled} (ht : W.Settleds t t') :
    W.Runs W.Verdicts (m.readSettled t) (m'.readSettled t') := by
  cases ht with
  | failure z hm => exact .pure (.failure z hm)
  | success hp =>
    exact (h.late hp.rest).bind fun z _ hz => (h.late hp.value).bind fun v _ hv => hz ▸ hv ▸ .pure (.success z v)

theorem Means.Worded.disclosed (h : m.Worded W m') {a a' : Answer} (ha : W.Answers a a') :
    W.Runs W.Answers (Hold.on a m.disclosed) (Hold.on a' m'.disclosed) := by
  cases ha with
  | failure z hm => exact .pure (.failure z hm)
  | committed hinner => exact .pure (.committed hinner)
  | @success p p' hp =>
    have hon : ∀ (m : Means) (p : Promise), Hold.on (.success p) m.disclosed = m.finish p >>= fun finish =>
      pure (p.disclosedAs finish) := fun m p => on_disclosedPromise m p
    rw [hon, hon]
    refine (h.finish hp).bind fun finish finish' hfinish => .pure ?_
    cases hfinish with
    | plain => exact .success hp.disclosed
    | committed => exact .committed (.ready (.success hp.disclosed))
    | failed z hm => exact .committed (.ready (.failure z hm))

section Result

variable {env env' : Env} (hg : ∀ name, W.Parsers (env.grammar name) (env'.grammar name))
  (hwidth : W.widths env.settings.indent env'.settings.indent) (hstateful : env.stateful = env'.stateful)

include hg hwidth hstateful

theorem means_worded_result (n : Nat) {p p' : Parser} (hp : W.Parsers p p') (z : Context) :
    W.Runs W.Results ((means env n).result n (.apply p z)) ((means env' n).result n (.apply p' z)) := by
  have h := means_worded hg hwidth hstateful n
  refine (h.answer (.apply z hp)).bind fun a a' ha => (h.disclosed ha).bind fun b b' hb => ?_
  cases hb with
  | failure z hm => exact .pure (.plain (.failure z hm))
  | success hp => exact (h.readSettled (.success hp)).bind fun v v' hv => .pure (.plain hv)
  | @committed inner inner' hinner =>
    have hfully : W.Runs W.Settleds (Hold.on (.committed inner) ((means env n).fully n))
        (Hold.on (.committed inner') ((means env' n).fully n)) := by
      rw [on_fully, on_fully]
      exact (h.settlement n hinner).bind fun t t' ht => h.disclosure ht
    exact hfully.bind fun t t' ht => (h.readSettled ht).bind fun v v' hv => .pure (.committed hv)

end Result

end OnDemand

namespace Engine

variable {e : Engine} {env : Env}

theorem hushed_result (p : Parser) (z : Context) (w : World) (lines : List Line) :
    (limit fun n => e.result env n p z).hushed { w with console := lines } =
      (limit fun n => e.result env n p z).hushed w := by
  refine Wording.hushed_limit (A := Wording.strict.Results) (fun _ _ => Wording.strict_results_eq) (steady_result e env p z)
    (fun n => ?_) w lines
  have hrules : ∀ name, Wording.strict.Parsers (env.grammar name) (env.grammar name) :=
    fun name => Wording.strict_parsers_refl _
  unfold result
  cases e.onDemand with
  | true => exact OnDemand.means_worded_result hrules rfl rfl n (Wording.strict_parsers_refl p) z
  | false => exact Strict.run_worded hrules rfl n z (Wording.strict_parsers_refl p)

theorem hushed_rawTag (p : Parser) (z : Context) (w : World) (lines : List Line) :
    (limit fun n => e.rawTag env n p z).hushed { w with console := lines } =
      (limit fun n => e.rawTag env n p z).hushed w :=
  Wording.hushed_limit (fun _ _ => id) (steady_rawTag e env p z) (fun n => e.rawTag_worded
    (fun name => Wording.strict_parsers_refl (env.grammar name)) rfl rfl n (Wording.strict_parsers_refl p) z) w lines

/-- Without lists, the strict engine and the one on demand give the same, but for what is printed. -/
theorem hushed_result_alike {grammar : Grammar} (hg : ∀ name, (grammar name).StreamFree) (settings : Settings) (b : Bool)
    {p : Parser} (hp : p.StreamFree) (z : Context) {w : World} (hw : w.lists = #[]) :
    (limit fun n => (strict b).result ((strict b).env grammar settings) n p z).hushed w =
      (limit fun n => (lazy b).result ((lazy b).env grammar settings) n p z).hushed w := by
  -- the name under which the strict engine prints is no matter to its results
  have hscope : ∀ (e e' : Engine) x w₁, Strict.eval (e.env grammar settings) p z w = some (x, w₁) →
      ∃ lines, Strict.eval (e'.env grammar settings) p z w = some (x, { w₁ with console := lines }) := by
    intro e e' x w₁ hx
    have halike : Strict.Related Run.Alike (e.env grammar settings) (e'.env grammar settings) :=
      Strict.related_alike rfl rfl
    obtain ⟨lines, hx'⟩ := Run.Alike.ends (fun n => halike.run (Nat.le_refl n) p z) (Strict.eval_eq_some.1 hx)
    exact ⟨lines, Strict.eval_eq_some.2 hx'⟩
  rw [limit_result, limit_result]
  calc (((strict b).semantics ((strict b).env grammar settings)).eval p z).hushed w
      = (Strict.eval ((strict b).env grammar settings) p z).hushed w := rfl
    _ = (Strict.eval ((lazy b).env grammar settings) p z).hushed w := Course.hushed_eq (hscope _ _) (hscope _ _)
    _ = (((lazy b).semantics ((lazy b).env grammar settings)).eval p z).hushed w :=
        Course.hushed_congr (semantics_eval (lazy b) hg hp z hw).symm

end Engine

end CommittedChoice
