import CommittedChoice.Proofs.Streaming
import CommittedChoice.Proofs.Unfolding

/-!
# Tags that show at once

What an on-demand parser gives before anything is asked of it may be a success that turns out to be committed, or to have
failed. Only a list at the end of the parser can do that: a loop has settled all its turns by the time it answers, and
going on after a success settles it first. So most combinators show at once the tag of their result.

- `OnDemand.Outright`: parsers whose successes leave nothing to be disclosed, closed under the primitives that the
  combinators are built from;
- `Engine.ends_rawTag_of_outright`: what such a parser shows at first, in every engine.
-/

namespace CommittedChoice

open Run (Ends)
open Strict (Outcome)

namespace OnDemand

variable {env : Env}

variable (env) in
/-- The successes of the parser leave nothing to be disclosed. -/
def Outright (p : Parser) : Prop :=
  ∀ z w q w', answer env (.apply p z) w = some (.ok (.success q), w') → q.finish = none

theorem outright_pure (v : Value) : Outright env (.pure v) := by
  intro z w q w' h
  rw [answer_apply_const (x := pure (.known z v)) rfl fun _ => rfl] at h
  cases h
  rfl

theorem outright_loop (init : Value) (step : Value → Act Parser) : Outright env (.loop init step) := by
  intro z w q w' h
  rw [answer_loop] at h
  exact turns_finish h

theorem Outright.map {p : Parser} (hp : Outright env p) (f : Value → Act Value) : Outright env (.map p f) := by
  intro z w q w' h
  rw [answer_apply_framed rfl, answer_framed] at h
  obtain ⟨a, w₁, ha, h⟩ := Course.bind_eq_ok h
  match a with
  | .success q' =>
    rw [resume_map_success] at h
    cases h
    exact hp z w q' _ ha
  | .failure _ _ => rw [resume_map_failure] at h; cases h
  | .committed _ => rw [resume_map_committed] at h; cases h

/-- What the first parser leaves to be disclosed is settled before the second one is run. -/
theorem Outright.bind {p : Parser} {k : Value → Parser} (hk : ∀ v, Outright env (k v)) :
    Outright env (.bind p fun v => .pure (k v)) := by
  intro z w q w' h
  rw [answer_apply_framed rfl, answer_framed] at h
  obtain ⟨a, w₁, -, h⟩ := Course.bind_eq_ok h
  match a with
  | .success q' =>
    rw [resume_bind_success] at h
    obtain ⟨finish, w₂, -, h⟩ := Course.bind_eq_ok h
    cases finish with
    | plain =>
      obtain ⟨z', w₃, -, h⟩ := Course.bind_eq_ok h
      obtain ⟨v, w₄, -, h⟩ := Course.bind_eq_ok h
      rw [exec_pure, pure_bind] at h
      exact hk v z' w₄ q w' h
    | committed => cases h
    | failed _ _ => cases h
  | .failure _ _ => rw [resume_bind_failure] at h; cases h
  | .committed _ => rw [resume_bind_committed] at h; cases h

theorem Outright.orElse {p q : Parser} (hp : Outright env p) (hq : Outright env q) : Outright env (.orElse p q) := by
  intro z w q' w' h
  rw [answer_apply_framed rfl, answer_framed] at h
  obtain ⟨a, w₁, ha, h⟩ := Course.bind_eq_ok h
  match a with
  | .success _ =>
    rw [resume_orElse_success] at h
    cases h
    exact hp z w q' _ ha
  | .failure _ _ =>
    rw [resume_orElse_failure] at h
    exact hq z w₁ q' w' h
  | .committed _ => rw [resume_orElse_committed] at h; cases h

theorem Outright.seqRight {p q : Parser} (hq : Outright env q) : Outright env (.seqRight p q) := .bind fun _ => hq

end OnDemand

namespace Engine

variable {e : Engine} {env : Env}

/-- **A parser whose successes leave nothing to be disclosed shows the tag of its result at once,** in every engine. -/
theorem ends_rawTag_of_outright {p : Parser} (hp : OnDemand.Outright env p) {z : Context} {w w' : World} {r : Outcome}
    (h : (e.semantics env).eval p z w = some (.ok r, w')) :
    ∃ w₁, Ends (fun n => e.rawTag env n p z) w (.ok r.tag) w₁ := by
  suffices hshown : ∃ w₁, e.shown env p z w = some (.ok r.tag, w₁) by
    simpa only [← limit_rawTag, Run.limit_eq_some (steady_rawTag e env _ _)] using hshown
  unfold shown
  unfold semantics at h
  cases he : e.onDemand with
  | true =>
    rw [he] at h
    obtain ⟨r₁, w₁, hreveal, hread⟩ := Course.bind_eq_ok h
    obtain ⟨a, w₂, ha, htag⟩ := OnDemand.tag_of_reveal (fun q w₁ => hp z w q w₁) hreveal
    have hr : r.tag = r₁.tag := by
      obtain ⟨c, q | ⟨rest, message⟩⟩ := r₁
      · obtain ⟨z', w₃, -, hread⟩ := Course.bind_eq_ok hread
        obtain ⟨v, w₄, -, hread⟩ := Course.bind_eq_ok hread
        cases hread
        cases c <;> rfl
      · cases hread
        cases c <;> rfl
    refine ⟨w₂, ?_⟩
    rw [if_pos rfl, map_eq_pure_bind, Course.bind_of_ok ha, hr, ← htag]
    rfl
  | false =>
    rw [he] at h
    refine ⟨w', ?_⟩
    rw [if_neg Bool.false_ne_true, map_eq_pure_bind, Course.bind_of_ok (show Strict.eval env _ z w = _ from h)]
    rfl

end Engine

end CommittedChoice
