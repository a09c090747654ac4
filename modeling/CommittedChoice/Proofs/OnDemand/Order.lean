import CommittedChoice.Proofs.OnDemand.Domains
import CommittedChoice.Proofs.OnDemand.Evaluation
import CommittedChoice.Proofs.OnDemand.Session

/-!
# The order in which a success is read

By the time it shows whether a parser succeeded, the context after the success is known, or it is that of a list that was
read to its end. Asking for it does nothing any more, so it is no matter whether the context or the value is asked for first.

- `reveal_anchored`: the context after a success that has shown;
- `limit_verdict_eval`: a parse gives the verdict of the result, whatever the parser;
- `eval_meaning`: the equation of the engine, loops included.
-/

namespace CommittedChoice.OnDemand

open Run (limit)
open Strict (Outcome)

variable {env : Env} {w w' : World}

/-- All remainders. -/
def everywhere : Domain where
  holds _ _ := True
  later _ _ := trivial
  next _ _ := trivial

/-- **The context after a success that has shown.** -/
theorem reveal_anchored {p : Parser} {z : Context} {c : Bool} {q : Promise}
    (h : reveal env (.apply p z) w = some (.ok ⟨c, .success q⟩, w')) : ∃ z', q.rest.Anchored w' z' := by
  have hadmits : ∀ p : Parser, p.Throughout everywhere.Admits :=
    Parser.throughout_of_forall fun _ _ _ _ _ _ => trivial
  have hs : everywhere.Suspends w (.apply p z) := by rw [Domain.Suspends]; exact ⟨hadmits p, trivial⟩
  obtain ⟨-, z', hanchored, -⟩ := Domain.reveal_within (fun name => hadmits _) hs h
  exact ⟨z', hanchored⟩

section Anchored

variable {q : Promise} {z : Context} (h : q.rest.Anchored w z)

include h

theorem readAll_anchored : readAll env (.success q) w = (late env q.value >>= fun v => pure (.success z v)) w := by
  unfold readAll
  dsimp only
  split
  · exact Course.bind_of_ok h.late
  · refine Course.bind_congr_of_ok fun v w₁ hv => ?_
    exact Course.bind_of_ok (h.before (late_before hv)).late

theorem read_anchored (c : Bool) : (⟨c, .success q⟩ : Revealed).read env w =
    (late env q.value >>= fun v => pure ((Result.success z v).commitIf c)) w :=
  Course.bind_of_ok h.late

end Anchored

/-- **A parse gives the verdict of the result.** -/
theorem limit_verdict_eval (p : Parser) (z : Context) :
    (limit fun n => (means env n).verdict n p z) = Result.verdict <$> eval env p z := by
  funext w
  rw [limit_verdict, eval, map_bind]
  refine Course.bind_congr_of_ok fun r w₁ hr => ?_
  obtain ⟨c, q | ⟨rest, message⟩⟩ := r
  · obtain ⟨z', hanchored⟩ := reveal_anchored hr
    have hverdict : ∀ v : Value, ((Result.success z' v).commitIf c).verdict = .success z' v := fun v => by cases c <;> rfl
    rw [readAll_anchored hanchored, map_eq_pure_bind, Course.bind_congr_left (read_anchored hanchored c), bind_assoc]
    simp only [pure_bind, hverdict]
  · cases c <;> rfl

/-! ## Loops -/

section Loops

variable (step : Value → Act Parser)

/-- Reading what a turn has led to is going on after the result of the turn. -/
theorem read_after {f : Bool → Value → Context → Course Revealed} {g : Bool → Value → Context → Course Outcome}
    (hfg : ∀ c s z, f c s z >>= Revealed.read env = g c s z) {p : Parser} {z : Context} {r : Revealed} (c : Bool)
    (hr : reveal env (.apply p z) w = some (.ok r, w')) :
    ((revealTurn env).after f c r >>= Revealed.read env) w' = (r.read env >>= Semantics.turn.after g c) w' := by
  obtain ⟨d, q | ⟨rest, message⟩⟩ := r
  · obtain ⟨z', hanchored⟩ := reveal_anchored hr
    have hread : (late env q.value >>= fun v => Semantics.turn.after g c ((Result.success z' v).commitIf d)) w' =
        ((⟨d, .success q⟩ : Revealed).read env >>= Semantics.turn.after g c) w' := by
      rw [Course.bind_congr_left (read_anchored hanchored d), bind_assoc]
      simp only [pure_bind]
    rw [← hread]
    simp only [revealTurn, bind_assoc, Semantics.turn_after_success]
    refine Course.bind_congr_of_ok fun v w₁ hv => ?_
    have hlate : late env q.rest w₁ = some (.ok z', w₁) := (hanchored.before (late_before hv)).late
    cases v.toStep with
    | done value =>
      dsimp only
      rw [pure_bind, read_anchored (q := ⟨q.rest, .known value, none⟩) (hanchored.before (late_before hv)), late_known, pure_bind]
    | again state =>
      dsimp only
      rw [bind_assoc, Course.bind_of_ok hlate, hfg]
  · cases d <;> rfl

theorem read_rounds : ∀ (k : Nat) (c : Bool) (s : Value) (z : Context),
    (revealTurn env).rounds (revealBody env step) k c s z >>= Revealed.read env =
      Semantics.turn.rounds ((semantics env).body step) k c s z
  | 0, _, _, _ => rfl
  | k + 1, c, s, z => by
    show revealBody env step s z >>= _ >>= Revealed.read env = (semantics env).body step s z >>= _
    unfold revealBody Semantics.body
    show _ = (exec env (step s) >>= fun p => eval env p z) >>= _
    unfold eval
    simp only [bind_assoc]
    refine bind_congr fun p => ?_
    funext w
    exact Course.bind_congr_of_ok fun r w₁ hr => read_after (read_rounds k) c hr

theorem eval_loop (init : Value) (z : Context) :
    eval env (.loop init step) z = (semantics env).loop step false init z := by
  rw [eval, reveal_loop, revealLoop, Course.Turn.loop, ← Course.sup_bind_const (Course.Turn.monotone_rounds false init z)]
  simp only [read_rounds]
  rfl

end Loops

/-- **The equation of the engine,** for all that is no list. -/
theorem eval_meaning {p : Parser} (hp : p.isStream = false) (z : Context) :
    eval env p z = (semantics env).meaning env p z := by
  cases p with
  | loop init step => exact eval_loop step init z
  | _ => exact eval_eq (fun _ _ h => by cases h) hp z

end CommittedChoice.OnDemand
