import CommittedChoice.Proofs.Laws

/-!
# Loops unfold

A loop means its recursive definition: the parser of its first turn, and after that the loop from where the turn leads to,
or the value that the turn stops with. The engines do not run it like that. The strict one goes through the turns with one
flag for all commitments so far, the one on demand answers at the first commitment and goes on with other turns inside it.

- `Semantics.Compositional.loop_step`: the equation, where a term means what its parts do;
- `OnDemand.tag_loop_step`: what shows at first is the same too;
- `Engine.Iterations`: the turns that a loop executes, with the result of each;
- `Engine.loop_unfolds`: the equation in the engines, and what the executed turns give.
-/

namespace CommittedChoice

open Run (limit Steady Ends)
open Strict (Outcome)

/-- What a loop does with the value of a turn: it goes on from the state that the value holds, or stops. -/
def Parser.onward (step : Value → Act Parser) (l : Value) : Parser :=
  match l.toStep with
  | .again state => .loop state step
  | .done value => .pure value

/-- A loop as its definition has it, after the parser `p` of its first turn. -/
def Parser.unfolding (step : Value → Act Parser) (p : Parser) : Parser := .bind p fun l => .pure (onward step l)

/-! ## The result -/

namespace Semantics

variable {S : Semantics} {env : Env} (hS : S.Compositional env) (step : Value → Act Parser)

include hS

/-- What follows a turn is what follows the value of the turn. -/
theorem Compositional.after_eq_bind (r : Outcome) :
    turn.after (S.loop step) false r = r.bind fun z l => S.eval (.onward step l) z := by
  -- after a commitment, the turns are those of the loop, committed
  have honward : ∀ z l, S.eval (.onward step l) z =
      match l.toStep with
      | .again state => S.loop step false state z
      | .done value => pure (.success z value) := by
    intro z l
    unfold Parser.onward
    cases l.toStep with
    | again state => exact hS.eval_meaning rfl z
    | done value => exact hS.eval_pure z value
  match r with
  | .plain (.failure z message) | .committed (.failure z message) => rfl
  | .plain (.success z l) =>
    rw [Result.bind, honward, turn_after]
    dsimp only [Result.verdict]
    cases l.toStep <;> rfl
  | .committed (.success z l) =>
    rw [Result.bind, honward, turn_after]
    dsimp only [Result.verdict]
    cases l.toStep with
    | again state => exact (commit_loop step false state z).symm.trans (map_eq_pure_bind _ _)
    | done value => rfl

/-- **A loop is its first turn and what follows the value of the turn.** -/
theorem Compositional.loop_step (init : Value) (z : Context) :
    S.eval (.loop init step) z = S.exec (step init) >>= fun p => S.eval (.unfolding step p) z := by
  rw [hS.eval_meaning rfl, meaning, loop, Course.Turn.loop_unfold, body, bind_assoc]
  refine bind_congr fun p => ?_
  rw [Parser.unfolding, hS.eval_bind]
  refine bind_congr fun r => ?_
  simp only [hS.exec_pure, pure_bind]
  exact hS.after_eq_bind step r

end Semantics

/-! ## What shows at first -/

namespace OnDemand

variable {env : Env} (step : Value → Act Parser) {p : Parser} {z : Context}

/-- What a turn on demand leads to shows as what follows the value of the turn does. -/
theorem tag_turn {a : Answer} {w w' : World} (ha : answer env (.apply p z) w = some (.ok a, w')) :
    (Answer.tag <$> (turnAnswer step env false a >>= afterTurn (turns env step false))) w' =
      (Answer.tag <$> resume env (.bind fun l => .pure (.onward step l)) a) w' := by
  cases a with
  | failure z message => rw [turnAnswer_failure, resume_bind_failure]; rfl
  | committed inner => rw [turnAnswer_committed_false, resume_bind_committed]; rfl
  | success q =>
    rw [turnAnswer_success, resume_bind_success, bind_assoc, map_bind, map_bind]
    refine Course.bind_congr_of_ok fun finish w₁ hfinish => ?_
    cases finish with
    | committed => rw [turnFinished_committed_false]; rfl
    | failed z message => rw [turnFinished_failed]; rfl
    | plain =>
      have hreveal : reveal env (.apply p z) w = some (.ok ⟨false, .success q.disclosed⟩, w₁) := by
        rw [reveal_eq, Course.bind_of_ok ha, revealing, map_eq_pure_bind, Course.bind_of_ok hfinish]
        rfl
      obtain ⟨z', hanchored⟩ := reveal_anchored hreveal
      rw [turnFinished_plain, bindFinished, turnValue, bind_assoc, map_bind, map_bind,
        Course.bind_of_ok (show late env q.rest w₁ = _ from hanchored.late), map_bind]
      refine Course.bind_congr_of_ok fun l w₂ hl => ?_
      rw [exec_pure, pure_bind]
      unfold Parser.onward
      cases l.toStep with
      | done value => rw [pure_bind, answer_apply_const rfl fun _ => rfl]; rfl
      | again state =>
        rw [bind_assoc, map_bind, Course.bind_of_ok (show late env q.rest w₂ = _ from (hanchored.before (late_before hl)).late),
          pure_bind, answer_loop]
        rfl

/-- **A loop shows at first what its first turn and what follows the value of the turn show.** -/
theorem tag_loop_step (init : Value) (z : Context) :
    Answer.tag <$> answer env (.apply (.loop init step) z) =
      exec env (step init) >>= fun p => Answer.tag <$> answer env (.apply (.unfolding step p) z) := by
  rw [answer_loop, turns_eq, map_bind]
  refine bind_congr fun p => ?_
  rw [answer_apply_framed (show frame? z (.unfolding step p) = some (p, _) from rfl), answer_framed, map_bind, map_bind]
  funext w
  exact Course.bind_congr_of_ok fun a w' ha => tag_turn step ha

end OnDemand

/-! ## The engines -/

namespace Engine

variable (e : Engine) (env : Env) (step : Value → Act Parser)

/-- One iteration of a loop: the parser for a state, applied to a context. -/
def iteration (fuel : Nat) (state : Value) (z : Context) : Run Outcome := do
  e.result env fuel (← e.exec env fuel (step state)) z

/-- The iterations that a loop executes from a state and a context on, with the result of each in order, and the verdict
with which the last one ends the loop. -/
inductive Iterations : Value → Context → World → List Outcome → Verdict Context Value → World → Prop
  | failed {state : Value} {z rest : Context} {w w' : World} {r : Outcome} {message : String}
      (hr : Ends (fun n => e.iteration env step n state z) w (.ok r) w') (hv : r.verdict = .failure rest message) :
      Iterations state z w [r] (.failure rest message) w'
  | done {state l value : Value} {z rest : Context} {w w' : World} {r : Outcome}
      (hr : Ends (fun n => e.iteration env step n state z) w (.ok r) w') (hv : r.verdict = .success rest l)
      (hl : l.toStep = .done value) : Iterations state z w [r] (.success rest value) w'
  | again {state l next : Value} {z rest : Context} {w w₁ w' : World} {r : Outcome} {rs : List Outcome}
      {v : Verdict Context Value} (hr : Ends (fun n => e.iteration env step n state z) w (.ok r) w₁)
      (hv : r.verdict = .success rest l) (hl : l.toStep = .again next) (hrest : Iterations next rest w₁ rs v w') :
      Iterations state z w (r :: rs) v w'

theorem steady_exec {α : Type} (act : Act α) : Steady fun n => e.exec env n act := by
  unfold exec
  cases e.onDemand with
  | true => exact OnDemand.steady_exec env act
  | false => exact .const _

theorem steady_result (p : Parser) (z : Context) : Steady fun n => e.result env n p z := by
  unfold result
  cases e.onDemand with
  | true => exact OnDemand.steady_result _
  | false => exact Strict.steady_run env p z

theorem steady_rawTag (p : Parser) (z : Context) : Steady fun n => e.rawTag env n p z := by
  unfold rawTag
  cases e.onDemand with
  | true => exact .bind (OnDemand.steady_answer env _) fun _ => .const _
  | false => exact .bind (Strict.steady_run env p z) fun _ => .const _

theorem limit_exec {α : Type} (act : Act α) : (limit fun n => e.exec env n act) = (e.semantics env).exec act := by
  unfold exec semantics
  cases e.onDemand with
  | true => rfl
  | false => exact Run.limit_const _

/-- What shows of a parser at first, with enough fuel. -/
noncomputable def shown (p : Parser) (z : Context) : Course Tag :=
  if e.onDemand then OnDemand.Answer.tag <$> OnDemand.answer env (.apply p z) else Result.tag <$> Strict.eval env p z

theorem limit_rawTag (p : Parser) (z : Context) : (limit fun n => e.rawTag env n p z) = e.shown env p z := by
  unfold rawTag shown
  cases e.onDemand with
  | true => exact (Run.limit_bind_const (OnDemand.steady_answer env _) _).trans (map_eq_pure_bind _ _).symm
  | false => exact (Run.limit_bind_const (Strict.steady_run env p z) _).trans (map_eq_pure_bind _ _).symm

/-- What shows of a loop at first. -/
theorem shown_loop_step (init : Value) (z : Context) :
    e.shown env (.loop init step) z =
      (e.semantics env).exec (step init) >>= fun p => e.shown env (.unfolding step p) z := by
  unfold shown semantics
  cases e.onDemand with
  | true => exact OnDemand.tag_loop_step step init z
  | false => exact (congrArg _ ((Strict.compositional env).loop_step step init z)).trans (map_bind _ _ _)

variable {e env step}

theorem ends_result {p : Parser} {z : Context} {w w' : World} {x : Except Fault Outcome} :
    Ends (fun n => e.result env n p z) w x w' ↔ (e.semantics env).eval p z w = some (x, w') := by
  rw [← limit_result, Run.limit_eq_some (steady_result e env p z)]

theorem ends_iteration {state : Value} {z : Context} {w w' : World} {x : Except Fault Outcome} :
    Ends (fun n => e.iteration env step n state z) w x w' ↔ (e.semantics env).body step state z w = some (x, w') := by
  rw [Semantics.body, ← limit_exec_result]
  exact (Run.limit_eq_some (.bind (steady_exec e env _) fun p => steady_result e env p z)).symm

/-! ### The executed iterations -/

/-- The loop, after a commitment if `c` holds, does the iterations from there on. -/
theorem Iterations.loop_eq {state : Value} {z : Context} {w w' : World} {rs : List Outcome} {v : Verdict Context Value}
    (h : Iterations e env step state z w rs v w') (c : Bool) :
    (e.semantics env).loop step c state z w =
      some (.ok ((Result.plain v).commitIf (c || rs.any Result.isCommitted)), w') := by
  induction h generalizing c with
  | failed hr hv =>
    rw [Semantics.loop, Course.Turn.loop_unfold, Course.bind_of_ok (ends_iteration.1 hr), Semantics.turn_after, hv,
      List.any_cons, List.any_nil, Bool.or_false]
    rfl
  | done hr hv hl =>
    rw [Semantics.loop, Course.Turn.loop_unfold, Course.bind_of_ok (ends_iteration.1 hr), Semantics.turn_after, hv,
      List.any_cons, List.any_nil, Bool.or_false]
    dsimp only
    rw [hl]
    rfl
  | again hr hv hl _ ih =>
    rw [Semantics.loop, Course.Turn.loop_unfold, Course.bind_of_ok (ends_iteration.1 hr), Semantics.turn_after, hv,
      List.any_cons, ← Bool.or_assoc, ← ih]
    dsimp only
    rw [hl]
    rfl

/-- Where a loop ends in a result, it has gone through iterations up to one that ended it. -/
theorem iterations_of_loop {c : Bool} {state : Value} {z : Context} {w w' : World} {r : Outcome}
    (h : (e.semantics env).loop step c state z w = some (.ok r, w')) :
    ∃ rs v, Iterations e env step state z w rs v w' ∧ r = (Result.plain v).commitIf (c || rs.any Result.isCommitted) := by
  refine Course.Turn.loop_induction (R := fun c state z w b => ∀ r w', b = (.ok r, w') → ∃ rs v,
    Iterations e env step state z w rs v w' ∧ r = (Result.plain v).commitIf (c || rs.any Result.isCommitted)) ?_ h r w' rfl
  rintro next hnext c state z w b hb r w' rfl
  obtain ⟨r₁, w₁, hr₁, hafter⟩ := Course.bind_eq_ok hb
  have hr₁ := ends_iteration.2 hr₁
  rw [Semantics.turn_after] at hafter
  cases hv : r₁.verdict with
  | failure rest message =>
    rw [hv] at hafter
    cases hafter
    exact ⟨_, _, .failed hr₁ hv, by rw [List.any_cons, List.any_nil, Bool.or_false]; rfl⟩
  | success rest l =>
    rw [hv] at hafter
    dsimp only at hafter
    cases hl : l.toStep with
    | done value =>
      rw [hl] at hafter
      cases hafter
      exact ⟨_, _, .done hr₁ hv hl, by rw [List.any_cons, List.any_nil, Bool.or_false]; rfl⟩
    | again s =>
      rw [hl] at hafter
      obtain ⟨rs, v, hrs, rfl⟩ := hnext _ _ _ _ _ hafter r w' rfl
      exact ⟨_, _, .again hr₁ hv hl hrs, by rw [List.any_cons, Bool.or_assoc]⟩

variable (e env step)

/-- **A loop means its recursive definition,** in every engine: what the loop gives is what the parser of its first turn
gives with the loop, or the last value, after it; and so is the tag that shows at first. Where that is a result, it is
committed exactly if one of the executed iterations was. -/
theorem loop_unfolds (init : Value) (z : Context) :
    ((limit fun n => e.result env n (.loop init step) z) =
      limit fun n => e.exec env n (step init) >>= fun p => e.result env n (.unfolding step p) z) ∧
    ((limit fun n => e.rawTag env n (.loop init step) z) =
      limit fun n => e.exec env n (step init) >>= fun p => e.rawTag env n (.unfolding step p) z) ∧
    ∀ w r w', Ends (fun n => e.result env n (.loop init step) z) w (.ok r) w' ↔
      ∃ rs v, Iterations e env step init z w rs v w' ∧ r = (Result.plain v).commitIf (rs.any Result.isCommitted) := by
  have hS := e.compositional env
  refine ⟨?_, ?_, fun w r w' => ?_⟩
  · rw [Run.limit_bind (steady_exec e env _) fun p => steady_result e env _ z]
    simp only [limit_result, limit_exec]
    exact hS.loop_step step init z
  · rw [Run.limit_bind (steady_exec e env _) fun p => steady_rawTag e env _ z]
    simp only [limit_rawTag, limit_exec]
    exact shown_loop_step e env step init z
  · rw [ends_result, hS.eval_meaning rfl]
    constructor
    · intro h
      obtain ⟨rs, v, hrs, hr⟩ := iterations_of_loop h
      exact ⟨rs, v, hrs, by rwa [Bool.false_or] at hr⟩
    · rintro ⟨rs, v, hrs, rfl⟩
      exact (hrs.loop_eq false).trans (by rw [Bool.false_or])

end Engine

end CommittedChoice
