import CommittedChoice.Proofs.OnDemand.Evaluation
import CommittedChoice.Proofs.OnDemand.Session

/-!
# The algebra of answers

An answer may be plain, committed to something suspended, or a success that turns out to be committed or to have failed.
Read to the end it is a result, and then each operation on answers is the operation on results of the same name.

- `Means.result`: the result that something suspended stands for. Its finish is disclosed first, then it is settled;
- `result_eq`: this is what it reveals, read to the end;
- `answers_image`: `bind`, `map`, `reword`, `orElse`, a labelled choice, `commit` and settling against the operations on
  results. Nothing is supposed of what is suspended: it may have any finish, also under a commitment.
-/

namespace CommittedChoice.OnDemand

open Run (limit Steady)
open Strict (Outcome)

/-! ## Results of answers -/

namespace Means

variable (m : Means)

/-- The remainder and the value of a settled answer. -/
def readSettled : Settled → Run (Verdict Context Value)
  | .failure z message => pure (.failure z message)
  | .success p => do
    let z ← m.late p.rest
    let v ← m.late p.value
    return .success z v

/-- The result that an answer stands for whose finish has been disclosed: a commitment is settled, and is one to all that
it settles to. -/
def resultOf (fuel : Nat) : Answer → Run Outcome
  | .success p => do return .plain (← m.readSettled (.success p))
  | .failure z message => pure (.failure z message)
  | .committed inner => do return .committed (← m.readSettled (← Hold.on (.committed inner) (m.fully fuel)))

/-- The result that something suspended stands for. -/
def result (fuel : Nat) (s : Suspended) : Run Outcome := do
  let a ← m.answer s
  let b ← Hold.on a m.disclosed
  m.resultOf fuel b

end Means

/-- The answer of something suspended, settled and with its finish disclosed. -/
noncomputable def settleAll (env : Env) (a : Answer) : Course Settled := limit fun n => Hold.on a ((means env n).fully n)

/-- The remainder and the value of a settled answer, with enough fuel. -/
noncomputable def readSettled (env : Env) (t : Settled) : Course (Verdict Context Value) :=
  limit fun n => (means env n).readSettled t

/-- The result that something suspended stands for, with enough fuel. -/
noncomputable def result (env : Env) (s : Suspended) : Course Outcome := limit fun n => (means env n).result n s

variable {env : Env}

theorem steady_readSettled (t : Settled) : Steady fun n => (means env n).readSettled t := by
  cases t with
  | failure z message => exact .const _
  | success p => exact .bind (steady_late env p.rest) fun z => .bind (steady_late env p.value) fun v => .const _

theorem readSettled_failure (z : Context) (message : String) :
    readSettled env (.failure z message) = pure (.failure z message) := Run.limit_const _

theorem readSettled_success (p : Promise) :
    readSettled env (.success p) = late env p.rest >>= fun z => late env p.value >>= fun v => pure (.success z v) := by
  refine (Run.limit_bind (steady_late env p.rest) fun z => ?_).trans (bind_congr fun z => ?_)
  · exact .bind (steady_late env p.value) fun v => .const _
  · exact Run.limit_bind_const (steady_late env p.value) _

/-- Reading what is revealed is reading it settled. -/
theorem read_eq (r : Revealed) :
    r.read env = (fun v => (Result.plain v).commitIf r.committed) <$> readSettled env r.settled := by
  obtain ⟨c, p | ⟨z, message⟩⟩ := r
  · rw [readSettled_success, Revealed.read]
    simp only [map_bind, map_pure]
    rfl
  · rw [readSettled_failure, Revealed.read, map_pure]
    rfl

theorem steady_resultOf (a : Answer) : Steady fun n => (means env n).resultOf n a := by
  cases a with
  | success p => exact .bind (steady_readSettled _) fun _ => .const _
  | failure z message => exact .const _
  | committed inner => exact .bind (steady_fully _) fun t => .bind (steady_readSettled t) fun _ => .const _

theorem steady_result (s : Suspended) : Steady fun n => (means env n).result n s :=
  .bind (steady_answer env s) fun a => .bind (steady_disclosed a) steady_resultOf

/-- An answer whose finish has been disclosed stands for what it reveals, read to the end. -/
theorem limit_resultOf_success (p : Promise) : (limit fun n => (means env n).resultOf n (.success p)) =
    Revealed.read env ⟨false, .success p⟩ := by
  rw [read_eq, map_eq_pure_bind]
  exact Run.limit_bind_const (steady_readSettled _) _

theorem limit_resultOf_committed (inner : Suspended) : (limit fun n => (means env n).resultOf n (.committed inner)) =
    Result.commit <$> (reveal env inner >>= Revealed.read env) := by
  have hread : ∀ r : Revealed, Result.commit <$> r.read env = Result.committed <$> readSettled env r.settled := by
    intro r
    rw [read_eq, ← comp_map]
    congr 1
    funext v
    cases r.committed <;> rfl
  have hsettled : (limit fun n => Hold.on (.committed inner) ((means env n).fully n)) =
      Revealed.settled <$> reveal env inner := by
    rw [limit_fully, revealing, ← comp_map]
    rfl
  rw [map_bind]
  simp only [hread]
  have hsteady : ∀ t, Steady fun n => (means env n).readSettled t >>= fun v => (pure (.committed v) : Run Outcome) :=
    fun t => .bind (steady_readSettled t) fun _ => .const _
  refine (Run.limit_bind (steady_fully _) hsteady).trans ?_
  rw [hsettled, bind_map_left]
  refine bind_congr fun r => ?_
  rw [map_eq_pure_bind]
  exact Run.limit_bind_const (steady_readSettled _) _

/-- **What is suspended stands for what it reveals, read to the end.** -/
theorem result_eq (s : Suspended) : result env s = reveal env s >>= Revealed.read env := by
  have hsteady : ∀ a, Steady fun n => Hold.on a (means env n).disclosed >>= (means env n).resultOf n :=
    fun a => .bind (steady_disclosed a) steady_resultOf
  refine (Run.limit_bind (steady_answer env s) hsteady).trans ?_
  rw [reveal_eq, bind_assoc]
  refine bind_congr fun a => ?_
  rw [Run.limit_bind (steady_disclosed a) steady_resultOf, limit_disclosed]
  cases a with
  | success p =>
    rw [disclose, revealing, bind_map_left, bind_map_left]
    refine bind_congr fun finish => ?_
    cases finish with
    | plain => exact limit_resultOf_success _
    | committed =>
      rw [Promise.disclosedAs, limit_resultOf_committed, reveal_ready_disclosed, pure_bind, ← Revealed.read_commit]
      rfl
    | failed z message =>
      rw [Promise.disclosedAs, limit_resultOf_committed, reveal_ready_failure, pure_bind, ← Revealed.read_commit]
      rfl
  | failure z message => exact Run.limit_const _
  | committed inner =>
    refine (limit_resultOf_committed inner).trans ?_
    rw [revealing, bind_map_left, map_bind]
    simp only [Revealed.read_commit]

/-- Related means give related results. -/
theorem Means.Related.result {R : {α : Type} → Run α → Run α → Prop} (hR : Run.Congruence R) {n n' : Nat} (hn : n ≤ n')
    (h : (means env n).Related R (means env n')) (s : Suspended) :
    R ((means env n).result n s) ((means env n').result n' s) := by
  have hread : ∀ t : Settled, R ((means env n).readSettled t) ((means env n').readSettled t) := fun t => by
    cases t with
    | failure z message => exact hR.pure _
    | success p => exact hR.bind (h.late hR _) fun _ => hR.bind (h.late hR _) fun _ => hR.pure _
  have hdisclosed : ∀ (m : Means) (p : Promise), Hold.on (.success p) m.disclosed = m.finish p >>= fun finish =>
      pure (p.disclosedAs finish) := on_disclosedPromise
  refine hR.bind (h.answer s) fun a => hR.bind ?_ fun b => ?_
  · cases a with
    | success p =>
      rw [hdisclosed, hdisclosed]
      exact hR.bind (h.finish hR p) fun finish => hR.pure _
    | _ => exact hR.pure _
  · cases b with
    | success p => exact hR.bind (hread _) fun _ => hR.pure _
    | failure z message => exact hR.pure _
    | committed inner =>
      refine hR.bind ?_ fun t => hR.bind (hread t) fun _ => hR.pure _
      rw [on_fully, on_fully]
      refine hR.bind (h.settlement hR hn inner) fun t => ?_
      cases t with
      | failure z message => exact hR.pure _
      | success p =>
        refine hR.bind (h.finish hR p) fun finish => ?_
        cases finish <;> exact hR.pure _

/-! ## Operations -/

/-- Whatever is settled and disclosed has nothing left to be disclosed. -/
theorem finish_of_settleAll {a : Answer} {p : Promise} {w w' : World}
    (h : settleAll env a w = some (.ok (.success p), w')) : p.finish = none := by
  obtain ⟨n, hn⟩ := (Run.limit_eq_some (steady_fully a)).1 h
  have hfully := Course.ofRun_eq_some.2 hn
  rw [on_fully, Course.ofRun_bind] at hfully
  obtain ⟨t, w₁, -, ht⟩ := Course.bind_eq_ok hfully
  match t with
  | .failure z message => cases ht
  | .success q =>
    rw [Means.disclosure, Course.ofRun_bind] at ht
    obtain ⟨finish, w₂, -, ht⟩ := Course.bind_eq_ok ht
    cases finish <;> cases ht <;> rfl

theorem settleAll_read (a : Answer) : settleAll env a >>= readSettled env = Result.verdict <$> result env (.ready a) := by
  have hverdict : ∀ r : Revealed, readSettled env r.settled = Result.verdict <$> r.read env := by
    intro r
    rw [read_eq, ← comp_map]
    refine (id_map _).symm.trans ?_
    congr 1
    funext v
    cases r.committed <;> rfl
  rw [settleAll, limit_fully, bind_map_left, result_eq, reveal_eq, answer_ready, pure_bind, map_bind]
  exact bind_congr hverdict

theorem result_committed (s : Suspended) : result env (.ready (.committed s)) = Result.commit <$> result env s := by
  rw [result_eq, result_eq, reveal_eq, answer_ready, pure_bind, revealing, bind_map_left, map_bind]
  exact bind_congr Revealed.read_commit

theorem result_commit (a : Answer) : result env (.ready a.commit) = Result.commit <$> result env (.ready a) := by
  have hcommit : ∀ x : Course Outcome, Result.commit <$> Result.commit <$> x = Result.commit <$> x :=
    fun x => (comp_map _ _ x).symm
  cases a with
  | success p => exact result_committed _
  | failure z message => exact result_committed _
  | committed inner => rw [Answer.commit, result_committed, hcommit]

theorem result_alternatives (z : Context) (failures : List (String × String)) (ps : List (String × Parser)) :
    (alternatives env z failures ps >>= fun a => result env (.ready a)) =
      (semantics env).alternatives env z failures ps := by
  rw [← read_revealAlternatives, ← alternatives_reveal, bind_assoc]
  refine bind_congr fun a => ?_
  rw [result_eq, reveal_eq, answer_ready, pure_bind]

/-- **The algebra of answers is that of results.** The result of what is done with something suspended is the same thing
done with its result: going on, a function of the value, another message, another alternative, a commitment to it (whether
it has answered already or not). The result of a labelled choice is that of the choice among the results of its
alternatives. Settling an answer and disclosing its finish leaves nothing to be disclosed, and gives what its result
gives. -/
theorem answers_image (env : Env) (s : Suspended) :
    (∀ k, result env (.framed s (.bind k)) =
      result env s >>= fun r => r.bind fun z v => exec env (k v) >>= fun q => result env (.apply q z)) ∧
    (∀ f, result env (.framed s (.map f)) = result env s >>= fun r => r.map fun v => exec env (f v)) ∧
    (∀ f, result env (.framed s (.reword f)) = result env s >>= fun r => r.adjust fun message => exec env (f message)) ∧
    (∀ q z, result env (.framed s (.orElse q z)) =
      result env s >>= fun r => Semantics.orElse r (result env (.apply q z))) ∧
    result env (.ready (.committed s)) = Result.commit <$> result env s ∧
    (∀ a, result env (.ready (Answer.commit a)) = Result.commit <$> result env (.ready a)) ∧
    (∀ z ps, (alternatives env z [] ps >>= fun a => result env (.ready a)) =
      Semantics.alternatives ⟨exec env, fun p z => result env (.apply p z)⟩ env z [] ps) ∧
    (∀ a, settleAll env a >>= readSettled env = Result.verdict <$> result env (.ready a)) ∧
    ∀ a p w w', settleAll env a w = some (.ok (.success p), w') → p.finish = none := by
  have heval : (fun p z => result env (.apply p z)) = eval env := funext fun p => funext fun z => result_eq _
  refine ⟨fun k => ?_, fun f => ?_, fun f => ?_, fun q z => ?_, result_committed s, result_commit, fun z ps => ?_,
    settleAll_read, fun a p w w' => finish_of_settleAll⟩
  · simp only [result_eq, reveal_framed_bind, bind_assoc, Revealed.read_bind]
    rfl
  · simp only [result_eq, reveal_framed_map, bind_assoc, bind_map_left, Revealed.read_map]
  · simp only [result_eq, reveal_framed_reword, bind_assoc, Revealed.read_reword]
  · simp only [result_eq, reveal_framed_orElse, bind_assoc, Revealed.read_orElse]
  · rw [heval]
    exact result_alternatives z [] ps

/-- A success that turns out to have failed: its message is reworded under the commitment. -/
example (env : Env) (z rest : Context) (v : Value) (w : World) :
    Run.Ends (fun n => (means env n).result n (.framed
      (.ready (.success ⟨.known z, .known v, some (.known (.failed rest "no"))⟩)) (.reword fun m => .pure ("so " ++ m)))) w
      (.ok (.committed (.failure rest "so no"))) w := ⟨4, rfl⟩

end CommittedChoice.OnDemand
