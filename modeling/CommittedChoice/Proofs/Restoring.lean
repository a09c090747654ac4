import Mathlib.Data.List.Permutation
import CommittedChoice.Proofs.Printing

/-!
# Undoing the state

`restoring` gives a failure the state back in which its parser was tried. A failure can come in three places on demand: at
once, under a commitment that is not settled yet, or as what a success turns out to be. Each is changed where it is, so the
parser is run no further than without `restoring`, and all of it once everything is asked for.

- `Result.undone`: a result whose state is undone if it is a failure;
- `Engine.restoring_undoes`: what `restoring` gives, and what shows of it at first.
-/

namespace CommittedChoice

open Run (limit Ends)
open Strict (Outcome)

/-- A failure with this state, or a success as it is. -/
def Result.undone (state : Value) (r : Outcome) : Outcome :=
  match r.verdict with
  | .success _ _ => r
  | .failure rest message => (Result.failure ⟨rest.input, state⟩ message).commitIf r.isCommitted

theorem Result.undone_eq (state : Value) (r : Outcome) :
    r.onFailureRest (fun rest => { rest with state := state }) = r.undone state := by
  obtain (_ | _) | (_ | _) := r <;> rfl

theorem Result.undone_undone (state : Value) (r : Outcome) : (r.undone state).undone state = r.undone state := by
  obtain (_ | _) | (_ | _) := r <;> rfl

theorem Result.tag_undone (state : Value) (r : Outcome) : (r.undone state).tag = r.tag := by
  obtain (_ | _) | (_ | _) := r <;> rfl

namespace OnDemand

variable {env : Env}

/-- **What is undone shows as it did,** and nothing else is done for it. -/
theorem tag_restoring (p : Parser) (z : Context) :
    Answer.tag <$> answer env (.apply (.restoring p) z) = Answer.tag <$> answer env (.apply p z) := by
  rw [answer_apply_framed (show frame? z (.restoring p) = some (p, .restoring z.state) from rfl), answer_framed, map_bind,
    map_eq_pure_bind]
  refine bind_congr fun a => ?_
  cases a with
  | failure rest message => rw [resume_restoring_failure, map_pure]; rfl
  | success q => rw [resume_restoring_success, map_pure]; rfl
  | committed inner => rw [resume_restoring_committed, map_pure]; rfl

end OnDemand

namespace Engine

variable (e : Engine) (env : Env) (p : Parser) (z : Context)

theorem eval_restoring : (e.semantics env).eval (.restoring p) z = Result.undone z.state <$> (e.semantics env).eval p z := by
  rw [(e.compositional env).eval_meaning rfl z, Semantics.meaning, map_eq_pure_bind]
  exact bind_congr fun r => congrArg pure (r.undone_eq z.state)

theorem shown_restoring : e.shown env (.restoring p) z = e.shown env p z := by
  by_cases h : e.onDemand = true
  · rw [shown, shown, if_pos h, if_pos h]
    exact OnDemand.tag_restoring p z
  · have heval := eval_restoring e env p z
    rw [semantics, if_neg h] at heval
    rw [shown, shown, if_neg h, if_neg h]
    refine (congrArg (Result.tag <$> ·) heval).trans ?_
    simp only [Functor.map_map, Result.tag_undone]
    rfl

/-- **A failure gives the state back, and nothing else changes.** In every engine, `restoring` gives what its parser gives, in
the same world, with the state of the context in a failure of any kind; doing it twice changes nothing. What shows of it at
first is what shows of its parser, and no more has been done by then. And without lists, the strict engine and the one on
demand give the same, but for what is printed. -/
theorem restoring_undoes :
    (∀ w x w', Ends (fun n => e.result env n (.restoring p) z) w x w' ↔
      ∃ y, Ends (fun n => e.result env n p z) w y w' ∧ x = y.map (Result.undone z.state)) ∧
    e.Same env (.restoring (.restoring p)) (.restoring p) ∧
    (∀ w t w', Ends (fun n => e.rawTag env n (.restoring p) z) w t w' ↔ Ends (fun n => e.rawTag env n p z) w t w') ∧
    ∀ (grammar : Grammar) (settings : Settings) (b : Bool) (w : World), (∀ name, (grammar name).StreamFree) →
      p.StreamFree → w.lists = #[] →
      (limit fun n => (strict b).result ((strict b).env grammar settings) n (.restoring p) z).hushed w =
        (limit fun n => (lazy b).result ((lazy b).env grammar settings) n (.restoring p) z).hushed w := by
  refine ⟨fun w x w' => ?_, same_iff.2 fun z => ?_, fun w t w' => ?_, fun grammar settings b w hg hp hw => ?_⟩
  · simp only [ends_result, eval_restoring]
    exact Course.map_eq_some
  · rw [eval_restoring, eval_restoring, Functor.map_map]
    simp only [Result.undone_undone]
  · rw [← Run.limit_eq_some (steady_rawTag e env _ z), ← Run.limit_eq_some (steady_rawTag e env _ z), limit_rawTag,
      limit_rawTag, shown_restoring]
  · have hrestoring : (Parser.restoring p).StreamFree := by
      rw [Parser.StreamFree, Parser.Throughout]
      exact ⟨rfl, hp⟩
    exact hushed_result_alike hg settings b hrestoring z hw

/-- A list whose end fails for good, after another state. -/
def spoiled : Parser := .seqRight (.put (.text "x")) (.stream (.commit (.fail "no")))

/-- A success at first, the failure that it turns out to be, and a failure for good in both engines. -/
theorem restoring_undoes_spoiled :
    (∃ w, Ends (fun n => (lazy true).rawTag ((lazy true).env (fun _ => .fail "") {}) n (.restoring spoiled)
      ⟨.ofText "a", .absent⟩) {} (.ok .success) w) ∧
    (∃ w, Ends (fun n => (lazy true).result ((lazy true).env (fun _ => .fail "") {}) n (.restoring spoiled)
      ⟨.ofText "a", .absent⟩) {} (.ok (.committed (.failure ⟨.ofText "a", .absent⟩ "no"))) w) ∧
    (limit fun n => (strict true).result ((strict true).env (fun _ => .fail "") {}) n (.restoring (.commit (.fail "no")))
        ⟨.ofText "a", .absent⟩).hushed {} =
      (limit fun n => (lazy true).result ((lazy true).env (fun _ => .fail "") {}) n (.restoring (.commit (.fail "no")))
        ⟨.ofText "a", .absent⟩).hushed {} := by
  obtain ⟨hresult, -, htag, -⟩ := restoring_undoes (lazy true) ((lazy true).env (fun _ => .fail "") {}) spoiled
    ⟨.ofText "a", .absent⟩
  obtain ⟨-, -, -, halike⟩ := restoring_undoes (lazy true) ((lazy true).env (fun _ => .fail "") {}) (.commit (.fail "no"))
    ⟨.ofText "a", .absent⟩
  have hgrammar : ∀ name : String, ((fun _ => .fail "" : Grammar) name).StreamFree := fun _ => by
    simp [Parser.StreamFree, Parser.Throughout, Parser.isStream]
  have hfails : (Parser.commit (.fail "no")).StreamFree := by
    simp [Parser.StreamFree, Parser.Throughout, Parser.isStream]
  have hshown : Ends (fun n => (lazy true).rawTag ((lazy true).env (fun _ => .fail "") {}) n spoiled
      ⟨.ofText "a", .absent⟩) {} (.ok .success) _ := ⟨8, rfl⟩
  have hfailed : Ends (fun n => (lazy true).result ((lazy true).env (fun _ => .fail "") {}) n spoiled
      ⟨.ofText "a", .absent⟩) {} (.ok (.committed (.failure ⟨.ofText "a", .text "x"⟩ "no"))) _ :=
    ⟨12, Prod.ext (by cbv) rfl⟩
  exact ⟨⟨_, (htag _ _ _).2 hshown⟩, ⟨_, (hresult _ _ _).2 ⟨_, hfailed, rfl⟩⟩, halike _ {} true {} hgrammar hfails rfl⟩

end Engine

end CommittedChoice
