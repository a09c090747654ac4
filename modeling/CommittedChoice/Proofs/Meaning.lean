import CommittedChoice.Proofs.Course
import CommittedChoice.Strict

/-!
# The meaning of parsers

What a parser means, given what the parsers inside it mean and what callbacks do. Fuel plays no part in it, so the
equation of an engine without fuel is one line: what the engine gives is the meaning of the term in terms of itself.

- `Semantics`: what callbacks do and what parsers give;
- `Semantics.meaning`: one layer of a term;
- `Strict.eval`: what the strict engine gives with enough fuel, and its equation (`Strict.eval_eq`).
-/

namespace CommittedChoice

open Strict (Outcome)

/-! ## Results under a commitment -/

namespace Result

variable {ζ α β : Type}

@[simp] theorem isCommitted_commit (r : Result ζ α) : r.commit.isCommitted = true := rfl

theorem onFailureRest_commit (r : Result ζ α) (f : ζ → ζ) : r.commit.onFailureRest f = (r.onFailureRest f).commit := by
  obtain (_ | _) | (_ | _) := r <;> rfl

/-- The result as if nothing had been committed. -/
def uncommitted (r : Result ζ α) : Result ζ α := .plain r.verdict

@[simp] theorem verdict_uncommitted (r : Result ζ α) : r.uncommitted.verdict = r.verdict := rfl

@[simp] theorem isCommitted_uncommitted (r : Result ζ α) : r.uncommitted.isCommitted = false := rfl

/-- Whether the result is a failure that no choice may discard. -/
def isFatal : Result ζ α → Bool
  | .committed (.failure _ _) => true
  | _ => false

variable {m : Type → Type} [Monad m] [LawfulMonad m]

theorem bind_commit (r : Result ζ α) (k : ζ → α → m (Result ζ β)) : r.commit.bind k = commit <$> r.bind k := by
  match r with
  | .plain (.success z a) => exact (map_eq_pure_bind commit (k z a)).symm
  | .committed (.success z a) =>
    show (k z a >>= fun r => Pure.pure r.commit) = commit <$> (k z a >>= fun r => Pure.pure r.commit)
    simp
  | .plain (.failure z e) | .committed (.failure z e) => simp [bind, commit, failure, verdict]

theorem map_commit (r : Result ζ α) (f : α → m β) : r.commit.map f = commit <$> r.map f := by
  obtain (_ | _) | (_ | _) := r <;> simp [map, commit, success, failure, verdict]

theorem adjust_commit (r : Result ζ α) (f : String → m String) : r.commit.adjust f = commit <$> r.adjust f := by
  obtain (_ | _) | (_ | _) := r <;> simp [adjust, commit, failure, verdict]

end Result

/-! ## Semantics -/

/-- Whether no other parser is part of a parser. -/
def Parser.isLeaf : Parser → Bool
  | .pure _ | .fail _ | .next | .eof | .satisfy _ | .pushBack _ | .position | .get | .put _ => true
  | _ => false

/-- What callbacks do and what parsers give. -/
structure Semantics where
  exec : {α : Type} → Act α → Course α
  eval : Parser → Context → Course Outcome

namespace Semantics

variable (S : Semantics)

/-- What one turn of a loop leads to. -/
def turn : Course.Turn Outcome where
  after next committed r :=
    match r.verdict with
    | .failure z message => pure ((Result.failure z message).commitIf (committed || r.isCommitted))
    | .success z v =>
      match v.toStep with
      | .done value => pure ((Result.success z value).commitIf (committed || r.isCommitted))
      | .again state => next (committed || r.isCommitted) state z
  mono := by
    intro f g h committed r
    cases r.verdict with
    | failure z message => exact le_refl _
    | success z v =>
      dsimp only
      cases v.toStep with
      | done value => exact le_refl _
      | again state => exact h _ _ _
  sup := by
    intro f hf committed r
    cases r.verdict with
    | failure z message => exact Course.sup_const _
    | success z v =>
      dsimp only
      cases v.toStep with
      | done value => exact Course.sup_const _
      | again state => rfl

theorem turn_after (f : Bool → Value → Context → Course Outcome) (c : Bool) (r : Outcome) :
    turn.after f c r =
      match r.verdict with
      | .failure z message => pure ((Result.failure z message).commitIf (c || r.isCommitted))
      | .success z v =>
        match v.toStep with
        | .done value => pure ((Result.success z value).commitIf (c || r.isCommitted))
        | .again state => f (c || r.isCommitted) state z := rfl

/-- A turn that succeeded, `d` says whether it committed. -/
theorem turn_after_success (f : Bool → Value → Context → Course Outcome) (c d : Bool) (z : Context) (v : Value) :
    turn.after f c ((Result.success z v).commitIf d) =
      match v.toStep with
      | .done value => pure ((Result.success z value).commitIf (c || d))
      | .again state => f (c || d) state z := by
  cases d <;> rfl

/-- The parser of a turn and its result. -/
def body (step : Value → Act Parser) (state : Value) (z : Context) : Course Outcome :=
  S.exec (step state) >>= fun p => S.eval p z

/-- A loop. -/
noncomputable def loop (step : Value → Act Parser) : Bool → Value → Context → Course Outcome := turn.loop (S.body step)

/-- A labelled choice, with the failures so far, newest first. -/
def alternatives (env : Env) (z : Context) : List (String × String) → List (String × Parser) → Course Outcome
  | failures, [] => do
    return .failure z (← Course.ofRun (Run.ofExcept (Message.choiceReport env.settings.indent failures.reverse)))
  | failures, (label, p) :: rest => do
    match ← S.eval p z with
    | .plain (.failure _ message) =>
      Course.ofRun (env.trace ("alternative \"" ++ label ++ "\" failed: " ++ message))
      alternatives env z ((label, message) :: failures) rest
    | r => pure r

/-- The first result unless it is a plain failure. -/
def orElse (r : Outcome) (second : Course Outcome) : Course Outcome :=
  match r with
  | .plain (.failure _ _) => second
  | r => pure r

/-- What a parser means in terms of the parsers inside it. There are no lists. -/
noncomputable def meaning (env : Env) (p : Parser) (z : Context) : Course Outcome :=
  match p with
  | .pure v => pure (.success z v)
  | .fail message => pure (.failure z message)
  | .map p f => do (← S.eval p z).map fun a => S.exec (f a)
  | .bind p k => do
    (← S.eval p z).bind fun z a => do
      let q ← S.exec (k a)
      S.eval q z
  | .orElse p q => do orElse (← S.eval p z) (S.eval q z)
  | .loop init step => S.loop step false init z
  | .commit p => do return (← S.eval p z).commit
  | .reword p f => do (← S.eval p z).adjust fun m => S.exec (f m)
  | .choice ps => S.alternatives env z [] ps
  | .next => do
    match ← Course.ofRun (Run.next? z.input) with
    | none => pure (.failure z Message.noTokenLeft)
    | some (t, rest) => pure (.success { z with input := rest } t)
  | .eof => do
    match ← Course.ofRun (Run.next? z.input) with
    | none => pure (.success z .absent)
    | some _ => pure (.failure z Message.tokensLeft)
  | .satisfy test => do
    match ← Course.ofRun (Run.next? z.input) with
    | none => pure (.failure z Message.noTokenLeft)
    | some (t, rest) =>
      if ← S.exec (test t) then pure (.success { z with input := rest } t)
      else return .failure z (← Course.ofRun (Run.ofExcept (Message.unexpected t)))
  | .pushBack ts => pure (.success { z with input := z.input.push ts } .absent)
  | .position => pure (.success z (.nat z.input.consumed))
  | .get => pure (.success z z.state)
  | .put state => pure (.success { z with state := state } .absent)
  | .restoring p => do return (← S.eval p z).onFailureRest fun rest => { rest with state := z.state }
  | .stream _ => Course.fault (.mistyped "a strict engine has no lists")
  | .rule name => S.eval (env.grammar name) z

/-! ### Loops after a commitment -/

variable {S}

/-- Committing what a turn leads to is a turn after a commitment, if it is so for the turns after it. -/
theorem commit_after {f : Bool → Value → Context → Course Outcome}
    (hf : ∀ c s z, Result.commit <$> f c s z = f true s z) (c : Bool) (r : Outcome) :
    Result.commit <$> turn.after f c r = turn.after f true r := by
  dsimp only [turn]
  cases r.verdict with
  | failure z message => cases c <;> cases r.isCommitted <;> exact map_pure _ _
  | success z v =>
    dsimp only
    cases v.toStep with
    | done value => cases c <;> cases r.isCommitted <;> exact map_pure _ _
    | again state => exact hf _ state z

/-- A loop after a commitment is the loop, committed. -/
theorem commit_loop (step : Value → Act Parser) (c : Bool) (s : Value) (z : Context) :
    Result.commit <$> S.loop step c s z = S.loop step true s z := by
  have hrounds : ∀ k c s z, Result.commit <$> turn.rounds (S.body step) k c s z = turn.rounds (S.body step) k true s z := by
    intro k
    induction k with
    | zero => exact fun _ _ _ => rfl
    | succ k ih =>
      intro c s z
      rw [Course.Turn.rounds, map_bind]
      exact bind_congr fun r => commit_after ih c r
  rw [loop, Course.Turn.loop, ← Course.sup_map _ (Course.Turn.monotone_rounds c s z)]
  exact congrArg Course.sup (funext fun k => hrounds k c s z)

/-- After a commitment, a result counts only for its verdict. -/
theorem after_true_commit (f : Bool → Value → Context → Course Outcome) (c : Bool) (r : Outcome) :
    turn.after f c r.commit = turn.after f true r := by
  simp only [turn, Result.verdict_commit, Result.isCommitted_commit, Bool.or_true, Bool.true_or]

end Semantics

/-! ## The strict engine -/

namespace Strict

variable (env : Env)

/-! ### Related runs -/

/-- A relation between runs of the strict engine that goes through sequencing, and in which everything stands that a
layer of a term does besides running its parts. -/
structure Related (R : {α : Type} → Run α → Run α → Prop) (env env' : Env) : Prop where
  grammar : env.grammar = env'.grammar
  indent : env.settings.indent = env'.settings.indent
  bind : ∀ {α β : Type} {x y : Run α} {f g : α → Run β}, R x y → (∀ a, R (f a) (g a)) → R (x >>= f) (y >>= g)
  outOfFuel : ∀ {α : Type} (y : Run α), R (Run.halt .outOfFuel) y
  ofExcept : ∀ {α : Type} (x : Except Fault α), R (Run.ofExcept x) (Run.ofExcept x)
  exec : ∀ {α : Type} (act : Act α), R (act.exec env .none) (act.exec env' .none)
  next? : ∀ s, R (Run.next? s) (Run.next? s)
  trace : ∀ message, R (env.trace message) (env'.trace message)

namespace Related

variable {R : {α : Type} → Run α → Run α → Prop} {env env' : Env} (h : Related R env env')

include h

theorem pure {α : Type} (a : α) : R (Pure.pure a : Run α) (Pure.pure a) := h.ofExcept (.ok a)

section Layers

variable {apply apply' : Parser → Context → Run Outcome} (happly : ∀ p z, R (apply p z) (apply' p z))

include happly

theorem alternatives (z : Context) : ∀ (failures : List (String × String)) (ps : List (String × Parser)),
    R (alternatives env apply z failures ps) (Strict.alternatives env' apply' z failures ps)
  | failures, [] => by
    unfold Strict.alternatives
    rw [h.indent]
    exact h.bind (h.ofExcept _) fun _ => h.pure _
  | failures, (label, p) :: rest => by
    unfold Strict.alternatives
    refine h.bind (happly p z) fun r => ?_
    match r with
    | .plain (.failure _ message) => exact h.bind (h.trace _) fun _ => alternatives z _ rest
    | .plain (.success _ _) | .committed _ => exact h.pure _

theorem turns (step : Value → Act Parser) : ∀ {n m : Nat} (_ : n ≤ m) (committed : Bool) (state : Value)
    (z : Context), R (turns env apply step n committed state z) (Strict.turns env' apply' step m committed state z)
  | 0, _, _, _, _, _ => h.outOfFuel _
  | n + 1, m + 1, hnm, _, _, _ => h.bind (h.exec _) fun p => h.bind (happly p _) fun r => by
    dsimp only
    cases r.verdict with
    | failure z message => exact h.pure _
    | success z v =>
      dsimp only
      cases v.toStep with
      | done value => exact h.pure _
      | again state => exact turns step (Nat.le_of_succ_le_succ hnm) _ _ _

end Layers

/-- The runs of a term are related if the second has at least the fuel of the first. -/
theorem run : ∀ {n m : Nat} (_ : n ≤ m) (p : Parser) (z : Context), R (run env n p z) (Strict.run env' m p z)
  | 0, _, _, _, _ => h.outOfFuel _
  | n + 1, m + 1, hnm, p, z => by
    have ih := fun p z => run (Nat.le_of_succ_le_succ hnm) p z
    cases p with
    | map p f =>
      refine h.bind (ih p z) fun r => ?_
      match r with
      | .plain (.success z a) | .committed (.success z a) => exact h.bind (h.exec _) fun _ => h.pure _
      | .plain (.failure _ _) | .committed (.failure _ _) => exact h.pure _
    | bind p k =>
      refine h.bind (ih p z) fun r => ?_
      match r with
      | .plain (.success z a) => exact h.bind (h.exec _) fun q => ih q z
      | .committed (.success z a) => exact h.bind (h.bind (h.exec _) fun q => ih q z) fun _ => h.pure _
      | .plain (.failure _ _) | .committed (.failure _ _) => exact h.pure _
    | orElse p q =>
      refine h.bind (ih p z) fun r => ?_
      match r with
      | .plain (.failure _ _) => exact ih q z
      | .plain (.success _ _) | .committed _ => exact h.pure _
    | loop init step => exact h.turns ih step (Nat.le_of_succ_le_succ hnm) _ _ _
    | commit p => exact h.bind (ih p z) fun _ => h.pure _
    | reword p f =>
      refine h.bind (ih p z) fun r => ?_
      match r with
      | .plain (.failure z e) | .committed (.failure z e) => exact h.bind (h.exec _) fun _ => h.pure _
      | .plain (.success _ _) | .committed (.success _ _) => exact h.pure _
    | choice ps => exact h.alternatives ih z _ ps
    | restoring p => exact h.bind (ih p z) fun _ => h.pure _
    | rule name =>
      show R (Strict.run env n (env.grammar name) z) (Strict.run env' m (env'.grammar name) z)
      rw [h.grammar]
      exact ih _ z
    | next =>
      refine h.bind (h.next? _) fun answer => ?_
      match answer with
      | none => exact h.pure _
      | some (t, rest) => exact h.pure _
    | eof =>
      refine h.bind (h.next? _) fun answer => ?_
      match answer with
      | none => exact h.pure _
      | some (t, rest) => exact h.pure _
    | satisfy test =>
      refine h.bind (h.next? _) fun answer => ?_
      match answer with
      | none => exact h.pure _
      | some (t, rest) =>
        refine h.bind (h.exec _) fun b => ?_
        cases b with
        | true => exact h.pure _
        | false => exact h.bind (h.ofExcept _) fun _ => h.pure _
    | stream p => exact h.ofExcept (.error _)
    | _ => exact h.pure _

end Related

/-- More fuel does not change an answer. -/
theorem related_le : Related Run.Le env env where
  grammar := rfl
  indent := rfl
  bind := .bind
  outOfFuel := .outOfFuel
  ofExcept := fun _ => .refl _
  exec := fun _ => .refl _
  next? := fun _ => .refl _
  trace := fun _ => .refl _

theorem steady_run (p : Parser) (z : Context) : Run.Steady fun n => run env n p z :=
  fun n => (related_le env).run (Nat.le_succ n) p z

/-- What a parser gives with enough fuel. -/
noncomputable def eval (p : Parser) (z : Context) : Course Outcome := Run.limit fun n => run env n p z

/-- The strict engine as a semantics. -/
noncomputable def semantics : Semantics := ⟨fun act => Course.ofRun (act.exec env .none), eval env⟩

variable {env}

theorem eval_eq_some {p : Parser} {z : Context} {w w' : World} {x : Except Fault Outcome} :
    eval env p z w = some (x, w') ↔ Run.Ends (fun n => run env n p z) w x w' :=
  Run.limit_eq_some (steady_run env p z)

theorem run_le_eval (n : Nat) (p : Parser) (z : Context) : Course.ofRun (run env n p z) ≤ eval env p z :=
  Course.le_sup (steady_run env p z).monotone n

/-! ### The equation -/

section Loops

variable (step : Value → Act Parser)

theorem steady_turns (committed : Bool) (state : Value) (z : Context) :
    Run.Steady fun n => turns env (run env n) step n committed state z :=
  fun n => (related_le env).turns (fun p z => steady_run env p z n) step (Nat.le_succ n) committed state z

variable (env) in
/-- The turns of a loop with enough fuel. -/
noncomputable def evalTurns (committed : Bool) (state : Value) (z : Context) : Course Outcome :=
  Run.limit fun n => turns env (run env n) step n committed state z

theorem ofRun_turns_succ (m n : Nat) (committed : Bool) (state : Value) (z : Context) :
    Course.ofRun (turns env (run env m) step (n + 1) committed state z) =
      (semantics env).exec (step state) >>= fun p => Course.ofRun (run env m p z) >>=
        Semantics.turn.after (fun c s z => Course.ofRun (turns env (run env m) step n c s z)) committed := by
  rw [turns, Course.ofRun_bind]
  refine bind_congr fun p => ?_
  rw [Course.ofRun_bind]
  refine bind_congr fun r => ?_
  dsimp only [Semantics.turn]
  cases r.verdict with
  | failure z message => rfl
  | success z v =>
    dsimp only
    cases v.toStep <;> rfl

/-- Turns with some fuel are no more than the loop. -/
theorem turns_le_loop (m : Nat) : ∀ (n : Nat) (committed : Bool) (state : Value) (z : Context),
    Course.ofRun (turns env (run env m) step n committed state z) ≤ (semantics env).loop step committed state z
  | 0, _, _, _ => Course.never_le _
  | n + 1, _, _, z => by
    rw [ofRun_turns_succ, Semantics.loop, Course.Turn.loop_unfold, Semantics.body, bind_assoc]
    exact Course.bind_mono (le_refl _) fun p => Course.bind_mono (run_le_eval m p z) fun r =>
      Semantics.turn.mono (turns_le_loop m n) _ _

/-- One turn, and the turns after it with enough fuel. -/
theorem evalTurns_unfold (committed : Bool) (state : Value) (z : Context) :
    (semantics env).body step state z >>= Semantics.turn.after (evalTurns env step) committed ≤
      evalTurns env step committed state z := by
  have hturns : ∀ c s z, Monotone fun n => Course.ofRun (turns env (run env n) step n c s z) :=
    fun c s z => (steady_turns step c s z).monotone
  have hafter : ∀ r, Monotone fun n =>
      Semantics.turn.after (fun c s z => Course.ofRun (turns env (run env n) step n c s z)) committed r :=
    fun r _ _ h => Semantics.turn.mono (fun c s z => hturns c s z h) committed r
  have hrun : ∀ p, Monotone fun n => Course.ofRun (run env n p z) := fun p => (steady_run env p z).monotone
  calc (semantics env).body step state z >>= Semantics.turn.after (evalTurns env step) committed
      = (semantics env).exec (step state) >>= fun p => eval env p z >>= fun r => Course.sup fun n =>
          Semantics.turn.after (fun c s z => Course.ofRun (turns env (run env n) step n c s z)) committed r := by
        rw [Semantics.body, bind_assoc]
        refine bind_congr fun p => bind_congr fun r => ?_
        exact (Semantics.turn.sup hturns committed r).symm
    _ = Course.sup fun n => (semantics env).exec (step state) >>= fun p => Course.ofRun (run env n p z) >>=
          Semantics.turn.after (fun c s z => Course.ofRun (turns env (run env n) step n c s z)) committed := by
        rw [Course.sup_const_bind _ fun p => Course.monotone_bind (hrun p) hafter]
        exact bind_congr fun p => (Course.sup_bind (hrun p) hafter).symm
    _ ≤ evalTurns env step committed state z := by
        refine Course.sup_le (Course.monotone_bind monotone_const fun p => Course.monotone_bind (hrun p) hafter)
          fun n => ?_
        -- one unit of fuel more for the turn itself, and the parsers do not mind
        rw [← ofRun_turns_succ]
        have hfuel := (related_le env).turns (fun p z => steady_run env p z n) step (Nat.le_refl (n + 1)) committed state z
        exact le_trans hfuel.ofRun
          (Course.le_sup (steady_turns step committed state z).monotone (n + 1))

/-- The turns with enough fuel are the loop. -/
theorem evalTurns_eq_loop (committed : Bool) (state : Value) (z : Context) :
    evalTurns env step committed state z = (semantics env).loop step committed state z := by
  apply le_antisymm
  · exact Course.sup_le (steady_turns step committed state z).monotone fun n =>
      turns_le_loop step n n committed state z
  · exact Course.Turn.loop_le (evalTurns_unfold step) committed state z

end Loops

/-! ### One layer of a term -/

variable (env) in
/-- The strict engine with some fuel, as a semantics. -/
noncomputable def upTo (n : Nat) : Semantics := ⟨(semantics env).exec, fun p z => Course.ofRun (run env n p z)⟩

theorem ofRun_alternatives (n : Nat) (z : Context) : ∀ (failures : List (String × String)) (ps : List (String × Parser)),
    Course.ofRun (alternatives env (run env n) z failures ps) = (upTo env n).alternatives env z failures ps
  | _, [] => by
    unfold alternatives Semantics.alternatives
    exact Course.ofRun_bind _ _
  | failures, (label, p) :: rest => by
    unfold alternatives Semantics.alternatives
    refine (Course.ofRun_bind _ _).trans (bind_congr fun r => ?_)
    match r with
    | .plain (.failure _ message) =>
      exact (Course.ofRun_bind _ _).trans (bind_congr fun _ => ofRun_alternatives n z _ rest)
    | .plain (.success _ _) | .committed _ => rfl

/-- One unit of fuel is spent on one layer of the term. -/
theorem ofRun_run_succ (n : Nat) {p : Parser} (hp : ∀ init step, p ≠ .loop init step) (z : Context) :
    Course.ofRun (run env (n + 1) p z) = (upTo env n).meaning env p z := by
  cases p with
  | loop init step => exact absurd rfl (hp init step)
  | choice ps => exact ofRun_alternatives n z [] ps
  | map p f =>
    refine (Course.ofRun_bind _ _).trans (bind_congr fun r => ?_)
    match r with
    | .plain (.success z a) | .committed (.success z a) => exact Course.ofRun_bind _ _
    | .plain (.failure _ _) | .committed (.failure _ _) => rfl
  | bind p k =>
    refine (Course.ofRun_bind _ _).trans (bind_congr fun r => ?_)
    match r with
    | .plain (.success z a) => exact Course.ofRun_bind _ _
    | .committed (.success z a) =>
      refine (Course.ofRun_bind _ _).trans ?_
      rw [Course.ofRun_bind]
      rfl
    | .plain (.failure _ _) | .committed (.failure _ _) => rfl
  | orElse p q =>
    refine (Course.ofRun_bind _ _).trans (bind_congr fun r => ?_)
    match r with
    | .plain (.failure _ _) => rfl
    | .plain (.success _ _) | .committed _ => rfl
  | commit p => exact Course.ofRun_bind _ _
  | reword p f =>
    refine (Course.ofRun_bind _ _).trans (bind_congr fun r => ?_)
    match r with
    | .plain (.failure z e) | .committed (.failure z e) => exact Course.ofRun_bind _ _
    | .plain (.success _ _) | .committed (.success _ _) => rfl
  | restoring p => exact Course.ofRun_bind _ _
  | next =>
    refine (Course.ofRun_bind _ _).trans (bind_congr fun r => ?_)
    match r with
    | none => rfl
    | some (t, rest) => rfl
  | eof =>
    refine (Course.ofRun_bind _ _).trans (bind_congr fun r => ?_)
    match r with
    | none => rfl
    | some (t, rest) => rfl
  | satisfy test =>
    refine (Course.ofRun_bind _ _).trans (bind_congr fun r => ?_)
    match r with
    | none => rfl
    | some (t, rest) =>
      refine (Course.ofRun_bind _ _).trans (bind_congr fun b => ?_)
      cases b with
      | true => rfl
      | false => exact Course.ofRun_bind _ _
  | _ => rfl

section Continuity

variable (z : Context)

theorem monotone_upTo (p : Parser) : Monotone fun n => (upTo env n).eval p z := (steady_run env p z).monotone

theorem monotone_alternatives : ∀ (failures : List (String × String)) (ps : List (String × Parser)),
    Monotone fun n => (upTo env n).alternatives env z failures ps := by
  intro failures ps
  simp only [← ofRun_alternatives]
  exact Run.Steady.monotone fun n => (related_le env).alternatives (fun p z => steady_run env p z n) z failures ps

theorem sup_alternatives : ∀ (failures : List (String × String)) (ps : List (String × Parser)),
    Course.sup (fun n => (upTo env n).alternatives env z failures ps) = (semantics env).alternatives env z failures ps
  | _, [] => Course.sup_const _
  | failures, (label, p) :: rest => by
    refine (Course.sup_bind (monotone_upTo z p) fun r => ?_).trans (bind_congr fun r => ?_)
    · match r with
      | .plain (.failure _ message) =>
        exact Course.monotone_bind monotone_const fun _ => monotone_alternatives z _ rest
      | .plain (.success _ _) | .committed _ => exact monotone_const
    · match r with
      | .plain (.failure _ message) =>
        refine (Course.sup_const_bind _ fun _ => monotone_alternatives z _ rest).trans ?_
        exact bind_congr fun _ => sup_alternatives _ rest
      | .plain (.success _ _) | .committed _ => exact Course.sup_const _

/-- What a layer means with enough fuel for its parts. -/
theorem sup_meaning {p : Parser} (hp : ∀ init step, p ≠ .loop init step) :
    Course.sup (fun n => (upTo env n).meaning env p z) = (semantics env).meaning env p z := by
  cases p with
  | loop init step => exact absurd rfl (hp init step)
  | choice ps => exact sup_alternatives z [] ps
  | map p f => exact Course.sup_bind_const (monotone_upTo z p) fun r => r.map fun a => (semantics env).exec (f a)
  | bind p k =>
    refine (Course.sup_bind (monotone_upTo z p) fun r => ?_).trans (bind_congr fun r => ?_)
    · match r with
      | .plain (.success z a) => exact Course.monotone_bind monotone_const fun q => monotone_upTo z q
      | .committed (.success z a) =>
        exact Course.monotone_bind (Course.monotone_bind monotone_const fun q => monotone_upTo z q) fun _ => monotone_const
      | .plain (.failure _ _) | .committed (.failure _ _) => exact monotone_const
    · match r with
      | .plain (.success z a) => exact Course.sup_const_bind _ fun q => monotone_upTo z q
      | .committed (.success z a) =>
        have hmono : ∀ q, Monotone fun n => (upTo env n).eval q z := fun q => monotone_upTo z q
        refine (Course.sup_bind_const (Course.monotone_bind monotone_const hmono) _).trans ?_
        exact congrArg (fun x => x >>= fun r => pure r.commit) (Course.sup_const_bind ((semantics env).exec (k a)) hmono)
      | .plain (.failure _ _) | .committed (.failure _ _) => exact Course.sup_const _
  | orElse p q =>
    refine (Course.sup_bind (monotone_upTo z p) fun r => ?_).trans (bind_congr fun r => ?_)
    · match r with
      | .plain (.failure _ _) => exact monotone_upTo z q
      | .plain (.success _ _) | .committed _ => exact monotone_const
    · match r with
      | .plain (.failure _ _) => rfl
      | .plain (.success _ _) | .committed _ => exact Course.sup_const _
  | commit p => exact Course.sup_bind_const (monotone_upTo z p) _
  | reword p f => exact Course.sup_bind_const (monotone_upTo z p) fun r => r.adjust fun m => (semantics env).exec (f m)
  | restoring p => exact Course.sup_bind_const (monotone_upTo z p) _
  | satisfy test => exact Course.sup_const ((semantics env).meaning env (.satisfy test) z)
  | rule name => rfl
  | _ => exact Course.sup_const _

end Continuity

/-- **The equation of the strict engine.** -/
theorem eval_eq (p : Parser) (z : Context) : eval env p z = (semantics env).meaning env p z := by
  by_cases hp : ∀ init step, p ≠ .loop init step
  · rw [← sup_meaning z hp, eval, ← Run.limit_succ (steady_run env p z), Run.limit]
    simp only [ofRun_run_succ _ hp]
  · push Not at hp
    obtain ⟨init, step, rfl⟩ := hp
    rw [eval, ← Run.limit_succ (steady_run env _ z)]
    exact evalTurns_eq_loop step false init z

/-! ### Induction on the fuel -/

theorem turns_le_upTo (n : Nat) (step : Value → Act Parser) : ∀ (k : Nat) (c : Bool) (s : Value) (z : Context),
    Course.ofRun (turns env (run env n) step k c s z) ≤ (upTo env n).loop step c s z
  | 0, _, _, _ => Course.never_le _
  | k + 1, c, s, z => by
    rw [ofRun_turns_succ, Semantics.loop, Course.Turn.loop_unfold, Semantics.body, bind_assoc]
    exact Course.bind_mono (le_refl _) fun p => Course.bind_mono (le_refl _) fun r =>
      Semantics.turn.mono (turns_le_upTo n step k) c r

/-- One more unit of fuel gives at most one more layer of the term. -/
theorem run_succ_le (n : Nat) (p : Parser) (z : Context) :
    Course.ofRun (run env (n + 1) p z) ≤ (upTo env n).meaning env p z := by
  by_cases hp : ∀ init step, p ≠ .loop init step
  · exact le_of_eq (ofRun_run_succ n hp z)
  · push Not at hp
    obtain ⟨init, step, rfl⟩ := hp
    exact turns_le_upTo n step n false init z

/-- Whatever holds of an end of a term if it holds of the ends of its parts, holds of every end. -/
theorem eval_induction {R : Parser → Context → World → Except Fault Outcome × World → Prop}
    (h : ∀ ev : Parser → Context → Course Outcome, (∀ p z w b, ev p z w = some b → R p z w b) →
      ∀ p z w b, (Semantics.mk (semantics env).exec ev).meaning env p z w = some b → R p z w b)
    {p : Parser} {z : Context} {w : World} {b : Except Fault Outcome × World} (hb : eval env p z w = some b) :
    R p z w b := by
  obtain ⟨n, hn⟩ := (Course.sup_eq_some (steady_run env p z).monotone).1 hb
  induction n generalizing p z w b with
  | zero => cases hn
  | succ n ih => exact h _ (fun p z w b hb => ih (run_le_eval n p z w b hb) hb) p z w b (run_succ_le n p z w b hn)

end Strict

end CommittedChoice
