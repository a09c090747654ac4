import CommittedChoice.Proofs.OnDemand.Related

/-!
# Demands with enough fuel

What the on-demand engine gives when fuel is no matter, as courses, and one equation for each kind of demand.

- `exec`, `late`, `finish`, `answer`, `settle`, `turns`, `resume`: callbacks, parts of a success, and what suspended
  parsers, loops and frames come to;
- `answer_apply_framed`, `answer_apply_primitive`: one layer of a parser.
-/

namespace CommittedChoice.OnDemand

open Run (limit Steady)

variable (env : Env) {α : Type}

/-! ## Fuel makes no difference where it suffices -/

section Steady

theorem steady_exec (act : Act α) : Steady fun n => (means env n).exec act := fun n => (means_le env n).exec .le act

theorem steady_late (l : Late α) : Steady fun n => (means env n).late l := fun n => (means_le env n).late .le l

theorem steady_finish (p : Promise) : Steady fun n => (means env n).finish p := fun n => (means_le env n).finish .le p

theorem steady_answer (s : Suspended) : Steady fun n => (means env n).answer s := fun n => (means_le env n).answer s

theorem steady_settlement (s : Suspended) : Steady fun n => (means env n).settlement n s :=
  fun n => (means_le env n).settlement .le (Nat.le_succ n) s

theorem steady_turnFinished (step : Value → Act Parser) (committed : Bool) (p : Promise) (finish : Finish) :
    Steady fun n => (means env n).turnFinished step committed p finish :=
  fun n => (means_le env n).turnFinished .le step committed p finish

theorem steady_turnAnswer (step : Value → Act Parser) (committed : Bool) (a : Answer) :
    Steady fun n => (means env n).turnAnswer n step committed a :=
  fun n => (means_le env n).turnAnswer .le (Nat.le_succ n) step committed a

theorem steady_turns (step : Value → Act Parser) (committed : Bool) (state : Value) (z : Context) :
    Steady fun n => (means env n).turns step committed n state z :=
  fun n => (means_le env n).turns .le step committed (Nat.le_succ n) state z

theorem steady_resumption (f : Frame) (a : Answer) : Steady fun n => (means env n).resumption n f a :=
  fun n => (means_le env n).resumption .le (Nat.le_succ n) f a

end Steady

/-! ## Courses -/

/-- What a callback does. -/
noncomputable def exec (act : Act α) : Course α := limit fun n => (means env n).exec act

/-- The value of something late. -/
noncomputable def late (l : Late α) : Course α := limit fun n => (means env n).late l

/-- What a success turns out to be. -/
noncomputable def finish (p : Promise) : Course Finish := limit fun n => (means env n).finish p

/-- The answer of something suspended. -/
noncomputable def answer (s : Suspended) : Course Answer := limit fun n => (means env n).answer s

/-- The same without its commitment. -/
noncomputable def settle (s : Suspended) : Course Settled := limit fun n => (means env n).settlement n s

/-- The turns of a loop. -/
noncomputable def turns (step : Value → Act Parser) (committed : Bool) (state : Value) (z : Context) : Course Answer :=
  limit fun n => (means env n).turns step committed n state z

/-- What a frame makes of an answer. -/
noncomputable def resume (f : Frame) (a : Answer) : Course Answer := limit fun n => (means env n).resumption n f a

variable {env}

/-! ### Callbacks and parts of a success -/

@[simp] theorem exec_pure (a : α) : exec env (.pure a) = pure a := Run.limit_const _

@[simp] theorem exec_throw (e : Fault) : exec env (.throw e : Act α) = Course.fault e :=
  Run.limit_const (Run.fault e)

theorem exec_bind {β : Type} (act : Act α) (k : α → Act β) :
    exec env (act >>= k) = exec env act >>= fun a => exec env (k a) := by
  unfold exec Means.exec
  simp only [Act.exec_bind]
  exact Run.limit_bind (steady_exec env act) fun a => steady_exec env (k a)

@[simp] theorem late_known (a : α) : late env (.known a) = pure a := Run.limit_of_forall fun _ => Means.late_known a

theorem late_later (act : Act α) : late env (.later act) = exec env act := by
  unfold late exec
  simp only [Means.late_later]

theorem late_mapped (l : Late α) (f : α → Act α) :
    late env (.mapped l f) = late env l >>= fun a => exec env (f a) := by
  unfold late exec
  simp only [Means.late_mapped]
  exact Run.limit_bind (steady_late env l) fun a => steady_exec env (f a)

theorem finish_congr {p q : Promise} (h : p.finish = q.finish) : finish env p = finish env q := by
  unfold finish
  simp only [Means.finish_eq, h]

theorem finish_of_none {p : Promise} (h : p.finish = none) : finish env p = pure .plain := by
  unfold finish
  simp only [Means.finish_eq, h]
  exact Run.limit_const _

theorem finish_of_some {p : Promise} {l : Late Finish} (h : p.finish = some l) : finish env p = late env l := by
  unfold finish late
  simp only [Means.finish_eq, h]

@[simp] theorem finish_disclosed (p : Promise) : finish env p.disclosed = pure .plain := finish_of_none rfl

/-- What becomes of a finish if its failure is changed. -/
noncomputable def onFailure (env : Env) (f : Context → String → Act (Context × String)) : Finish → Course Finish
  | .failed z message => exec env (f z message) >>= fun x => pure (.failed x.1 x.2)
  | finish => pure finish

theorem finish_onFailure (p : Promise) (f : Context → String → Act (Context × String)) :
    finish env (p.onFailure f) = finish env p >>= onFailure env f := by
  cases h : p.finish with
  | none =>
    rw [finish_of_none h, pure_bind, finish_of_none (by rw [Promise.onFailure, h]; rfl)]
    rfl
  | some l =>
    rw [finish_of_some h, finish_of_some (by rw [Promise.onFailure, h]; rfl), late_mapped]
    refine bind_congr fun finish => ?_
    match finish with
    | .plain => exact exec_pure _
    | .committed => exact exec_pure _
    | .failed z message =>
      refine (exec_bind _ _).trans (bind_congr fun x => ?_)
      exact exec_pure _

/-! ### Suspended parsers -/

@[simp] theorem answer_ready (a : Answer) : answer env (.ready a) = pure a := by
  rw [answer, ← Run.limit_succ (steady_answer env _)]
  simp only [means_answer_ready]
  exact Run.limit_const _

@[simp] theorem answer_afresh (p : Parser) (z : Context) : answer env (.afresh p z) = answer env (.apply p z) := by
  rw [answer, ← Run.limit_succ (steady_answer env _)]
  simp only [means_answer_afresh]
  rfl

theorem answer_framed (s : Suspended) (f : Frame) : answer env (.framed s f) = answer env s >>= resume env f := by
  rw [answer, ← Run.limit_succ (steady_answer env _)]
  simp only [means_answer_framed]
  exact Run.limit_bind (steady_answer env s) fun a => steady_resumption env f a

/-- A parser that is a frame around another one. -/
theorem answer_apply_framed {p q : Parser} {z : Context} {f : Frame} (h : frame? z p = some (q, f)) :
    answer env (.apply p z) = answer env (.framed (.apply q z) f) := by
  rw [answer, ← Run.limit_succ (steady_answer env _)]
  simp only [means_answer_apply, h]
  rfl

/-- Any other parser. -/
theorem answer_apply_primitive {p : Parser} {z : Context} (h : frame? z p = none) :
    answer env (.apply p z) = limit fun n => (means env n).primitive n p z := by
  rw [answer, ← Run.limit_succ (steady_answer env _)]
  simp only [means_answer_apply, h]

/-- Settling an answer. -/
noncomputable def settleAnswer (env : Env) : Answer → Course Settled
  | .success p => pure (.success p)
  | .failure z message => pure (.failure z message)
  | .committed inner => settle env inner

theorem settle_eq (s : Suspended) : settle env s = answer env s >>= settleAnswer env := by
  -- what the parser may be committed to has one unit of fuel less, which makes no difference
  have hsteady : Steady fun n => (means env n).settlement (n + 1) s :=
    fun n => (means_le env n).settlement .le (Nat.le_succ (n + 1)) s
  have hlag : settle env s = limit fun n => (means env n).settlement (n + 1) s := by
    refine Run.limit_congr (steady_settlement env s) hsteady (fun n => ?_) fun n => ?_
    · exact (Means.Related.refl _).settlement .le (Nat.le_succ n) s
    · exact (means_le env n).settlement .le (Nat.le_refl (n + 1)) s
  rw [hlag]
  simp only [Means.settlement_succ]
  refine (Run.limit_bind (steady_answer env s) fun a n => ?_).trans (bind_congr fun a => ?_)
  · match a with
    | .success p => exact .refl _
    | .failure z message => exact .refl _
    | .committed inner => exact steady_settlement env inner n
  · match a with
    | .success p => exact Run.limit_const _
    | .failure z message => exact Run.limit_const _
    | .committed inner => rfl

/-! ### Frames -/

section Frames

theorem resume_bind_failure (k : Value → Act Parser) (z : Context) (message : String) :
    resume env (.bind k) (.failure z message) = pure (.failure z message) := Run.limit_of_forall fun _ => Means.resumption_bind_failure ..

theorem resume_bind_committed (k : Value → Act Parser) (inner : Suspended) :
    resume env (.bind k) (.committed inner) = pure (.committed (.framed inner (.bind k))) := Run.limit_of_forall fun _ => Means.resumption_bind_committed ..

/-- Going on after a success whose finish is known. -/
noncomputable def bindFinished (env : Env) (k : Value → Act Parser) (p : Promise) : Finish → Course Answer
  | .plain => do
    let z ← late env p.rest
    let v ← late env p.value
    let q ← exec env (k v)
    answer env (.apply q z)
  | .committed => pure (.committed (.framed (.ready (.success p.disclosed)) (.bind k)))
  | .failed z message => pure (.committed (.ready (.failure z message)))

theorem resume_bind_success (k : Value → Act Parser) (p : Promise) :
    resume env (.bind k) (.success p) = finish env p >>= bindFinished env k p := by
  unfold resume
  simp only [Means.resumption_bind_success]
  refine (Run.limit_bind (steady_finish env p) fun finish n => ?_).trans (bind_congr fun finish => ?_)
  · exact (means_le env n).bindFinished .le k p finish
  · match finish with
    | .plain =>
      refine (Run.limit_bind (steady_late env _) fun z => ?_).trans (bind_congr fun z => ?_)
      · exact .bind (steady_late env _) fun v => .bind (steady_exec env _) fun q => steady_answer env _
      · refine (Run.limit_bind (steady_late env _) fun v => ?_).trans (bind_congr fun v => ?_)
        · exact .bind (steady_exec env _) fun q => steady_answer env _
        · exact Run.limit_bind (steady_exec env _) fun q => steady_answer env _
    | .committed => exact Run.limit_const _
    | .failed z message => exact Run.limit_const _

theorem resume_map_success (f : Value → Act Value) (p : Promise) :
    resume env (.map f) (.success p) = pure (.success { p with value := .mapped p.value f }) := Run.limit_of_forall fun _ => Means.resumption_map_success ..

theorem resume_map_failure (f : Value → Act Value) (z : Context) (message : String) :
    resume env (.map f) (.failure z message) = pure (.failure z message) := Run.limit_of_forall fun _ => Means.resumption_map_failure ..

theorem resume_map_committed (f : Value → Act Value) (inner : Suspended) :
    resume env (.map f) (.committed inner) = pure (.committed (.framed inner (.map f))) := Run.limit_of_forall fun _ => Means.resumption_map_committed ..

theorem resume_reword_success (f : String → Act String) (p : Promise) :
    resume env (.reword f) (.success p) =
      pure (.success (p.onFailure fun z message => do return (z, ← f message))) := by
  unfold resume
  exact Run.limit_of_forall fun _ => Means.resumption_reword_success f p

theorem resume_reword_failure (f : String → Act String) (z : Context) (message : String) :
    resume env (.reword f) (.failure z message) =
      exec env (f message) >>= fun message => pure (.failure z message) := by
  unfold resume
  simp only [Means.resumption_reword_failure]
  exact Run.limit_bind_const (steady_exec env _) _

theorem resume_reword_committed (f : String → Act String) (inner : Suspended) :
    resume env (.reword f) (.committed inner) = pure (.committed (.framed inner (.reword f))) := Run.limit_of_forall fun _ => Means.resumption_reword_committed ..

theorem resume_restoring_success (state : Value) (p : Promise) :
    resume env (.restoring state) (.success p) =
      pure (.success (p.onFailure fun z message => .pure ({ z with state := state }, message))) := Run.limit_of_forall fun _ => Means.resumption_restoring_success ..

theorem resume_restoring_failure (state : Value) (z : Context) (message : String) :
    resume env (.restoring state) (.failure z message) = pure (.failure { z with state := state } message) :=
  Run.limit_of_forall fun _ => Means.resumption_restoring_failure ..

theorem resume_restoring_committed (state : Value) (inner : Suspended) :
    resume env (.restoring state) (.committed inner) = pure (.committed (.framed inner (.restoring state))) :=
  Run.limit_of_forall fun _ => Means.resumption_restoring_committed ..

theorem resume_orElse_success (q : Parser) (z : Context) (p : Promise) :
    resume env (.orElse q z) (.success p) = pure (.success p) := Run.limit_of_forall fun _ => Means.resumption_orElse_success ..

theorem resume_orElse_failure (q : Parser) (z rest : Context) (message : String) :
    resume env (.orElse q z) (.failure rest message) = answer env (.apply q z) := rfl

theorem resume_orElse_committed (q : Parser) (z : Context) (inner : Suspended) :
    resume env (.orElse q z) (.committed inner) = pure (.committed inner) := Run.limit_of_forall fun _ => Means.resumption_orElse_committed ..

end Frames

/-! ### Loops -/

section Loops

variable (step : Value → Act Parser)

/-- What one turn leads to. -/
noncomputable def turnAnswer (env : Env) (committed : Bool) (a : Answer) : Course Means.Turn :=
  limit fun n => (means env n).turnAnswer n step committed a

/-- What follows a turn. -/
def afterTurn (next : Value → Context → Course Answer) : Means.Turn → Course Answer
  | .finished a => pure a
  | .again state z => next state z

/-- One turn that succeeded and whose finish is known. -/
noncomputable def turnFinished (env : Env) (committed : Bool) (p : Promise) (finish : Finish) : Course Means.Turn :=
  limit fun n => (means env n).turnFinished step committed p finish

/-- One turn that succeeded and whose finish does not end the turns. -/
noncomputable def turnValue (env : Env) (p : Promise) : Course Means.Turn := do
  let v ← late env p.value
  match v.toStep with
  | .done value => pure (.finished (.success { rest := p.rest, value := .known value }))
  | .again state => do
    let z ← late env p.rest
    pure (.again state z)

variable {step}

/-- A turn whose value is known does not ask for it. -/
theorem turnValue_known (env : Env) {p : Promise} {v : Value} (hp : p.value = .known v) :
    turnValue env p = match v.toStep with
      | .done value => pure (.finished (.success { rest := p.rest, value := .known value }))
      | .again state => late env p.rest >>= fun z => pure (.again state z) := by
  unfold turnValue
  rw [hp, late_known, pure_bind]

theorem limit_turnValue (p : Promise) : (limit fun n => (means env n).turnValue p) = turnValue env p := by
  refine (Run.limit_bind (steady_late env _) fun v => ?_).trans (bind_congr fun v => ?_)
  · cases v.toStep with
    | done value => exact .const _
    | again state => exact .bind (steady_late env _) fun z => .const _
  · cases v.toStep with
    | done value => exact Run.limit_const _
    | again state => exact Run.limit_bind_const (steady_late env _) _

theorem turnFinished_plain (committed : Bool) (p : Promise) : turnFinished step env committed p .plain = turnValue env p :=
  limit_turnValue p

theorem turnFinished_committed_true (p : Promise) : turnFinished step env true p .committed = turnValue env p :=
  limit_turnValue p

theorem turnFinished_committed_false (p : Promise) :
    turnFinished step env false p .committed =
      pure (.finished (.committed (.framed (.ready (.success p.disclosed)) (.loop step)))) := Run.limit_const _

theorem turnFinished_failed (committed : Bool) (p : Promise) (z : Context) (message : String) :
    turnFinished step env committed p (.failed z message) =
      pure (.finished (if committed then .failure z message else .committed (.ready (.failure z message)))) :=
  Run.limit_const _

theorem turnAnswer_failure (committed : Bool) (z : Context) (message : String) :
    turnAnswer step env committed (.failure z message) = pure (.finished (.failure z message)) := Run.limit_const _

theorem turnAnswer_success (committed : Bool) (p : Promise) :
    turnAnswer step env committed (.success p) = finish env p >>= turnFinished step env committed p :=
  Run.limit_bind (steady_finish env p) fun finish => steady_turnFinished env step committed p finish

theorem turnAnswer_committed_false (inner : Suspended) :
    turnAnswer step env false (.committed inner) = pure (.finished (.committed (.framed inner (.loop step)))) :=
  Run.limit_const _

theorem turnAnswer_committed_true (inner : Suspended) :
    turnAnswer step env true (.committed inner) = settle env inner >>= fun s =>
      turnAnswer step env true s.toAnswer := by
  unfold turnAnswer
  simp only [Means.turnAnswer_committed]
  exact Run.limit_bind (steady_settlement env inner) fun s => steady_turnAnswer env step true s.toAnswer

theorem limit_afterTurn {f : Nat → Value → Context → Run Answer} (t : Means.Turn) :
    (limit fun n => Means.afterTurn (f n) t) = afterTurn (fun state z => limit fun n => f n state z) t := by
  cases t with
  | finished a => exact Run.limit_const _
  | again state z => rfl

theorem turns_eq (committed : Bool) (state : Value) (z : Context) :
    turns env step committed state z = exec env (step state) >>= fun p => answer env (.apply p z) >>= fun a =>
      turnAnswer step env committed a >>= afterTurn (turns env step committed) := by
  have hsteady : Steady fun n => (means env n).turns step committed (n + 1) state z :=
    fun n => (means_le env n).turns .le step committed (Nat.le_succ (n + 1)) state z
  have hlag : turns env step committed state z = limit fun n => (means env n).turns step committed (n + 1) state z := by
    refine Run.limit_congr (steady_turns env step committed state z) hsteady (fun n => ?_) fun n => ?_
    · exact (Means.Related.refl _).turns .le step committed (Nat.le_succ n) state z
    · exact (means_le env n).turns .le step committed (Nat.le_refl (n + 1)) state z
  have hafter : ∀ t, Steady fun n => Means.afterTurn ((means env n).turns step committed n) t :=
    fun t n => Means.Related.afterTurn .le (fun state z => steady_turns env step committed state z n) t
  rw [hlag]
  simp only [Means.turns_succ]
  refine (Run.limit_bind (steady_exec env _) fun p => ?_).trans (bind_congr fun p => ?_)
  · exact .bind (steady_answer env _) fun a => .bind (steady_turnAnswer env step committed a) hafter
  · refine (Run.limit_bind (steady_answer env _) fun a => ?_).trans (bind_congr fun a => ?_)
    · exact .bind (steady_turnAnswer env step committed a) hafter
    · refine (Run.limit_bind (steady_turnAnswer env step committed a) hafter).trans (bind_congr fun t => ?_)
      exact limit_afterTurn t

theorem resume_loop (a : Answer) :
    resume env (.loop step) a = turnAnswer step env true a >>= afterTurn (turns env step true) := by
  unfold resume
  simp only [Means.resumption_loop]
  refine (Run.limit_bind (steady_turnAnswer env step true a) fun t n => ?_).trans (bind_congr fun t => ?_)
  · exact Means.Related.afterTurn .le (fun state z => steady_turns env step true state z n) t
  · exact limit_afterTurn t

end Loops

/-! ### Primitives -/

section Primitives

variable {z : Context}

/-- A parser whose answer needs no fuel. -/
theorem answer_apply_const {p : Parser} {x : Run Answer} (hp : frame? z p = none)
    (h : ∀ n, (means env n).primitive n p z = x) : answer env (.apply p z) = Course.ofRun x := by
  rw [answer_apply_primitive hp]
  exact Run.limit_of_forall h

theorem answer_commit (p : Parser) : answer env (.apply (.commit p) z) = pure (.committed (.afresh p z)) :=
  answer_apply_const (x := pure (.committed (.afresh p z))) rfl fun _ => rfl

theorem answer_rule (name : String) : answer env (.apply (.rule name) z) = answer env (.apply (env.grammar name) z) :=
  answer_apply_primitive rfl

theorem answer_loop (init : Value) (step : Value → Act Parser) :
    answer env (.apply (.loop init step) z) = turns env step false init z := answer_apply_primitive rfl

theorem answer_stream (p : Parser) : answer env (.apply (.stream p) z) =
    Course.ofRun (Means.makeList ⟨p, z, false⟩) >>= fun i => pure (.ofList i) := by
  rw [answer_apply_const (x := Means.makeList ⟨p, z, false⟩ >>= fun i => pure (.ofList i)) rfl fun _ => rfl,
    Course.ofRun_bind]
  rfl

theorem answer_next : answer env (.apply .next z) = Course.ofRun (Run.next? z.input) >>= fun next =>
    match next with
    | none => pure (.failure z Message.noTokenLeft)
    | some (t, rest) => pure (.known { z with input := rest } t) := by
  rw [answer_apply_primitive rfl]
  refine (Run.limit_const _).trans ((Course.ofRun_bind _ _).trans (bind_congr fun next => ?_))
  match next with
  | none => rfl
  | some (t, rest) => rfl

theorem answer_eof : answer env (.apply .eof z) = Course.ofRun (Run.next? z.input) >>= fun next =>
    match next with
    | none => pure (.known z .absent)
    | some _ => pure (.failure z Message.tokensLeft) := by
  rw [answer_apply_primitive rfl]
  refine (Run.limit_const _).trans ((Course.ofRun_bind _ _).trans (bind_congr fun next => ?_))
  match next with
  | none => rfl
  | some (t, rest) => rfl

theorem answer_satisfy (test : Value → Act Bool) : answer env (.apply (.satisfy test) z) =
    Course.ofRun (Run.next? z.input) >>= fun next =>
      match next with
      | none => pure (.failure z Message.noTokenLeft)
      | some (t, rest) => exec env (test t) >>= fun b =>
        if b then pure (.known { z with input := rest } t)
        else Course.ofRun (Run.ofExcept (Message.unexpected t)) >>= fun m => pure (.failure z m) := by
  rw [answer_apply_primitive rfl]
  refine (Run.limit_const_bind _ fun next n => ?_).trans (bind_congr fun next => ?_)
  · match next with
    | none => exact .refl _
    | some (t, rest) => exact .bind (steady_exec env _ n) fun _ => .refl _
  · match next with
    | none => exact Run.limit_const _
    | some (t, rest) =>
      refine (Run.limit_bind_const (steady_exec env _) _).trans (bind_congr fun b => ?_)
      cases b with
      | true => rfl
      | false => exact Course.ofRun_bind _ _

variable (env z) in
/-- A labelled choice. -/
noncomputable def alternatives (failures : List (String × String)) (ps : List (String × Parser)) : Course Answer :=
  limit fun n => (means env n).alternatives z failures ps

theorem alternatives_nil (failures : List (String × String)) :
    alternatives env z failures [] =
      Course.ofRun (Run.ofExcept (Message.choiceReport env.settings.indent failures.reverse)) >>= fun message =>
        pure (.failure z message) := by
  unfold alternatives Means.alternatives
  refine (Run.limit_of_forall (x := Run.ofExcept (Message.choiceReport env.settings.indent failures.reverse) >>=
    fun message => pure (Answer.failure z message)) fun _ => rfl).trans ?_
  exact Course.ofRun_bind _ _

theorem alternatives_cons (failures : List (String × String)) (label : String) (p : Parser)
    (rest : List (String × Parser)) :
    alternatives env z failures ((label, p) :: rest) = answer env (.apply p z) >>= fun a =>
      match a with
      | .failure _ message =>
        Course.ofRun (env.trace ("alternative \"" ++ label ++ "\" failed: " ++ message)) >>= fun _ =>
          alternatives env z ((label, message) :: failures) rest
      | a => pure a := by
  have hsteady : ∀ failures, Steady fun n => (means env n).alternatives z failures rest :=
    fun failures n => (means_le env n).alternatives .le z failures rest
  refine (Run.limit_bind (steady_answer env (.apply p z)) fun a n => ?_).trans (bind_congr fun a => ?_)
  · match a with
    | .failure _ message => exact .bind (.refl _) fun _ => hsteady _ n
    | .success _ => exact .refl _
    | .committed _ => exact .refl _
  · match a with
    | .failure _ message =>
      exact Run.limit_const_bind (env.trace ("alternative \"" ++ label ++ "\" failed: " ++ message))
        fun _ => hsteady ((label, message) :: failures)
    | .success _ => exact Run.limit_const _
    | .committed _ => exact Run.limit_const _

theorem answer_choice (ps : List (String × Parser)) :
    answer env (.apply (.choice ps) z) = alternatives env z [] ps := answer_apply_primitive rfl

end Primitives

end CommittedChoice.OnDemand
