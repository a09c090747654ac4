import CommittedChoice.Proofs.Meaning
import CommittedChoice.Proofs.OnDemand.Enough

/-!
# What parsers reveal

A reader of an answer can see whether it is committed, settle it and have its finish disclosed, and then has a failure,
or a success whose remainder and value may still be late. This is as far as every part of the engine goes with a parser
before it goes on, so in these terms each parser has an equation in which nothing is suspended any more.

- `Revealed`: a success or a failure, and whether it is committed;
- `reveal`: what a suspended parser reveals. Commitments may be nested, so this is an upper bound over all depths;
- `reveal_framed`: a frame that is moved under commitments can be applied at the end instead;
- `reveal_framed_map`, `reveal_framed_bind`, ...: one equation for each kind of frame;
- `reveal_map`, `reveal_bind`, ...: one equation for each kind of parser.
-/

namespace CommittedChoice.OnDemand

open Run (limit Steady)

/-- What shows of a parser before its remainder and its value are asked for. -/
structure Revealed where
  committed : Bool
  settled : Settled

namespace Revealed

/-- Under a commitment. -/
def commit (r : Revealed) : Revealed := { r with committed := true }

@[simp] theorem commit_commit (r : Revealed) : r.commit.commit = r.commit := rfl

@[simp] theorem commit_settled (r : Revealed) : r.commit.settled = r.settled := rfl

@[simp] theorem commit_committed (r : Revealed) : r.commit.committed = true := rfl

end Revealed

/-- What a success is seen to be once its finish is known. -/
def Promise.revealed (p : Promise) : Finish → Revealed
  | .plain => ⟨false, .success p.disclosed⟩
  | .committed => ⟨true, .success p.disclosed⟩
  | .failed z message => ⟨true, .failure z message⟩

variable (env : Env)

/-- What an answer reveals, given what the suspended parser under a commitment does. -/
noncomputable def revealing (inner : Suspended → Course Revealed) : Answer → Course Revealed
  | .success p => p.revealed <$> finish env p
  | .failure z message => pure ⟨false, .failure z message⟩
  | .committed s => Revealed.commit <$> inner s

/-- What a suspended parser reveals, if fewer than `k` commitments are nested in it. -/
noncomputable def revealUpTo : Nat → Suspended → Course Revealed
  | 0, _ => .never
  | k + 1, s => answer env s >>= revealing env (revealUpTo k)

/-- What a suspended parser reveals. -/
noncomputable def reveal (s : Suspended) : Course Revealed := Course.sup fun k => revealUpTo env k s

variable {env}

theorem revealing_mono {f g : Suspended → Course Revealed} (h : ∀ s, f s ≤ g s) (a : Answer) :
    revealing env f a ≤ revealing env g a := by
  cases a with
  | success p => exact le_refl _
  | failure z message => exact le_refl _
  | committed s => exact Course.map_mono _ (h s)

theorem revealUpTo_le_succ : ∀ (k : Nat) (s : Suspended), revealUpTo env k s ≤ revealUpTo env (k + 1) s
  | 0, _ => Course.never_le _
  | k + 1, _ => Course.bind_mono (le_refl _) fun a => revealing_mono (revealUpTo_le_succ k) a

theorem monotone_revealUpTo (s : Suspended) : Monotone fun k => revealUpTo env k s :=
  monotone_nat_of_le_succ fun k => revealUpTo_le_succ k s

theorem revealUpTo_le (k : Nat) (s : Suspended) : revealUpTo env k s ≤ reveal env s :=
  Course.le_sup (monotone_revealUpTo s) k

theorem reveal_eq (s : Suspended) : reveal env s = answer env s >>= revealing env (reveal env) := by
  have hmono : ∀ a, Monotone fun k => revealing env (revealUpTo env k) a :=
    fun a _ _ h => revealing_mono (fun s => monotone_revealUpTo s h) a
  rw [reveal, ← Course.sup_succ (monotone_revealUpTo s)]
  refine (Course.sup_const_bind _ hmono).trans (bind_congr fun a => ?_)
  cases a with
  | success p => exact Course.sup_const _
  | failure z message => exact Course.sup_const _
  | committed inner => exact Course.sup_map _ (monotone_revealUpTo inner)

/-- To bound what is revealed, it is enough to bound it for every depth. -/
theorem reveal_le {s : Suspended} {x : Course Revealed} (h : ∀ k, revealUpTo env k s ≤ x) : reveal env s ≤ x :=
  Course.sup_le (monotone_revealUpTo s) h

@[simp] theorem reveal_ready_failure (z : Context) (message : String) :
    reveal env (.ready (.failure z message)) = pure ⟨false, .failure z message⟩ := by
  rw [reveal_eq, answer_ready, pure_bind]
  rfl

@[simp] theorem reveal_ready_disclosed (p : Promise) :
    reveal env (.ready (.success p.disclosed)) = pure ⟨false, .success p.disclosed⟩ := by
  rw [reveal_eq, answer_ready, pure_bind, revealing, finish_disclosed, map_pure]
  rfl

/-! ## Frames -/

/-- **A frame that is moved under commitments can be applied at the end instead.** -/
theorem reveal_framed {f : Frame} {g : Revealed → Course Revealed}
    (hcommitted : ∀ inner, resume env f (.committed inner) = pure (.committed (.framed inner f)))
    (hg : ∀ r, g r.commit = Revealed.commit <$> g r)
    (hfailure : ∀ z message, resume env f (.failure z message) >>= revealing env (reveal env) =
      g ⟨false, .failure z message⟩)
    (hsuccess : ∀ p, resume env f (.success p) >>= revealing env (reveal env) = p.revealed <$> finish env p >>= g)
    (s : Suspended) : reveal env (.framed s f) = reveal env s >>= g := by
  have hcommit : ∀ x : Course Revealed, Revealed.commit <$> (x >>= g) = Revealed.commit <$> x >>= g := by
    intro x
    rw [map_bind, bind_map_left]
    exact bind_congr fun r => (hg r).symm
  apply le_antisymm
  · refine reveal_le fun k => ?_
    induction k generalizing s with
    | zero => exact Course.never_le _
    | succ k ih =>
      rw [revealUpTo, answer_framed, bind_assoc, reveal_eq s, bind_assoc]
      refine Course.bind_mono (le_refl _) fun a => ?_
      cases a with
      | success p =>
        rw [revealing, ← hsuccess]
        exact Course.bind_mono (le_refl _) fun b => revealing_mono (revealUpTo_le k) b
      | failure z message =>
        rw [revealing, pure_bind, ← hfailure]
        exact Course.bind_mono (le_refl _) fun b => revealing_mono (revealUpTo_le k) b
      | committed inner =>
        rw [hcommitted, pure_bind, revealing, revealing, ← hcommit]
        exact Course.map_mono _ (ih inner)
  · -- the depth is that of the parser without its frame
    have hbound : ∀ k s, revealUpTo env k s >>= g ≤ reveal env (.framed s f) := by
      intro k
      induction k with
      | zero => exact fun s => Course.never_le _
      | succ k ih =>
        intro s
        rw [revealUpTo, bind_assoc, reveal_eq (.framed s f), answer_framed, bind_assoc]
        refine Course.bind_mono (le_refl _) fun a => ?_
        cases a with
        | success p => rw [revealing, hsuccess]
        | failure z message => rw [revealing, pure_bind, hfailure]
        | committed inner =>
          rw [hcommitted, pure_bind, revealing, revealing, ← hcommit]
          exact Course.map_mono _ (ih inner)
    exact Course.sup_bind_le (monotone_revealUpTo s) fun k => hbound k s

theorem reveal_apply_framed {p q : Parser} {z : Context} {f : Frame} (h : frame? z p = some (q, f)) :
    reveal env (.apply p z) = reveal env (.framed (.apply q z) f) := by
  rw [reveal_eq, reveal_eq (.framed _ _), answer_apply_framed h]

namespace Revealed

/-- Under a commitment if `b` holds. -/
def commitIf (b : Bool) (r : Revealed) : Revealed := ⟨b || r.committed, r.settled⟩

@[simp] theorem commitIf_false (r : Revealed) : r.commitIf false = r := rfl

@[simp] theorem commitIf_true (r : Revealed) : r.commitIf true = r.commit := rfl

/-- A function of the value of a success, for later. -/
def map (f : Value → Act Value) (r : Revealed) : Revealed :=
  match r.settled with
  | .success p => { r with settled := .success { p with value := .mapped p.value f } }
  | .failure _ _ => r

/-- The state that a failure reports. -/
def restore (state : Value) (r : Revealed) : Revealed :=
  match r.settled with
  | .success _ => r
  | .failure z message => { r with settled := .failure { z with state := state } message }

variable (env)

/-- Going on after a success. -/
noncomputable def bind (k : Value → Act Parser) (r : Revealed) : Course Revealed :=
  match r.settled with
  | .success p => do
    let z ← late env p.rest
    let v ← late env p.value
    let q ← exec env (k v)
    commitIf r.committed <$> reveal env (.apply q z)
  | .failure _ _ => pure r

/-- Another message for a failure. -/
noncomputable def reword (f : String → Act String) (r : Revealed) : Course Revealed :=
  match r.settled with
  | .success _ => pure r
  | .failure z message => (fun message => { r with settled := .failure z message }) <$> exec env (f message)

/-- Something else after a plain failure. -/
def orElse (second : Course Revealed) : Revealed → Course Revealed
  | ⟨false, .failure _ _⟩ => second
  | r => pure r

end Revealed

theorem reveal_framed_map (f : Value → Act Value) (s : Suspended) :
    reveal env (.framed s (.map f)) = Revealed.map f <$> reveal env s := by
  rw [map_eq_pure_bind]
  refine reveal_framed (resume_map_committed f) (fun r => ?_) (fun z message => ?_) (fun p => ?_) _
  · rw [map_pure]
    obtain ⟨_, _ | _⟩ := r <;> rfl
  · rw [resume_map_failure, pure_bind]
    rfl
  · rw [resume_map_success, pure_bind, bind_map_left]
    have hfinish : finish env { p with value := .mapped p.value f } = finish env p := finish_congr rfl
    rw [revealing, map_eq_pure_bind, hfinish]
    refine bind_congr fun finish => ?_
    cases finish <;> rfl

theorem reveal_map (p : Parser) (f : Value → Act Value) (z : Context) :
    reveal env (.apply (.map p f) z) = Revealed.map f <$> reveal env (.apply p z) := by
  rw [reveal_apply_framed rfl, reveal_framed_map]

theorem reveal_framed_bind (k : Value → Act Parser) (s : Suspended) :
    reveal env (.framed s (.bind k)) = reveal env s >>= Revealed.bind env k := by
  -- going on after a success whose finish is known
  have hplain : ∀ p : Promise, bindFinished env k p .plain >>= revealing env (reveal env) =
      Revealed.bind env k ⟨false, .success p.disclosed⟩ := by
    intro p
    simp only [bindFinished, bind_assoc, ← reveal_eq]
    simp only [Revealed.bind, Promise.disclosed]
    refine bind_congr fun z => bind_congr fun v => bind_congr fun q => ?_
    exact (id_map _).symm
  refine reveal_framed (resume_bind_committed k) (fun r => ?_) (fun z message => ?_) (fun p => ?_) _
  · obtain ⟨_, p | _⟩ := r
    · simp only [Revealed.bind, Revealed.commit, map_bind]
      refine bind_congr fun z => bind_congr fun v => bind_congr fun q => ?_
      rw [← comp_map]
      rfl
    · exact (map_pure _ _).symm
  · rw [resume_bind_failure, pure_bind]
    rfl
  · rw [resume_bind_success, bind_assoc, bind_map_left]
    refine bind_congr fun finish => ?_
    cases finish with
    | plain => exact hplain p
    | committed =>
      rw [bindFinished, pure_bind, revealing, reveal_eq, answer_framed, answer_ready, pure_bind, resume_bind_success,
        finish_disclosed, pure_bind, hplain]
      simp only [Revealed.bind, Promise.revealed, map_bind]
      refine bind_congr fun z => bind_congr fun v => bind_congr fun q => ?_
      rw [← comp_map]
      rfl
    | failed z message =>
      rw [bindFinished, pure_bind, revealing, reveal_ready_failure, map_pure]
      rfl

theorem reveal_bind (p : Parser) (k : Value → Act Parser) (z : Context) :
    reveal env (.apply (.bind p k) z) = reveal env (.apply p z) >>= Revealed.bind env k := by
  rw [reveal_apply_framed rfl, reveal_framed_bind]

theorem reveal_framed_reword (f : String → Act String) (s : Suspended) :
    reveal env (.framed s (.reword f)) = reveal env s >>= Revealed.reword env f := by
  refine reveal_framed (resume_reword_committed f) (fun r => ?_) (fun z message => ?_) (fun p => ?_) _
  · obtain ⟨_, _ | _⟩ := r
    · exact (map_pure _ _).symm
    · simp only [Revealed.reword, Revealed.commit]
      rw [← comp_map]
      rfl
  · rw [resume_reword_failure, bind_assoc]
    simp only [pure_bind, revealing, Revealed.reword, map_eq_pure_bind]
  · rw [resume_reword_success, pure_bind, revealing, finish_onFailure, map_bind, bind_map_left]
    refine bind_congr fun finish => ?_
    cases finish with
    | plain => exact map_pure _ _
    | committed => exact map_pure _ _
    | failed z message =>
      simp only [onFailure, exec_bind, Revealed.reword, Promise.revealed, map_eq_pure_bind, bind_assoc, pure_bind]
      refine bind_congr fun message => ?_
      rw [show (pure (z, message) : Act (Context × String)) = .pure (z, message) from rfl, exec_pure, pure_bind]

theorem reveal_reword (p : Parser) (f : String → Act String) (z : Context) :
    reveal env (.apply (.reword p f) z) = reveal env (.apply p z) >>= Revealed.reword env f := by
  rw [reveal_apply_framed rfl, reveal_framed_reword]

theorem reveal_framed_restoring (state : Value) (s : Suspended) :
    reveal env (.framed s (.restoring state)) = Revealed.restore state <$> reveal env s := by
  rw [map_eq_pure_bind]
  refine reveal_framed (resume_restoring_committed _) (fun r => ?_) (fun z message => ?_) (fun p => ?_) _
  · rw [map_pure]
    obtain ⟨_, _ | _⟩ := r <;> rfl
  · rw [resume_restoring_failure, pure_bind]
    rfl
  · rw [resume_restoring_success, pure_bind, revealing, finish_onFailure, map_bind, bind_map_left]
    refine bind_congr fun finish => ?_
    cases finish with
    | plain => exact map_pure _ _
    | committed => exact map_pure _ _
    | failed z message => simp only [onFailure, exec_pure, pure_bind, map_pure]; rfl

theorem reveal_restoring (p : Parser) (z : Context) :
    reveal env (.apply (.restoring p) z) = Revealed.restore z.state <$> reveal env (.apply p z) := by
  rw [reveal_apply_framed rfl, reveal_framed_restoring]

theorem reveal_framed_orElse (q : Parser) (z : Context) (s : Suspended) :
    reveal env (.framed s (.orElse q z)) = reveal env s >>= Revealed.orElse (reveal env (.apply q z)) := by
  rw [reveal_eq, answer_framed, reveal_eq s, bind_assoc, bind_assoc]
  refine bind_congr fun a => ?_
  cases a with
  | success p =>
    rw [resume_orElse_success, pure_bind, revealing, bind_map_left, map_eq_pure_bind]
    refine bind_congr fun finish => ?_
    cases finish <;> rfl
  | failure rest message => rw [resume_orElse_failure, ← reveal_eq, revealing, pure_bind]; rfl
  | committed inner =>
    rw [resume_orElse_committed, pure_bind, revealing, bind_map_left, map_eq_pure_bind]
    rfl

theorem reveal_orElse (p q : Parser) (z : Context) :
    reveal env (.apply (.orElse p q) z) =
      reveal env (.apply p z) >>= Revealed.orElse (reveal env (.apply q z)) := by
  rw [reveal_apply_framed rfl, reveal_framed_orElse]

/-! ## Settling -/

/-- Under a commitment, settling a parser and disclosing its finish reveals as much as the parser does. -/
theorem commit_settle (s : Suspended) :
    Revealed.commit <$> (settle env s >>= fun t => revealing env (reveal env) t.toAnswer) =
      Revealed.commit <$> reveal env s := by
  have hcommit : ∀ x : Course Revealed, Revealed.commit <$> Revealed.commit <$> x = Revealed.commit <$> x :=
    fun x => (comp_map _ _ x).symm
  apply le_antisymm
  · have hbound : ∀ n k s, Revealed.commit <$> (Course.ofRun ((means env n).settlement k s) >>= fun t =>
        revealing env (reveal env) t.toAnswer) ≤ Revealed.commit <$> reveal env s := by
      intro n k
      induction k with
      | zero => exact fun s => Course.never_le _
      | succ k ih =>
        intro s
        rw [Means.settlement_succ, Course.ofRun_bind, bind_assoc, reveal_eq, map_bind, map_bind]
        refine Course.bind_mono (Course.le_sup (steady_answer env s).monotone n) fun a => ?_
        cases a with
        | success p => exact le_refl _
        | failure z message => exact le_refl _
        | committed inner =>
          rw [revealing, hcommit]
          exact ih inner
    rw [map_bind]
    refine Course.sup_bind_le (steady_settlement env s).monotone fun n => ?_
    rw [← map_bind]
    exact hbound n n s
  · have hbound : ∀ k s, Revealed.commit <$> revealUpTo env k s ≤
        Revealed.commit <$> (settle env s >>= fun t => revealing env (reveal env) t.toAnswer) := by
      intro k
      induction k with
      | zero => exact fun s => Course.never_le _
      | succ k ih =>
        intro s
        rw [revealUpTo, settle_eq, bind_assoc, map_bind, map_bind]
        refine Course.bind_mono (le_refl _) fun a => ?_
        cases a with
        | success p => rw [settleAnswer, pure_bind]; exact le_refl _
        | failure z message => rw [settleAnswer, pure_bind]; exact le_refl _
        | committed inner =>
          rw [revealing, hcommit]
          exact ih inner
    rw [reveal, ← Course.sup_map _ (monotone_revealUpTo s)]
    exact Course.sup_le (fun _ _ h => Course.map_mono _ (monotone_revealUpTo s h)) fun k => hbound k s

/-! ## Loops -/

section Loops

variable (env) in
/-- What one turn of a loop leads to. -/
noncomputable def revealTurn : Course.Turn Revealed where
  after next c r :=
    match r.settled with
    | .failure z message => pure ⟨c || r.committed, .failure z message⟩
    | .success p => late env p.value >>= fun v =>
      match v.toStep with
      | .done value => pure ⟨c || r.committed, .success { rest := p.rest, value := .known value }⟩
      | .again state => late env p.rest >>= fun z => next (c || r.committed) state z
  mono := by
    intro f g h c r
    cases r.settled with
    | failure z message => exact le_refl _
    | success p =>
      refine Course.bind_mono (le_refl _) fun v => ?_
      cases v.toStep with
      | done value => exact le_refl _
      | again state => exact Course.bind_mono (le_refl _) fun z => h _ _ _
  sup := by
    intro f hf c r
    cases r.settled with
    | failure z message => exact Course.sup_const _
    | success p =>
      refine (Course.sup_const_bind _ fun v => ?_).trans (bind_congr fun v => ?_)
      · cases v.toStep with
        | done value => exact monotone_const
        | again state => exact Course.monotone_bind monotone_const fun z => hf _ _ z
      · cases v.toStep with
        | done value => exact Course.sup_const _
        | again state => exact Course.sup_const_bind _ fun z => hf _ _ z

variable (env) (step : Value → Act Parser)

/-- The parser of a turn and what it reveals. -/
noncomputable def revealBody (state : Value) (z : Context) : Course Revealed :=
  exec env (step state) >>= fun p => reveal env (.apply p z)

/-- What a loop reveals. -/
noncomputable def revealLoop : Bool → Value → Context → Course Revealed := (revealTurn env).loop (revealBody env step)

/-- What the turns of the engine reveal; those after a commitment do not say so themselves. -/
noncomputable def revealTurns (c : Bool) (state : Value) (z : Context) : Course Revealed :=
  Revealed.commitIf c <$> (turns env step c state z >>= revealing env (reveal env))

variable {env step}

/-- Whether a turn is committed shows in the same way whether it committed itself or one before it did. -/
theorem after_commit (next : Bool → Value → Context → Course Revealed) (c : Bool) (r : Revealed) :
    (revealTurn env).after next c r.commit = (revealTurn env).after (fun _ => next true) true r := by
  obtain ⟨_, p | _⟩ := r <;> simp only [revealTurn, Revealed.commit, Bool.or_true, Bool.true_or]

theorem after_congr {f g : Bool → Value → Context → Course Revealed} {c : Bool} {r : Revealed}
    (h : ∀ s z, f (c || r.committed) s z = g (c || r.committed) s z) :
    (revealTurn env).after f c r = (revealTurn env).after g c r := by
  simp only [revealTurn, h]

theorem after_true (next : Bool → Value → Context → Course Revealed) (r : Revealed) :
    (revealTurn env).after next true r.commit = (revealTurn env).after next true r := by
  obtain ⟨_, p | _⟩ := r <;> rfl

/-- A turn that succeeded and whose finish does not end the turns. -/
theorem turnValue_reveal (next : Value → Context → Course Answer) (c : Bool) (p : Promise) :
    Revealed.commitIf c <$> (turnValue env p >>= afterTurn next >>= revealing env (reveal env)) =
      (revealTurn env).after (fun _ s z => Revealed.commitIf c <$> (next s z >>= revealing env (reveal env))) c
        ⟨false, .success p.disclosed⟩ := by
  simp only [turnValue, revealTurn, bind_assoc, map_bind, Promise.disclosed]
  refine bind_congr fun v => ?_
  cases v.toStep with
  | done value =>
    rw [pure_bind, afterTurn, pure_bind, revealing, finish_of_none rfl, map_pure, map_pure]
    rfl
  | again state =>
    dsimp only
    rw [bind_assoc]
    refine bind_congr fun z => ?_
    rw [pure_bind, afterTurn]

/-- A turn after a commitment. -/
theorem turnAnswer_true_reveal (next : Value → Context → Course Answer) (a : Answer) :
    Revealed.commit <$> (turnAnswer step env true a >>= afterTurn next >>= revealing env (reveal env)) =
      revealing env (reveal env) a >>= (revealTurn env).after
        (fun _ s z => Revealed.commit <$> (next s z >>= revealing env (reveal env))) true := by
  -- a settled answer first, as a commitment that is settled comes to one
  have hsettled : ∀ t : Settled,
      Revealed.commit <$> (turnAnswer step env true t.toAnswer >>= afterTurn next >>= revealing env (reveal env)) =
        revealing env (reveal env) t.toAnswer >>= (revealTurn env).after
          (fun _ s z => Revealed.commit <$> (next s z >>= revealing env (reveal env))) true := by
    intro t
    cases t with
    | failure z message =>
      rw [Settled.toAnswer, turnAnswer_failure, pure_bind, afterTurn, pure_bind, revealing, map_pure, pure_bind]
      rfl
    | success p =>
      rw [Settled.toAnswer, turnAnswer_success, revealing, bind_map_left, bind_assoc, bind_assoc, map_bind]
      refine bind_congr fun finish => ?_
      cases finish with
      | plain => rw [turnFinished_plain, ← bind_assoc]; exact turnValue_reveal next true p
      | committed => rw [turnFinished_committed_true, ← bind_assoc]; exact turnValue_reveal next true p
      | failed z message =>
        rw [turnFinished_failed, pure_bind, if_pos rfl, afterTurn, pure_bind, revealing, map_pure]
        rfl
  cases a with
  | success p => exact hsettled (.success p)
  | failure z message => exact hsettled (.failure z message)
  | committed inner =>
    have hafter : ∀ (x : Course Revealed) (f : Bool → Value → Context → Course Revealed),
        x >>= (revealTurn env).after f true = Revealed.commit <$> x >>= (revealTurn env).after f true := by
      intro x f
      rw [bind_map_left]
      exact bind_congr fun r => (after_true f r).symm
    rw [turnAnswer_committed_true, revealing, ← commit_settle, ← hafter, bind_assoc, bind_assoc, bind_assoc, map_bind]
    refine bind_congr fun t => ?_
    rw [← bind_assoc]
    exact hsettled t

/-- Turns that go on under a commitment. -/
theorem reveal_framed_loop (s : Suspended) :
    Revealed.commit <$> reveal env (.framed s (.loop step)) =
      reveal env s >>= (revealTurn env).after (fun _ => revealTurns env step true) true := by
  rw [reveal_eq, answer_framed, reveal_eq s, bind_assoc, bind_assoc, map_bind]
  refine bind_congr fun a => ?_
  rw [resume_loop]
  exact turnAnswer_true_reveal (turns env step true) a

/-- A turn before any commitment. -/
theorem turnAnswer_false_reveal (next : Value → Context → Course Answer) (a : Answer) :
    turnAnswer step env false a >>= afterTurn next >>= revealing env (reveal env) =
      revealing env (reveal env) a >>= (revealTurn env).after
        (fun c s z => if c then revealTurns env step true s z else next s z >>= revealing env (reveal env)) false := by
  cases a with
  | failure z message =>
    rw [turnAnswer_failure, pure_bind, afterTurn, pure_bind, revealing, pure_bind]
    rfl
  | committed inner =>
    rw [turnAnswer_committed_false, pure_bind, afterTurn, pure_bind, revealing, revealing, reveal_framed_loop,
      bind_map_left]
    refine bind_congr fun r => ?_
    rw [after_commit]
    rfl
  | success p =>
    rw [turnAnswer_success, revealing, bind_map_left, bind_assoc, bind_assoc]
    refine bind_congr fun finish => ?_
    cases finish with
    | plain =>
      rw [turnFinished_plain, ← bind_assoc, ← id_map (turnValue env p >>= afterTurn next >>= _)]
      exact (turnValue_reveal next false p).trans (after_congr fun s z => id_map _)
    | committed =>
      rw [turnFinished_committed_false, pure_bind, afterTurn, pure_bind, revealing, reveal_framed_loop,
        reveal_ready_disclosed, pure_bind]
      exact (after_commit _ false ⟨false, .success p.disclosed⟩).symm
    | failed z message =>
      rw [turnFinished_failed, pure_bind, if_neg Bool.false_ne_true, afterTurn, pure_bind, revealing,
        reveal_ready_failure, map_pure]
      rfl

/-- The turns of the engine are their own unfolding. -/
theorem revealTurns_unfold (c : Bool) (state : Value) (z : Context) :
    revealTurns env step c state z =
      revealBody env step state z >>= (revealTurn env).after (revealTurns env step) c := by
  rw [revealTurns, turns_eq, revealBody, bind_assoc, bind_assoc, map_bind]
  refine bind_congr fun p => ?_
  rw [bind_assoc, map_bind, reveal_eq, bind_assoc]
  refine bind_congr fun a => ?_
  cases c with
  | true =>
    refine (turnAnswer_true_reveal (turns env step true) a).trans (bind_congr fun r => after_congr fun s z => ?_)
    rfl
  | false =>
    refine (id_map _).trans ?_
    refine (turnAnswer_false_reveal (turns env step false) a).trans (bind_congr fun r => after_congr fun s z => ?_)
    cases r.committed with
    | true => rfl
    | false => exact (id_map _).symm

theorem ofRun_turns_le (n : Nat) {k : Nat} (hk : k + 1 ≤ n) (c : Bool) (state : Value) (z : Context) :
    Course.ofRun ((means env n).turns step c (k + 1) state z) ≤
      exec env (step state) >>= fun p => answer env (.apply p z) >>= fun a =>
        turnAnswer step env c a >>= afterTurn fun s z => Course.ofRun ((means env n).turns step c k s z) := by
  rw [Means.turns_succ, Course.ofRun_bind]
  refine Course.bind_mono (Course.le_sup (steady_exec env _).monotone n) fun p => ?_
  rw [Course.ofRun_bind]
  refine Course.bind_mono (Course.le_sup (steady_answer env _).monotone n) fun a => ?_
  rw [Course.ofRun_bind]
  refine Course.bind_mono ?_ fun t => ?_
  · refine le_trans (Run.Le.ofRun ?_) (Course.le_sup (steady_turnAnswer env step c a).monotone n)
    exact (Means.Related.refl _).turnAnswer .le (Nat.le_of_succ_le hk) step c a
  · cases t with
    | finished a => exact le_refl _
    | again state z => exact le_refl _

/-- One turn of the engine is one turn of the loop. -/
theorem turn_le_revealLoop {next : Value → Context → Course Answer} {f : Bool → Value → Context → Course Revealed}
    {c : Bool} (hturn : ∀ a, Revealed.commitIf c <$> (turnAnswer step env c a >>= afterTurn next >>=
      revealing env (reveal env)) = revealing env (reveal env) a >>= (revealTurn env).after f c)
    (hf : ∀ c s z, f c s z ≤ revealLoop env step c s z) (state : Value) (z : Context) :
    Revealed.commitIf c <$> ((exec env (step state) >>= fun p => answer env (.apply p z) >>= fun a =>
      turnAnswer step env c a >>= afterTurn next) >>= revealing env (reveal env)) ≤ revealLoop env step c state z := by
  rw [revealLoop, Course.Turn.loop_unfold, revealBody, bind_assoc, bind_assoc, map_bind]
  refine Course.bind_mono (le_refl _) fun p => ?_
  rw [bind_assoc, map_bind, reveal_eq, bind_assoc]
  refine Course.bind_mono (le_refl _) fun a => ?_
  rw [hturn a]
  exact Course.bind_mono (le_refl _) fun r => (revealTurn env).mono hf c r

variable (env step) in
/-- What the turns of the engine reveal with some fuel. -/
noncomputable def revealTurnsUpTo (n k : Nat) (c : Bool) (state : Value) (z : Context) : Course Revealed :=
  Revealed.commitIf c <$> (Course.ofRun ((means env n).turns step c k state z) >>= revealing env (reveal env))

/-- Turns that are bounded with every fuel are bounded. -/
theorem revealTurns_le {c : Bool} {state : Value} {z : Context} {x : Course Revealed}
    (h : ∀ n, revealTurnsUpTo env step n n c state z ≤ x) : revealTurns env step c state z ≤ x := by
  rw [revealTurns, map_bind]
  refine Course.sup_bind_le (steady_turns env step c state z).monotone fun n => ?_
  rw [← map_bind]
  exact h n

/-- After a commitment, turns with some fuel reveal no more than the loop. -/
theorem revealTurnsUpTo_true_le (n : Nat) : ∀ {k : Nat} (_ : k ≤ n) (state : Value) (z : Context),
    revealTurnsUpTo env step n k true state z ≤ revealLoop env step true state z
  | 0, _, _, _ => Course.never_le _
  | k + 1, hk, state, z => by
    have ih := fun s z => revealTurnsUpTo_true_le n (Nat.le_of_succ_le hk) s z
    refine le_trans (Course.map_mono _ (Course.bind_mono (ofRun_turns_le n hk true state z) fun _ => le_refl _)) ?_
    refine turn_le_revealLoop (f := fun c s z => if c then revealTurnsUpTo env step n k true s z else .never)
      (fun a => ?_) (fun c s z => ?_) state z
    · exact (turnAnswer_true_reveal _ a).trans (bind_congr fun r => after_congr fun s z => (if_pos rfl).symm)
    · cases c with
      | true => exact ih s z
      | false => exact Course.never_le _

/-- Before any commitment, turns with some fuel reveal no more than the loop. -/
theorem revealTurnsUpTo_false_le (n : Nat) : ∀ {k : Nat} (_ : k ≤ n) (state : Value) (z : Context),
    revealTurnsUpTo env step n k false state z ≤ revealLoop env step false state z
  | 0, _, _, _ => Course.never_le _
  | k + 1, hk, state, z => by
    have ih := fun s z => revealTurnsUpTo_false_le n (Nat.le_of_succ_le hk) s z
    refine le_trans (Course.map_mono _ (Course.bind_mono (ofRun_turns_le n hk false state z) fun _ => le_refl _)) ?_
    refine turn_le_revealLoop (fun a => (id_map _).trans (turnAnswer_false_reveal _ a)) (fun c s z => ?_) state z
    cases c with
    | true => exact revealTurns_le fun n => revealTurnsUpTo_true_le n (Nat.le_refl n) s z
    | false =>
      refine le_trans (le_of_eq ?_) (ih s z)
      exact (id_map _).symm

/-- The turns of the engine reveal what the loop does. -/
theorem revealTurns_eq (c : Bool) (state : Value) (z : Context) :
    revealTurns env step c state z = revealLoop env step c state z := by
  apply le_antisymm
  · refine revealTurns_le fun n => ?_
    cases c with
    | true => exact revealTurnsUpTo_true_le n (Nat.le_refl n) state z
    | false => exact revealTurnsUpTo_false_le n (Nat.le_refl n) state z
  · exact Course.Turn.loop_le (fun c s z => le_of_eq (revealTurns_unfold c s z).symm) c state z

theorem reveal_loop (init : Value) (z : Context) :
    reveal env (.apply (.loop init step) z) = revealLoop env step false init z := by
  rw [reveal_eq, answer_loop, ← revealTurns_eq, revealTurns]
  exact (id_map _).symm

end Loops

/-! ## Other parsers -/

theorem reveal_commit (p : Parser) (z : Context) :
    reveal env (.apply (.commit p) z) = Revealed.commit <$> reveal env (.apply p z) := by
  rw [reveal_eq, answer_commit, pure_bind, revealing, reveal_eq, answer_afresh, ← reveal_eq]

theorem reveal_rule (name : String) (z : Context) :
    reveal env (.apply (.rule name) z) = reveal env (.apply (env.grammar name) z) := by
  rw [reveal_eq, answer_rule, ← reveal_eq]

variable (env) in
/-- What a labelled choice reveals, with the failures so far, newest first. -/
noncomputable def revealAlternatives (z : Context) : List (String × String) → List (String × Parser) → Course Revealed
  | failures, [] => do
    return ⟨false, .failure z
      (← Course.ofRun (Run.ofExcept (Message.choiceReport env.settings.indent failures.reverse)))⟩
  | failures, (label, p) :: rest => do
    match ← reveal env (.apply p z) with
    | ⟨false, .failure _ message⟩ =>
      Course.ofRun (env.trace ("alternative \"" ++ label ++ "\" failed: " ++ message))
      revealAlternatives z ((label, message) :: failures) rest
    | r => pure r

theorem alternatives_reveal (z : Context) (failures : List (String × String)) (ps : List (String × Parser)) :
    alternatives env z failures ps >>= revealing env (reveal env) = revealAlternatives env z failures ps := by
  induction ps generalizing failures with
  | nil =>
    rw [alternatives_nil, bind_assoc]
    rfl
  | cons head rest ih =>
    obtain ⟨label, p⟩ := head
    rw [alternatives_cons, revealAlternatives, reveal_eq, bind_assoc, bind_assoc]
    refine bind_congr fun a => ?_
    cases a with
    | failure _ message =>
      rw [revealing, pure_bind, bind_assoc]
      exact bind_congr fun _ => ih _
    | success q =>
      rw [pure_bind, revealing, bind_map_left, map_eq_pure_bind]
      refine bind_congr fun finish => ?_
      cases finish <;> rfl
    | committed inner =>
      rw [pure_bind, revealing, bind_map_left, map_eq_pure_bind]
      rfl

theorem reveal_choice (ps : List (String × Parser)) (z : Context) :
    reveal env (.apply (.choice ps) z) = revealAlternatives env z [] ps := by
  rw [reveal_eq, answer_choice, alternatives_reveal]

/-! ## Everything -/

namespace Revealed

/-- A result, all of which is known. -/
def ofResult (r : Strict.Outcome) : Revealed :=
  ⟨r.isCommitted,
    match r.verdict with
    | .success z v => .success { rest := .known z, value := .known v }
    | .failure z message => .failure z message⟩

variable (env) in
/-- The result, when its remainder and its value are asked for. -/
noncomputable def read (r : Revealed) : Course Strict.Outcome :=
  match r.settled with
  | .success p => do
    let z ← late env p.rest
    let v ← late env p.value
    return (Result.success z v).commitIf r.committed
  | .failure z message => pure ((Result.failure z message).commitIf r.committed)

@[simp] theorem read_ofResult (r : Strict.Outcome) : (ofResult r).read env = pure r := by
  obtain (_ | _) | (_ | _) := r <;> simp only [read, ofResult, Result.verdict, late_known, pure_bind] <;> rfl

end Revealed

variable (env) in
/-- The result of a parser, all of which is asked for. -/
noncomputable def eval (p : Parser) (z : Context) : Course Strict.Outcome :=
  reveal env (.apply p z) >>= Revealed.read env

variable (env) in
/-- The on-demand engine as a semantics. -/
noncomputable def semantics : Semantics := ⟨exec env, eval env⟩

theorem revealing_known (f : Suspended → Course Revealed) (z : Context) (v : Value) :
    revealing env f (.known z v) = pure (.ofResult (.success z v)) := by
  rw [Answer.known, revealing, finish_of_none rfl, map_pure]
  rfl

theorem revealing_failure (f : Suspended → Course Revealed) (z : Context) (message : String) :
    revealing env f (.failure z message) = pure (.ofResult (.failure z message)) := rfl

/-- **A parser without parts has its result as soon as it is asked.** -/
theorem reveal_leaf {p : Parser} (hp : p.isLeaf) (z : Context) :
    reveal env (.apply p z) = Revealed.ofResult <$> (semantics env).meaning env p z := by
  have hconst : ∀ {p : Parser} {v : Value} {z' : Context}, frame? z p = none →
      (∀ n, (means env n).primitive n p z = pure (.known z' v)) →
      reveal env (.apply p z) = Revealed.ofResult <$> (pure (.success z' v) : Course Strict.Outcome) := by
    intro p v z' hframe hanswer
    rw [reveal_eq, answer_apply_const hframe hanswer, Course.ofRun_pure, pure_bind, revealing_known, map_pure]
  cases p with
  | pure v => exact hconst rfl fun _ => rfl
  | fail message =>
    rw [reveal_eq, answer_apply_const (x := pure (.failure z message)) rfl fun _ => rfl, Course.ofRun_pure, pure_bind]
    exact (map_pure _ _).symm
  | pushBack ts => exact hconst rfl fun _ => rfl
  | position => exact hconst rfl fun _ => rfl
  | get => exact hconst rfl fun _ => rfl
  | put state => exact hconst rfl fun _ => rfl
  | next =>
    rw [reveal_eq, answer_next, Semantics.meaning, bind_assoc, map_bind]
    refine bind_congr fun next => ?_
    match next with
    | none => rw [pure_bind, revealing_failure, map_pure]
    | some (t, rest) => rw [pure_bind, revealing_known, map_pure]
  | eof =>
    rw [reveal_eq, answer_eof, Semantics.meaning, bind_assoc, map_bind]
    refine bind_congr fun next => ?_
    match next with
    | none => rw [pure_bind, revealing_known, map_pure]
    | some (t, rest) => rw [pure_bind, revealing_failure, map_pure]
  | satisfy test =>
    rw [reveal_eq, answer_satisfy, Semantics.meaning, bind_assoc, map_bind]
    refine bind_congr fun next => ?_
    match next with
    | none => rw [pure_bind, revealing_failure, map_pure]
    | some (t, rest) =>
      rw [bind_assoc, map_bind]
      refine bind_congr fun b => ?_
      cases b with
      | true => rw [if_pos rfl, if_pos rfl, pure_bind, revealing_known, map_pure]
      | false =>
        rw [if_neg Bool.false_ne_true, if_neg Bool.false_ne_true, bind_assoc, map_bind]
        exact bind_congr fun m => by rw [pure_bind, revealing_failure, map_pure]
  | _ => cases hp

end CommittedChoice.OnDemand
