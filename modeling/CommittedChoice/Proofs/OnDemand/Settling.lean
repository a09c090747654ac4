import CommittedChoice.Proofs.OnDemand.Session

/-!
# Settling first

What is under a commitment is resumed by the frames around it, and the commitment stays outside. This module says what the
same comes to when it is settled first: then the frames see an answer without a commitment, or no success that may still
turn out to be one.

- `Postponed`, `Passing`: the frames that go under a commitment, and those that failures pass through;
- `Means.turnAnswer_settled`, `Means.disclosure_nodeSettled`: a turn of a loop under a commitment, and an item under one;
- `Means.resumed`: what a frame makes of what was settled;
- `settlement_framed_le`: a frame under a commitment settles to what it makes of what was settled.
-/

namespace CommittedChoice.OnDemand

/-- Frames that go under a commitment. -/
inductive Postponed : Frame → Prop
  | bind (k) : Postponed (.bind k)
  | map (f) : Postponed (.map f)
  | reword (f) : Postponed (.reword f)
  | restoring (u) : Postponed (.restoring u)
  | loop (step) : Postponed (.loop step)

/-- Frames that failures pass through. -/
inductive Passing : Frame → Prop
  | bind (k) : Passing (.bind k)
  | loop (step) : Passing (.loop step)

namespace Means

variable (m : Means)

/-! ## Turns and items -/

/-- What one turn of a loop comes to, once nothing is left to be disclosed of it. -/
def turnSettled : Settled → Run Turn
  | .failure z message => pure (.finished (.failure z message))
  | .success p => m.turnValue p

theorem turnAnswer_settled (fuel : Nat) (step : Value → Act Parser) (a : Answer) :
    m.turnAnswer fuel step true a = m.settleAnswer fuel a >>= m.disclosure >>= m.turnSettled := by
  have hsuccess : ∀ p, m.finish p >>= m.turnFinished step true p = m.disclosure (.success p) >>= m.turnSettled := by
    intro p
    rw [disclosure, bind_assoc]
    refine bind_congr fun finish => ?_
    cases finish <;> rfl
  cases a with
  | failure z message => rfl
  | success p => exact hsuccess p
  | committed inner =>
    rw [settleAnswer, bind_assoc]
    refine bind_congr fun t => ?_
    cases t with
    | failure z message => rfl
    | success p => exact hsuccess p

/-- The node of an item that settled under a commitment. -/
def nodeSettled (l : Nat) (u : Unparsed) (committed : Bool) : Settled → Run Node
  | .failure z message => pure (.ended ⟨u.start, .failed z message⟩)
  | .success p => m.nodeValue l u committed p

theorem disclosure_nodeSettled (l : Nat) (u : Unparsed) (p : Promise) :
    m.disclosure (.success p) >>= m.nodeSettled l u true = m.finish p >>= m.nodeFinished l u true p := by
  rw [disclosure, bind_assoc]
  refine bind_congr fun finish => ?_
  cases finish <;> rfl

/-! ## Frames -/

/-- What a frame makes of what was settled under a commitment. -/
def resumed (fuel : Nat) (f : Frame) (t : Settled) : Run Answer :=
  match f with
  | .bind k => m.disclosure t >>= fun t =>
    match t with
    | .failure z message => pure (.failure z message)
    | .success p => m.bindFinished k p .plain
  | f => m.resumption fuel f t.toAnswer

end Means

variable (env : Env) (n : Nat) {f : Frame}

theorem settleAnswer_le (fuel : Nat) (a : Answer) :
    Run.Le ((means env n).settleAnswer fuel a) ((means env n).settleAnswer (fuel + 1) a) := by
  cases a with
  | committed inner => exact (Means.Related.refl _).settlement .le (Nat.le_succ _) inner
  | _ => exact .refl _

/-- A frame that was left for later is resumed, and what comes of it is settled. -/
theorem settlement_framed (fuel : Nat) (u : Suspended) (f : Frame) :
    (means env (n + 1)).settlement (fuel + 1) (.framed u f) = (means env n).answer u >>= fun a =>
      (means env n).resumption n f a >>= (means env (n + 1)).settleAnswer fuel := by
  rw [Means.settlement_succ, means_answer_framed, bind_assoc]

theorem settlement_ready (fuel : Nat) (a : Answer) :
    (means env (n + 1)).settlement (fuel + 1) (.ready a) = (means env (n + 1)).settleAnswer fuel a := by
  rw [Means.settlement_succ, means_answer_ready, pure_bind]

/-- Going on after a success under a commitment. -/
theorem resumption_bind_le (fuel : Nat) (k : Value → Act Parser) (p : Promise) :
    Run.Le ((means env n).resumption n (.bind k) (.success p) >>= (means env (n + 1)).settleAnswer fuel)
      ((means env n).resumed n (.bind k) (.success p) >>= (means env (n + 1)).settleAnswer fuel) := by
  rw [Means.resumption_bind_success, Means.resumed, Means.disclosure, bind_assoc, bind_assoc, bind_assoc]
  refine .bind (.refl _) fun finish => ?_
  cases finish with
  | plain => exact .refl _
  | committed =>
    -- the success is settled once more, and then it is plain
    cases fuel with
    | zero => exact .outOfFuel _
    | succ fuel =>
      show Run.Le ((means env (n + 1)).settlement (fuel + 1) (.framed (.ready (.success p.disclosed)) (.bind k))) _
      rw [settlement_framed]
      cases n with
      | zero => exact .outOfFuel _
      | succ n =>
        rw [means_answer_ready, pure_bind, Means.resumption_bind_success]
        exact .bind (.refl ((means env (n + 1)).bindFinished k p .plain)) (settleAnswer_le env (n + 2) fuel)
  | failed z message =>
    cases fuel with
    | zero => exact .outOfFuel _
    | succ fuel =>
      show Run.Le ((means env (n + 1)).settlement (fuel + 1) (.ready (.failure z message))) _
      rw [settlement_ready]
      exact .refl _

/-- **Settling first:** what a frame makes of an answer settles to what it makes of what the answer settles to. -/
theorem resumption_le (hf : Postponed f) (fuel : Nat) (a : Answer) :
    Run.Le ((means env n).resumption n f a >>= (means env (n + 1)).settleAnswer fuel)
      ((means env n).settleAnswer (fuel + n) a >>= fun t =>
        (means env n).resumed n f t >>= (means env (n + 1)).settleAnswer fuel) := by
  induction fuel using Nat.strong_induction_on generalizing a with
  | _ fuel ih =>
    -- a frame that goes under the commitment as it is goes on there
    have hunder : ∀ u, Run.Le ((means env (n + 1)).settlement fuel (.framed u f))
        ((means env n).settlement (fuel + n) u >>= fun t =>
          (means env n).resumed n f t >>= (means env (n + 1)).settleAnswer fuel) := by
      intro u
      cases fuel with
      | zero => exact .outOfFuel _
      | succ fuel =>
        rw [settlement_framed, Nat.add_right_comm fuel 1 n, Means.settlement_succ, bind_assoc]
        refine .bind (.refl _) fun a => (ih fuel (Nat.lt_succ_self _) a).trans ?_
        exact .bind (.refl _) fun t => .bind (.refl _) (settleAnswer_le env (n + 1) fuel)
    cases a with
    | failure z message => cases hf <;> exact .refl _
    | success p =>
      cases hf with
      | bind k => exact resumption_bind_le env n fuel k p
      | _ => exact .refl _
    | committed u =>
      cases hf with
      | loop step =>
        rw [Means.resumption_loop, Means.turnAnswer_committed, bind_assoc, bind_assoc]
        refine .bind ((Means.Related.refl _).settlement .le (Nat.le_add_left n fuel) u) fun t => ?_
        show Run.Le _ ((means env n).resumption n (.loop step) t.toAnswer >>= _)
        rw [Means.resumption_loop, bind_assoc]
        exact .refl _
      | _ => exact hunder u

theorem settlement_framed_le (hf : Postponed f) (fuel : Nat) (u : Suspended) :
    Run.Le ((means env (n + 1)).settlement (fuel + 1) (.framed u f))
      ((means env n).settlement (fuel + n + 1) u >>= fun t =>
        (means env n).resumed n f t >>= (means env (n + 1)).settleAnswer fuel) := by
  rw [settlement_framed, Means.settlement_succ, bind_assoc]
  exact .bind (.refl _) fun a => resumption_le env n hf fuel a

end CommittedChoice.OnDemand
