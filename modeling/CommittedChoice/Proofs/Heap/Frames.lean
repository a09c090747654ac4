import CommittedChoice.Proofs.Heap.Outcomes

/-!
# Frames, loops and items in cells

What the engine on demand makes of outcomes, tasks of cells make of them.

- `Mirrors.postponed`, `Mirrors.passed`: what a frame does under a commitment is left for later, in cells of its own;
- `Adequate.resume`, `Adequate.resumed`: every frame, before it is known what is under a commitment and after;
- `Adequate.turn`, `Adequate.advance`: loops, turn after turn;
- `Adequate.primitive`: the parsers that have no outcome before they are asked for it;
- `Adequate.computeNode`: an item of a list.
-/

namespace CommittedChoice

open OnDemand

namespace Heap

variable {env : Env} {n b : Nat} {s : Heap × World}

/-! ## One frame -/

theorem onFailure_eq (p : Promise) (f : Context → String → Act (Context × String)) :
    p.onFailure f = { p with finish := p.finish.map fun l => .mapped l (changing f) } := by
  unfold Promise.onFailure
  refine congrArg (fun g : Option (Late Finish) → Option (Late Finish) => ({ p with finish := g p.finish } : Promise)) ?_
  funext l
  cases l with
  | none => rfl
  | some l => exact congrArg (fun g => some (Late.mapped l g)) (funext fun x => by cases x <;> rfl)

namespace Mirrors

variable {i : Nat} {K : Kind → Prop}

/-- What a frame does under a commitment, left for later. -/
theorem postponed {f : Frame} {u : Suspended} (hf : Postponed f) (hu : UnderAt b s i u) :
    Mirrors b K (Answers b) (Pure.pure (.committed (.framed u f))) (fun _ => Heap.postpone i f) s :=
  .postpone hu.mem.2 fun _ _ _ hij hjk hk hj ht =>
    .committed (.framed hij hjk hk hj hf (hu.keep ht (fun _ _ _ hc _ => not_from hc id) fun _ _ _ hc => not_from hc id))

/-- What a frame does with a failure that passes through it. -/
theorem passed {f : Frame} {z : Context} {message : String} (hf : Passing f)
    (hu : UnderAt b s i (.ready (.failure z message))) :
    Mirrors b K (Answers b) (Pure.pure (.committed (.ready (.failure z message))))
      (fun _ => Heap.postpone i f) s :=
  .postpone hu.mem.2 fun _ _ _ hij hjk hk hj ht =>
    .committed (.passing hij hjk hk hj hf (hu.keep ht (fun _ _ _ hc _ => not_from hc id) fun _ _ _ hc => not_from hc id))

/-- The failure that a success may turn out to be is changed. -/
theorem changed {r v : Nat} {fin : Option Nat} {p : Promise} (f : Context → String → Act (Context × String))
    (hp : PromiseAt b s r v fin p) : Mirrors b K (Answers b) (Pure.pure (.success (p.onFailure f)))
      (fun _ => do
        let fin ← Heap.change f fin
        return .plain (.success r v fin)) s := by
  intro hs hb
  rw [onFailure_eq]
  obtain ⟨hr, hv, hf⟩ := hp
  generalize p.finish = l at hf
  cases hf with
  | none => exact Mirrors.pure (.success ⟨hr, hv, .none⟩) hs hb
  | @some j l hf =>
    have ht : ∀ c, Touches (fun _ _ => False) s (push c s) := fun _ => touches_push _
    refine Mirrors.new (c := .pending (.changed j f)) (g := fun _ i => Pure.pure (Outcome.plain (.success r v (some i))))
      (.pure (.success ⟨hr.keep (ht _) fun _ _ => id, hv.keep (ht _) fun _ _ _ _ => id, ?_⟩)) hs hb
    exact .some (.changed hb hf.lt (push_self _ s) (hf.keep (ht _) fun _ _ _ _ => id))

end Mirrors

namespace Adequate

variable (h : Adequate env n) {o : Outcome} {a : Answer}

section Frames

variable (under : Bool) (ho : AnswerAt b s o a)

include ho

theorem resume_map (f : Value → Act Value) : Mirrors b Kind.Any (Answers b)
    ((means env n).resumption n (.map f) a) (fun k => (access env k).resume under (.map f) o) s := by
  cases ho with
  | failure z message => exact .pure (.failure z message)
  | committed hu => exact .postponed (.map f) hu
  | @success r v fin p hp =>
    intro hs hb
    have ht : ∀ c, Touches (fun _ _ => False) s (push c s) := fun _ => touches_push _
    have hp' : ∀ c, PromiseAt b (push c s) r v fin p := fun c => hp.keep (ht c) fun _ _ _ _ _ => id
    refine Mirrors.new (c := .pending (.mapped v f)) (g := fun _ i => Pure.pure (Outcome.plain (.success r i fin)))
      (.pure (.success ⟨(hp' _).rest, ?_, (hp' _).finish⟩)) hs hb
    exact .mapped hb hp.value.lt (push_self _ s) (hp' _).value

theorem resume_restoring (u : Value) : Mirrors b Kind.Any (Answers b)
    ((means env n).resumption n (.restoring u) a) (fun k => (access env k).resume under (.restoring u) o) s := by
  cases ho with
  | failure z message => exact .pure (.failure _ message)
  | committed hu => exact .postponed (.restoring u) hu
  | success hp => exact .changed _ hp

include h in
theorem resume_reword (f : String → Act String) : Mirrors b Kind.Any (Answers b)
    ((means env n).resumption n (.reword f) a) (fun k => (access env k).resume under (.reword f) o) s := by
  cases ho with
  | failure z message =>
    rw [Means.resumption_reword_failure]
    refine (h.exec (f message)).bind_same (fun _ => False.elim) fun message s' _ => ?_
    exact .pure (.failure z message)
  | committed hu => exact .postponed (.reword f) hu
  | success hp => exact .changed _ hp

include h in
theorem resume_orElse (q : Parser) (z : Context) : Mirrors b Kind.Any (Answers b)
    ((means env n).resumption n (.orElse q z) a) (fun k => (access env k).resume under (.orElse q z) o) s := by
  cases ho with
  | failure _ _ => exact h.fresh q z
  | committed hu => exact .pure (.committed hu)
  | success hp => exact .pure (.success hp)

include h in
theorem resume_bind (k : Value → Act Parser) : Mirrors b Kind.Any (Answers b)
    ((means env n).resumption n (.bind k) a) (fun j => (access env j).resume false (.bind k) o) s := by
  cases ho with
  | failure z message => exact .pure (.failure z message)
  | committed hu => exact .postponed (.bind k) hu
  | @success _ _ _ p hp =>
    rw [Means.resumption_bind_success]
    refine (h.reveal hp).bind (fun _ => id) fun f o s' ho _ => ?_
    cases ho with
    | plain hp => exact h.proceed (p := p.disclosed) k hp
    | committed hu => exact .postponed (.bind k) hu
    | failed hu => exact .passed (.bind k) hu

end Frames

end Adequate

/-! ## Loops -/

section Loops

variable (h : Adequate env n) (step : Value → Act Parser)

include h

/-- One turn of a loop of which nothing is left to be disclosed, and what goes on after it. -/
theorem Adequate.turn {next : Value → Context → Run Answer} {again : Nat → Outcome → Hold Heap Outcome}
    (hnext : ∀ {s} state z, Mirrors b Kind.Any (Answers b) (next state z)
      (fun k => (access env k).exec (step state) >>= fun p => (access env k).fresh p z >>= again k) s)
    {t : OnDemand.Settled} {t' : Heap.Settled} (ht : FullyAt b t t' s) :
    Mirrors b Kind.Any (Answers b) ((means env n).turnSettled t >>= Means.afterTurn next)
      (fun k => (access env k).turn step (again k) t') s := by
  cases ht with
  | failure z message => exact .pure (.failure z message)
  | @success _ r v p hp =>
    rw [Means.turnSettled, Means.turnValue, bind_assoc]
    refine (h.value hp.value).bind_same (fun _ _ => trivial) fun v s' ht => ?_
    have hr : RestAt b s' r p.rest := hp.rest.after_value ht
    cases hstep : v.toStep with
    | done value =>
      intro hs hb
      refine Mirrors.new (c := .forced (.value value)) (g := fun _ i => Pure.pure (Outcome.plain (.success r i none)))
        (.pure (.success ⟨?_, .known hb (push_self _ s'), .none⟩)) hs hb
      exact hr.keep (touches_push (T := fun _ _ => False) _) fun _ _ => id
    | again state =>
      dsimp only
      rw [bind_assoc]
      refine (h.rest hr).bind_same (fun _ _ => trivial) fun z s'' _ => ?_
      exact hnext state z

/-- **The turns of a loop,** from the outcome of one of them on. -/
theorem Adequate.advance (committed : Bool) (fuel g d : Nat) {o : Outcome} {a : Answer} (ho : AnswerAt b s o a) :
    Mirrors b Kind.Any (Answers b)
      ((means env n).turnAnswer g step committed a >>= Means.afterTurn ((means env n).turns step committed fuel))
      (fun k => (access env k).advance step committed (k - d) o) s := by
  induction fuel using Nat.strong_induction_on generalizing g d s o a with
  | _ fuel ih =>
    have hnext : ∀ {s} state z, Mirrors b Kind.Any (Answers b)
        ((means env n).turns step committed fuel state z)
        (fun k => (access env k).exec (step state) >>= fun p => (access env k).fresh p z >>=
          (access env k).advance step committed (k - (d + 1))) s := by
      intro s state z
      cases fuel with
      | zero => exact .outOfFuel _
      | succ fuel =>
        rw [Means.turns_succ]
        refine (h.exec (step state)).bind_same (fun _ => False.elim) fun p _ _ => ?_
        exact (h.fresh p z).bind (fun _ => id) fun a o _ ho _ => ih fuel (Nat.lt_succ_self _) fuel (d + 1) ho
    have hbody : Mirrors b Kind.Any (Answers b)
        ((means env n).turnAnswer g step committed a >>= Means.afterTurn ((means env n).turns step committed fuel))
        (fun k => (access env k).advance step committed (k - (d + 1) + 1) o) s := by
      cases committed with
      | true =>
        have hunfold : ∀ k, (access env k).advance step true (k - (d + 1) + 1) o =
            ((access env k).reveal o >>= (access env k).settleAll) >>=
              (access env k).turn step ((access env k).advance step true (k - (d + 1))) := fun k => by
          rw [bind_assoc]
          refine bind_congr fun o => ?_
          cases o <;> rfl
        simp only [hunfold]
        rw [Means.turnAnswer_settled, bind_assoc]
        exact (h.revealAll g ho).bind (fun _ => id) fun t t' s' ht _ => h.turn step hnext ht
      | false =>
        cases ho with
        | failure z message => exact .pure (.failure z message)
        | committed hu => exact .postponed (.loop step) hu
        | @success _ _ _ p hp =>
          rw [Means.turnAnswer, bind_assoc]
          refine (h.reveal hp).bind (fun _ => id) fun f o s' ho _ => ?_
          cases ho with
          | plain hp => exact h.turn (t := .success p.disclosed) step hnext (.success hp)
          | committed hu => exact .postponed (.loop step) hu
          | failed hu => exact .passed (.loop step) hu
    refine hbody.later (d + 1) fun k hk => ?_
    rw [show k - (d + 1) + 1 = k - d by omega]

end Loops

/-! ## All frames -/

namespace Adequate

variable (h : Adequate env n)

include h

/-- What the frame of a parser makes of an outcome. -/
theorem resume {p q : Parser} {f : Frame} {z : Context} {o : Outcome} {a : Answer} (hf : frame? z p = some (q, f))
    (ho : AnswerAt b s o a) : Mirrors b Kind.Any (Answers b) ((means env n).resumption n f a)
      (fun k => (access env k).resume false f o) s := by
  cases p with
  | map => cases hf; exact resume_map false ho _
  | bind => cases hf; exact h.resume_bind ho _
  | orElse => cases hf; exact h.resume_orElse false ho _ _
  | reword => cases hf; exact h.resume_reword false ho _
  | restoring => cases hf; exact resume_restoring false ho _
  | _ => cases hf

/-- What a frame makes of what was settled under a commitment. -/
theorem resumed {f : Frame} (hf : Postponed f) {t : OnDemand.Settled} {t' : Heap.Settled} (ht : SettledAt b s t' t) :
    Mirrors b Kind.Any (Answers b) ((means env n).resumed n f t)
      (fun k => (access env k).resume true f (.plain t')) s := by
  have ho : AnswerAt b s (.plain t') t.toAnswer := by
    cases ht with
    | success hp => exact .success hp
    | failure z message => exact .failure z message
  cases hf with
  | bind k =>
    have hall : Mirrors b Kind.Any (FullyAt b) ((means env n).disclosure t)
        (fun k => (access env k).settleAll (.plain t')) s :=
      (h.settleAll n ho).congr (by cases t <;> rfl)
    have hunfold : ∀ j, (access env j).resume true (.bind k) (.plain t') =
        (access env j).settleAll (.plain t') >>= fun t => (access env j).proceed k (.plain t) := fun j => by
      show (Outcome.plain <$> (access env j).settleAll (.plain t')) >>= _ = _
      rw [bind_map_left]
    simp only [hunfold]
    refine hall.bind (fun _ => id) fun t t' s' ht _ => ?_
    cases ht with
    | failure z message => exact .pure (.failure z message)
    | success hp => exact h.proceed k hp
  | map f => exact resume_map true ho f
  | reword f => exact h.resume_reword true ho f
  | restoring u => exact resume_restoring true ho u
  | loop step =>
    show Mirrors b Kind.Any _ ((means env n).resumption n (.loop step) t.toAnswer) _ s
    rw [Means.resumption_loop]
    exact h.advance step true n n 0 ho

/-! ### Primitives -/

/-- Alternatives. -/
theorem alternatives (z : Context) : ∀ (failures : List (String × String)) (ps : List (String × Parser)) {s : Heap × World},
    Mirrors b Kind.Any (Answers b) ((means env n).alternatives z failures ps)
      (fun k => (access env k).alternatives z failures ps) s
  | failures, [], s => by
    refine (Mirrors.lift (.ofExcept _)).bind_same (fun _ => False.elim) fun report s' _ => ?_
    exact .pure (.failure z report)
  | failures, (label, p) :: rest, s => by
    refine (h.fresh p z).bind (fun _ => id) fun a o s' ho _ => ?_
    cases ho with
    | failure _ message =>
      exact (Mirrors.lift (.print _)).bind (fun _ => False.elim) fun _ _ _ _ _ => alternatives z _ rest
    | success hp => exact .pure (.success hp)
    | committed hu => exact .pure (.committed hu)

omit h in
/-- A success all of whose parts are known. -/
theorem known (z : Context) (v : Value) : Mirrors b Kind.Any (Answers b)
    (pure (.known z v)) (fun _ => Heap.success z v) s := by
  intro hs hb
  exact Mirrors.step (g := fun _ o => pure o) (fun _ => Applies.success_eq z v s)
    ((touches_push _).trans (touches_push _)) (fun hs => hs.of_lists rfl rfl) rfl
    (.pure (.success ((Applies.success_at z v s).lower hb))) hs hb

/-- Parsers that have no outcome before they are asked. -/
theorem primitive {p : Parser} (hp : Asked p) (z : Context) : Mirrors b Kind.Any (Answers b)
    ((means env n).primitive n p z) (fun k => (access env k).primitive p z) s := by
  cases hp with
  | loop init step =>
    -- the first turn goes on from a success that has the first state
    refine Mirrors.congr ((known z (.step (.again init))).bind (f := fun a =>
      (means env n).turnAnswer n step false a >>= Means.afterTurn ((means env n).turns step false n)) (fun _ => id)
      fun a o s' ho _ => h.advance step false n n 0 ho) rfl
  | choice ps => exact h.alternatives z [] ps
  | next =>
    refine (Mirrors.lift (.next? _)).bind_same (fun _ => False.elim) fun answer s' _ => ?_
    match answer with
    | none => exact .pure (.failure z _)
    | some (t, rest) => exact known _ t
  | eof =>
    refine (Mirrors.lift (.next? _)).bind_same (fun _ => False.elim) fun answer s' _ => ?_
    match answer with
    | none => exact known z _
    | some (t, rest) => exact .pure (.failure z _)
  | satisfy test =>
    refine (Mirrors.lift (.next? _)).bind_same (fun _ => False.elim) fun answer s' _ => ?_
    match answer with
    | none => exact .pure (.failure z _)
    | some (t, rest) =>
      refine (h.exec (test t)).bind_same (fun _ => False.elim) fun c s'' _ => ?_
      cases c with
      | true => exact known _ t
      | false =>
        refine (Mirrors.lift (.ofExcept _)).bind_same (fun _ => False.elim) fun message _ _ => ?_
        exact .pure (.failure z message)

end Adequate

/-! ## Items -/

/-- The node of an item that succeeded, whose remainder and value are in cells. -/
def nodeValue (m : Access) (l : Nat) (u : Unparsed) (committed : Bool) (rest value : Nat) : Hold Heap Node := do
  let z ← m.get Content.rest? rest
  if z.input.consumed = u.start.input.consumed then
    return .ended ⟨u.start, if committed then .committed else .plain⟩
  else
    let v ← m.get Content.value? value
    let next ← addNode l ⟨u.item, z, committed⟩
    return .item (if m.env.stateful then .record (.item next) [("value", v), ("state", z.state)] else v) next

/-- The node of an item that settled under a commitment. -/
def nodeSettled (m : Access) (l : Nat) (u : Unparsed) (committed : Bool) : Settled → Hold Heap Node
  | .failure z message => pure (.ended ⟨u.start, .failed z message⟩)
  | .success rest value _ => nodeValue m l u committed rest value

/-- A new node of a list. -/
theorem Mirrors.addNode {K : Kind → Prop} (l : Nat) (u : Unparsed) :
    Mirrors b K Same (Means.addNode l u) (fun _ => Heap.addNode l u) s := by
  intro hs _ r w hrun _
  cases hrun
  exact ⟨_, _, ⟨0, fun _ _ => rfl⟩, .ok rfl (touches_addNode l u) (hs.addNode l u)⟩

namespace Adequate

variable (h : Adequate env n) (l : Nat) (u : Unparsed)

include h

theorem nodeValue (committed : Bool) {r v : Nat} {p : Promise} (hp : PromiseAt b s r v none p) :
    Mirrors b Kind.Any Same ((means env n).nodeValue l u committed p)
      (fun k => Heap.nodeValue (access env k) l u committed r v) s := by
  refine (h.rest hp.rest).bind_same (fun _ _ => trivial) fun z s' ht => ?_
  by_cases hz : z.input.consumed = u.start.input.consumed
  · simp only [if_pos hz]
    exact .pure rfl
  · simp only [if_neg hz]
    have hv : ValueAt b s' v p.value := hp.value.after_rest ht
    refine (h.value hv).bind_same (fun _ _ => trivial) fun v _ _ => ?_
    refine (Mirrors.addNode l _).bind_same (fun _ => id) fun next _ _ => ?_
    exact Mirrors.pure (c := Node.item ((means env n).emit v z next) next) rfl

theorem nodeSettled (committed : Bool) {t : OnDemand.Settled} {t' : Heap.Settled} (ht : FullyAt b t t' s) :
    Mirrors b Kind.Any Same ((means env n).nodeSettled l u committed t)
      (fun k => Heap.nodeSettled (access env k) l u committed t') s := by
  cases ht with
  | failure z message => exact .pure rfl
  | success hp => exact h.nodeValue l u committed hp

/-- **An item of a list.** -/
theorem computeNode : Mirrors b Kind.None Same ((means env n).computeNode n l u)
    (fun k => (access env k).computeNode l u) s := by
  rw [Means.computeNode_eq]
  refine Mirrors.new_cells (K := Kind.Any) ?_
  refine (h.fresh u.item u.start).bind (fun _ => id) fun a o s' ho _ => ?_
  -- an item that committed is settled, and then it has a node
  have hunder : ∀ {s'' : Heap × World} {i : Nat} {x : Run OnDemand.Settled},
      Mirrors s.1.cells.size Kind.Any (FullyAt s.1.cells.size) x
        (fun k => (access env k).settleAll (.committed i)) s'' →
      Mirrors s.1.cells.size Kind.Any Same (x >>= (means env n).nodeSettled l u true) (fun k =>
        (access env k).settleAll (.committed i) >>= Heap.nodeSettled (access env k) l u (u.committed || true)) s'' := by
    intro s'' i x hx
    refine (hx.bind (f := (means env n).nodeSettled l u (u.committed || true)) (fun _ => id) fun t t' _ ht _ =>
      h.nodeSettled l u _ ht).congr ?_
    rw [Bool.or_true]
  cases ho with
  | failure z message => exact .pure rfl
  | @success _ _ _ p hp =>
    refine (h.reveal hp).bind (fun _ => id) fun f o s' ho _ => ?_
    cases ho with
    | plain hp =>
      exact (h.nodeValue (p := p.disclosed) l u (u.committed || false) hp).congr (by rw [Bool.or_false]; rfl)
    | committed hu => exact hunder (Mirrors.settleAll_ready (t := .success _) hu fun p hp => by cases hp; rfl)
    | failed hu => exact hunder (Mirrors.settleAll_ready (t := .failure _ _) hu fun p hp => by cases hp)
  | committed hu =>
    refine (hunder (h.settleAll n (.committed hu))).congr (congrFun ?_ _)
    rw [Means.settleAnswer, bind_assoc]
    refine bind_congr fun t => ?_
    cases t with
    | failure z message => rfl
    | success p => exact (Means.disclosure_nodeSettled _ l u p).symm

end Adequate

end Heap

end CommittedChoice
