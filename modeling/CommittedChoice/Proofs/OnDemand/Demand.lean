import CommittedChoice.OnDemand.Session
import CommittedChoice.Proofs.Course

/-!
# What demands give

The on-demand engine keeps what it has computed, so that a later demand goes on from there. This module forgets what is
kept: `Hold.on` of every operation, as a plain run.

- `Hold.on_bind_of_ok`: sequencing, when what comes second does not depend on what the first part has kept;
- `Means.late`, `Means.finish`: the value of something late, and what a success turns out to be;
- one equation for each of `settle`, `bindPromise`, `turnPromise`, `turn` and `resume`;
- `force_apply_framed`, `force_framed`, ...: one unit of fuel, with what is kept and without.
-/

namespace CommittedChoice.OnDemand

/-! ## Forgetting -/

namespace Hold

variable {φ ψ α β : Type}

instance : LawfulMonad (Hold φ) :=
  LawfulMonad.mk' (Hold φ)
    (fun x => by
      funext s w
      show Hold.bind x _ s w = x s w
      unfold Hold.bind
      rcases x s w with ⟨_ | a, s', w'⟩ <;> rfl)
    (fun _ _ => rfl)
    (fun x f g => by
      funext s w
      show Hold.bind (Hold.bind x f) g s w = Hold.bind x (fun a => Hold.bind (f a) g) s w
      unfold Hold.bind
      rcases x s w with ⟨_ | a, s', w'⟩ <;> rfl)

theorem on_lift (s : φ) (x : Run α) : on s (lift x) = x := rfl

theorem on_get_bind (s : φ) (f : φ → Hold φ α) : on s (get >>= f) = on s (f s) := rfl

/-- Sequencing forgets what is kept if what comes second gives the same wherever the first part leads. -/
theorem on_bind_of_ok {x : Hold φ α} {f : α → Hold φ β} {g : α → Run β} {s : φ}
    (h : ∀ w a s' w', x s w = (.ok a, s', w') → on s' (f a) = g a) : on s (x >>= f) = on s x >>= g := by
  funext w
  show on s (Hold.bind x f) w = Run.bind (on s x) g w
  have hw := h w
  unfold on Hold.bind Run.bind
  dsimp only
  rcases hx : x s w with ⟨_ | a, s', w'⟩
  · rfl
  · exact congrFun (hw a s' w' hx) w'

/-- The same when all that is needed of what is kept is a property of it. -/
theorem on_bind_of_keeps (P : φ → Prop) {x : Hold φ α} {f : α → Hold φ β} {g : α → Run β} {s : φ}
    (hx : ∀ w, P (x s w).2.1) (hf : ∀ a s', P s' → on s' (f a) = g a) : on s (x >>= f) = on s x >>= g := by
  refine on_bind_of_ok fun w a s' w' h => hf a s' ?_
  have hw := hx w
  rwa [h] at hw

theorem bind_of_ok {x : Hold φ α} {f : α → Hold φ β} {s s' : φ} {w w' : World} {a : α}
    (h : x s w = (.ok a, s', w')) : (x >>= f) s w = f a s' w' := by
  show Hold.bind x f s w = _
  unfold Hold.bind
  rw [h]

/-- Where a sequence answers, so does its first part, and then the second one. -/
theorem bind_eq_ok {x : Hold φ α} {f : α → Hold φ β} {s s'' : φ} {w w'' : World} {b : β}
    (h : (x >>= f) s w = (.ok b, s'', w'')) :
    ∃ a s' w', x s w = (.ok a, s', w') ∧ f a s' w' = (.ok b, s'', w'') := by
  have hb : Hold.bind x f s w = (.ok b, s'', w'') := h
  unfold Hold.bind at hb
  rcases hx : x s w with ⟨_ | a, s', w'⟩
  · rw [hx] at hb; cases hb
  · rw [hx] at hb; exact ⟨a, s', w', rfl, hb⟩

/-- The same when it does not look at what is kept at all. -/
theorem on_bind {x : Hold φ α} {f : α → Hold φ β} {g : α → Run β} {s : φ} (hf : ∀ a s', on s' (f a) = g a) :
    on s (x >>= f) = on s x >>= g :=
  on_bind_of_keeps (fun _ => True) (fun _ => trivial) fun a s' _ => hf a s'

theorem on_congr {x y : Hold φ α} {s : φ} (h : ∀ w, x s w = y s w) : on s x = on s y := by
  funext w
  unfold on
  rw [h]

theorem on_map (s : φ) (f : α → β) (x : Hold φ α) : on s (f <$> x) = f <$> on s x := by
  rw [map_eq_pure_bind f (on s x)]
  exact on_bind fun _ _ => rfl

end Hold

/-! ## Parts of a success -/

namespace Means

variable (m : Means)

/-- The value of something late. -/
def late {α : Type} (l : Late α) : Run α := Hold.on l (Late.force m.env m.lists)

/-- What a success turns out to be. -/
def finish (p : Promise) : Run Finish := Hold.on p (Promise.disclose m.env m.lists)

/-- The answer of something suspended. -/
def answer (s : Suspended) : Run Answer := Hold.on s m.force

section Parts

variable {m} {α : Type}

@[simp] theorem late_known (a : α) : m.late (.known a) = pure a := rfl

@[simp] theorem late_later (act : Act α) : m.late (.later act) = m.exec act := by
  funext w
  unfold late Hold.on Late.force exec
  rcases act.exec m.env m.lists w with ⟨_ | a, w'⟩ <;> rfl

@[simp] theorem late_mapped (l : Late α) (f : α → Act α) :
    m.late (.mapped l f) = m.late l >>= fun a => m.exec (f a) := by
  funext w
  show m.late (.mapped l f) w = Run.bind (m.late l) _ w
  unfold late Hold.on exec Run.bind
  rw [Late.force]
  dsimp only
  rcases l.force m.env m.lists w with ⟨_ | a, l', w'⟩
  · rfl
  · dsimp only
    rcases (f a).exec m.env m.lists w' with ⟨_ | b, w''⟩ <;> rfl

theorem finish_eq (p : Promise) :
    m.finish p = match p.finish with
      | none => pure .plain
      | some l => m.late l := by
  funext w
  unfold finish Hold.on Promise.disclose
  cases p.finish with
  | none => rfl
  | some l => rfl

/-- Disclosing the finish leaves the other parts of a success alone. -/
theorem disclose_keeps (p : Promise) (w : World) :
    (Promise.disclose m.env m.lists p w).2.1.rest = p.rest ∧
      (Promise.disclose m.env m.lists p w).2.1.value = p.value := by
  unfold Promise.disclose
  split <;> exact ⟨rfl, rfl⟩

end Parts

theorem disclosed_eq {p q : Promise} (hr : q.rest = p.rest) (hv : q.value = p.value) : q.disclosed = p.disclosed := by
  unfold Promise.disclosed
  rw [hr, hv]

/-! ## Sequencing -/

/-- Going on after a success whose finish is known. -/
def bindFinished (k : Value → Act Parser) (p : Promise) : Finish → Run Answer
  | .plain => do
    let z ← m.late p.rest
    let v ← m.late p.value
    let q ← m.exec (k v)
    m.answer (.apply q z)
  | .committed => pure (.committed (.framed (.ready (.success p.disclosed)) (.bind k)))
  | .failed z message => pure (.committed (.ready (.failure z message)))

theorem on_bindPromise (k : Value → Act Parser) (p : Promise) :
    Hold.on p (m.bindPromise k) = m.finish p >>= m.bindFinished k p := by
  refine Hold.on_bind_of_keeps (fun q => q.rest = p.rest ∧ q.value = p.value) (disclose_keeps p) fun finish q hq => ?_
  match finish with
  | .plain =>
    show _ = m.late p.rest >>= fun z => m.late p.value >>= fun v => m.exec (k v) >>= fun q => m.answer (.apply q z)
    rw [← hq.1]
    refine Hold.on_bind_of_keeps (fun q' => q'.value = p.value) (fun _ => hq.2) fun z q' hq' => ?_
    rw [← hq']
    exact Hold.on_bind fun v _ => Hold.on_lift _ _
  | .committed =>
    show (pure (.committed (.framed (.ready (.success q.disclosed)) (.bind k))) : Run Answer) = _
    rw [disclosed_eq hq.1 hq.2]
    rfl
  | .failed z message => rfl

/-! ## Settling -/

/-- The answer without its commitment. -/
def settlement (fuel : Nat) (s : Suspended) : Run Settled := Hold.on s (m.settle fuel)

/-- Settles an answer. -/
def settleAnswer (fuel : Nat) : Answer → Run Settled
  | .success p => pure (.success p)
  | .failure z message => pure (.failure z message)
  | .committed inner => m.settlement fuel inner

theorem settlement_succ (fuel : Nat) (s : Suspended) :
    m.settlement (fuel + 1) s = m.answer s >>= m.settleAnswer fuel := by
  refine Hold.on_bind fun a s' => ?_
  match a with
  | .success p => rfl
  | .failure z message => rfl
  | .committed inner =>
    have h : Hold.on s' (Hold.within (fun inner => .ready (.committed inner)) inner (m.settle fuel) >>= fun s =>
        Hold.set (.ready s.toAnswer) >>= fun _ => pure s) = m.settlement fuel inner >>= fun s => pure s :=
      Hold.on_bind fun _ _ => rfl
    rw [bind_pure] at h
    exact h

/-! ## Loops -/

/-- One turn that succeeded and whose finish does not end the turns. -/
def turnValue (p : Promise) : Run Turn := do
  let v ← m.late p.value
  match v.toStep with
  | .done value => pure (.finished (.success { rest := p.rest, value := .known value }))
  | .again state => do
    let z ← m.late p.rest
    pure (.again state z)

/-- One turn that succeeded and whose finish is known. -/
def turnFinished (step : Value → Act Parser) (committed : Bool) (p : Promise) : Finish → Run Turn
  | .failed z message =>
    pure (.finished (if committed then .failure z message else .committed (.ready (.failure z message))))
  | .committed =>
    if committed then m.turnValue p
    else pure (.finished (.committed (.framed (.ready (.success p.disclosed)) (.loop step))))
  | .plain => m.turnValue p

/-- What `turnPromise` does where the finish does not end the turns. -/
def keepTurnValue : Hold Promise Turn := do
  let v ← Promise.forceValue m.env m.lists
  match v.toStep with
  | .done value => do
    let p ← Hold.get
    pure (.finished (.success { rest := p.rest, value := .known value }))
  | .again state => do
    let z ← Promise.forceRest m.env m.lists
    pure (.again state z)

theorem on_keepTurnValue {p q : Promise} (hr : q.rest = p.rest) (hv : q.value = p.value) :
    Hold.on q m.keepTurnValue = m.turnValue p := by
  unfold turnValue
  rw [← hv]
  refine Hold.on_bind_of_keeps (fun q' => q'.rest = p.rest) (fun _ => hr) fun v q' hq' => ?_
  cases v.toStep with
  | done value => rw [Hold.on_get_bind, hq']; rfl
  | again state => rw [← hq']; exact Hold.on_bind fun _ _ => rfl

theorem on_turnPromise (step : Value → Act Parser) (committed : Bool) (p : Promise) :
    Hold.on p (m.turnPromise step committed) = m.finish p >>= m.turnFinished step committed p := by
  refine Hold.on_bind_of_keeps (fun q => q.rest = p.rest ∧ q.value = p.value) (disclose_keeps p) fun finish q hq => ?_
  have hvalue : Hold.on q m.keepTurnValue = m.turnValue p := m.on_keepTurnValue hq.1 hq.2
  match finish, committed with
  | .failed z message, true => rfl
  | .failed z message, false => rfl
  | .committed, false =>
    show (pure (.finished (.committed (.framed (.ready (.success q.disclosed)) (.loop step)))) : Run Turn) = _
    rw [disclosed_eq hq.1 hq.2]
    rfl
  | .committed, true => exact hvalue
  | .plain, true => exact hvalue
  | .plain, false => exact hvalue

/-- What `turn` does under a commitment, once it is settled what it committed to. -/
def keepTurnSettled (step : Value → Act Parser) : Settled → Hold Suspended Turn
  | .failure z message => pure (.finished (.failure z message))
  | .success p => Hold.within (fun p => .ready (.success p)) p (m.turnPromise step true)

/-- One turn of a loop. -/
def turnAnswer (fuel : Nat) (step : Value → Act Parser) (committed : Bool) : Answer → Run Turn
  | .failure z message => pure (.finished (.failure z message))
  | .success p => m.finish p >>= m.turnFinished step committed p
  | .committed inner =>
    if committed then do
      match ← m.settlement fuel inner with
      | .failure z message => pure (.finished (.failure z message))
      | .success p => m.finish p >>= m.turnFinished step true p
    else pure (.finished (.committed (.framed inner (.loop step))))

/-- A turn that committed after another one did goes by what it settles to. -/
theorem turnAnswer_committed (fuel : Nat) (step : Value → Act Parser) (inner : Suspended) :
    m.turnAnswer fuel step true (.committed inner) =
      m.settlement fuel inner >>= fun s => m.turnAnswer fuel step true s.toAnswer := by
  refine bind_congr fun s => ?_
  cases s <;> rfl

theorem on_turn (fuel : Nat) (step : Value → Act Parser) (committed : Bool) (a : Answer) :
    Hold.on a (m.turn fuel step committed) = m.turnAnswer fuel step committed a := by
  unfold turn
  rw [Hold.on_get_bind]
  match a with
  | .failure z message => rfl
  | .success p => exact m.on_turnPromise step committed p
  | .committed inner =>
    cases committed with
    | false => rfl
    | true =>
      refine Hold.on_bind fun s _ => ?_
      match s with
      | .failure z message => rfl
      | .success p => exact m.on_turnPromise step true p

/-- What follows a turn. -/
def afterTurn (next : Value → Context → Run Answer) : Turn → Run Answer
  | .finished a => pure a
  | .again state z => next state z

theorem turns_succ (step : Value → Act Parser) (committed : Bool) (fuel : Nat) (state : Value) (z : Context) :
    m.turns step committed (fuel + 1) state z =
      m.exec (step state) >>= fun p => m.answer (.apply p z) >>= fun a =>
        m.turnAnswer fuel step committed a >>= afterTurn (m.turns step committed fuel) := by
  rw [turns]
  refine bind_congr fun p => bind_congr fun a => ?_
  rw [on_turn]
  refine bind_congr fun t => ?_
  match t with
  | .finished a => rfl
  | .again state z => rfl

/-! ## Frames -/

/-- What a frame makes of an answer. -/
def resumption (fuel : Nat) (f : Frame) (a : Answer) : Run Answer := Hold.on a (m.resume fuel f)

section Resumption

variable {m} {fuel : Nat}

section Bind

variable (k : Value → Act Parser)

theorem resumption_bind_success (p : Promise) :
    m.resumption fuel (.bind k) (.success p) = m.finish p >>= m.bindFinished k p :=
  m.on_bindPromise k p

theorem resumption_bind_failure (z : Context) (message : String) :
    m.resumption fuel (.bind k) (.failure z message) = pure (.failure z message) := rfl

theorem resumption_bind_committed (inner : Suspended) :
    m.resumption fuel (.bind k) (.committed inner) = pure (.committed (.framed inner (.bind k))) := rfl

end Bind

section Map

variable (f : Value → Act Value)

theorem resumption_map_success (p : Promise) :
    m.resumption fuel (.map f) (.success p) = pure (.success { p with value := .mapped p.value f }) := rfl

theorem resumption_map_failure (z : Context) (message : String) :
    m.resumption fuel (.map f) (.failure z message) = pure (.failure z message) := rfl

theorem resumption_map_committed (inner : Suspended) :
    m.resumption fuel (.map f) (.committed inner) = pure (.committed (.framed inner (.map f))) := rfl

end Map

section Reword

variable (f : String → Act String)

theorem resumption_reword_success (p : Promise) :
    m.resumption fuel (.reword f) (.success p) =
      pure (.success (p.onFailure fun z message => do return (z, ← f message))) := rfl

theorem resumption_reword_failure (z : Context) (message : String) :
    m.resumption fuel (.reword f) (.failure z message) =
      m.exec (f message) >>= fun message => pure (.failure z message) := by
  unfold resumption resume
  rw [Hold.on_get_bind]
  exact Hold.on_bind fun _ _ => rfl

theorem resumption_reword_committed (inner : Suspended) :
    m.resumption fuel (.reword f) (.committed inner) = pure (.committed (.framed inner (.reword f))) := rfl

end Reword

section Restoring

variable (state : Value)

theorem resumption_restoring_success (p : Promise) :
    m.resumption fuel (.restoring state) (.success p) =
      pure (.success (p.onFailure fun z message => .pure ({ z with state := state }, message))) := rfl

theorem resumption_restoring_failure (z : Context) (message : String) :
    m.resumption fuel (.restoring state) (.failure z message) = pure (.failure { z with state := state } message) := rfl

theorem resumption_restoring_committed (inner : Suspended) :
    m.resumption fuel (.restoring state) (.committed inner) =
      pure (.committed (.framed inner (.restoring state))) := rfl

end Restoring

section OrElse

variable (q : Parser) (z : Context)

theorem resumption_orElse_success (p : Promise) :
    m.resumption fuel (.orElse q z) (.success p) = pure (.success p) := rfl

theorem resumption_orElse_failure (rest : Context) (message : String) :
    m.resumption fuel (.orElse q z) (.failure rest message) = m.answer (.apply q z) := rfl

theorem resumption_orElse_committed (inner : Suspended) :
    m.resumption fuel (.orElse q z) (.committed inner) = pure (.committed inner) := rfl

end OrElse

theorem resumption_loop (step : Value → Act Parser) (a : Answer) :
    m.resumption fuel (.loop step) a =
      m.turnAnswer fuel step true a >>= afterTurn (m.turns step true fuel) := by
  unfold resumption resume
  rw [← on_turn]
  refine Hold.on_bind fun t _ => ?_
  match t with
  | .finished a => rfl
  | .again state z => rfl

end Resumption

/-! ## List nodes -/

/-- Whether an item of this finish makes the list committed. -/
def commits (committed : Bool) : Finish → Bool
  | .committed => true
  | _ => committed

/-- The node of an item whose finish is no failure. -/
def nodeValue (l : Nat) (u : Unparsed) (committed : Bool) (p : Promise) : Run Node := do
  let z ← m.late p.rest
  if z.input.consumed = u.start.input.consumed then
    pure (.ended ⟨u.start, if committed then .committed else .plain⟩)
  else do
    let v ← m.late p.value
    let next ← addNode l ⟨u.item, z, committed⟩
    pure (.item (m.emit v z next) next)

/-- The node of an item whose finish is known. -/
def nodeFinished (l : Nat) (u : Unparsed) (committed : Bool) (p : Promise) : Finish → Run Node
  | .failed z message => pure (.ended ⟨u.start, .failed z message⟩)
  | finish => m.nodeValue l u (commits committed finish) p

theorem on_nodeOfPromise (l : Nat) (u : Unparsed) (committed : Bool) (p : Promise) :
    Hold.on p (m.nodeOfPromise l u committed) = m.finish p >>= m.nodeFinished l u committed p := by
  refine Hold.on_bind_of_keeps (fun q => q.rest = p.rest ∧ q.value = p.value) (disclose_keeps p) fun finish q hq => ?_
  have hvalue : ∀ c : Bool, Hold.on q (Promise.forceRest m.env m.lists >>= fun z =>
      if z.input.consumed = u.start.input.consumed then
        pure (.ended ⟨u.start, if c then .committed else .plain⟩)
      else Promise.forceValue m.env m.lists >>= fun v =>
        Hold.lift (addNode l ⟨u.item, z, c⟩) >>= fun next => pure (.item (m.emit v z next) next)) =
      m.nodeValue l u c p := by
    intro c
    unfold nodeValue
    rw [← hq.1]
    refine Hold.on_bind_of_keeps (fun q' => q'.value = p.value) (fun _ => hq.2) fun z q' hq' => ?_
    split
    · rfl
    · rw [← hq']
      exact Hold.on_bind fun v _ => Hold.on_bind fun _ _ => rfl
  match finish with
  | .failed z message => rfl
  | .plain => exact hvalue committed
  | .committed => exact hvalue true

theorem computeNode_eq (fuel l : Nat) (u : Unparsed) :
    m.computeNode fuel l u = m.answer (.apply u.item u.start) >>= fun a =>
      match a with
      | .failure _ _ => pure (.ended ⟨u.start, if u.committed then .committed else .plain⟩)
      | .success p => m.finish p >>= m.nodeFinished l u u.committed p
      | .committed inner => m.settlement fuel inner >>= fun s =>
        match s with
        | .failure z message => pure (.ended ⟨u.start, .failed z message⟩)
        | .success p => m.finish p >>= m.nodeFinished l u true p := by
  unfold computeNode
  refine bind_congr fun a => ?_
  match a with
  | .failure z message => rfl
  | .success p => exact m.on_nodeOfPromise l u u.committed p
  | .committed inner =>
    refine bind_congr fun s => ?_
    match s with
    | .failure z message => rfl
    | .success p => exact m.on_nodeOfPromise l u true p

end Means

/-! ## One unit of fuel -/

/-- The parser and the frame that a parser made of a frame around another one consists of. -/
def frame? (z : Context) : Parser → Option (Parser × Frame)
  | .map p f => some (p, .map f)
  | .bind p k => some (p, .bind k)
  | .orElse p q => some (p, .orElse q z)
  | .reword p f => some (p, .reword f)
  | .restoring p => some (p, .restoring z.state)
  | _ => none

section Fuel

variable (env : Env) (n : Nat)

/-! ### What is kept -/

/-- Keeps the answer that a run gives. -/
theorem lift_keep (x : Run Answer) (s : Suspended) (w : World) :
    (Hold.lift x >>= fun a => Hold.set (.ready a) >>= fun _ => pure a) s w =
      match x w with
      | (.ok a, w) => (.ok a, .ready a, w)
      | (.error e, w) => (.error e, s, w) := by
  show Hold.bind (Hold.lift x) _ s w = _
  unfold Hold.bind Hold.lift
  rcases x w with ⟨_ | a, w'⟩ <;> rfl

theorem force_apply_framed {p q : Parser} {z : Context} {g : Frame} (h : frame? z p = some (q, g)) (w : World) :
    force env (n + 1) (.apply p z) w = force env n (.framed (.apply q z) g) w := by
  cases p with
  | map | bind | orElse | reword | restoring => cases h; rfl
  | _ => cases h

theorem force_apply_primitive {p : Parser} {z : Context} (h : frame? z p = none) (w : World) :
    force env (n + 1) (.apply p z) w =
      (Hold.lift ((means env n).primitive n p z) >>= fun a => Hold.set (.ready a) >>= fun _ => pure a) (.apply p z) w := by
  rw [lift_keep]
  cases p with
  | map | bind | orElse | reword | restoring => cases h
  | _ => rfl

theorem force_afresh (p : Parser) (z : Context) (w : World) :
    force env (n + 1) (.afresh p z) w =
      (Hold.lift ((means env n).answer (.apply p z)) >>= fun a => Hold.set (.ready a) >>= fun _ => pure a) (.afresh p z) w := by
  rw [lift_keep, force]
  unfold Means.answer Hold.on
  dsimp only [means]
  rcases force env n (.apply p z) w with ⟨_ | a, s, w₁⟩ <;> rfl

theorem force_after (act : Act Unit) (s : Suspended) (w : World) :
    force env (n + 1) (.after act s) w =
      (Hold.lift ((means env n).exec act) >>= fun _ => Hold.set s >>= fun _ => force env n) (.after act s) w := by
  show _ = Hold.bind (Hold.lift (act.exec env (listsOf n (node env n)))) _ _ w
  unfold Hold.bind Hold.lift
  rw [force]
  rcases act.exec env (listsOf n (node env n)) w with ⟨_ | _, w₁⟩ <;> rfl

theorem force_framed (s : Suspended) (g : Frame) (w : World) :
    force env (n + 1) (.framed s g) w =
      (Hold.within (fun s => .framed s g) s (force env n) >>= fun a =>
        Hold.within (fun a => .framed (.ready a) g) a ((means env n).resume n g) >>= fun b =>
          Hold.set (.ready b) >>= fun _ => pure b) (.framed s g) w := by
  show _ = Hold.bind (Hold.within (fun s => Suspended.framed s g) s (force env n)) _ _ w
  unfold Hold.bind
  rw [force]
  dsimp only [Hold.within, means]
  rcases force env n s w with ⟨_ | a, s₁, w₁⟩
  · rfl
  · show _ = Hold.bind (Hold.within (fun a => Suspended.framed (.ready a) g) a _) _ _ w₁
    unfold Hold.bind
    dsimp only [Hold.within]
    rcases Means.resume ⟨env, listsOf n (node env n), force env n⟩ n g a w₁ with ⟨_ | b, a₁, w₂⟩ <;> rfl

/-! ### What is given -/

theorem means_answer_ready (a : Answer) : (means env (n + 1)).answer (.ready a) = pure a := rfl

/-- What keeps the answer that it gives gives the same as what does not. -/
theorem on_keeping (s : Suspended) (x : Run Answer) :
    Hold.on s (Hold.lift x >>= fun a => Hold.set (.ready a) >>= fun _ => pure a) = x :=
  (Hold.on_bind (g := pure) fun _ _ => rfl).trans (bind_pure x)

theorem means_answer_afresh (p : Parser) (z : Context) :
    (means env (n + 1)).answer (.afresh p z) = (means env n).answer (.apply p z) :=
  (Hold.on_congr (force_afresh env n p z)).trans (on_keeping _ _)

theorem means_answer_after (act : Act Unit) (s : Suspended) :
    (means env (n + 1)).answer (.after act s) = (means env n).exec act >>= fun _ => (means env n).answer s :=
  (Hold.on_congr (force_after env n act s)).trans (Hold.on_bind fun _ _ => rfl)

theorem means_answer_framed (s : Suspended) (f : Frame) :
    (means env (n + 1)).answer (.framed s f) = (means env n).answer s >>= (means env n).resumption n f := by
  refine (Hold.on_congr (force_framed env n s f)).trans (Hold.on_bind fun a _ => ?_)
  exact (Hold.on_bind fun _ _ => rfl).trans (bind_pure ((means env n).resumption n f a))

theorem means_answer_apply (p : Parser) (z : Context) :
    (means env (n + 1)).answer (.apply p z) =
      match frame? z p with
      | some (q, f) => (means env n).answer (.framed (.apply q z) f)
      | none => (means env n).primitive n p z := by
  cases h : frame? z p with
  | some qf =>
    -- the two start from different suspended parsers, so `Hold.on_congr` does not apply
    funext w
    show (match force env (n + 1) (.apply p z) w with | (r, _, w) => (r, w)) = _
    rw [force_apply_framed env n h]
    rfl
  | none => exact (Hold.on_congr (force_apply_primitive env n h)).trans (on_keeping _ _)

theorem node_succ (i : Nat) : node env (n + 1) i = fun w =>
    if placeOf i < (w.nodesOf (listOf i)).size then
      (World.listNodes (listOf i)).force ((means env n).computeNode n (listOf i)) (.fault .reentered) (placeOf i) w
    else (.error (.fault Lists.missing), w) := by
  funext w
  rw [node]
  rfl

end Fuel

end CommittedChoice.OnDemand
