import CommittedChoice.Proofs.OnDemand.Reveal

/-!
# What a parse returns

A parse asks for everything at once: the answer without its commitment, its finish, its remainder and its value. What it
has computed it keeps, so asking for the settled answer a second time does nothing new (`on_fully`).

- `verdict_eq`: a parse as a plain run;
- `limit_verdict`: with enough fuel it is what the parser reveals, read in the order that the engine asks for it.
-/

namespace CommittedChoice.OnDemand

open Run (limit Steady)

/-! ## What is kept -/

/-- A suspended parser that has answered keeps its answer. -/
theorem force_keeps (env : Env) : ∀ (n : Nat) {s s' : Suspended} {w w' : World} {a : Answer},
    force env n s w = (.ok a, s', w') → s' = .ready a
  | 0, s, _, _, _, _, h => by cases s <;> cases h
  | n + 1, s, s', w, w', a, h => by
    match s with
    | .ready b =>
      rw [force] at h
      cases h
      rfl
    | .afresh p z =>
      rw [force] at h
      split at h <;> cases h
      rfl
    | .after act s =>
      rw [force] at h
      split at h
      · exact force_keeps env n h
      · cases h
    | .framed s f =>
      rw [force] at h
      split at h
      · cases h
      · split at h <;> cases h
        rfl
    | .apply p z =>
      cases p with
      | map | bind | orElse | reword | restoring =>
        rw [force] at h
        exact force_keeps env n h
      | _ =>
        rw [force] at h
        · split at h <;> cases h
          rfl
        all_goals intros; contradiction

/-- One that has settled keeps what it settled to. -/
theorem settle_keeps (env : Env) (n : Nat) : ∀ (k : Nat) {s s' : Suspended} {w w' : World} {t : Settled},
    (means env n).settle k s w = (.ok t, s', w') → s' = .ready t.toAnswer
  | 0, _, _, _, _, _, h => by cases h
  | k + 1, s, s', w, w', t, h => by
    obtain ⟨a, s₁, w₁, hforce, h⟩ := Hold.bind_eq_ok h
    have hkept : s₁ = .ready a := force_keeps env n hforce
    cases a with
    | success p => cases h; exact hkept
    | failure z message => cases h; exact hkept
    | committed inner =>
      obtain ⟨_, _, _, _, h⟩ := Hold.bind_eq_ok h
      cases h
      rfl

/-! ## A parse -/

namespace Means

variable (m : Means)

/-- Disclosing the finish of a settled answer. -/
def disclosure : Settled → Run Settled
  | .failure z message => pure (.failure z message)
  | .success p => m.finish p >>= fun finish =>
    match finish with
    | .failed z message => pure (.failure z message)
    | _ => pure (.success p.disclosed)

/-- Reading all that is left to be read. -/
def readAll : Settled → Run (Verdict Context Value)
  | .failure z message => pure (.failure z message)
  | .success p =>
    if m.env.stateful then m.late p.rest >>= fun z => m.late p.value >>= fun v => pure (.success z v)
    else m.late p.value >>= fun v => m.late p.rest >>= fun z => pure (.success z v)

theorem on_onAnswer {α : Type} (f : Hold Answer α) (s : Suspended) :
    Hold.on s (m.onAnswer f) = m.answer s >>= fun a => Hold.on a f :=
  Hold.on_bind fun _ _ => rfl

/-- What `fully` does with a settled answer that is a success. -/
def disclosing (fuel : Nat) : Hold Answer Settled := do
  match ← m.onPromise fuel (do return (← Promise.disclose m.env m.lists, ← Hold.get)) with
  | some (.failed z message, _) => pure (.failure z message)
  | some (_, p) => pure (.success p.disclosed)
  | none => m.settled fuel

theorem fully_eq (fuel : Nat) : m.fully fuel = m.settled fuel >>= fun t =>
    match t with
    | .failure z message => pure (.failure z message)
    | .success _ => m.disclosing fuel := rfl

section Settled

variable {m} {fuel : Nat} {a : Answer} {p : Promise} (hsettled : ∀ w, m.settled fuel a w = (.ok (.success p), a, w))

include hsettled

/-- Working on the success that an answer has settled to. -/
theorem on_onPromise {α : Type} (f : Hold Promise α) : Hold.on a (m.onPromise fuel f) = some <$> Hold.on p f := by
  have hon : ∀ g : Settled → Hold Answer (Option α), Hold.on a (m.settled fuel >>= g) = Hold.on a (g (.success p)) := by
    intro g
    funext w
    unfold Hold.on
    rw [Hold.bind_of_ok (hsettled w)]
  refine (hon _).trans ?_
  rw [Hold.on_get_bind]
  cases a <;> exact Hold.on_map _ _ _

/-- Disclosing the finish of what an answer has settled to. -/
theorem on_disclosing : Hold.on a (m.disclosing fuel) = m.disclosure (.success p) := by
  let after : Option (Finish × Promise) → Run Settled := fun x =>
    match x with
    | some (.failed z message, _) => pure (.failure z message)
    | some (_, p) => pure (.success p.disclosed)
    | none => Run.halt .outOfFuel
  have hafter : Hold.on a (m.disclosing fuel) =
      Hold.on a (m.onPromise fuel (do return (← Promise.disclose m.env m.lists, ← Hold.get))) >>= after := by
    refine Hold.on_bind_of_ok fun w r s' w' h => ?_
    have hr : Hold.on a (m.onPromise fuel (do return (← Promise.disclose m.env m.lists, ← Hold.get))) w = (.ok r, w') := by
      unfold Hold.on
      rw [h]
    rw [on_onPromise hsettled, map_eq_pure_bind] at hr
    obtain ⟨⟨finish, q⟩, rfl⟩ : ∃ x, r = some x := by
      have hbind : Run.bind (Hold.on p _) (fun x => pure (some x)) w = (.ok r, w') := hr
      unfold Run.bind at hbind
      split at hbind
      · cases hbind; exact ⟨_, rfl⟩
      · cases hbind
    cases finish <;> rfl
  rw [hafter, on_onPromise hsettled, bind_map_left]
  funext w
  have hkeeps := disclose_keeps (m := m) p w
  show Run.bind (Hold.on p (Hold.bind (Promise.disclose m.env m.lists) _)) _ w = Run.bind (m.finish p) _ w
  unfold Run.bind finish Hold.on Hold.bind
  rcases hd : Promise.disclose m.env m.lists p w with ⟨_ | finish, q, w'⟩
  · rfl
  · rw [hd] at hkeeps
    have hq : q.disclosed = p.disclosed := disclosed_eq hkeeps.1 hkeeps.2
    cases finish with
    | plain => exact congrArg (fun p => (Except.ok (Settled.success p), w')) hq
    | committed => exact congrArg (fun p => (Except.ok (Settled.success p), w')) hq
    | failed z message => rfl

end Settled

end Means

theorem settled_committed {env : Env} {n fuel : Nat} {inner : Suspended} {t : Settled} {s' : Answer} {w w' : World}
    (h : (means env n).settled fuel (.committed inner) w = (.ok t, s', w')) :
    ∃ k inner', fuel = k + 1 ∧ s' = .committed inner' ∧ (means env n).settle fuel inner w = (.ok t, inner', w') := by
  have hwithin : Hold.within .committed inner ((means env n).settle fuel) (.committed inner) w = (.ok t, s', w') := h
  unfold Hold.within at hwithin
  cases fuel with
  | zero => cases hwithin
  | succ k =>
    rcases hs : (means env n).settle (k + 1) inner w with ⟨r, inner', w₁⟩
    rw [hs] at hwithin
    cases hwithin
    exact ⟨k, inner', rfl, rfl, rfl⟩

/-- Asking for an answer that is known. -/
theorem force_ready (env : Env) (n : Nat) (a : Answer) (w : World) :
    (means env (n + 1)).force (.ready a) w = (.ok a, .ready a, w) := by
  show force env (n + 1) (.ready a) w = _
  rw [force]

/-- Settling what has settled already. -/
theorem settled_again (env : Env) (n k : Nat) (t : Settled) (w : World) :
    (means env (n + 1)).settled (k + 1) (.committed (.ready t.toAnswer)) w =
      (.ok t, .committed (.ready t.toAnswer), w) := by
  have hsettle : (means env (n + 1)).settle (k + 1) (.ready t.toAnswer) w = (.ok t, .ready t.toAnswer, w) := by
    refine (Hold.bind_of_ok (force_ready env n t.toAnswer w)).trans ?_
    cases t <;> rfl
  show Hold.within Answer.committed (.ready t.toAnswer) ((means env (n + 1)).settle (k + 1))
    (.committed (.ready t.toAnswer)) w = _
  unfold Hold.within
  rw [hsettle]

/-- **Asking for everything at once.** -/
theorem on_fully (env : Env) (n fuel : Nat) (a : Answer) :
    Hold.on a ((means env n).fully fuel) = (means env n).settleAnswer fuel a >>= (means env n).disclosure := by
  rw [Means.fully_eq]
  cases a with
  | failure z message => rfl
  | success p => exact Means.on_disclosing fun _ => rfl
  | committed inner =>
    refine Hold.on_bind_of_ok (g := (means env n).disclosure) fun w t s' w' h => ?_
    cases t with
    | failure z message => rfl
    | success p =>
      obtain ⟨k, inner', hk, rfl, hsettle⟩ := settled_committed h
      cases settle_keeps env n fuel hsettle
      subst hk
      cases n with
      | zero => cases hsettle
      | succ n => exact Means.on_disclosing fun w => settled_again env n k (.success p) w

/-- The answer of a success that turned out to be this. -/
def Promise.disclosedAs (p : Promise) : Finish → Answer
  | .plain => .success p.disclosed
  | .committed => .committed (.ready (.success p.disclosed))
  | .failed z message => .committed (.ready (.failure z message))

/-- Disclosing the finish of a success. -/
theorem on_disclosedPromise (m : Means) (p : Promise) :
    Hold.on p m.disclosedPromise = m.finish p >>= fun finish => pure (p.disclosedAs finish) := by
  refine Hold.on_bind_of_keeps (fun q => q.rest = p.rest ∧ q.value = p.value) (Means.disclose_keeps p) fun finish q hq => ?_
  have hdisclosed : q.disclosed = p.disclosed := Means.disclosed_eq hq.1 hq.2
  rw [Hold.on_get_bind]
  cases finish with
  | plain => exact congrArg (fun p => (pure (.success p) : Run Answer)) hdisclosed
  | committed => exact congrArg (fun p => (pure (.committed (.ready (.success p))) : Run Answer)) hdisclosed
  | failed z message => rfl

/-- A parse as a plain run. -/
theorem verdict_eq (env : Env) (n fuel : Nat) (p : Parser) (z : Context) :
    (means env n).verdict fuel p z = (means env n).answer (.apply p z) >>= fun a =>
      (means env n).settleAnswer fuel a >>= (means env n).disclosure >>= (means env n).readAll := by
  cases n with
  | zero => rfl
  | succ n =>
    have hread : ∀ t : Settled, (match t with
        | .failure z message => pure (.failure z message)
        | .success promise =>
          if (means env (n + 1)).env.stateful then
            Hold.on promise do
              let z ← Promise.forceRest (means env (n + 1)).env (means env (n + 1)).lists
              let v ← Promise.forceValue (means env (n + 1)).env (means env (n + 1)).lists
              pure (.success z v)
          else
            Hold.on promise do
              let v ← Promise.forceValue (means env (n + 1)).env (means env (n + 1)).lists
              let z ← Promise.forceRest (means env (n + 1)).env (means env (n + 1)).lists
              pure (.success z v)) = (means env (n + 1)).readAll t := by
      intro t
      cases t with
      | failure z message => rfl
      | success p =>
        unfold Means.readAll
        dsimp only
        split
        · refine Hold.on_bind_of_keeps (fun q => q.value = p.value) (fun _ => rfl) fun z q hq => ?_
          rw [← hq]
          exact Hold.on_bind fun _ _ => rfl
        · refine Hold.on_bind_of_keeps (fun q => q.rest = p.rest) (fun _ => rfl) fun z q hq => ?_
          rw [← hq]
          exact Hold.on_bind fun _ _ => rfl
    unfold Means.verdict
    rw [Means.on_onAnswer, bind_assoc]
    refine bind_congr fun a => ?_
    rw [on_fully]
    exact bind_congr hread

/-- Related means parse in related ways. -/
theorem Means.Related.verdict {R : {α : Type} → Run α → Run α → Prop} (hR : Run.Congruence R) {env : Env} {n n' : Nat}
    (hn : n ≤ n') (h : (means env n).Related R (means env n')) (p : Parser) (z : Context) :
    R ((means env n).verdict n p z) ((means env n').verdict n' p z) := by
  rw [verdict_eq, verdict_eq]
  refine hR.bind (h.answer _) fun a => hR.bind (hR.bind ?_ fun t => ?_) fun t => ?_
  · cases a with
    | committed inner => exact h.settlement hR hn inner
    | _ => exact hR.pure _
  · cases t with
    | failure z message => exact hR.pure _
    | success q =>
      refine hR.bind (h.finish hR q) fun finish => ?_
      cases finish <;> exact hR.pure _
  · cases t with
    | failure z message => exact hR.pure _
    | success q =>
      unfold Means.readAll
      rw [h.env]
      dsimp only
      split
      · exact hR.bind (h.late hR _) fun _ => hR.bind (h.late hR _) fun _ => hR.pure _
      · exact hR.bind (h.late hR _) fun _ => hR.bind (h.late hR _) fun _ => hR.pure _

/-! ## With enough fuel -/

variable (env : Env)

/-- Reading all that is left to be read: a stateful engine asks for the remainder first, the other for the value. -/
noncomputable def readAll : Settled → Course (Verdict Context Value)
  | .failure z message => pure (.failure z message)
  | .success p =>
    if env.stateful then late env p.rest >>= fun z => late env p.value >>= fun v => pure (.success z v)
    else late env p.value >>= fun v => late env p.rest >>= fun z => pure (.success z v)

theorem steady_disclosure (t : Settled) : Steady fun n => (means env n).disclosure t := by
  cases t with
  | failure z message => exact .const _
  | success p => exact .bind (steady_finish env p) fun finish => .const _

theorem steady_readAll (t : Settled) : Steady fun n => (means env n).readAll t := by
  cases t with
  | failure z message => exact .const _
  | success p =>
    unfold Means.readAll
    cases h : env.stateful with
    | true =>
      simp only [means, h, if_true]
      exact .bind (steady_late env _) fun z => .bind (steady_late env _) fun v => .const _
    | false =>
      simp only [means, h, Bool.false_eq_true, if_false]
      exact .bind (steady_late env _) fun z => .bind (steady_late env _) fun v => .const _

variable {env}

theorem limit_disclosure (t : Settled) :
    (limit fun n => (means env n).disclosure t) = Revealed.settled <$> revealing env (reveal env) t.toAnswer := by
  cases t with
  | failure z message => exact Run.limit_const _
  | success p =>
    unfold Means.disclosure
    rw [Run.limit_bind_const (steady_finish env p), Settled.toAnswer, revealing, ← comp_map, map_eq_pure_bind]
    refine bind_congr fun finish => ?_
    cases finish <;> rfl

theorem limit_readAll (t : Settled) : (limit fun n => (means env n).readAll t) = readAll env t := by
  cases t with
  | failure z message => exact Run.limit_const _
  | success p =>
    unfold Means.readAll readAll
    cases h : env.stateful with
    | true =>
      simp only [means, h, if_true]
      refine (Run.limit_bind (steady_late env _) fun z => ?_).trans (bind_congr fun z => ?_)
      · exact .bind (steady_late env _) fun v => .const _
      · exact Run.limit_bind_const (steady_late env _) _
    | false =>
      simp only [means, h, Bool.false_eq_true, if_false]
      refine (Run.limit_bind (steady_late env _) fun z => ?_).trans (bind_congr fun z => ?_)
      · exact .bind (steady_late env _) fun v => .const _
      · exact Run.limit_bind_const (steady_late env _) _

/-- An answer with its finish disclosed. -/
noncomputable def disclose (env : Env) : Answer → Course Answer
  | .success p => p.disclosedAs <$> finish env p
  | a => pure a

theorem steady_disclosed (a : Answer) : Steady fun n => Hold.on a (means env n).disclosed := by
  cases a with
  | success p =>
    have hon : ∀ n, Hold.on (.success p) (means env n).disclosed = (means env n).finish p >>= fun finish =>
      pure (p.disclosedAs finish) := fun n => on_disclosedPromise _ p
    simp only [hon]
    exact .bind (steady_finish env p) fun _ => .const _
  | failure rest message => exact .const _
  | committed inner => exact .const _

theorem limit_disclosed (a : Answer) : (limit fun n => Hold.on a (means env n).disclosed) = disclose env a := by
  cases a with
  | success p =>
    have hon : ∀ n, Hold.on (.success p) (means env n).disclosed = (means env n).finish p >>= fun finish =>
      pure (p.disclosedAs finish) := fun n => on_disclosedPromise _ p
    simp only [hon]
    rw [disclose, map_eq_pure_bind]
    exact Run.limit_bind_const (steady_finish env p) _
  | failure rest message => exact Run.limit_of_forall (x := pure (Answer.failure rest message)) fun _ => rfl
  | committed inner => exact Run.limit_of_forall (x := pure (Answer.committed inner)) fun _ => rfl

theorem steady_settleAnswer (a : Answer) : Steady fun n => (means env n).settleAnswer n a := by
  cases a with
  | success p => exact .const _
  | failure z message => exact .const _
  | committed inner => exact steady_settlement env inner

theorem steady_verdict (p : Parser) (z : Context) : Steady fun n => (means env n).verdict n p z := by
  simp only [verdict_eq]
  exact .bind (steady_answer env _) fun a => .bind (.bind (steady_settleAnswer a) (steady_disclosure env)) (steady_readAll env)

theorem limit_settleAnswer (a : Answer) : (limit fun n => (means env n).settleAnswer n a) = settleAnswer env a := by
  cases a with
  | success p => exact Run.limit_const _
  | failure z message => exact Run.limit_const _
  | committed inner => rfl

theorem steady_fully (a : Answer) : Steady fun n => Hold.on a ((means env n).fully n) := by
  simp only [on_fully]
  exact .bind (steady_settleAnswer a) (steady_disclosure env)

/-- **Everything that is asked for at once is what the answer reveals.** -/
theorem limit_fully (a : Answer) :
    (limit fun n => Hold.on a ((means env n).fully n)) = Revealed.settled <$> revealing env (reveal env) a := by
  simp only [on_fully]
  rw [Run.limit_bind (steady_settleAnswer a) (steady_disclosure env), limit_settleAnswer]
  simp only [limit_disclosure]
  rw [← map_bind]
  cases a with
  | success p => rw [settleAnswer, pure_bind]; rfl
  | failure z message => rw [settleAnswer, pure_bind]; rfl
  | committed inner =>
    have hcommit : ∀ x : Course Revealed, Revealed.settled <$> Revealed.commit <$> x = Revealed.settled <$> x :=
      fun x => (comp_map _ _ x).symm
    rw [settleAnswer, revealing, hcommit, ← hcommit, commit_settle, hcommit]

/-- **A parse reads what the parser reveals.** -/
theorem limit_verdict (p : Parser) (z : Context) :
    (limit fun n => (means env n).verdict n p z) = reveal env (.apply p z) >>= fun r => readAll env r.settled := by
  have hsteady : ∀ a, Steady fun n => (means env n).settleAnswer n a >>= (means env n).disclosure :=
    fun a => .bind (steady_settleAnswer a) (steady_disclosure env)
  simp only [verdict_eq]
  rw [reveal_eq, bind_assoc]
  refine (Run.limit_bind (steady_answer env _) fun a => ?_).trans (bind_congr fun a => ?_)
  · exact .bind (hsteady a) (steady_readAll env)
  · rw [Run.limit_bind (hsteady a) (steady_readAll env)]
    simp only [limit_readAll, ← on_fully]
    rw [limit_fully, bind_map_left]

end CommittedChoice.OnDemand
