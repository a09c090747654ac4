import CommittedChoice.Proofs.Heap.Links

/-!
# The engine in cells is the engine on demand

With one more unit of fuel the engine on demand does one more thing, and cells do it when they are forced. So a parse that ends
on demand ends in cells, with the same verdict and in the same world.

- `Adequate.settled_succ`, `Adequate.framed_succ`, `Adequate.answer_succ`: what is under a commitment, the frame of a parser,
  and a parser that was applied, with one more unit of fuel;
- `Heap.adequate`: with any fuel;
- `Heap.verdict_of_ends`: all that a parse comes to.
-/

namespace CommittedChoice

open OnDemand

namespace Heap

variable {env : Env} {n b : Nat} {s : Heap × World}

/-! ## One more unit of fuel -/

section Succ

variable (h : Adequate env n) {i : Nat}

include h

/-- What is under a commitment. -/
theorem Adequate.settled_succ (fuel : Nat) {u : Suspended} (hu : UnderAt b s i u) :
    Mirrors b Kind.Any (Plainly (SettledTo b)) ((means env (n + 1)).settlement fuel u)
      (fun k => (access env k).get Content.outcome? i) s := by
  induction fuel generalizing s i u with
  | zero => exact .outOfFuel _
  | succ fuel ih =>
    have hready : ∀ {t : OnDemand.Settled}, UnderAt b s i (.ready t.toAnswer) →
        Mirrors b Kind.Any (Plainly (SettledTo b))
          ((means env (n + 1)).settlement (fuel + 1) (.ready t.toAnswer))
          (fun k => (access env k).get Content.outcome? i) s := by
      intro t hu
      rw [settlement_ready, show (means env (n + 1)).settleAnswer fuel t.toAnswer = pure t by cases t <;> rfl]
      exact (Mirrors.ready hu).map (f := fun _ => t) fun _ _ _ => id
    cases hu with
    | success hb hi hp => exact hready (t := .success _) (.success hb hi hp)
    | failure hb hi => exact hready (t := .failure _ _) (.failure hb hi)
    | passing hk hj hi hj' hf hu => exact hready (t := .failure _ _) (.passing hk hj hi hj' hf hu)
    | @afresh _ j p z hb hj hi hj' =>
      rw [Means.settlement_succ, means_answer_afresh]
      refine .get_settled (fun _ _ _ _ ht hforcing => ht.put hforcing _) hi (Nat.le_trans hb (Nat.le_of_lt hj)) ?_
      have hj₁ : (put i .forcing s).1.cells[j]? = some (.pending (.afresh p z)) :=
        (put_of_ne (Nat.ne_of_lt hj) _ s).trans hj'
      have hget : Mirrors b Kind.Any (Answers b) ((means env n).answer (.apply p z))
          (fun k => (access env k).get Content.outcome? j) (put i .forcing s) :=
        .get_pending (g := .outcome) hj₁ hb trivial (fun k => (bind_pure_comp _ _).symm) (fun _ => rfl) nofun
          (fun _ _ _ ho hforcing => ho.put hforcing _) (h.fresh p z)
      exact hget.bind (fun _ => id) fun a o s' ho _ => .settle ho ih
    | @framed _ j k u f hk hj hi hj' hf hu =>
      have hb := hu.mem.1
      refine .le ?_ (settlement_framed_le env n hf fuel u)
      refine .get_settled (fun _ _ _ _ ht hforcing => ht.put hforcing _) hi
        (Nat.le_trans hb (Nat.le_of_lt (Nat.lt_trans hk hj))) ?_
      have hj₁ : (put i .forcing s).1.cells[j]? = some (.pending (.framed true k f)) :=
        (put_of_ne (Nat.ne_of_lt hj) _ s).trans hj'
      have hu₁ : UnderAt b (put j .forcing (put i .forcing s)) k u :=
        (hu.put hi rfl _ (Nat.lt_trans hk hj)).put hj₁ rfl _ hk
      have hget : Mirrors b Kind.Any (Answers b)
          ((means env n).settlement (fuel + n + 1) u >>= (means env n).resumed n f)
          (fun k => (access env k).get Content.outcome? j) (put i .forcing s) := by
        refine .get_framed (fun _ _ _ _ ho hforcing => ho.put hforcing _) hj₁ (Nat.le_trans hb (Nat.le_of_lt hk)) ?_
        refine (h.settled (fuel + n + 1) hu₁).bind (fun _ => id) fun t o s' ho _ => ?_
        obtain ⟨t', rfl, ht⟩ := ho
        exact h.resumed hf ht
      rw [← bind_assoc]
      exact hget.bind (fun _ => id) fun a o s' ho _ => .settle ho ih

/-- The frame of a parser that was applied. -/
theorem Adequate.framed_succ {j : Nat} {p q : Parser} {f : Frame} {z : Context} {w : World} (hf : frame? z p = some (q, f))
    (hj : j < i) (hi : s.1.cells[i]? = some (.pending (.framed false j f))) (hq : AppliedAt env b s w j q z) :
    Mirrors b Kind.Any (Answers b) (fun _ => (means env (n + 1)).answer (.framed (.apply q z) f) w)
      (fun k => (access env k).get Content.outcome? i) s := by
  have hq₁ : AppliedAt env b (put i .forcing s) w j q z := hq.put hi rfl _ hj
  rw [means_answer_framed]
  refine .get_framed (fun _ _ _ _ ho hforcing => ho.put hforcing _) hi (Nat.le_trans hq.mem.1 (Nat.le_of_lt hj)) ?_
  exact (h.answer hq₁).bind (f := (means env n).resumption n f) (fun _ => id) fun a o s' ho _ => h.resume hf ho

/-- A parser that was applied. -/
theorem Adequate.answer_succ {p : Parser} {z : Context} {w : World} (hp : AppliedAt env b s w i p z) :
    Mirrors b Kind.Any (Answers b) (fun _ => (means env (n + 1)).answer (.apply p z) w)
      (fun k => (access env k).get Content.outcome? i) s := by
  cases hp with
  | framed hf hj hi hq =>
    rw [means_answer_apply, hf]
    exact h.framed hf hj hi hq
  | asked hb hi hp hw =>
    have hget : Mirrors b Kind.Any (Answers b) ((means env n).primitive n p z)
        (fun k => (access env k).get Content.outcome? i) s :=
      .get_pending (g := .outcome) hi hb trivial (fun k => (bind_pure_comp _ _).symm) (fun _ => rfl) nofun
        (fun _ _ _ ho hforcing => ho.put hforcing _) (h.primitive hp z)
    refine hget.congr ?_
    subst hw
    cases hp <;> (rw [means_answer_apply]; rfl)
  | known hb hi ht hanswer =>
    refine .get_forced hi rfl (hanswer n) ?_
    cases ht with
    | success hp => exact .success hp
    | failure z message => exact .failure z message
  | commit hj hi hu hw =>
    subst hw
    refine .get_forced (a := .committed _) hi rfl ?_ (.committed hu)
    rw [means_answer_apply]
    rfl
  | @rule _ j t name _ hb hj hi hj' ht hw =>
    subst hw
    -- a rule goes on from a success in its context, and gives the parser of this name
    have hj₁ : (put i .forcing s).1.cells[j]? = some (.forced (.outcome (.plain t))) :=
      (put_of_ne (Nat.ne_of_lt hj) _ s).trans hj'
    have ht₁ : AnswerAt b (put i .forcing s) (.plain t) (.known z .absent) := by
      cases ht with
      | success hp => exact .success (hp.put hi rfl _)
    have hget : Mirrors b Kind.Any (Answers b) (pure (.known z .absent))
        (fun k => (access env k).get Content.outcome? j) (put i .forcing s) := .get_forced hj₁ rfl rfl ht₁
    refine Mirrors.congr (.get_framed (fun _ _ _ _ ho hforcing => ho.put hforcing _) hi (Nat.le_trans hb (Nat.le_of_lt hj))
      (hget.bind (fun _ => id) fun a o s' ho _ => h.resume_bind ho fun _ => .pure (env.grammar name))) ?_
    rw [means_answer_apply, pure_bind, Answer.known, Means.resumption_bind_success]
    rfl

end Succ

/-! ## The engine -/

/-- **What the engine does on demand, it does in cells.** -/
theorem adequate (env : Env) : ∀ n, Adequate env n
  | 0 => by
    refine ⟨fun _ => .of_outOfFuel rfl _, fun _ _ _ _ => .of_outOfFuel rfl _, fun fuel _ => .of_outOfFuel ?_ _,
      fun i => .outOfFuel _, fun i => .outOfFuel _⟩
    cases fuel <;> rfl
  | n + 1 =>
    have h := adequate env n
    ⟨h.answer_succ, h.framed_succ, fun fuel hu => h.settled_succ fuel hu, h.node_succ, h.link_succ⟩

/-- Reading all that is left to be read. -/
theorem Adequate.verdict (h : Adequate env n) (p : Parser) (z : Context) :
    Mirrors b Kind.Any Same ((means env n).verdict n p z) (fun k => (access env k).verdict p z) s := by
  rw [verdict_eq]
  refine (h.fresh p z).bind (fun _ => id) fun a o s₁ ho _ => ?_
  refine (h.settleAll n ho).bind (fun _ => id) fun t t' s₂ ht _ => ?_
  cases ht with
  | failure z message => exact .pure rfl
  | @success _ r v p hp =>
    show Mirrors b Kind.Any Same (if env.stateful then _ else _) (fun k => if env.stateful then _ else _) s₂
    by_cases hstateful : env.stateful
    · simp only [if_pos hstateful]
      refine (h.rest hp.rest).bind_same (fun _ _ => trivial) fun z s₃ ht => ?_
      have hv : ValueAt b s₃ v p.value := hp.value.after_rest ht
      refine (h.value hv).bind_same (fun _ _ => trivial) fun v _ _ => ?_
      exact .pure rfl
    · simp only [if_neg hstateful]
      refine (h.value hp.value).bind_same (fun _ _ => trivial) fun v s₃ ht => ?_
      have hr : RestAt b s₃ r p.rest := hp.rest.after_value ht
      refine (h.rest hr).bind_same (fun _ _ => trivial) fun z _ _ => ?_
      exact .pure rfl

/-- **A parse that ends on demand** ends in cells, with the same verdict and in the same world. -/
theorem verdict_of_ends {p : Parser} {z : Context} {w w' : World} {x : Except Fault (Verdict Context Value)}
    (h : Run.Ends (fun n => (means env n).verdict n p z) w x w') :
    ∃ m, ∀ k ≥ m, verdict env k p z w = (x.mapError .fault, w') := by
  obtain ⟨n, hn⟩ := h
  obtain ⟨r, h', ⟨m, hm⟩, hmeets⟩ := (adequate env n).verdict (b := 0) (s := (ofLists w, w)) p z (.start w) (Nat.zero_le _)
    _ _ hn (by cases x <;> nofun)
  have hr : r = x.mapError .fault := by
    cases x with
    | error e => cases hmeets; rfl
    | ok v =>
      cases hmeets with
      | ok hv _ _ => cases hv; rfl
  refine ⟨m, fun k hk => ?_⟩
  unfold verdict Hold.on
  rw [show (access env k).verdict p z (ofLists w) w = _ from hm k hk, hr]

end Heap

end CommittedChoice
