import CommittedChoice.Proofs.Heap.Mirrors

/-!
# Outcomes that are asked for

What the engine does on demand, cells do when they are forced: parts of answers are computed, commitments are settled, and
what a success turns out to be is disclosed.

- `Heap.Adequate`: what the engine does with so much fuel, cells do;
- `Adequate.exec`, `value`, `rest`, `finish`: callbacks, and the parts of a success;
- `Mirrors.failing`, `Mirrors.ready`: what has settled under a commitment, and the frames that a failure passes through;
- `Adequate.reveal`, `settleAll`, `revealAll`: what a success turns out to be, and outcomes without their commitments;
- `Adequate.fresh`, `proceed`: a parser that is applied anew, and going on after a success.
-/

namespace CommittedChoice

open OnDemand

/-- Walking to the end of a list. -/
theorem OnDemand.exec_endOf {α : Type} (env : Env) (n i : Nat) (f : ListEnd → α) :
    (means env n).exec (do return f (← Act.endOf i)) = walk (node env n) n i [] >>= fun x => pure (f x.2) := by
  unfold Means.exec
  rw [Act.exec_bind, Act.endOf, Act.exec_walk, bind_assoc]
  rfl

/-- A callback that goes on with the answer of another one. -/
theorem Access.exec_bind {α β : Type} (m : Access) (act : Act α) (k : α → Act β) :
    m.exec (act >>= k) = m.exec act >>= fun a => m.exec (k a) := by
  show m.exec (Act.bind act k) = _
  induction act with
  | pure a => rfl
  | throw e => rfl
  | note id next ih => exact bind_congr fun _ => ih
  | width f ih => exact ih _
  | count mark f ih => exact bind_congr fun c => ih c
  | fresh f ih => exact bind_congr fun id => ih id
  | node i f ih =>
    show (m.link i >>= fun x => m.exec ((f x).bind k)) = (m.link i >>= fun x => m.exec (f x)) >>= _
    rw [bind_assoc]
    exact bind_congr ih
  | walk i f ih =>
    show (walk m.link m.fuel i [] >>= fun x => m.exec ((f x.1 x.2).bind k)) =
      (walk m.link m.fuel i [] >>= fun x => m.exec (f x.1 x.2)) >>= _
    rw [bind_assoc]
    exact bind_congr fun x => ih x.1 x.2

namespace Heap

variable {α : Type} {env : Env} {n b : Nat} {s : Heap × World}

/-- An outcome that is not committed, of which this holds. -/
def Plainly {α : Type} (R : α → Heap.Settled → Heap × World → Prop) (a : α) (o : Outcome) (s : Heap × World) : Prop :=
  ∃ t, o = .plain t ∧ R a t s

/-- An answer, and the outcome that it is in cells. -/
abbrev Answers (b : Nat) (a : Answer) (o : Outcome) (s : Heap × World) : Prop := AnswerAt b s o a

/-- A settled answer, and what it is in cells. -/
abbrev SettledTo (b : Nat) (t : OnDemand.Settled) (t' : Heap.Settled) (s : Heap × World) : Prop := SettledAt b s t' t

/-- What the engine does with `n` units of fuel, the engine in cells does with enough of them. -/
structure Adequate (env : Env) (n : Nat) : Prop where
  answer : ∀ {b s w i p z}, AppliedAt env b s w i p z →
    Mirrors b Kind.Any (Answers b) (fun _ => (means env n).answer (.apply p z) w)
      (fun k => (access env k).get Content.outcome? i) s
  framed : ∀ {b i j p q f z w} {s : Heap × World}, frame? z p = some (q, f) → j < i →
    s.1.cells[i]? = some (.pending (.framed false j f)) → AppliedAt env b s w j q z →
    Mirrors b Kind.Any (Answers b) (fun _ => (means env n).answer (.framed (.apply q z) f) w)
      (fun k => (access env k).get Content.outcome? i) s
  settled : ∀ {b s i u} (fuel : Nat), UnderAt b s i u →
    Mirrors b Kind.Any (Plainly (SettledTo b)) ((means env n).settlement fuel u)
      (fun k => (access env k).get Content.outcome? i) s
  node : ∀ {b s} i, Mirrors b Kind.None Same (OnDemand.node env n i) (fun k => Heap.node env k i) s
  link : ∀ {b s} i, Mirrors b Kind.None Same (OnDemand.node env n i) (fun k => Heap.link env k i) s

/-- Reading a list to its end. -/
theorem Mirrors.walk {node : Nat → Run Node} {node' : Nat → Nat → Hold Heap Node}
    (hnode : ∀ {s} i, Mirrors b Kind.None Same (node i) (fun k => node' k i) s) (fuel d i : Nat) (done : List Value) :
    Mirrors b Kind.None Same (OnDemand.walk node fuel i done) (fun k => Access.walk (node' k) (k - d) i done) s := by
  induction fuel generalizing d i done s with
  | zero => exact .outOfFuel _
  | succ fuel ih =>
    have hstep : Mirrors b Kind.None Same (OnDemand.walk node (fuel + 1) i done)
        (fun k => Access.walk (node' k) (k - (d + 1) + 1) i done) s := by
      refine (hnode i).bind_same (fun _ => id) fun x s' _ => ?_
      cases x with
      | item v next => exact ih (d + 1) next (v :: done)
      | ended e => exact .pure rfl
    refine hstep.later (d + 1) fun k hk => ?_
    rw [show k - (d + 1) + 1 = k - d by omega]

namespace Adequate

variable (h : Adequate env n)

include h

/-- Callbacks. -/
theorem exec (act : Act α) : Mirrors b Kind.None Same ((means env n).exec act) (fun k => (access env k).exec act) s := by
  have hK : ∀ κ, Kind.None κ → Kind.None κ := fun _ => id
  show Mirrors b Kind.None Same (act.exec env (listsOf n (OnDemand.node env n))) _ s
  induction act generalizing s with
  | pure a => exact .pure rfl
  | throw e => exact .fault e
  | note id next ih => exact (Mirrors.lift (.note id)).bind hK fun _ _ _ _ _ => ih
  | width k ih => exact ih _
  | count mark k ih =>
    rw [Act.exec_count]
    exact (Mirrors.lift (.count mark)).bind_same hK fun c _ _ => ih c
  | fresh k ih =>
    rw [Act.exec_fresh]
    exact (Mirrors.lift .identity).bind_same hK fun c _ _ => ih c
  | node i k ih =>
    rw [Act.exec_node]
    exact (h.link i).bind_same hK fun x _ _ => ih x
  | walk i k ih =>
    rw [Act.exec_walk]
    exact (Mirrors.walk (fun i => h.link i) n 0 i []).bind_same hK fun x _ _ => ih x.1 x.2

/-! ### Parts of answers -/

/-- Walking to the end of a list, which is in a cell or will be. -/
theorem ended {i j : Nat} (hi : EndAt s i j) (hb : b ≤ i) :
    Mirrors b (· = .ended) (fun x e _ => x.2 = e) (OnDemand.walk (OnDemand.node env n) n j [])
      (fun k => (access env k).get Content.ended? i) s := by
  cases hi with
  | waits hi =>
    have hwalk : Mirrors b (· = .ended) (fun x e s => x.2 = e ∧ s.2.Walked j x.2)
        (OnDemand.walk (OnDemand.node env n) n j [])
        (fun k => Access.walk (Heap.node env k) k j [] >>= fun x => pure x.2) (put i .forcing s) := by
      refine Mirrors.knowing (R := fun (x : List Value × ListEnd) e _ => x.2 = e) (P := fun x w => w.Walked j x.2) ?_
        fun x w hx => walk_walked hx
      rw [← bind_pure (OnDemand.walk (OnDemand.node env n) n j [])]
      exact (Mirrors.walk (fun i => h.node i) n 0 j []).bind_same (fun _ => False.elim) fun x _ _ => .pure rfl
    refine .get_pending (g := .ended) hi hb rfl (fun k => ?_) (fun _ => rfl) (fun m hm x e s' hx => ?_)
      (fun _ _ _ hx _ => hx.1) hwalk
    · rw [bind_assoc]
      rfl
    · cases hm
      exact ⟨e, rfl, hx.1 ▸ hx.2⟩
  | @known e hi hwalked =>
    obtain ⟨vs, hvs⟩ : ∃ vs, OnDemand.walkFrom env j [] s.2 = some (.ok (vs, e), s.2) := hwalked.walkFrom []
    obtain hout | hwalk := (steady_walk j []).out_or_eq hvs n
    · exact .of_outOfFuel hout _
    · exact .get_forced hi rfl hwalk rfl

/-- What is left at the end of a list, or what the end makes of the success of the list. -/
theorem ending {β : Type} {K : Kind → Prop} {part : Content → Option β} {f : ListEnd → β} {g : β → Content} {t : Task}
    {i j m : Nat} (hi : s.1.cells[i]? = some (.pending t)) (hb : b ≤ i) (hj : b ≤ j) (hend : EndAt s j m)
    (ht : t.kind ≠ .ended) (hK : K t.kind) (hended : K .ended)
    (hcompute : ∀ k, (access env k).compute t = (access env k).get Content.ended? j >>= fun e => pure (g (f e)))
    (hpart : ∀ v, part (g v) = some v) :
    Mirrors b K Same ((means env n).late (.later do return f (← Act.endOf m))) (fun k => (access env k).get part i) s := by
  have hend : EndAt (put i .forcing s) j m := (touches_put_pending hi ht _).ended _ _ hend
  have hy : Mirrors b K Same ((means env n).late (.later do return f (← Act.endOf m)))
      (fun k => (access env k).get Content.ended? j >>= fun e => pure (f e)) (put i .forcing s) := by
    rw [Means.late_later, exec_endOf]
    refine (h.ended hend hj).bind (fun κ hκ => ?_) fun x e s' hx _ => ?_
    · exact hκ ▸ hended
    · cases hx
      exact .pure rfl
  refine .get_pending hi hb hK (fun k => ?_) hpart (fun n hn => ?_) (fun _ _ _ hv _ => hv) hy
  · rw [hcompute, bind_assoc]
    rfl
  · exact absurd (congrArg Task.kind hn) ht

/-- A value. -/
theorem value {l : Late Value} {i : Nat} (hi : ValueAt b s i l) :
    Mirrors b (· = .value) Same ((means env n).late l) (fun k => (access env k).get Content.value? i) s := by
  induction l generalizing i s with
  | known v =>
    cases hi with
    | known hb hi => exact .get_forced hi rfl rfl rfl
  | later act => cases hi
  | mapped l f ih =>
    cases hi with
    | @mapped _ j _ _ hb hj hi hl =>
      have hl : ValueAt b (put i .forcing s) j l := hl.keep (touches_put_pending hi nofun _) fun m hm _ _ hmi =>
        absurd (hmi.1 ▸ hj) (Nat.not_lt_of_le hm)
      have hy : Mirrors b (· = .value) Same ((means env n).late (.mapped l f))
          (fun k => (access env k).get Content.value? j >>= fun v => (access env k).exec (f v)) (put i .forcing s) := by
        rw [Means.late_mapped]
        exact (ih hl).bind_same (fun _ => id) fun v _ _ => (h.exec (f v)).imp (fun _ => False.elim) fun _ _ _ => id
      refine .get_pending (g := .value) hi hb rfl (fun k => ?_) (fun _ => rfl) nofun (fun _ _ _ hv _ => hv) hy
      rw [bind_assoc]
      simp only [bind_pure_comp]
      rfl

/-- A remainder. -/
theorem rest {l : Late Context} {i : Nat} (hi : RestAt b s i l) :
    Mirrors b (fun κ => κ = .rest ∨ κ = .ended) Same ((means env n).late l) (fun k => (access env k).get Content.rest? i)
      s := by
  cases hi with
  | known hb hi => exact .get_forced hi rfl rfl rfl
  | @pushed z ts hb hi =>
    exact .get_pending (y := fun _ => pure { z with input := z.input.push ts }) (g := .rest) hi hb (.inl rfl)
      (fun _ => rfl) (fun _ => rfl) nofun (fun _ _ _ hz _ => hz) (.pure rfl)
  | ended hb hj hi hend =>
    exact h.ending (g := .rest) hi hb hj hend nofun (.inl rfl) (.inr rfl) (fun _ => rfl) fun _ => rfl

/-- What a success turns out to be. -/
theorem finish {l : Late Finish} {i : Nat} (hi : FinishAt b s i l) :
    Mirrors b (fun κ => κ = .finish ∨ κ = .ended) Same ((means env n).late l)
      (fun k => (access env k).get Content.finish? i) s := by
  induction l generalizing i s with
  | known f => cases hi
  | later act =>
    cases hi with
    | ended hb hj hi hend =>
      exact h.ending (g := .finish) hi hb hj hend nofun (.inl rfl) (.inr rfl) (fun _ => rfl) fun _ => rfl
  | mapped l g ih =>
    cases hi with
    | @changed _ j _ f hb hj hi hl =>
      have hl : FinishAt b (put i .forcing s) j l := hl.keep (touches_put_pending hi nofun _) fun m hm _ _ hmi =>
        absurd (hmi.1 ▸ hj) (Nat.not_lt_of_le hm)
      have hy : Mirrors b (fun κ => κ = .finish ∨ κ = .ended) Same ((means env n).late (.mapped l (changing f)))
          (fun k => (access env k).get Content.finish? j >>= fun x => (access env k).exec (changing f x))
          (put i .forcing s) := by
        rw [Means.late_mapped]
        exact (ih hl).bind_same (fun _ => id) fun x _ _ =>
          (h.exec (changing f x)).imp (fun _ => False.elim) fun _ _ _ => id
      refine .get_pending (g := .finish) hi hb (.inl rfl) (fun k => ?_) (fun _ => rfl) nofun (fun _ _ _ hz _ => hz) hy
      rw [bind_assoc]
      refine bind_congr fun x => ?_
      cases x with
      | plain => rfl
      | committed => rfl
      | failed z message =>
        rw [changing, Access.exec_bind, bind_assoc]
        rfl

end Adequate

/-- Where a remainder is asked for, values stay. -/
theorem ValueAt.after_rest {l : Late Value} {i : Nat} {s' : Heap × World} (hi : ValueAt b s i l)
    (ht : Touches (From b fun κ => κ = .rest ∨ κ = .ended) s s') : ValueAt b s' i l :=
  hi.keep ht fun _ _ _ hc => not_from hc (by simp)

/-- Where a value is asked for, remainders stay. -/
theorem RestAt.after_value {l : Late Context} {i : Nat} {s' : Heap × World} (hi : RestAt b s i l)
    (ht : Touches (From b (· = .value)) s s') : RestAt b s' i l :=
  hi.keep ht fun _ hc => not_from hc (by simp)

/-! ## Commitments -/

namespace Mirrors

variable {K : Kind → Prop}

/-- A commitment to an outcome that is known. -/
theorem commitKnown {a : α} {t : Heap.Settled} {R : α → Outcome → Heap × World → Prop}
    (hR : ∀ i s', b ≤ i → s'.1.cells[i]? = some (.forced (.outcome (.plain t))) → Touches (From b Kind.None) s s' →
      R a (.committed i) s') :
    Mirrors b K R (Pure.pure a) (fun _ => do commit (← known (.outcome (.plain t)))) s := by
  intro hs hb r w hrun _
  cases hrun
  have ht : Touches (From b Kind.None) s (push (.forced (.outcome (.plain t))) (push (.forced (.outcome (.plain t))) s)) :=
    (touches_push _).trans (touches_push _)
  refine ⟨_, _, ⟨0, fun _ _ => commit_forced (push_self _ s)⟩,
    .ok ?_ (ht.weaken (Nat.le_refl _) fun _ => False.elim) (hs.of_lists rfl rfl)⟩
  exact hR _ _ (Nat.le_trans hb (touches_push (T := From b Kind.None) _).size) (push_self _ _) ht

/-- What a frame does, left for later. -/
theorem postpone {a : α} {i : Nat} {f : Frame} {R : α → Outcome → Heap × World → Prop} (hi : i < s.1.cells.size)
    (hR : ∀ k j s', i < j → j < k → s'.1.cells[k]? = some (.pending (.settled j)) →
      s'.1.cells[j]? = some (.pending (.framed true i f)) → Touches (From b Kind.None) s s' → R a (.committed k) s') :
    Mirrors b K R (Pure.pure a) (fun _ => Heap.postpone i f) s := by
  intro hs hb r w hrun _
  cases hrun
  have ht : Touches (From b Kind.None) s (push (.pending (.settled s.1.cells.size)) (push (.pending (.framed true i f)) s)) :=
    (touches_push _).trans (touches_push _)
  refine ⟨_, _, ⟨0, fun _ _ => commit_pending (push_self _ s)⟩,
    .ok ?_ (ht.weaken (Nat.le_refl _) fun _ => False.elim) (hs.of_lists rfl rfl)⟩
  exact hR _ s.1.cells.size _ hi (lt_push _ _) (push_self _ _) (push_old _ (push_self _ s)) ht

end Mirrors

/-- What a success has turned out to be, and the outcome that it is now. -/
inductive RevealedAt (b : Nat) (p : Promise) : Finish → Outcome → Heap × World → Prop
  | plain {s : Heap × World} {rest value} : PromiseAt b s rest value none p.disclosed →
      RevealedAt b p .plain (.plain (.success rest value none)) s
  | committed {s : Heap × World} {i} : UnderAt b s i (.ready (.success p.disclosed)) → RevealedAt b p .committed (.committed i) s
  | failed {s : Heap × World} {i z message} : UnderAt b s i (.ready (.failure z message)) →
      RevealedAt b p (.failed z message) (.committed i) s

/-- What is settled, when nothing is left to be disclosed of it. -/
inductive FullyAt (b : Nat) : OnDemand.Settled → Heap.Settled → Heap × World → Prop
  | success {s : Heap × World} {rest value p} : PromiseAt b s rest value none p →
      FullyAt b (.success p) (.success rest value none) s
  | failure {s : Heap × World} (z message) : FullyAt b (.failure z message) (.failure z message) s

theorem SettledAt.fully {p : Promise} {t : Heap.Settled} (ht : SettledAt b s t (.success p)) (hp : p.finish = none) :
    FullyAt b (.success p) t s := by
  cases ht with
  | @success r v f _ h =>
    have hfinish := h.finish
    rw [hp] at hfinish
    cases hfinish
    exact .success h

namespace Mirrors

variable {i j : Nat} {K : Kind → Prop} {x : Run α}

/-- The outcome that a frame makes of another one. -/
theorem get_framed {R : α → Outcome → Heap × World → Prop} {under : Bool} {f : Frame}
    (hR : ∀ a o s' c, R a o s' → s'.1.cells[i]? = some .forcing → R a o (put i c s'))
    (hi : s.1.cells[i]? = some (.pending (.framed under j f))) (hb : b ≤ i)
    (hx : Mirrors b Kind.Any R x (fun k => (access env k).get Content.outcome? j >>= (access env k).resume under f)
      (put i .forcing s)) :
    Mirrors b Kind.Any R x (fun k => (access env k).get Content.outcome? i) s := by
  refine .get_pending (g := .outcome) hi hb trivial (fun k => ?_) (fun _ => rfl) nofun
    (fun a o s' ho hforcing => hR a o s' _ ho hforcing) hx
  rw [bind_assoc]
  simp only [bind_pure_comp]
  rfl

/-- What an outcome settles to. -/
theorem get_settled {R : α → Heap.Settled → Heap × World → Prop}
    (hR : ∀ a t s' c, R a t s' → s'.1.cells[i]? = some .forcing → R a t (put i c s'))
    (hi : s.1.cells[i]? = some (.pending (.settled j))) (hb : b ≤ i)
    (hx : Mirrors b Kind.Any R x (fun k => (access env k).get Content.outcome? j >>= (access env k).settle)
      (put i .forcing s)) :
    Mirrors b Kind.Any (Plainly R) x (fun k => (access env k).get Content.outcome? i) s := by
  have hy : Mirrors b Kind.Any (Plainly R) x
      (fun k => ((access env k).get Content.outcome? j >>= (access env k).settle) >>= fun t => Pure.pure (Outcome.plain t))
      (put i .forcing s) := by
    rw [← bind_pure x]
    exact hx.bind (fun _ => id) fun a t s' ht _ => .pure ⟨t, rfl, ht⟩
  refine .get_pending (g := .outcome) hi hb trivial (fun k => ?_) (fun _ => rfl) nofun
    (fun a o s' ho hforcing => ?_) hy
  · rw [bind_assoc, bind_assoc]
    rfl
  · obtain ⟨t, rfl, ht⟩ := ho
    exact ⟨t, rfl, hR a t s' _ ht hforcing⟩

/-- A failure under a commitment, and the frames that it passes through. -/
theorem failing {z : Context} {message : String} (hu : UnderAt b s i (.ready (.failure z message))) :
    Mirrors b Kind.Any (Plainly fun _ t _ => t = .failure z message) (Pure.pure ())
      (fun k => (access env k).get Content.outcome? i) s := by
  induction i using Nat.strong_induction_on generalizing s with
  | _ i ih =>
    cases hu with
    | failure _ hi => exact .get_forced hi rfl rfl ⟨_, rfl, rfl⟩
    | @passing _ j k _ _ f hk hj hi hj' hf hu =>
      have hb := hu.mem.1
      have hj₁ : (put i .forcing s).1.cells[j]? = some (.pending (.framed true k f)) :=
        (put_of_ne (Nat.ne_of_lt hj) _ s).trans hj'
      have hu₁ : UnderAt b (put j .forcing (put i .forcing s)) k (.ready (.failure z message)) :=
        (hu.put hi rfl _ (Nat.lt_trans hk hj)).put hj₁ rfl _ hk
      -- a frame that failures pass through gives the failure that it gets
      have hresume : ∀ s, Mirrors b Kind.Any (Plainly fun _ t _ => t = .failure z message) (Pure.pure ())
          (fun k => (access env k).resume true f (.plain (.failure z message))) s := by
        intro s
        cases hf with
        | bind k => exact .pure ⟨_, rfl, rfl⟩
        | loop step =>
          refine Mirrors.later 1 (.pure ⟨_, rfl, rfl⟩) fun k hk => ?_
          cases k with
          | zero => cases hk
          | succ k => rfl
      have hframed : Mirrors b Kind.Any (Plainly fun _ t _ => t = .failure z message) (Pure.pure ())
          (fun k => (access env k).get Content.outcome? j) (put i .forcing s) := by
        refine .get_framed (fun _ _ _ _ ho _ => ho) hj₁ (Nat.le_trans hb (Nat.le_of_lt hk)) ?_
        refine (ih k (Nat.lt_trans hk hj) hu₁).bind (f := fun _ => Pure.pure ()) (fun _ => id) fun _ o s' ho _ => ?_
        obtain ⟨_, rfl, rfl⟩ := ho
        exact hresume s'
      refine .get_settled (fun _ _ _ _ ht _ => ht) hi (Nat.le_trans hb (Nat.le_of_lt (Nat.lt_trans hk hj))) ?_
      refine hframed.bind (f := fun _ => Pure.pure ()) (fun _ => id) fun _ o s' ho _ => ?_
      obtain ⟨_, rfl, rfl⟩ := ho
      exact .pure rfl

/-- What is under a commitment and has settled. -/
theorem ready {t : OnDemand.Settled} (hu : UnderAt b s i (.ready t.toAnswer)) :
    Mirrors b Kind.Any (Plainly fun _ t' s => SettledAt b s t' t) (Pure.pure ())
      (fun k => (access env k).get Content.outcome? i) s := by
  cases t with
  | success p =>
    cases hu with
    | success _ hi hp => exact .get_forced hi rfl rfl ⟨_, rfl, .success hp⟩
  | failure z message =>
    refine (failing hu).imp (fun _ => id) fun _ o s' ho => ?_
    obtain ⟨t, rfl, rfl⟩ := ho
    exact ⟨_, rfl, .failure z message⟩

section Ready

variable {t : OnDemand.Settled} (hu : UnderAt b s i (.ready t.toAnswer)) (ht : ∀ p, t = .success p → p.finish = none)

include hu ht

/-- A success or a failure under a commitment, of which nothing is left to be disclosed. -/
theorem settle_ready : Mirrors b Kind.Any (FullyAt b) (Pure.pure t)
    (fun k => (access env k).settle (.committed i)) s := by
  refine (ready hu).bind (f := fun _ => Pure.pure t) (fun _ => id) fun _ o s' ho _ => ?_
  obtain ⟨t', rfl, ht'⟩ := ho
  refine .pure ?_
  cases t with
  | failure z message =>
    cases ht'
    exact .failure z message
  | success p => exact ht'.fully (ht p rfl)

theorem settleAll_ready : Mirrors b Kind.Any (FullyAt b) (Pure.pure t)
    (fun k => (access env k).settleAll (.committed i)) s := by
  refine (settle_ready hu ht).bind (f := Pure.pure) (fun _ => id) fun t t' s' ht' _ => ?_
  cases ht' with
  | failure z message => exact .pure (.failure z message)
  | success hp => exact .pure (.success hp)

end Ready

/-- The outcome without its commitment, as soon as what is under commitments settles. -/
theorem settle {m : Means} {fuel : Nat} {o : Outcome} {a : Answer} (ho : AnswerAt b s o a)
    (hsettled : ∀ {i u}, UnderAt b s i u → Mirrors b Kind.Any (Plainly (SettledTo b))
      (m.settlement fuel u) (fun k => (access env k).get Content.outcome? i) s) :
    Mirrors b Kind.Any (SettledTo b) (m.settleAnswer fuel a)
      (fun k => (access env k).settle o) s := by
  cases ho with
  | success hp => exact .pure (.success hp)
  | failure z message => exact .pure (.failure z message)
  | committed hu =>
    rw [Means.settleAnswer, ← bind_pure (m.settlement fuel _)]
    refine (hsettled hu).bind (fun _ => id) fun t o s' ho _ => ?_
    obtain ⟨t', rfl, ht⟩ := ho
    exact .pure ht

end Mirrors

namespace Adequate

variable (h : Adequate env n)

include h

/-! ### Outcomes -/

/-- What a success turns out to be. -/
theorem reveal {r v : Nat} {f : Option Nat} {p : Promise} (hp : PromiseAt b s r v f p) :
    Mirrors b Kind.Any (RevealedAt b p) ((means env n).finish p)
      (fun k => (access env k).reveal (.plain (.success r v f))) s := by
  obtain ⟨hr, hv, hf⟩ := hp
  rw [Means.finish_eq]
  generalize hl : p.finish = l at hf
  cases hf with
  | none => exact .pure (.plain ⟨hr, hv, .none⟩)
  | @some i l hf =>
    dsimp only
    rw [← bind_pure ((means env n).late l)]
    refine (h.finish hf).bind_same (fun _ _ => trivial) fun x s' ht => ?_
    have hp : PromiseAt b s' r v none p.disclosed := by
      refine ⟨hr.keep ht fun c hc => not_from hc ?_, hv.keep ht fun j _ c hc => not_from hc ?_, .none⟩ <;> simp
    cases x with
    | plain => exact .pure (.plain hp)
    | committed =>
      exact .commitKnown fun i s'' hb hi ht => .committed (.success hb hi (hp.keep ht fun _ _ _ hc _ => not_from hc id))
    | failed z message => exact .commitKnown fun i s'' hb hi _ => .failed (.failure hb hi)

/-- The outcome without its commitment, and once it is known what a success turns out to be. -/
theorem settleAll (fuel : Nat) {o : Outcome} {a : Answer} (ho : AnswerAt b s o a) :
    Mirrors b Kind.Any (FullyAt b)
      ((means env n).settleAnswer fuel a >>= (means env n).disclosure) (fun k => (access env k).settleAll o) s := by
  refine (Mirrors.settle ho (h.settled fuel)).bind (fun _ => id) fun t t' s' ht _ => ?_
  cases ht with
  | failure z message => exact .pure (.failure z message)
  | @success r v f p hp =>
    cases f with
    | none =>
      have hfinish : (means env n).finish p = pure .plain := by
        have hf := hp.finish
        rw [Means.finish_eq]
        generalize p.finish = l at hf
        cases hf
        rfl
      rw [Means.disclosure, hfinish]
      exact .pure (.success ⟨hp.rest, hp.value, .none⟩)
    | some f =>
      refine (h.reveal hp).bind (fun _ => id) fun f o s'' ho _ => ?_
      cases ho with
      | plain hp => exact .pure (.success hp)
      | committed hu => exact Mirrors.settle_ready (t := .success _) hu fun p hp => by cases hp; rfl
      | failed hu => exact Mirrors.settle_ready (t := .failure _ _) hu fun p hp => by cases hp

/-- The same for an outcome of which it is known already whether it is committed. -/
theorem revealAll (fuel : Nat) {o : Outcome} {a : Answer} (ho : AnswerAt b s o a) :
    Mirrors b Kind.Any (FullyAt b)
      ((means env n).settleAnswer fuel a >>= (means env n).disclosure)
      (fun k => (access env k).reveal o >>= (access env k).settleAll) s := by
  cases ho with
  | failure z message => exact .pure (.failure z message)
  | committed hu => exact h.settleAll fuel (.committed hu)
  | success hp =>
    refine (h.reveal hp).bind (fun _ => id) fun f o s' ho _ => ?_
    cases ho with
    | plain hp => exact .pure (.success hp)
    | committed hu => exact Mirrors.settleAll_ready (t := .success _) hu fun p hp => by cases hp; rfl
    | failed hu => exact Mirrors.settleAll_ready (t := .failure _ _) hu fun p hp => by cases hp

/-! ### Going on -/

/-- The outcome of a parser that is applied anew. -/
theorem fresh (p : Parser) (z : Context) : Mirrors b Kind.Any (Answers b)
    ((means env n).answer (.apply p z)) (fun k => (access env k).fresh p z) s := by
  intro hs hb r w hrun hr
  obtain ⟨i, s', happly, hi, ht, hs'⟩ := applies env p z hs
  obtain ⟨r', h', ⟨m, hm⟩, hmeets⟩ := h.answer hi hs' ht.size r w hrun hr
  refine ⟨r', h', ⟨m, fun k hk => (Hold.bind_of_ok happly).trans (hm k hk)⟩, ?_⟩
  cases hmeets with
  | fault e => exact .fault e
  | ok ho ht' hbeside =>
    exact .ok (ho.lower hb) ((ht.weaken hb fun _ => False.elim).trans (ht'.weaken hb fun _ => id)) hbeside

/-- Going on after a success. -/
theorem proceed (k : Value → Act Parser) {r v : Nat} {p : Promise} (hp : PromiseAt b s r v none p) :
    Mirrors b Kind.Any (Answers b) ((means env n).bindFinished k p .plain)
      (fun j => (access env j).proceed k (.plain (.success r v none))) s := by
  refine (h.rest hp.rest).bind_same (fun _ _ => trivial) fun z s₁ ht => ?_
  have hv : ValueAt b s₁ v p.value := hp.value.after_rest ht
  refine (h.value hv).bind_same (fun _ _ => trivial) fun v s₂ _ => ?_
  refine (h.exec (k v)).bind_same (fun _ => False.elim) fun q s₃ _ => ?_
  exact h.fresh q z

end Adequate

end Heap

end CommittedChoice
