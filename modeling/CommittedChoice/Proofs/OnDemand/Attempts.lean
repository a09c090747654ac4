import CommittedChoice.Proofs.Demands
import CommittedChoice.Proofs.OnDemand.Interruption

/-!
# Attempts that a source stops

An attempt to compute something on demand that a failing call of the source stops leaves it partly computed. What is left is
as far as a run over a source that never fails is somewhere on its way: from there, that run comes to what it would have
come to from its start. So the next attempt goes on beside it.

- `Stage.Tries`: how an attempt ends beside a run that is never stopped. What is parsed from its beginning leaves no trace
  when it is stopped (`Runs.tries`), and neither does a node of a list (`node_tries`); a walk leaves the nodes that it has
  come by (`walk_tries`);
- `Stage.Attempts`: the same for an attempt on something that is kept. It goes through sequencing (`Attempts.bind`);
- `late_attempts`, `turn_attempts`, `resume_attempts`, `settle_attempts`, `force_attempts`: the operations of the engine.
-/

namespace CommittedChoice

open OnDemand
open Run (Steady)

/-- A sequence goes on alike from worlds from which its first part leads to the same. -/
theorem Course.bind_congr_worlds {α β : Type} {x y : Course α} {w w' : World} (h : x w = y w') (f : α → Course β) :
    (x >>= f) w = (y >>= f) w' := by
  rw [bind_apply, bind_apply, h]

namespace Stage

variable {α β φ ψ : Type}

/-- More has been paired, and the source of the first run was read further. -/
structure Since (σ τ : Stage) (w w₁ : World) : Prop where
  le : σ ≤ τ
  later : w.feed.Later w₁.feed

/-- How an attempt ends beside the same run over a source that never fails: like it, or it is stopped at a call that fails,
and then what is left to do in the other run, which is the course `c`, comes to the same from a world that is like the one
that the attempt leaves. -/
inductive Tries (S : Supply) (A : Stage → α → α → Prop) (c : Course β) (σ : Stage) (w w' : World) :
    Except Halt α × World → Except Halt α × World → Prop
  | ok {τ a a' w₁ w₁'} : A τ a a' → Worlds S 0 0 τ w₁ w₁' → Since σ τ w w₁ →
      Tries S A c σ w w' (.ok a, w₁) (.ok a', w₁')
  | fault {τ e w₁ w₁'} : (∀ n, e ≠ .source n) → Worlds S 0 0 τ w₁ w₁' → Since σ τ w w₁ →
      Tries S A c σ w w' (.error (.fault e), w₁) (.error (.fault e), w₁')
  | stopped {τ n w₁ w₁'} (r) : Worlds S 0 0 τ w₁ w₁' → Since σ τ w w₁ → c w₁' = c w' → w'.Before w₁' →
      w.feed.Fails w₁.feed n → Tries S A c σ w w' (.error (.fault (.source n)), w₁) r
  | outOfFuel (w₁ w₁') : Tries S A c σ w w' (.error .outOfFuel, w₁) (.error .outOfFuel, w₁')

/-- The same for an attempt on something that is kept. `Φ` holds of what is kept in the two runs, and `R` says what an answer
leaves in the other run. -/
inductive Attempts (S : Supply) (Φ : Stage → φ → φ → Prop) (A : Stage → α → α → Prop) (R : α → φ → Prop)
    (c : φ → Course β) (σ : Stage) (x' : φ) (w w' : World) :
    Except Halt α × φ × World → Except Halt α × φ × World → Prop
  | ok {τ a a' x₁ x₁' w₁ w₁'} : A τ a a' → Φ τ x₁ x₁' → R a' x₁' → Worlds S 0 0 τ w₁ w₁' → Since σ τ w w₁ →
      Attempts S Φ A R c σ x' w w' (.ok a, x₁, w₁) (.ok a', x₁', w₁')
  | fault {τ e w₁ w₁'} (x₁ x₁') : (∀ n, e ≠ .source n) → Worlds S 0 0 τ w₁ w₁' → Since σ τ w w₁ →
      Attempts S Φ A R c σ x' w w' (.error (.fault e), x₁, w₁) (.error (.fault e), x₁', w₁')
  | stopped {τ n x₁ x₁' w₁ w₁'} (r) : Φ τ x₁ x₁' → Worlds S 0 0 τ w₁ w₁' → Since σ τ w w₁ → c x₁' w₁' = c x' w' →
      w.feed.Fails w₁.feed n → Attempts S Φ A R c σ x' w w' (.error (.fault (.source n)), x₁, w₁) r
  | outOfFuel (x₁ x₁' w₁ w₁') : Attempts S Φ A R c σ x' w w' (.error .outOfFuel, x₁, w₁) (.error .outOfFuel, x₁', w₁')

variable {S : Supply} {σ τ υ : Stage} {w w' w₁ w₁' w₂ : World}

theorem Since.refl (σ : Stage) (w : World) : Since σ σ w w := ⟨le_refl σ, .refl⟩

theorem Since.trans (h : Since σ τ w w₁) (h' : Since τ υ w₁ w₂) : Since σ υ w w₂ :=
  ⟨le_trans h.le h'.le, h.later.trans h'.later⟩

theorem Onward.since {f f' : Nat} (h : Onward f f' σ τ w w' w₁ w₁') : Since σ τ w w₁ := ⟨h.le, h.first.later⟩

/-- A call that failed after some point failed after every earlier one. -/
theorem Since.fails (h : Since σ τ w w₁) {n : Nat} (hn : w₁.feed.Fails w₂.feed n) : w.feed.Fails w₂.feed n :=
  ⟨Nat.lt_of_le_of_lt h.later.calls_le hn.before, hn.after, h.later.source_eq ▸ hn.failed⟩

/-! ## Attempts that keep nothing -/

/-- **What starts from its beginning leaves no trace when it is stopped.** With all lists below the floors, whatever the run
did to lists it did to new ones. -/
theorem Runs.untouched {A : Nat → Nat → Stage → α → α → Prop} {x y : Run α} (h : ∀ f f', Runs S f f' (A f f') σ x y)
    (hw : Worlds S 0 0 σ w w') {n : Nat} (hx : x w = (.error (.fault (.source n)), w₁)) :
    Worlds S 0 0 σ w₁ w' ∧ Since σ σ w w₁ ∧ w.feed.Fails w₁.feed n := by
  have hraised := h _ _ σ (le_refl σ) w w' hw.raise
  rw [hx] at hraised
  generalize y w' = r at hraised
  cases hraised with
  | fault he _ _ => exact absurd rfl (he _)
  | stopped _ hleaves hfails => exact ⟨hw.stopped hleaves, ⟨le_refl σ, hleaves.later⟩, hfails⟩

/-- What starts from its beginning keeps nothing. -/
theorem Runs.tries {A : Nat → Nat → Stage → α → α → Prop} {x y : Run α} (h : ∀ f f', Runs S f f' (A f f') σ x y)
    (hw : Worlds S 0 0 σ w w') (c : Course β) : Tries S (A 0 0) c σ w w' (x w) (y w') := by
  have hends := h 0 0 σ (le_refl σ) w w' hw
  rcases hx : x w with ⟨r, w₁⟩
  rcases hy : y w' with ⟨r', w₁'⟩
  rw [hx, hy] at hends
  cases hends with
  | ok hab hw₁ hon => exact .ok hab hw₁ hon.since
  | fault he hw₁ hon => exact .fault he hw₁ hon.since
  | outOfFuel => exact .outOfFuel _ _
  | stopped _ _ _ =>
    obtain ⟨hw₁, hsince, hfails⟩ := Runs.untouched h hw hx
    exact .stopped _ hw₁ hsince rfl (.refl w') hfails

/-- An attempt whose answer is changed. -/
theorem Tries.map {A : Stage → α → α → Prop} {B : Stage → β → β → Prop} {x y : Run α} (f f' : α → β) {c : Course φ}
    {d : Course ψ} (h : Tries S A c σ w w' (x w) (y w')) (hB : ∀ τ, σ ≤ τ → ∀ a a', A τ a a' → B τ (f a) (f' a'))
    (hc : ∀ w₁', c w₁' = c w' → d w₁' = d w') :
    Tries S B d σ w w' ((x >>= fun a => Pure.pure (f a)) w) ((y >>= fun a => Pure.pure (f' a)) w') := by
  show Tries S B d σ w w' (Run.bind x _ w) (Run.bind y _ w')
  unfold Run.bind
  generalize x w = r at h ⊢
  generalize y w' = r' at h ⊢
  cases h with
  | ok hab hw₁ hsince => exact .ok (hB _ hsince.le _ _ hab) hw₁ hsince
  | fault he hw₁ hsince => exact .fault he hw₁ hsince
  | stopped _ hw₁ hsince hc₁ hbefore hfails => exact .stopped _ hw₁ hsince (hc _ hc₁) hbefore hfails
  | outOfFuel => exact .outOfFuel _ _

/-! ## Attempts on something that is kept -/

section Keeping

variable {γ δ : Type} {Φ Ψ : Stage → φ → φ → Prop} {A : Stage → α → α → Prop} {B : Stage → β → β → Prop} {R : α → φ → Prop}
  {Q : β → φ → Prop} {X Y : Hold φ α} {g k : α → Hold φ β} {cX : φ → Course γ} {c : φ → Course δ} {x x' : φ}

/-- An attempt that keeps nothing, where something else is kept. -/
theorem Tries.lift {y z : Run α} {c₀ : Course γ} (h : Tries S A c₀ σ w w' (z w) (y w'))
    (hΦ : ∀ τ, σ ≤ τ → Φ τ x x') (hR : ∀ a', R a' x') (hc : ∀ w₁', c₀ w₁' = c₀ w' → c x' w₁' = c x' w') :
    Attempts S Φ A R c σ x' w w' (Hold.lift z x w) (Hold.lift y x' w') := by
  unfold Hold.lift
  generalize z w = r at h ⊢
  generalize y w' = r' at h ⊢
  cases h with
  | ok hab hw₁ hsince => exact .ok hab (hΦ _ hsince.le) (hR _) hw₁ hsince
  | fault he hw₁ hsince => exact .fault _ _ he hw₁ hsince
  | stopped _ hw₁ hsince hc₀ _ hfails => exact .stopped _ (hΦ _ hsince.le) hw₁ hsince (hc _ hc₀) hfails
  | outOfFuel => exact .outOfFuel _ _ _ _

namespace Attempts

variable {r r' : Except Halt α × φ × World}

theorem pure {a a' : α} {c : φ → Course β} (hab : A σ a a') (hx : Φ σ x x') (hR : R a' x') (hw : Worlds S 0 0 σ w w') :
    Attempts S Φ A R c σ x' w w' ((Pure.pure a : Hold φ α) x w) ((Pure.pure a' : Hold φ α) x' w') :=
  .ok hab hx hR hw (.refl σ w)

/-- **An attempt at a sequence.** If the first part is stopped, the other run still comes to the same. If the second part is
stopped, then because the first part has kept its answer. -/
theorem bind (hX : Attempts S Φ A R cX σ x' w w' (X x w) (Y x' w')) (hΦ : ∀ τ, σ ≤ τ → ∀ x₁ x₁', Φ τ x₁ x₁' → Ψ τ x₁ x₁')
    (hstop : ∀ τ x₁ x₁' w₁', Φ τ x₁ x₁' → cX x₁' w₁' = cX x' w' → c x₁' w₁' = c x' w')
    (hg : ∀ τ, σ ≤ τ → ∀ a a' x₁ x₁' w₁ w₁', Y x' w' = (.ok a', x₁', w₁') → A τ a a' → Φ τ x₁ x₁' → R a' x₁' →
      Worlds S 0 0 τ w₁ w₁' →
        c x₁' w₁' = c x' w' ∧ Attempts S Ψ B Q c τ x₁' w₁ w₁' (g a x₁ w₁) (k a' x₁' w₁')) :
    Attempts S Ψ B Q c σ x' w w' ((X >>= g) x w) ((Y >>= k) x' w') := by
  show Attempts S Ψ B Q c σ x' w w' (Hold.bind X g x w) (Hold.bind Y k x' w')
  unfold Hold.bind
  generalize X x w = r at hX ⊢
  rcases hY : Y x' w' with ⟨r', x₁', w₁'⟩
  rw [hY] at hX
  cases hX with
  | outOfFuel => exact .outOfFuel _ _ _ _
  | fault _ _ he hw₁ hsince => exact .fault _ _ he hw₁ hsince
  | stopped _ hx hw₁ hsince hc hfails => exact .stopped _ (hΦ _ hsince.le _ _ hx) hw₁ hsince (hstop _ _ _ _ hx hc) hfails
  | @ok τ a a' x₁ _ w₁ _ hab hx hR hw₁ hsince =>
    obtain ⟨hc, hnext⟩ := hg τ hsince.le a a' x₁ x₁' w₁ w₁' hY hab hx hR hw₁
    dsimp only
    generalize g a x₁ w₁ = r at hnext ⊢
    generalize k a' x₁' w₁' = r' at hnext ⊢
    cases hnext with
    | outOfFuel => exact .outOfFuel _ _ _ _
    | fault _ _ he hw₂ hsince₂ => exact .fault _ _ he hw₂ (hsince.trans hsince₂)
    | ok hb hx hQ hw₂ hsince₂ => exact .ok hb hx hQ hw₂ (hsince.trans hsince₂)
    | stopped _ hx hw₂ hsince₂ hc₂ hfails =>
      exact .stopped _ hx hw₂ (hsince.trans hsince₂) (hc₂.trans hc) (hsince.fails hfails)

/-- An attempt whose answer is changed. -/
theorem map (f f' : α → β) (h : Attempts S Φ A R cX σ x' w w' (X x w) (Y x' w')) (hB : ∀ τ a a', A τ a a' → B τ (f a) (f' a'))
    (hQ : ∀ a' x₁', R a' x₁' → Q (f' a') x₁') :
    Attempts S Φ B Q cX σ x' w w' ((X >>= fun a => Pure.pure (f a)) x w) ((Y >>= fun a => Pure.pure (f' a)) x' w') := by
  show Attempts S Φ B Q cX σ x' w w' (Hold.bind X _ x w) (Hold.bind Y _ x' w')
  unfold Hold.bind
  generalize X x w = r at h ⊢
  generalize Y x' w' = r' at h ⊢
  cases h with
  | ok hab hx hR hw₁ hsince => exact .ok (hB _ _ _ hab) hx (hQ _ _ hR) hw₁ hsince
  | fault _ _ he hw₁ hsince => exact .fault _ _ he hw₁ hsince
  | stopped _ hx hw₁ hsince hc₁ hfails => exact .stopped _ hx hw₁ hsince hc₁ hfails
  | outOfFuel => exact .outOfFuel _ _ _ _

/-- An attempt whose answer is kept in the end. -/
theorem keeping (f f' : α → φ) (h : Attempts S Φ A R cX σ x' w w' (X x w) (Y x' w'))
    (hΦ : ∀ τ a a', A τ a a' → Φ τ (f a) (f' a')) :
    Attempts S Φ A (fun a' x' => x' = f' a') cX σ x' w w' ((X >>= fun a => Hold.set (f a) >>= fun _ => Pure.pure a) x w)
      ((Y >>= fun a => Hold.set (f' a) >>= fun _ => Pure.pure a) x' w') := by
  show Attempts S Φ A _ cX σ x' w w' (Hold.bind X _ x w) (Hold.bind Y _ x' w')
  unfold Hold.bind
  generalize X x w = r at h ⊢
  generalize Y x' w' = r' at h ⊢
  cases h with
  | ok hab _ _ hw₁ hsince => exact .ok hab (hΦ _ _ _ hab) rfl hw₁ hsince
  | fault _ _ he hw₁ hsince => exact .fault _ _ he hw₁ hsince
  | stopped _ hx hw₁ hsince hc₁ hfails => exact .stopped _ hx hw₁ hsince hc₁ hfails
  | outOfFuel => exact .outOfFuel _ _ _ _

/-- What is known of an attempt in other words. -/
theorem imp {Q : α → φ → Prop} {z' : φ} (h : Attempts S Φ A R cX σ x' w w' r r') (hΦ : ∀ τ x₁ x₁', Φ τ x₁ x₁' → Ψ τ x₁ x₁')
    (hR : ∀ τ a' x₁ x₁', Φ τ x₁ x₁' → R a' x₁' → Q a' x₁')
    (hc : ∀ τ x₁ x₁' w₁', Φ τ x₁ x₁' → cX x₁' w₁' = cX x' w' → c x₁' w₁' = c z' w') :
    Attempts S Ψ A Q c σ z' w w' r r' := by
  cases h with
  | ok hab hx hR₁ hw₁ hsince => exact .ok hab (hΦ _ _ _ hx) (hR _ _ _ _ hx hR₁) hw₁ hsince
  | fault _ _ he hw₁ hsince => exact .fault _ _ he hw₁ hsince
  | stopped _ hx hw₁ hsince hc₁ hfails => exact .stopped _ (hΦ _ _ _ hx) hw₁ hsince (hc _ _ _ _ hx hc₁) hfails
  | outOfFuel => exact .outOfFuel _ _ _ _

/-- What is kept is kept at a later stage. -/
theorem since (h : Attempts S Φ A R cX σ x' w w' r r') :
    Attempts S (fun τ x₁ x₁' => σ ≤ τ ∧ Φ τ x₁ x₁') A R cX σ x' w w' r r' := by
  cases h with
  | ok hab hx hR hw₁ hsince => exact .ok hab ⟨hsince.le, hx⟩ hR hw₁ hsince
  | fault _ _ he hw₁ hsince => exact .fault _ _ he hw₁ hsince
  | stopped _ hx hw₁ hsince hc hfails => exact .stopped _ ⟨hsince.le, hx⟩ hw₁ hsince hc hfails
  | outOfFuel => exact .outOfFuel _ _ _ _

/-- An attempt on a part. -/
theorem within {Ψ : Stage → ψ → ψ → Prop} {Q : α → ψ → Prop} (wrap wrap' : φ → ψ) {z z' : ψ} {c : ψ → Course β}
    (h : Attempts S Φ A R cX σ x' w w' (X x w) (Y x' w'))
    (hΦ : ∀ τ, σ ≤ τ → ∀ x₁ x₁', Φ τ x₁ x₁' → Ψ τ (wrap x₁) (wrap' x₁')) (hR : ∀ a' x₁', R a' x₁' → Q a' (wrap' x₁'))
    (hc : ∀ x₁' w₁', cX x₁' w₁' = cX x' w' → c (wrap' x₁') w₁' = c z' w') :
    Attempts S Ψ A Q c σ z' w w' (Hold.within wrap x X z w) (Hold.within wrap' x' Y z' w') := by
  unfold Hold.within
  generalize X x w = r at h ⊢
  generalize Y x' w' = r' at h ⊢
  cases h with
  | ok hab hx hR₁ hw₁ hsince => exact .ok hab (hΦ _ hsince.le _ _ hx) (hR _ _ hR₁) hw₁ hsince
  | fault _ _ he hw₁ hsince => exact .fault _ _ he hw₁ hsince
  | stopped _ hx hw₁ hsince hc₁ hfails => exact .stopped _ (hΦ _ hsince.le _ _ hx) hw₁ hsince (hc _ _ hc₁) hfails
  | outOfFuel => exact .outOfFuel _ _ _ _

end Attempts

end Keeping

end Stage

namespace OnDemand

open Stage

variable {env : Env} (hg : ∀ name, (env.grammar name).Pure) {S : Supply} {σ : Stage} {w w' : World}

/-! ## Answers that some fuel gives -/

section Fuel

variable {n : Nat}

theorem rest_of_force {p p' : Promise} {z : Context}
    (h : Promise.forceRest env (means env n).lists p w = (.ok z, p', w')) : late env p.rest w = some (.ok z, w') := by
  unfold Promise.forceRest at h
  rcases hl : p.rest.force env (means env n).lists w with ⟨r, l', w₁⟩
  rw [hl] at h
  cases h
  exact late_of_force hl

theorem value_of_force {p p' : Promise} {v : Value}
    (h : Promise.forceValue env (means env n).lists p w = (.ok v, p', w')) : late env p.value w = some (.ok v, w') := by
  unfold Promise.forceValue at h
  rcases hl : p.value.force env (means env n).lists w with ⟨r, l', w₁⟩
  rw [hl] at h
  cases h
  exact late_of_force hl

theorem finish_of_disclose {p p' : Promise} {x : Finish}
    (h : Promise.disclose env (means env n).lists p w = (.ok x, p', w')) : finish env p w = some (.ok x, w') := by
  refine (Run.limit_eq_some (steady_finish env p)).2 ⟨n, ?_⟩
  show Hold.on p (Promise.disclose env (means env n).lists) w = _
  unfold Hold.on
  rw [h]
  rfl

theorem settle_of_settle {k : Nat} (hk : k ≤ n) {s s' : Suspended} {t : Settled}
    (h : (means env n).settle k s w = (.ok t, s', w')) : settle env s w = some (.ok t, w') := by
  refine (Run.limit_eq_some (steady_settlement env s)).2 ⟨n, ?_⟩
  have hon : (means env n).settlement k s w = (.ok t, w') := by
    unfold Means.settlement Hold.on
    rw [h]
  have hle : Run.Le ((means env n).settlement k s) ((means env n).settlement n s) :=
    (Means.Related.refl _).settlement .le hk s
  rcases hle w with hfuel | heq
  · rw [hon] at hfuel
    cases hfuel
  · exact heq.trans hon

theorem turnAnswer_of_turn {step : Value → Act Parser} {a a' : Answer} {t : Means.Turn}
    (h : (means env n).turn n step true a w = (.ok t, a', w')) : turnAnswer step env true a w = some (.ok t, w') := by
  refine (Run.limit_eq_some (steady_turnAnswer env step true a)).2 ⟨n, ?_⟩
  show (means env n).turnAnswer n step true a w = _
  rw [← Means.on_turn]
  unfold Hold.on
  rw [h]
  rfl

theorem node_of_ok {i : Nat} {x : Node} (h : node env n i w = (.ok x, w')) : nodeAt env i w = some (.ok x, w') :=
  (Run.limit_eq_some (steady_node env i)).2 ⟨n, h⟩

end Fuel

/-! ## Reading lists -/

/-- A node that is stopped at a call of the source was waiting, and the call was made while its item was parsed. -/
theorem node_stopped {n l k c : Nat} {w w₁ : World}
    (h : node env (n + 1) (nodeNumber l k) w = (.error (.fault (.source c)), w₁)) :
    ∃ u w₂, (w.nodesOf l)[k]? = some (.pending u) ∧
      (means env n).parseItem n u ((World.listNodes l).set k .forcing w) = (.error (.fault (.source c)), w₂) ∧
      w₁ = (World.listNodes l).set k (.pending u) w₂ := by
  rw [node_succ] at h
  dsimp only at h
  rw [listOf_nodeNumber, placeOf_nodeNumber] at h
  split at h
  · unfold Table.force at h
    split at h
    · cases h
    · rename_i u hu
      have hcompute : ∀ w, (means env n).computeNode n l u w =
          Run.bind ((means env n).parseItem n u) ((means env n).extend l u) w := by
        intro w
        rw [Means.computeNode_eq_parseItem]
        rfl
      rw [hcompute] at h
      unfold Run.bind at h
      rcases hparse : (means env n).parseItem n u ((World.listNodes l).set k .forcing w) with ⟨e | x, w₂⟩
      · rw [hparse] at h
        cases h
        exact ⟨u, w₂, hu, hparse, rfl⟩
      · -- a node that was parsed is added without a call
        rw [hparse] at h
        cases x <;> cases h
    · cases h
    · cases h
  · cases h

include hg

/-- A node that is stopped waits again, and no other node is touched. -/
theorem node_leaves {n : Nat} {i i' : Nat} (hi : σ.Places i i') (hw : Worlds S 0 0 σ w w') {c : Nat} {w₁ : World}
    (h : node env n i w = (.error (.fault (.source c)), w₁)) : w.Leaves w.lists.size w₁ := by
  cases n with
  | zero => cases h
  | succ n =>
    obtain ⟨hl, k⟩ := hi
    rename_i l l'
    obtain ⟨u, w₂, hnode, hparse, rfl⟩ := node_stopped h
    obtain ⟨u', -, hu⟩ : ∃ u', (w'.nodesOf l')[k]? = some (.pending u') ∧ σ.Waits u u' := by
      have hcell := hw.same l l' hl (Nat.zero_le _) (Nat.zero_le _) k
      rw [hnode] at hcell
      generalize (w'.nodesOf l')[k]? = c' at hcell ⊢
      cases hcell with
      | some hcell =>
        cases hcell with
        | @pending _ u' hu => exact ⟨u', rfl, hu⟩
    obtain ⟨hwf, -⟩ := hw.set hl (Nat.zero_le _) (Nat.zero_le _) k .forcing
    have hitem := (means_paired (S := S) hg n).parseItem hu n σ (le_refl σ) _ _ hwf.raise
    rw [hparse] at hitem
    generalize (means env n).parseItem n u' _ = r' at hitem
    cases hitem with
    | fault he _ _ => exact absurd rfl (he _)
    | stopped _ hleaves _ =>
      have hsize : ∀ (c : Cell Unparsed Node) (w : World), ((World.listNodes l).set k c w).lists.size = w.lists.size :=
        fun _ _ => Array.size_modify
      have hbelow := hleaves.below
      have hgrows := hleaves.size
      rw [hsize] at hbelow hgrows
      refine ⟨hleaves.later, hleaves.made, Nat.le_trans hgrows (Nat.le_of_eq (hsize _ _).symm), fun m hm => ?_⟩
      rw [World.nodesOf_set, hbelow m hm, World.nodesOf_set]
      split
      · subst m
        rw [Array.setIfInBounds_setIfInBounds]
        refine Array.ext_getElem? fun j => ?_
        rw [Array.getElem?_setIfInBounds]
        split
        · subst j
          rw [hnode, if_pos (Array.getElem?_eq_some_iff.1 hnode).1]
        · rfl
      · rfl

/-- **A node that is stopped leaves no trace.** -/
theorem node_tries (n : Nat) {i i' : Nat} (hi : σ.Places i i') (hw : Worlds S 0 0 σ w w') :
    Tries S (Nodes (listOf i) (listOf i')) (nodeAt env i') σ w w' (node env n i w) (node env n i' w') := by
  have hends := (means_paired (S := S) hg n).node ⟨hi, Nat.zero_le _, Nat.zero_le _⟩ σ (le_refl σ) w w' hw
  change Ends S 0 0 _ σ w w' (node env n i w) (node env n i' w') at hends
  rcases hx : node env n i w with ⟨r, w₁⟩
  rw [hx] at hends
  generalize node env n i' w' = r' at hends ⊢
  cases hends with
  | ok hab hw₁ hon => exact .ok hab hw₁ hon.since
  | fault he hw₁ hon => exact .fault he hw₁ hon.since
  | outOfFuel => exact .outOfFuel _ _
  | stopped _ _ hfails =>
    have hleaves := node_leaves hg hi hw hx
    exact .stopped _ (hw.stopped hleaves) ⟨le_refl σ, hleaves.later⟩ rfl (.refl w') hfails

/-- What a walk reads, and what was read before it, in both runs. -/
def Walked (τ : Stage) (x y : List Value × ListEnd) : Prop := List.Forall₂ τ.Values x.1 y.1 ∧ τ.Stops x.2 y.2

/-- **A walk that is stopped has come some way.** The nodes up to there are known, and the next walk goes by them. -/
theorem walk_tries (n : Nat) : ∀ (fuel : Nat) {σ : Stage} {w w' : World} {i i' : Nat} (_ : σ.Places i i')
    {done done' : List Value} (_ : List.Forall₂ σ.Values done done') (_ : Worlds S 0 0 σ w w'),
    Tries S Walked (walkFrom env i' done') σ w w' (walk (node env n) fuel i done w) (walk (node env n) fuel i' done' w')
  | 0, _, _, _, _, _, _, _, _, _, _ => .outOfFuel _ _
  | fuel + 1, σ, w, w', i, i', hi, done, done', hdone, hw => by
    have hnode := node_tries hg n hi hw
    show Tries S Walked _ σ w w' (Run.bind (node env n i) _ w) (Run.bind (node env n i') _ w')
    unfold Run.bind
    generalize node env n i w = r at hnode ⊢
    rcases hy : node env n i' w' with ⟨r', w₁'⟩
    rw [hy] at hnode
    cases hnode with
    | outOfFuel => exact .outOfFuel _ _
    | fault he hw₁ hsince => exact .fault he hw₁ hsince
    | stopped _ hw₁ hsince hc hbefore hfails =>
      refine .stopped _ hw₁ hsince ?_ hbefore hfails
      rw [walkFrom_eq]
      exact Course.bind_congr_worlds hc _
    | @ok τ x x' w₁ _ hx hw₁ hsince =>
      have hdone := Values.mono_all hsince.le hdone
      have hat := node_of_ok hy
      have hgrows : w'.Before w₁' := by
        have h := (means_grows env n).node i' w'
        rwa [show (means env n).lists.node i' w' = (.ok x', w₁') from hy] at h
      cases hx with
      | @ended e e' he => exact .ok ⟨List.rel_reverse hdone, he⟩ hw₁ hsince
      | @item v v' k hv hl =>
        have hnext := walk_tries n fuel (.mk hl k) (.cons hv hdone) hw₁
        dsimp only
        generalize walk (node env n) fuel (nodeNumber (listOf i) k) (v :: done) w₁ = r at hnext ⊢
        generalize walk (node env n) fuel (nodeNumber (listOf i') k) (v' :: done') w₁' = r' at hnext ⊢
        cases hnext with
        | outOfFuel => exact .outOfFuel _ _
        | fault he hw₂ hsince₂ => exact .fault he hw₂ (hsince.trans hsince₂)
        | ok hx hw₂ hsince₂ => exact .ok hx hw₂ (hsince.trans hsince₂)
        | @stopped υ c w₂ w₂' _ hw₂ hsince₂ hc hbefore hfails =>
          refine .stopped _ hw₂ (hsince.trans hsince₂) ?_ (hgrows.trans hbefore) (hsince.fails hfails)
          -- the node that this walk has come by is known in the later world
          have hknown : nodeAt env i' w₂' = some (.ok _, w₂') := nodeAt_of_cell (hbefore.cell (cell_of_node hy))
          rw [walkFrom_eq, Course.bind_of_ok hknown, Course.bind_of_ok hat]
          exact hc

/-! ## Parts of a success -/

omit hg in
/-- What callbacks do leaves no trace when it is stopped. -/
theorem exec_tries (env : Env) (n : Nat) {α : Type} {A : Stage → α → α → Prop} (hA : Monotone A) {act act' : Act α}
    (hact : Acts A σ act act') (hw : Worlds S 0 0 σ w w') :
    Tries S A (exec env act') σ w w' ((means env n).exec act w) ((means env n).exec act' w') :=
  Runs.tries (A := fun _ _ => A) (fun _ _ => hact.runs hA) hw _

omit hg in
/-- A function of the end of a list. -/
theorem force_walked {α : Type} (n i : Nat) (g : ListEnd → α) (w : World) :
    (Late.later (.walk i fun _ e => .pure (g e))).force env (means env n).lists w =
      (Hold.lift (walk (node env n) n i [] >>= fun x => pure (g x.2)) >>= fun a => Hold.set (.known a) >>= fun _ => pure a)
        (.later (.walk i fun _ e => .pure (g e))) w := by
  have hexec : (Act.walk i fun _ e => .pure (g e)).exec env (means env n).lists =
      (walk (node env n) n i [] >>= fun x => pure (g x.2)) := by
    rw [Act.exec_walk]
    rfl
  show _ = Hold.bind (Hold.lift _) _ _ w
  unfold Hold.bind Hold.lift
  rw [Late.force, hexec]
  rcases (walk (node env n) n i [] >>= fun x => pure (g x.2)) w with ⟨_ | a, w₁⟩ <;> rfl

omit hg in
theorem force_mapped {α : Type} (n : Nat) (l : Late α) (f : α → Act α) (w : World) :
    (Late.mapped l f).force env (means env n).lists w =
      (Hold.within (fun l => .mapped l f) l (Late.force env (means env n).lists) >>= fun a =>
        Hold.lift ((means env n).exec (f a)) >>= fun b => Hold.set (.known b) >>= fun _ => pure b) (.mapped l f) w := by
  show _ = Hold.bind (Hold.within (fun l => Late.mapped l f) l (Late.force env (means env n).lists)) _ _ w
  unfold Hold.bind
  rw [Late.force]
  dsimp only [Hold.within]
  rcases l.force env (means env n).lists w with ⟨_ | a, l₁, w₁⟩
  · rfl
  · show _ = Hold.bind (Hold.lift ((f a).exec env (means env n).lists)) _ (Late.mapped l₁ f) w₁
    unfold Hold.bind Hold.lift
    dsimp only
    rcases (f a).exec env (means env n).lists w₁ with ⟨_ | b, w₂⟩ <;> rfl

/-- The value of something late. -/
theorem late_attempts (n : Nat) {α : Type} {A : Stage → α → α → Prop} (hA : Monotone A) {l l' : Late α}
    (hl : Lates 0 0 σ A l l') {w w' : World} (hw : Worlds S 0 0 σ w w') :
    Attempts S (fun τ => Lates 0 0 τ A) A (fun a' l' => l' = .known a') (late env) σ l' w w'
      (l.force env (means env n).lists w) (l'.force env (means env n).lists w') := by
  have hkept : ∀ τ a a', A τ a a' → Lates 0 0 τ A (.known a) (.known a') := fun _ _ _ hab => .known hab
  induction hl generalizing w w' with
  | known hab => exact .ok hab (.known hab) rfl hw (.refl σ w)
  | @walked i i' g hi hwalked =>
    have htries : Tries S A (late env (.later (.walk i' fun _ e => .pure (g e)))) σ w w'
        ((walk (node env n) n i [] >>= fun x => pure (g x.2)) w)
        ((walk (node env n) n i' [] >>= fun x => pure (g x.2)) w') := by
      refine (walk_tries hg n n hi.places .nil hw).map _ _ (fun τ hτ x y hxy => hwalked τ hτ _ _ hxy.2) fun w₁' hc => ?_
      rw [late_later, exec_walk]
      exact Course.bind_congr_worlds hc _
    rw [force_walked, force_walked]
    refine Attempts.keeping (R := fun _ _ => True) _ _ (htries.lift (fun τ hτ => ?_) (fun _ => trivial) fun _ hc => hc) hkept
    exact (Lates.walked g hi hwalked).mono hA hτ
  | @mapped l l' h h' hl hh ih =>
    rw [force_mapped, force_mapped]
    have hpart : Attempts S (fun τ => Lates 0 0 τ A) A (fun a' l => l = .mapped (.known a') h') (late env) σ (.mapped l' h')
        w w' (Hold.within (fun l => .mapped l h) l (Late.force env (means env n).lists) (.mapped l h) w)
        (Hold.within (fun l => .mapped l h') l' (Late.force env (means env n).lists) (.mapped l' h') w') := by
      refine Attempts.within _ _ (ih hw) (fun τ hτ _ _ hl => .mapped hl fun υ hυ => hh υ (le_trans hτ hυ)) ?_ ?_
      · rintro a' _ rfl
        rfl
      · intro l₁' w₁' hc
        rw [late_mapped, late_mapped]
        exact Course.bind_congr_worlds hc _
    refine hpart.bind (fun _ _ _ _ h => h) (fun _ _ _ _ _ hc => hc) ?_
    rintro τ hτ a a' l₁ _ w₁ w₁' hy hab hl₁ rfl hw₁
    have hmapped : late env (.mapped (.known a') h') = exec env (h' a') := by rw [late_mapped, late_known, pure_bind]
    obtain ⟨_, hy, -⟩ := Hold.within_eq hy
    refine ⟨?_, Attempts.keeping (R := fun _ _ => True) _ _ ?_ hkept⟩
    · rw [hmapped, late_mapped, Course.bind_of_ok (late_of_force hy)]
    · refine (exec_tries env n hA (hh τ hτ a a' hab) hw₁).lift (fun υ hυ => hl₁.mono hA hυ) (fun _ => trivial) fun w₂' hc => ?_
      rw [hmapped]
      exact hc

section Success

variable (n : Nat) {p p' : Promise} (hp : Promises 0 0 σ p p') (hw : Worlds S 0 0 σ w w')

include hp hw

/-- The context after a success. -/
theorem rest_attempts : Attempts S
    (fun τ q q' => ∃ l l', q = { p with rest := l } ∧ q' = { p' with rest := l' } ∧ Lates 0 0 τ Contexts l l') Contexts
    (fun z' q' => q' = { p' with rest := .known z' }) (fun q' => late env q'.rest) σ p' w w'
    (Promise.forceRest env (means env n).lists p w) (Promise.forceRest env (means env n).lists p' w') := by
  refine Attempts.within (z := p) (fun l => { p with rest := l }) (fun l => { p' with rest := l })
    (late_attempts hg n contexts_monotone hp.rest hw) ?_ ?_ ?_
  · exact fun τ _ l l' hl => ⟨l, l', rfl, rfl, hl⟩
  · rintro z' _ rfl
    rfl
  · exact fun _ _ hc => hc

/-- The value of a success. -/
theorem value_attempts : Attempts S
    (fun τ q q' => ∃ l l', q = { p with value := l } ∧ q' = { p' with value := l' } ∧ Lates 0 0 τ Values l l') Values
    (fun v' q' => q' = { p' with value := .known v' }) (fun q' => late env q'.value) σ p' w w'
    (Promise.forceValue env (means env n).lists p w) (Promise.forceValue env (means env n).lists p' w') := by
  refine Attempts.within (z := p) (fun l => { p with value := l }) (fun l => { p' with value := l })
    (late_attempts hg n values_monotone hp.value hw) ?_ ?_ ?_
  · exact fun τ _ l l' hl => ⟨l, l', rfl, rfl, hl⟩
  · rintro v' _ rfl
    rfl
  · exact fun _ _ hc => hc

/-- What a success turns out to be. -/
theorem disclose_attempts : Attempts S
    (fun τ q q' => ∃ l l', q = { p with finish := l } ∧ q' = { p' with finish := l' } ∧
      Option.Rel (Lates 0 0 τ Finishes) l l') Finishes
    (fun finish' q' => finish env q' = pure finish') (finish env) σ p' w w'
    (Promise.disclose env (means env n).lists p w) (Promise.disclose env (means env n).lists p' w') := by
  have hfinish := hp.finish
  have hrun : ∀ {q : Promise} {l} {w : World}, q.finish = some l → Promise.disclose env (means env n).lists q w =
      Hold.within (fun l => { q with finish := some l }) l (Late.force env (means env n).lists) q w := by
    intro q l w hl
    unfold Promise.disclose
    rw [hl]
    rfl
  have hnone : ∀ {q : Promise} {w : World}, q.finish = none →
      Promise.disclose env (means env n).lists q w = (.ok .plain, q, w) := by
    intro q w hl
    unfold Promise.disclose
    rw [hl]
  rcases hl : p.finish with _ | l <;> rcases hl' : p'.finish with _ | l' <;> rw [hl, hl'] at hfinish
  · rw [hnone hl, hnone hl']
    refine .ok .plain ⟨none, none, ?_, ?_, .none⟩ (finish_of_none hl') hw (.refl σ w)
    · rw [← hl]
    · rw [← hl']
  · cases hfinish
  · cases hfinish
  · have hlate : Lates 0 0 σ Finishes l l' := by cases hfinish; assumption
    rw [hrun hl, hrun hl']
    refine Attempts.within _ (fun l => { p' with finish := some l }) (late_attempts hg n finishes_monotone hlate hw) ?_ ?_ ?_
    · exact fun τ _ l l' hl => ⟨some l, some l', rfl, rfl, .some hl⟩
    · rintro finish' _ rfl
      exact (finish_of_some rfl).trans (late_known _)
    · intro l₁ w₁' hc
      rw [finish_of_some rfl, finish_of_some hl']
      exact hc

omit hg hw in
/-- A success with other parts that are the same. -/
theorem Promises.withRest {l l' : Late Context} (hl : Lates 0 0 σ Contexts l l') :
    Promises 0 0 σ { p with rest := l } { p' with rest := l' } := ⟨hl, hp.value, hp.finish⟩

omit hg hw in
theorem Promises.withValue {l l' : Late Value} (hl : Lates 0 0 σ Values l l') :
    Promises 0 0 σ { p with value := l } { p' with value := l' } := ⟨hp.rest, hl, hp.finish⟩

omit hg hw in
theorem Promises.withFinish {l l' : Option (Late Finish)} (hl : Option.Rel (Lates 0 0 σ Finishes) l l') :
    Promises 0 0 σ { p with finish := l } { p' with finish := l' } := ⟨hp.rest, hp.value, hl⟩

/-- Going on after a success. -/
theorem bindPromise_attempts {k k' : Value → Act Parser} (hk : Functions Parsers σ k k') :
    Attempts S (Promises 0 0) (Answers 0 0) (fun _ _ => True) (fun q' => finish env q' >>= bindFinished env k' q') σ p' w w'
      ((means env n).bindPromise k p w) ((means env n).bindPromise k' p' w') := by
  refine (disclose_attempts hg n hp hw).bind ?_ ?_ ?_
  · rintro τ hτ _ _ ⟨l, l', rfl, rfl, hl⟩
    exact Promises.withFinish (hp.mono hτ) hl
  · rintro τ _ _ w₁' ⟨l, l', rfl, rfl, -⟩ hc
    exact Course.bind_congr_worlds hc _
  rintro τ hτ finish₁ finish₁' _ _ w₁ w₁' hy hfinish ⟨l, l', rfl, rfl, hl⟩ hdone hw₁
  have hp := Promises.withFinish (hp.mono hτ) hl
  have hk := hk.mono hτ
  refine ⟨?_, ?_⟩
  · rw [hdone, pure_bind, Course.bind_of_ok (finish_of_disclose hy)]
    cases finish₁' <;> rfl
  cases hfinish with
  | committed => exact .pure (.committed (.framed (.ready (.success hp.disclosed)) (.bind hk))) hp trivial hw₁
  | failed m hz => exact .pure (.committed (.ready (.failure m hz))) hp trivial hw₁
  | plain =>
    -- the finish is known from here on
    have hplain : ∀ q' : Promise, q'.finish = l' → (finish env q' >>= bindFinished env k' q') =
        late env q'.rest >>= fun z => late env q'.value >>= fun v => exec env (k' v) >>= fun q => answer env (.apply q z) := by
      intro q' hq'
      rw [finish_congr (p := q') (q := { p' with finish := l' }) hq', hdone, pure_bind]
      rfl
    refine (rest_attempts hg n hp hw₁).bind ?_ ?_ ?_
    · rintro υ hυ _ _ ⟨r, r', rfl, rfl, hr⟩
      exact Promises.withRest (hp.mono hυ) hr
    · rintro υ _ _ w₂' ⟨r, r', rfl, rfl, -⟩ hc
      rw [hplain _ rfl, hplain _ rfl]
      exact Course.bind_congr_worlds hc _
    rintro υ hυ z z' _ _ w₂ w₂' hy₂ hz ⟨r, r', rfl, rfl, hr⟩ hknown hw₂
    obtain rfl : r' = .known z' := congrArg Promise.rest hknown
    have hp := Promises.withRest (hp.mono hυ) hr
    refine ⟨?_, (value_attempts hg n hp hw₂).bind ?_ ?_ ?_⟩
    · rw [hplain _ rfl, hplain _ rfl, late_known, pure_bind]
      rw [Course.bind_of_ok (rest_of_force hy₂)]
    · rintro φ hφ _ _ ⟨v, v', rfl, rfl, hv⟩
      exact Promises.withValue (hp.mono hφ) hv
    · rintro φ _ _ w₃' ⟨v, v', rfl, rfl, -⟩ hc
      rw [hplain _ rfl, hplain _ rfl, late_known, pure_bind, pure_bind]
      exact Course.bind_congr_worlds hc _
    rintro φ hφ v v' _ _ w₃ w₃' hy₃ hv ⟨u, u', rfl, rfl, hu⟩ hknown hw₃
    obtain rfl : u' = .known v' := congrArg Promise.value hknown
    have hp := Promises.withValue (hp.mono hφ) hu
    refine ⟨?_, ?_⟩
    · rw [hplain _ rfl, hplain _ rfl, late_known, late_known, pure_bind, pure_bind, pure_bind]
      rw [Course.bind_of_ok (value_of_force hy₃)]
    · -- what goes on starts from its beginning
      have hgo : ∀ f f', Runs S f f' (Answers f f') φ ((means env n).exec (k v) >>= fun q => (means env n).answer (.apply q z))
          ((means env n).exec (k' v') >>= fun q => (means env n).answer (.apply q z')) := fun f f' =>
        ((hk.mono hυ φ hφ v v' hv).runs parsers_monotone).bind fun χ hχ q q' hq =>
          (means_paired hg n).answer (.apply hq (hz.mono (le_trans hφ hχ)))
      refine (Runs.tries hgo hw₃ (exec env (k' v') >>= fun q => answer env (.apply q z'))).lift ?_ (fun _ => trivial) ?_
      · exact fun χ hχ => hp.mono hχ
      · intro w₄' hc
        rw [hplain _ rfl, late_known, late_known, pure_bind, pure_bind]
        exact hc

section Turn

variable (step step' : Value → Act Parser)

/-- A turn that succeeded and whose finish does not end the turns. -/
theorem turnValue_attempts : Attempts S (fun τ q q' => Promises 0 0 τ q q' ∧ q'.finish = p'.finish) (Turns 0 0)
    (fun t' q' => turnValue env q' = pure t') (turnValue env) σ p' w w'
    ((means env n).keepTurnValue p w) ((means env n).keepTurnValue p' w') := by
  refine (value_attempts hg n hp hw).bind ?_ ?_ ?_
  · rintro τ hτ _ _ ⟨v, v', rfl, rfl, hv⟩
    exact ⟨Promises.withValue (hp.mono hτ) hv, rfl⟩
  · rintro τ _ _ w₁' ⟨v, v', rfl, rfl, -⟩ hc
    exact Course.bind_congr_worlds hc _
  rintro τ hτ v v' _ _ w₁ w₁' hy hv ⟨l, l', rfl, rfl, hl⟩ hknown hw₁
  obtain rfl : l' = .known v' := congrArg Promise.value hknown
  have hp := Promises.withValue (hp.mono hτ) hl
  have hvalue (q' : Promise) (hq' : q'.value = .known v') := turnValue_known env hq'
  refine ⟨?_, ?_⟩
  · show _ = (late env p'.value >>= _) w'
    rw [Course.bind_of_ok (value_of_force hy)]
    refine congrFun ((hvalue _ rfl).trans ?_) w₁'
    cases v'.toStep <;> rfl
  have hstep := hv.toStep
  generalize v.toStep = s at hstep ⊢
  generalize hs' : v'.toStep = s' at hstep hvalue ⊢
  cases hstep with
  | done hv =>
    have hdone := hvalue { p' with value := .known v' } rfl
    exact .ok (.finished (.success ⟨hp.rest, .known hv, .none⟩)) ⟨hp, rfl⟩ hdone hw₁ (.refl τ w₁)
  | @again u u' hu =>
    refine (rest_attempts hg n hp hw₁).bind ?_ ?_ ?_
    · rintro υ hυ _ _ ⟨r, r', rfl, rfl, hr⟩
      exact ⟨Promises.withRest (hp.mono hυ) hr, rfl⟩
    · rintro υ _ _ w₂' ⟨r, r', rfl, rfl, -⟩ hc
      rw [hvalue _ rfl, hvalue _ rfl]
      exact Course.bind_congr_worlds hc _
    rintro υ hυ z z' _ _ w₂ w₂' hy₂ hz ⟨r, r', rfl, rfl, hr⟩ hknown hw₂
    obtain rfl : r' = .known z' := congrArg Promise.rest hknown
    have hagain : turnValue env { p' with value := .known v', rest := .known z' } = pure (.again u' z') := by
      rw [hvalue _ rfl, late_known]
      exact pure_bind _ _
    refine ⟨?_, .pure (.again (hu.mono hυ) hz) ⟨Promises.withRest (hp.mono hυ) hr, rfl⟩ hagain hw₂⟩
    rw [hagain, hvalue _ rfl]
    show _ = (late env p'.rest >>= _) w₁'
    rw [Course.bind_of_ok (rest_of_force hy₂)]

/-- A turn under a commitment that succeeded. -/
theorem turnPromise_attempts : Attempts S (Promises 0 0) (Turns 0 0)
    (fun t' q' => (finish env q' >>= turnFinished step' env true q') = pure t')
    (fun q' => finish env q' >>= turnFinished step' env true q') σ p' w w' ((means env n).turnPromise step true p w)
    ((means env n).turnPromise step' true p' w') := by
  refine (disclose_attempts hg n hp hw).bind ?_ ?_ ?_
  · rintro τ hτ _ _ ⟨l, l', rfl, rfl, hl⟩
    exact Promises.withFinish (hp.mono hτ) hl
  · rintro τ _ _ w₁' ⟨l, l', rfl, rfl, -⟩ hc
    exact Course.bind_congr_worlds hc _
  rintro τ hτ finish₁ finish₁' _ _ w₁ w₁' hy hfinish ⟨l, l', rfl, rfl, hl⟩ hdone hw₁
  have hp := Promises.withFinish (hp.mono hτ) hl
  refine ⟨?_, ?_⟩
  · rw [hdone, pure_bind, Course.bind_of_ok (finish_of_disclose hy)]
    cases finish₁' <;> rfl
  have hvalue : (∀ q' : Promise, turnFinished step' env true q' finish₁' = turnValue env q') → ∀ q' : Promise, q'.finish = l' →
      (finish env q' >>= turnFinished step' env true q') = turnValue env q' := by
    intro hturn q' hq'
    rw [finish_congr (p := q') (q := { p' with finish := l' }) hq', hdone, pure_bind, hturn]
  have hgo : (∀ q' : Promise, q'.finish = l' → (finish env q' >>= turnFinished step' env true q') = turnValue env q') →
      Attempts S (Promises 0 0) (Turns 0 0) (fun t' q' => (finish env q' >>= turnFinished step' env true q') = pure t')
        (fun q' => finish env q' >>= turnFinished step' env true q') τ { p' with finish := l' } w₁ w₁' _ _ := fun hvalue =>
    (turnValue_attempts hg n hp hw₁).imp (fun _ _ _ h => h.1) (fun _ _ _ q' hq hR => (hvalue q' hq.2).trans hR)
      fun _ _ q' w₂' hq hc => by rwa [hvalue q' hq.2, hvalue _ rfl]
  cases hfinish with
  | @failed z z' m hz =>
    refine .pure (.finished (.failure m hz)) hp ?_ hw₁
    rw [hdone, pure_bind, turnFinished_failed, if_pos rfl]
  | plain => exact hgo (hvalue (turnFinished_plain true))
  | committed => exact hgo (hvalue turnFinished_committed_true)

end Turn

end Success

/-! ## Answers and suspended parsers -/

omit hg in
theorem answers_of_settled {t t' : Settled} (h : Settleds 0 0 σ t t') : Answers 0 0 σ t.toAnswer t'.toAnswer := by
  cases h with
  | success hp => exact .success hp
  | failure m hz => exact .failure m hz

omit hg in
theorem settle_ready (t : Settled) : settle env (.ready t.toAnswer) = pure t := by
  rw [settle_eq, answer_ready, pure_bind]
  cases t <;> rfl

/-- Attempts to get the answers of suspended parsers with `n` units of fuel. -/
def ForceAttempts (env : Env) (S : Supply) (n : Nat) : Prop :=
  ∀ ⦃σ : Stage⦄ ⦃s s' : Suspended⦄ ⦃w w' : World⦄, Suspensions 0 0 σ s s' → Worlds S 0 0 σ w w' →
    Attempts S (Suspensions 0 0) (Answers 0 0) (fun a' s' => s' = .ready a') (answer env) σ s' w w' (force env n s w)
      (force env n s' w')

section Force

variable {n : Nat} (hforce : ForceAttempts env S n)

include hforce

omit hg in
/-- The answer without its commitment. -/
theorem settle_attempts : ∀ {fuel : Nat} (_ : fuel ≤ n) {σ : Stage} {s s' : Suspended} {w w' : World}
    (_ : Suspensions 0 0 σ s s') (_ : Worlds S 0 0 σ w w'),
    Attempts S (Suspensions 0 0) (Settleds 0 0) (fun t' s' => s' = .ready t'.toAnswer) (settle env) σ s' w w'
      ((means env n).settle fuel s w) ((means env n).settle fuel s' w')
  | 0, _, _, _, _, _, _, _, _ => .outOfFuel _ _ _ _
  | fuel + 1, hfuel, σ, s, s', w, w', hs, hw => by
    refine (hforce hs hw).bind (fun τ _ _ _ h => h) ?_ ?_
    · intro τ s₁ s₁' w₁' _ hc
      rw [settle_eq, settle_eq]
      exact Course.bind_congr_worlds hc _
    rintro τ hτ a a' s₁ _ w₁ w₁' hy ha hs₁ rfl hw₁
    refine ⟨?_, ?_⟩
    · rw [settle_eq, settle_eq, answer_ready, pure_bind, Course.bind_of_ok (answer_of_force (x := .ok a') hy)]
    cases ha with
    | success hp => exact .pure (.success hp) hs₁ rfl hw₁
    | failure m hz => exact .pure (.failure m hz) hs₁ rfl hw₁
    | @committed inner inner' hinner =>
      have hready : ∀ inner, settle env (.ready (.committed inner)) = settle env inner := by
        intro inner
        rw [settle_eq, answer_ready, pure_bind]
        rfl
      have hinto : Attempts S (Suspensions 0 0) (Settleds 0 0) (fun _ _ => True) (settle env) τ (.ready (.committed inner'))
          w₁ w₁' (Hold.within (fun inner => .ready (.committed inner)) inner ((means env n).settle fuel) s₁ w₁)
          (Hold.within (fun inner => .ready (.committed inner)) inner' ((means env n).settle fuel) (.ready (.committed inner'))
            w₁') := by
        refine Attempts.within _ _ (settle_attempts (Nat.le_of_succ_le hfuel) hinner hw₁) ?_ (fun _ _ _ => trivial) ?_
        · exact fun υ _ _ _ h => .ready (.committed h)
        · intro inner₁ w₂' hc
          rw [hready, hready]
          exact hc
      exact hinto.keeping _ _ fun υ t t' ht => .ready (answers_of_settled ht)

include hg

/-- One turn of a loop under a commitment. -/
theorem turn_attempts (step step' : Value → Act Parser) {a a' : Answer} (ha : Answers 0 0 σ a a') {w w' : World}
    (hw : Worlds S 0 0 σ w w') : Attempts S (Answers 0 0) (Turns 0 0) (fun t' a' => turnAnswer step' env true a' = pure t')
      (turnAnswer step' env true) σ a' w w' ((means env n).turn n step true a w) ((means env n).turn n step' true a' w') := by
  cases ha with
  | failure m hz => exact .pure (.finished (.failure m hz)) (.failure m hz) (turnAnswer_failure true _ m) hw
  | @success p p' hp =>
    refine Attempts.within (z := .success p) Answer.success Answer.success (turnPromise_attempts hg n hp hw step step')
      (fun _ _ _ _ h => Answers.success h) ?_ ?_
    · exact fun t' q' h => (turnAnswer_success true q').trans h
    · intro q' w₁' hc
      rw [turnAnswer_success, turnAnswer_success]
      exact hc
  | @committed inner inner' hinner =>
    -- the work is on what the answer is committed to
    let c : Suspended → Course Means.Turn := fun s => turnAnswer step' env true (.committed s)
    have hc : ∀ s, c s = settle env s >>= fun t => turnAnswer step' env true t.toAnswer := fun s =>
      turnAnswer_committed_true s
    have hready : ∀ t : Settled, c (.ready t.toAnswer) = turnAnswer step' env true t.toAnswer := by
      intro t
      rw [hc, settle_ready, pure_bind]
    have hattempt : Attempts S (Suspensions 0 0) (Turns 0 0) (fun t' s' => c s' = pure t') c σ inner' w w'
        (((means env n).settle n >>= (means env n).keepTurnSettled step) inner w)
        (((means env n).settle n >>= (means env n).keepTurnSettled step') inner' w') := by
      refine (settle_attempts hforce (Nat.le_refl n) hinner hw).bind (fun τ _ _ _ h => h) ?_ ?_
      · intro τ s₁ s₁' w₁' _ h
        rw [hc, hc]
        exact Course.bind_congr_worlds h _
      rintro τ hτ t t' s₁ _ w₁ w₁' hy ht hs₁ rfl hw₁
      refine ⟨?_, ?_⟩
      · rw [hready, hc, Course.bind_of_ok (settle_of_settle (Nat.le_refl n) hy)]
      cases ht with
      | failure m hz =>
        refine .pure (.finished (.failure m hz)) hs₁ ?_ hw₁
        exact (hready (.failure _ m)).trans (turnAnswer_failure true _ m)
      | @success p p' hp =>
        have hsuccess : ∀ q, c (.ready (.success q)) = finish env q >>= turnFinished step' env true q := fun q =>
          (hready (.success q)).trans (turnAnswer_success true q)
        refine Attempts.within (z := s₁) (fun q => .ready (.success q)) (fun q => .ready (.success q))
          (turnPromise_attempts hg n hp hw₁ step step') (fun _ _ _ _ h => Suspensions.ready (.success h)) ?_ ?_
        · exact fun t' q' h => (hsuccess q').trans h
        · intro q' w₂' h
          rw [hsuccess, Settled.toAnswer, hsuccess]
          exact h
    refine Attempts.within (z := .committed inner) Answer.committed Answer.committed hattempt ?_ ?_ ?_
    · exact fun _ _ _ _ h => Answers.committed h
    · exact fun _ _ h => h
    · exact fun _ _ h => h

omit hg hforce in
/-- Changing the message of a failure keeps nothing. -/
theorem resume_reword_lift (h : String → Act String) (z : Context) (m : String) (w : World) :
    (means env n).resume n (.reword h) (.failure z m) w =
      Hold.lift ((means env n).exec (h m) >>= fun m => pure (.failure z m)) (.failure z m) w := by
  show Hold.bind (Hold.lift ((means env n).exec (h m))) _ _ w = Hold.lift (Run.bind _ _) _ w
  unfold Hold.bind Hold.lift Run.bind
  rcases (means env n).exec (h m) w with ⟨_ | a, w₁⟩ <;> rfl

/-- What a frame makes of an answer. What it has learnt of the answer is kept, and what it does then starts anew. -/
theorem resume_attempts {g g' : Frame} (hframe : σ.Frames g g') {a a' : Answer} (ha : Answers 0 0 σ a a') {w w' : World}
    (hw : Worlds S 0 0 σ w w') : Attempts S (Answers 0 0) (Answers 0 0) (fun _ _ => True) (resume env g') σ a' w w'
      ((means env n).resume n g a w) ((means env n).resume n g' a' w') := by
  have hlater : ∀ τ, σ ≤ τ → Answers 0 0 τ a a' := fun τ hτ => ha.mono hτ
  cases hframe with
  | bind hk =>
    cases ha with
    | failure m hz => exact .pure (.failure m hz) (.failure m hz) trivial hw
    | committed hinner => exact .pure (.committed (.framed hinner (.bind hk))) (.committed hinner) trivial hw
    | @success p p' hp =>
      refine Attempts.within (z := .success p) Answer.success Answer.success (bindPromise_attempts hg n hp hw hk)
        (fun _ _ _ _ h => Answers.success h) (fun _ _ _ => trivial) ?_
      intro q' w₁' hc
      rw [resume_bind_success, resume_bind_success]
      exact hc
  | map hh =>
    cases ha with
    | failure m hz => exact .pure (.failure m hz) (.failure m hz) trivial hw
    | success hp => exact .pure (.success ⟨hp.rest, .mapped hp.value hh, hp.finish⟩) (.success hp) trivial hw
    | committed hinner => exact .pure (.committed (.framed hinner (.map hh))) (.committed hinner) trivial hw
  | @reword h h' hh =>
    cases ha with
    | success hp =>
      refine .pure (.success (hp.onFailure fun τ hτ z z' m hz => (hh τ hτ m).bind fun υ hυ x y hxy => ?_)) (.success hp)
        trivial hw
      exact .pure ⟨hz.mono hυ, hxy⟩
    | committed hinner => exact .pure (.committed (.framed hinner (.reword hh))) (.committed hinner) trivial hw
    | @failure z z' m hz =>
      have hruns : ∀ f f', Runs S f f' (Answers f f') σ ((means env n).exec (h m) >>= fun m => pure (.failure z m))
          ((means env n).exec (h' m) >>= fun m => pure (.failure z' m)) := fun f f' =>
        ((hh σ (le_refl σ) m).runs monotone_const).bind fun τ hτ m _ hm => hm ▸ Means.Paired.answered (.failure m (hz.mono hτ))
      rw [resume_reword_lift, resume_reword_lift]
      exact (Runs.tries hruns hw (resume env (.reword h') (.failure z' m))).lift hlater (fun _ => trivial) fun _ hc => hc
  | restoring hu =>
    cases ha with
    | failure m hz => exact .pure (.failure m (hz.withState hu)) (.failure m hz) trivial hw
    | committed hinner => exact .pure (.committed (.framed hinner (.restoring hu))) (.committed hinner) trivial hw
    | success hp =>
      refine .pure (.success (hp.onFailure fun τ hτ z z' m hz => .pure ⟨hz.withState (hu.mono hτ), rfl⟩)) (.success hp)
        trivial hw
  | @orElse q q' z z' hq hz =>
    cases ha with
    | success hp => exact .pure (.success hp) (.success hp) trivial hw
    | committed hinner => exact .pure (.committed hinner) (.committed hinner) trivial hw
    | failure m hrest =>
      exact (Runs.tries (fun f f' => (means_paired hg n).answer (.apply hq hz)) hw (answer env (.apply q' z'))).lift hlater
        (fun _ => trivial) fun _ hc => hc
  | @loop step step' hstep =>
    refine (turn_attempts hg hforce step step' ha hw).bind (fun _ _ _ _ h => h) ?_ ?_
    · intro τ a₁ a₁' w₁' _ hc
      rw [resume_loop, resume_loop]
      exact Course.bind_congr_worlds hc _
    rintro τ hτ t t' a₁ a₁' w₁ w₁' hy ht ha₁ hdone hw₁
    have hresume : resume env (.loop step') a₁' = afterTurn (turns env step' true) t' := by
      rw [resume_loop, hdone, pure_bind]
    refine ⟨?_, ?_⟩
    · rw [hresume, resume_loop, Course.bind_of_ok (turnAnswer_of_turn hy)]
    cases ht with
    | finished ha => exact .pure ha ha₁ trivial hw₁
    | @again u u' z z' hu hz =>
      have hruns : ∀ f f', Runs S f f' (Answers f f') τ ((means env n).turns step true n u z)
          ((means env n).turns step' true n u' z') := fun f f' =>
        (means_paired hg n).turns (hstep.mono hτ) true n (le_refl τ) hu hz
      refine (Runs.tries hruns hw₁ (turns env step' true u' z')).lift (fun υ hυ => ha₁.mono hυ) (fun _ => trivial) ?_
      intro w₂' hc
      rw [hresume]
      exact hc

end Force

/-- **Attempts to get the answer of a suspended parser.** -/
theorem force_attempts : ∀ n, ForceAttempts env S n
  | 0, _, _, _, _, _, _, _ => .outOfFuel _ _ _ _
  | n + 1, σ, s, s', w, w', hs, hw => by
    have ih := force_attempts n
    have hkept : ∀ τ a a', Answers 0 0 τ a a' → Suspensions 0 0 τ (.ready a) (.ready a') := fun _ _ _ ha => .ready ha
    have hlater : ∀ τ, σ ≤ τ → Suspensions 0 0 τ s s' := fun τ hτ => hs.mono hτ
    cases hs with
    | ready ha =>
      rw [force, force]
      exact .pure ha (.ready ha) rfl hw
    | @afresh p p' z z' hp hz =>
      have htries := Runs.tries (fun f f' => (means_paired hg n).answer (.apply hp hz)) hw (answer env (.apply p' z'))
      rw [force_afresh, force_afresh]
      refine Attempts.keeping (R := fun _ _ => True) _ _ (htries.lift hlater (fun _ => trivial) fun w₁' hc => ?_) hkept
      rw [answer_afresh]
      exact hc
    | @framed s s' g g' hs hframe =>
      rw [force_framed, force_framed]
      have hfirst : Attempts S (Suspensions 0 0) (Answers 0 0) (fun a' s' => s' = .framed (.ready a') g') (answer env) σ
          (.framed s' g') w w' (Hold.within (fun s => .framed s g) s (force env n) (.framed s g) w)
          (Hold.within (fun s => .framed s g') s' (force env n) (.framed s' g') w') := by
        refine Attempts.within _ _ (ih hs hw) (fun τ hτ _ _ h => .framed h (hframe.mono hτ)) ?_ ?_
        · rintro a' _ rfl
          rfl
        · intro s₁' w₁' hc
          rw [answer_framed, answer_framed]
          exact Course.bind_congr_worlds hc _
      refine hfirst.bind (fun _ _ _ _ h => h) (fun _ _ _ _ _ hc => hc) ?_
      rintro τ hτ a a' s₁ _ w₁ w₁' hy ha hs₁ rfl hw₁
      obtain ⟨_, hy, -⟩ := Hold.within_eq hy
      have hready : ∀ a, answer env (.framed (.ready a) g') = resume env g' a := fun a => by
        rw [answer_framed, answer_ready, pure_bind]
      refine ⟨?_, Attempts.keeping (R := fun _ _ => True) _ _ ?_ hkept⟩
      · rw [hready, answer_framed, Course.bind_of_ok (answer_of_force (x := .ok a') hy)]
      refine Attempts.within _ _ (resume_attempts hg ih (hframe.mono hτ) ha hw₁) ?_ (fun _ _ h => h) ?_
      · exact fun υ hυ _ _ h => .framed (.ready h) (hframe.mono (le_trans hτ hυ))
      · intro a₁' w₂' hc
        rw [hready, hready]
        exact hc
    | @apply p p' z z' hp hz =>
      obtain ⟨hnone, hnone'⟩ | ⟨q, q', g, g', hsome, hsome', hq, hframe⟩ := hp.frame? hz
      · have htries := Runs.tries (fun f f' => (means_paired hg n).primitive n hp hz) hw (answer env (.apply p' z'))
        rw [force_apply_primitive env n hnone, force_apply_primitive env n hnone']
        exact Attempts.keeping (R := fun _ _ => True) _ _ (htries.lift hlater (fun _ => trivial) fun _ hc => hc) hkept
      · rw [force_apply_framed env n hsome, force_apply_framed env n hsome']
        refine (ih (.framed (.apply hq hz) hframe) hw).imp (fun _ _ _ h => h) (fun _ _ _ _ _ h => h) ?_
        intro τ s₁ s₁' w₁' _ hc
        rw [answer_apply_framed hsome']
        exact hc

end OnDemand

end CommittedChoice
