import CommittedChoice.Proofs.Heap.Represented

/-!
# Runs beside work in cells

A run of the engine and work in cells that does the same. The engine has so much fuel, the work in cells has enough of it.

- `Heap.Settles`: with enough fuel, the work comes to this;
- `Heap.Mirrors`: where the run ends, the work ends in the same way and in the same world, and it changes only cells that it
  may change. One lemma for each way to put runs together;
- `Mirrors.get_forced`, `Mirrors.get_pending`: what is in a cell already, and what is computed for it.
-/

namespace CommittedChoice

open OnDemand

namespace Heap

variable {α β γ δ : Type} {s s' : Heap × World} {b b' : Nat} {K K' : Kind → Prop}

/-! ## Runs beside work in cells -/

/-- With enough fuel, the work comes to this. -/
def Settles (y : Nat → Hold Heap β) (s : Heap × World) (r : Except Halt β × Heap × World) : Prop :=
  ∃ m, ∀ k ≥ m, y k s.1 s.2 = r

/-- The first unit of fuel does not matter. -/
theorem Settles.of_succ {y : Nat → Hold Heap β} {r : Except Halt β × Heap × World} (m : Nat)
    (h : ∀ k ≥ m, y (k + 1) s.1 s.2 = r) : Settles y s r := by
  refine ⟨m + 1, fun k hk => ?_⟩
  obtain ⟨k, rfl⟩ := Nat.exists_eq_succ_of_ne_zero (Nat.ne_of_gt (Nat.lt_of_lt_of_le (Nat.succ_pos m) hk))
  exact h k (Nat.le_of_succ_le_succ hk)

/-- How a run has ended, and how the work in cells has: with the same fault, or with answers that are related. -/
inductive Meets (T : Nat → Cell Task Content → Prop) (R : α → β → Heap × World → Prop) (s s' : Heap × World) :
    Except Halt α → Except Halt β → Prop
  | fault (e) : Meets T R s s' (.error (.fault e)) (.error (.fault e))
  | ok {a c} : R a c s' → Touches T s s' → Beside s' → Meets T R s s' (.ok a) (.ok c)

/-- Where the run ends, so does the work in cells with enough fuel, in the same world. It changes only cells from `b` on of
certain kinds. -/
def Mirrors (b : Nat) (K : Kind → Prop) (R : α → β → Heap × World → Prop) (x : Run α) (y : Nat → Hold Heap β)
    (s : Heap × World) : Prop :=
  Beside s → b ≤ s.1.cells.size → ∀ r w, x s.2 = (r, w) → r ≠ .error .outOfFuel →
    ∃ r' h, Settles y s (r', h, w) ∧ Meets (From b K) R s (h, w) r r'

/-- The same answer. -/
def Same (a c : α) (_ : Heap × World) : Prop := a = c

namespace Mirrors

variable {R : α → β → Heap × World → Prop} {R' : γ → δ → Heap × World → Prop} {x : Run α} {y : Nat → Hold Heap β}

theorem pure {a : α} {c : β} (hR : R a c s) : Mirrors b K R (Pure.pure a) (fun _ => Pure.pure c) s := by
  intro hs _ r w hrun _
  cases hrun
  exact ⟨_, _, ⟨0, fun _ _ => rfl⟩, .ok hR (.refl s) hs⟩

theorem fault (e : Fault) : Mirrors b K R (Run.fault e) (fun _ => Hold.lift (Run.fault e)) s := by
  intro _ _ r w hrun _
  cases hrun
  exact ⟨_, _, ⟨0, fun _ _ => rfl⟩, .fault e⟩

/-- A run that does not end here. -/
theorem of_outOfFuel (hx : (x s.2).1 = .error .outOfFuel) (y : Nat → Hold Heap β) : Mirrors b K R x y s := by
  intro _ _ r w hrun hr
  rw [hrun] at hx
  exact absurd hx hr

theorem outOfFuel (y : Nat → Hold Heap β) : Mirrors b K R (Run.halt .outOfFuel) y s := of_outOfFuel rfl y

theorem bind {K₁ : Kind → Prop} {f : α → Run γ} {g : Nat → β → Hold Heap δ} (hx : Mirrors b K₁ R x y s)
    (hK : ∀ κ, K₁ κ → K κ)
    (hf : ∀ a c s', R a c s' → Touches (From b K₁) s s' → Mirrors b K R' (f a) (fun k => g k c) s') :
    Mirrors b K R' (x >>= f) (fun k => y k >>= g k) s := by
  intro hs hb r w hrun hr
  change Run.bind x f s.2 = _ at hrun
  unfold Run.bind at hrun
  rcases hfirst : x s.2 with ⟨e | a, w₁⟩
  · rw [hfirst] at hrun
    cases hrun
    obtain ⟨r', h, ⟨m, hm⟩, hmeets⟩ := hx hs hb _ _ hfirst fun h => hr (by cases h; rfl)
    cases hmeets with
    | fault e =>
      refine ⟨.error (.fault e), h, ⟨m, fun k hk => ?_⟩, .fault e⟩
      show Hold.bind (y k) (g k) s.1 s.2 = _
      unfold Hold.bind
      rw [hm k hk]
  · rw [hfirst] at hrun
    obtain ⟨r', h, ⟨m, hm⟩, hmeets⟩ := hx hs hb _ _ hfirst nofun
    cases hmeets with
    | ok hR ht hbeside =>
      obtain ⟨r'', h', ⟨m', hm'⟩, hmeets'⟩ := hf a _ (h, w₁) hR ht hbeside (Nat.le_trans hb ht.size) r w hrun hr
      refine ⟨r'', h', ⟨max m m', fun k hk => ?_⟩, ?_⟩
      · exact (Hold.bind_of_ok (hm k (Nat.le_trans (Nat.le_max_left _ _) hk))).trans
          (hm' k (Nat.le_trans (Nat.le_max_right _ _) hk))
      · cases hmeets' with
        | fault e => exact .fault e
        | ok hR' ht' hbeside' => exact .ok hR' ((ht.weaken (Nat.le_refl _) hK).trans ht') hbeside'

/-- Going on after the same answer. -/
theorem bind_same {K₁ : Kind → Prop} {y : Nat → Hold Heap α} {f : α → Run γ} {g : Nat → α → Hold Heap δ}
    (hx : Mirrors b K₁ Same x y s) (hK : ∀ κ, K₁ κ → K κ)
    (hf : ∀ a s', Touches (From b K₁) s s' → Mirrors b K R' (f a) (fun k => g k a) s') :
    Mirrors b K R' (x >>= f) (fun k => y k >>= g k) s := by
  refine hx.bind hK fun a c s' hac ht => ?_
  cases hac
  exact hf a s' ht

/-- Something is made of the answer of the run. -/
theorem map {f : α → γ} {Q : γ → β → Heap × World → Prop} (h : Mirrors b K R x y s)
    (hR : ∀ a c s', R a c s' → Q (f a) c s') : Mirrors b K Q (x >>= fun a => Pure.pure (f a)) y s := by
  have hbind : Mirrors b K Q (x >>= fun a => Pure.pure (f a)) (fun k => y k >>= Pure.pure) s :=
    h.bind (fun _ => id) fun a c s' ha _ => .pure (hR a c s' ha)
  simpa only [bind_pure] using hbind

/-- Only what the run does here matters. -/
theorem congr {x' : Run α} (h : Mirrors b K R x' y s) (hx : x s.2 = x' s.2) : Mirrors b K R x y s :=
  fun hs hb r w hrun hr => h hs hb r w (hx ▸ hrun) hr

section Weaken

variable {Q : α → β → Heap × World → Prop} (h : Mirrors b K R x y s)

include h

/-- Other cells may change, and something else is said of the answers. -/
theorem weaken (hb : b ≤ s.1.cells.size) (hR : ∀ a c h w, x s.2 = (.ok a, w) → R a c (h, w) →
    Touches (From b K) s (h, w) → Q a c (h, w) ∧ Touches (From b' K') s (h, w)) : Mirrors b' K' Q x y s := by
  intro hs _ r w hrun hr
  obtain ⟨r', h', hsettles, hmeets⟩ := h hs hb r w hrun hr
  refine ⟨r', h', hsettles, ?_⟩
  cases hmeets with
  | fault e => exact .fault e
  | ok ha ht hbeside =>
    obtain ⟨hq, ht⟩ := hR _ _ _ _ hrun ha ht
    exact .ok hq ht hbeside

theorem imp (hK : ∀ κ, K κ → K' κ) (hR : ∀ a c s', R a c s' → Q a c s') : Mirrors b K' Q x y s := fun hs hb =>
  h.weaken hb (fun _ _ _ _ _ ha ht => ⟨hR _ _ _ ha, ht.weaken (Nat.le_refl _) hK⟩) hs hb

/-- What is known of the answers of the run. -/
theorem knowing {P : α → World → Prop} (hP : ∀ a w, x s.2 = (.ok a, w) → P a w) :
    Mirrors b K (fun a c s' => R a c s' ∧ P a s'.2) x y s := fun hs hb =>
  h.weaken hb (fun _ _ _ _ hrun ha ht => ⟨⟨ha, hP _ _ hrun⟩, ht⟩) hs hb

omit h in
/-- Cells that are new are no cells that were there. -/
theorem new_cells (h : Mirrors s.1.cells.size K R x y s) : Mirrors b Kind.None R x y s :=
  h.weaken (Nat.le_refl _) fun _ _ _ _ _ ha ht => ⟨ha, ht.of_new⟩

end Weaken

/-- A run that ends more often. -/
theorem le {x' : Run α} (h : Mirrors b K R x' y s) (hle : Run.Le x x') : Mirrors b K R x y s := by
  intro hs hb r w hrun hr
  obtain hout | heq := hle s.2
  · rw [hrun] at hout
    exact absurd hout hr
  · exact h hs hb r w (heq.trans hrun) hr

/-- The first units of fuel do not matter. -/
theorem later {y' : Nat → Hold Heap β} (d : Nat) (h : Mirrors b K R x y' s) (hy : ∀ k ≥ d, y k = y' k) :
    Mirrors b K R x y s := by
  intro hs hb r w hrun hr
  obtain ⟨r', h', ⟨m, hm⟩, hmeets⟩ := h hs hb r w hrun hr
  refine ⟨r', h', ⟨max d m, fun k hk => ?_⟩, hmeets⟩
  rw [hy k (Nat.le_trans (Nat.le_max_left _ _) hk)]
  exact hm k (Nat.le_trans (Nat.le_max_right _ _) hk)

/-- What is done first changes no cell that was there, and nothing in the world. -/
theorem step {y₁ : Nat → Hold Heap γ} {g : Nat → γ → Hold Heap β} {c : γ} (hy : ∀ k, y₁ k s.1 s.2 = (.ok c, s'))
    (ht : Touches (From b K) s s') (hbeside : Beside s → Beside s') (hw : s'.2 = s.2)
    (hnext : Mirrors b K R x (fun k => g k c) s') : Mirrors b K R x (fun k => y₁ k >>= g k) s := by
  intro hs hb r w hrun hr
  obtain ⟨r', h, ⟨m, hm⟩, hmeets⟩ := hnext (hbeside hs) (Nat.le_trans hb ht.size) r w (hw ▸ hrun) hr
  refine ⟨r', h, ⟨m, fun k hk => (Hold.bind_of_ok (hy k)).trans (hm k hk)⟩, ?_⟩
  cases hmeets with
  | fault e => exact .fault e
  | ok hR ht' hbeside' => exact .ok hR (ht.trans ht') hbeside'

/-- A new cell. -/
theorem new {c : Cell Task Content} {g : Nat → Nat → Hold Heap β}
    (hnext : Mirrors b K R x (fun k => g k s.1.cells.size) (push c s)) :
    Mirrors b K R x (fun k => Heap.new c >>= g k) s :=
  .step (fun _ => rfl) (touches_push c) (fun hs => hs.of_lists rfl rfl) rfl hnext

/-- Work that changes nothing where the run changes nothing. -/
theorem still {y : Nat → Hold Heap α} (hy : ∀ k, y (k + 1) s.1 s.2 = ((x s.2).1, s)) (hx : (x s.2).2 = s.2) :
    Mirrors b K Same x y s := by
  intro hs _ r w hrun hr
  rw [hrun] at hx
  cases hx
  have hsettles : Settles y s (r, s) := .of_succ 0 fun k _ => (hy k).trans (by rw [hrun])
  refine ⟨r, s.1, hsettles, ?_⟩
  match r with
  | .ok a => exact .ok rfl (.refl s) hs
  | .error (.fault e) => exact .fault e
  | .error .outOfFuel => exact absurd rfl hr

/-- Runs that neither look at lists nor change them. -/
theorem lift {x : Run α} (hx : x.Plain) : Mirrors b K Same x (fun _ => Hold.lift x) s := by
  intro hs _ r w hrun hr
  have hlift : Hold.lift x s.1 s.2 = (r, s.1, w) := by
    unfold Hold.lift
    rw [hrun]
  refine ⟨r, s.1, ⟨0, fun _ _ => hlift⟩, ?_⟩
  match r with
  | .error .outOfFuel => exact absurd rfl hr
  | .error (.fault e) => exact .fault e
  | .ok a =>
    have hbefore : s.2.Before w := by
      have h := Run.Congruence.grows.plain hx s.2
      rwa [hrun] at h
    have hlists : w.lists = s.2.lists := by
      have h := hx.listFree.lists_eq s.2
      rwa [hrun] at h
    have hnodes : ∀ l, w.nodesOf l = s.2.nodesOf l := fun l => by rw [World.nodesOf, hlists]; rfl
    exact .ok rfl (.of_cells rfl hbefore (fun l k => by rw [hnodes]; exact id) fun _ _ => id) (hs.of_lists rfl hlists)

end Mirrors

/-! ## Forcing cells -/

section Get

variable {env : Env} {i : Nat} {part : Content → Option β}

theorem force_forced {c : Content} (hi : s.1.cells[i]? = some (.forced c)) (k : Nat) :
    force env (k + 1) i s.1 s.2 = (.ok c, s) := by
  rw [force_succ, if_pos (Array.getElem?_eq_some_iff.1 hi).1]
  unfold Table.force
  rw [show (cellTable.cells s)[i]? = some (.forced c) from hi]

/-- A cell once its task was done, or was not. -/
def done (i : Nat) (t : Task) : Except Halt Content × Heap × World → Except Halt Content × Heap × World
  | (.ok c, s) => (.ok c, put i (.forced c) s)
  | (.error e, s) => (.error e, put i (.pending t) s)

theorem force_pending {t : Task} (hi : s.1.cells[i]? = some (.pending t)) (k : Nat) :
    force env (k + 1) i s.1 s.2 = done i t ((access env k).compute t (put i .forcing s).1 (put i .forcing s).2) := by
  rw [force_succ, if_pos (Array.getElem?_eq_some_iff.1 hi).1]
  unfold Table.force
  rw [show (cellTable.cells s)[i]? = some (.pending t) from hi]
  show _ = done i t ((access env k).compute t (cellTable.set i .forcing s).1 (cellTable.set i .forcing s).2)
  dsimp only
  rcases (access env k).compute t (cellTable.set i .forcing s).1 (cellTable.set i .forcing s).2 with ⟨_ | c, s'⟩ <;> rfl

/-- What is in a cell already. -/
theorem Mirrors.get_forced {R : α → β → Heap × World → Prop} {x : Run α} {c : Content} {a : α} {v : β}
    (hi : s.1.cells[i]? = some (.forced c)) (hpart : part c = some v) (hx : x s.2 = (.ok a, s.2)) (hR : R a v s) :
    Mirrors b K R x (fun k => (access env k).get part i) s := by
  intro hs _ r w hrun _
  cases hx.symm.trans hrun
  refine ⟨.ok v, s.1, .of_succ 0 fun k _ => ?_, .ok hR (.refl s) hs⟩
  refine (Hold.bind_of_ok (force_forced hi k)).trans ?_
  rw [hpart]
  rfl

/-- Computing what is in a cell. -/
theorem Mirrors.get_pending {R Q : α → β → Heap × World → Prop} {x : Run α} {y : Nat → Hold Heap β} {t : Task}
    {g : β → Content} (hi : s.1.cells[i]? = some (.pending t)) (hb : b ≤ i) (hK : K t.kind)
    (hcompute : ∀ k, (access env k).compute t = y k >>= fun v => Pure.pure (g v)) (hpart : ∀ v, part (g v) = some v)
    (hend : ∀ n, t = .walked n → ∀ a v s', R a v s' → ∃ e, g v = .ended e ∧ s'.2.Walked n e)
    (hR : ∀ a v s', R a v s' → s'.1.cells[i]? = some .forcing → Q a v (put i (.forced (g v)) s'))
    (hy : Mirrors b K R x y (put i .forcing s)) : Mirrors b K Q x (fun k => (access env k).get part i) s := by
  intro hs hbound r w hrun hr
  obtain ⟨r', h, ⟨m, hm⟩, hmeets⟩ := hy (hs.of_lists rfl rfl) (size_put i .forcing s ▸ hbound) r w hrun hr
  have hforce : ∀ k ≥ m, force env (k + 1) i s.1 s.2 = done i t (g <$> r', h, w) := by
    intro k hk
    rw [force_pending hi, hcompute]
    show done i t (Hold.bind (y k) _ _ _) = _
    unfold Hold.bind
    rw [hm k hk]
    cases r' <;> rfl
  cases hmeets with
  | fault e =>
    refine ⟨.error (.fault e), (put i (.pending t) (h, w)).1, .of_succ m fun k hk => ?_, .fault e⟩
    show Hold.bind (force env (k + 1) i) _ s.1 s.2 = _
    unfold Hold.bind
    rw [hforce k hk]
    rfl
  | @ok a v ha ht hbeside =>
    have hforcing : h.cells[i]? = some .forcing := ht.same i .forcing (put_self hi .forcing) fun hf => by
      obtain ⟨-, κ, hκ, -⟩ := hf
      cases hκ
    refine ⟨.ok v, (put i (.forced (g v)) (h, w)).1, .of_succ m fun k hk => ?_, .ok (hR _ _ _ ha hforcing) ?_
      (hbeside.of_lists rfl rfl)⟩
    · refine (Hold.bind_of_ok (hforce k hk)).trans ?_
      rw [hpart]
      rfl
    · refine ht.around hi hb hK fun n hn => ?_
      obtain ⟨e, he, hwalked⟩ := hend n hn a v _ ha
      rw [he]
      exact .known (put_self (s := (h, w)) hforcing _) hwalked

end Get

end Heap

end CommittedChoice
