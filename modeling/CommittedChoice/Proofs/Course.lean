import CommittedChoice.Run
import Mathlib.Order.Monotone.Basic

/-!
# Courses: runs with fuel taken away

An engine runs with fuel, and with too little of it there is no answer. A `Course` is what a computation comes to when
fuel is no matter: an answer or a fault with the world after it, or nothing at all if it never ends.

- `ofRun`: the course of a run, which ends nowhere where the run is out of fuel;
- courses are ordered by how often they end, and an increasing sequence of them has a least upper bound (`sup`), which
  goes through sequencing (`sup_bind`);
- `Turn.loop`: a loop, as the upper bound of all numbers of turns; it is its own unfolding (`Turn.loop_unfold`);
- `Run.Le`: a run that ends wherever another one does, with the same answer. More fuel gives such a run, and then the
  upper bound over all fuels is reached with some fuel (`limit_eq_some`).
-/

namespace CommittedChoice

/-- What a computation comes to if nothing bounds it. -/
def Course (α : Type) : Type := World → Option (Except Fault α × World)

namespace Course

variable {α β γ : Type}

@[ext] theorem ext {x y : Course α} (h : ∀ w, x w = y w) : x = y := funext h

instance : Monad Course where
  pure a := fun w => some (.ok a, w)
  bind x f := fun w =>
    match x w with
    | some (.ok a, w) => f a w
    | some (.error e, w) => some (.error e, w)
    | none => none

/-- A computation that never ends. -/
def never : Course α := fun _ => none

/-- A fault. -/
def fault (e : Fault) : Course α := fun w => some (.error e, w)

theorem bind_apply (x : Course α) (f : α → Course β) (w : World) :
    (x >>= f) w =
      match x w with
      | some (.ok a, w) => f a w
      | some (.error e, w) => some (.error e, w)
      | none => none := rfl

theorem bind_of_ok {x : Course α} {f : α → Course β} {w w' : World} {a : α} (h : x w = some (.ok a, w')) :
    (x >>= f) w = f a w' := by rw [bind_apply, h]

theorem bind_of_error {x : Course α} {f : α → Course β} {w w' : World} {e : Fault} (h : x w = some (.error e, w')) :
    (x >>= f) w = some (.error e, w') := by rw [bind_apply, h]

/-- Where a sequence ends, its first part ends, and either that is a fault or the second part ends there. -/
theorem bind_eq_some {x : Course α} {f : α → Course β} {w : World} {b : Except Fault β × World}
    (h : (x >>= f) w = some b) :
    (∃ a w', x w = some (.ok a, w') ∧ f a w' = some b) ∨
      ∃ e w', x w = some (.error e, w') ∧ b = (.error e, w') := by
  rw [bind_apply] at h
  split at h
  · exact .inl ⟨_, _, by assumption, h⟩
  · exact .inr ⟨_, _, by assumption, by cases h; rfl⟩
  · cases h

/-- The same for an end without a fault. -/
theorem bind_eq_ok {x : Course α} {f : α → Course β} {w w' : World} {b : β} (h : (x >>= f) w = some (.ok b, w')) :
    ∃ a w₁, x w = some (.ok a, w₁) ∧ f a w₁ = some (.ok b, w') := by
  rcases bind_eq_some h with h | ⟨e, w₁, _, h⟩
  · exact h
  · cases h

/-- What comes first counts only where it starts. -/
theorem bind_congr_left {x y : Course α} {w : World} (h : x w = y w) (f : α → Course β) : (x >>= f) w = (y >>= f) w := by
  rw [bind_apply, bind_apply, h]

/-- What comes second counts only where the first part leads. -/
theorem bind_congr_of_ok {x : Course α} {f g : α → Course β} {w : World}
    (h : ∀ a w', x w = some (.ok a, w') → f a w' = g a w') : (x >>= f) w = (x >>= g) w := by
  rw [bind_apply, bind_apply]
  rcases hx : x w with _ | ⟨_ | a, w'⟩
  · rfl
  · rfl
  · exact h a w' hx

instance : LawfulMonad Course :=
  LawfulMonad.mk' Course
    (fun x => by
      funext w
      show (x >>= fun a => pure a) w = x w
      rw [bind_apply]
      rcases h : x w with _ | ⟨_ | a, w'⟩ <;> rfl)
    (fun _ _ => rfl)
    (fun x f g => by
      funext w
      simp only [bind_apply]
      rcases h : x w with _ | ⟨_ | a, w'⟩ <;> rfl)

/-- Going on with the answer that has come. -/
theorem bind_eq_left {x : Course α} {k : α → Course α} {w : World}
    (h : ∀ a w', x w = some (.ok a, w') → k a w' = some (.ok a, w')) : (x >>= k) w = x w :=
  (bind_congr_of_ok h).trans (congrFun (bind_pure x) w)

/-- What is made of an answer counts only on the end it comes from. -/
theorem map_congr_at {x y : Course α} {w w' : World} (f : α → β) (h : x w = y w') : (f <$> x) w = (f <$> y) w' := by
  rw [map_eq_pure_bind, map_eq_pure_bind, bind_apply, bind_apply, h]

/-- Where an answer that is changed comes from. -/
theorem map_eq_some {f : α → β} {x : Course α} {w w' : World} {b : Except Fault β} :
    (f <$> x) w = some (b, w') ↔ ∃ a, x w = some (a, w') ∧ b = a.map f := by
  rw [map_eq_pure_bind]
  constructor
  · intro h
    rcases bind_eq_some h with ⟨a, w₁, hx, ha⟩ | ⟨e, w₁, hx, he⟩
    · cases ha
      exact ⟨.ok a, hx, rfl⟩
    · cases he
      exact ⟨.error e, hx, rfl⟩
  · rintro ⟨e | a, hx, rfl⟩
    · exact bind_of_error hx
    · exact bind_of_ok hx

/-! ## The order -/

/-- `y` ends wherever `x` does, with the same answer in the same world. -/
instance : PartialOrder (Course α) where
  le x y := ∀ w b, x w = some b → y w = some b
  le_refl _ _ _ h := h
  le_trans _ _ _ h₁ h₂ w b h := h₂ w b (h₁ w b h)
  le_antisymm x y h₁ h₂ := by
    funext w
    cases hx : x w with
    | some b => rw [h₁ w b hx]
    | none =>
      cases hy : y w with
      | none => rfl
      | some b => rw [h₂ w b hy] at hx; cases hx

theorem never_le (x : Course α) : never ≤ x := fun _ _ h => by cases h

theorem bind_mono {x y : Course α} {f g : α → Course β} (h : x ≤ y) (hf : ∀ a, f a ≤ g a) : x >>= f ≤ y >>= g := by
  intro w b hb
  rcases bind_eq_some hb with ⟨a, w', hx, ha⟩ | ⟨e, w', hx, rfl⟩
  · rw [bind_of_ok (h w _ hx)]
    exact hf a w' b ha
  · exact bind_of_error (h w _ hx)

theorem map_mono {x y : Course α} (f : α → β) (h : x ≤ y) : f <$> x ≤ f <$> y := by
  rw [map_eq_pure_bind, map_eq_pure_bind]
  exact bind_mono h fun _ => le_refl _

/-! ## Least upper bounds -/

/-- The least upper bound of an increasing sequence. -/
noncomputable def sup (f : Nat → Course α) : Course α := fun w =>
  open Classical in if h : ∃ b n, f n w = some b then some h.choose else none

section Sup

variable {f : Nat → Course α}

theorem sup_eq_some (hf : Monotone f) {w : World} {b : Except Fault α × World} :
    sup f w = some b ↔ ∃ n, f n w = some b := by
  unfold sup
  constructor
  · intro h
    split at h
    · rename_i hex
      cases h
      exact hex.choose_spec
    · cases h
  · rintro ⟨n, hn⟩
    have hex : ∃ b n, f n w = some b := ⟨b, n, hn⟩
    rw [dif_pos hex]
    obtain ⟨m, hm⟩ := hex.choose_spec
    -- both answers are given with the larger of the two indices
    have h₁ := hf (Nat.le_max_left n m) w _ hn
    have h₂ := hf (Nat.le_max_right n m) w _ hm
    rw [← h₂, h₁]

theorem le_sup (hf : Monotone f) (n : Nat) : f n ≤ sup f := fun _ _ h => (sup_eq_some hf).2 ⟨n, h⟩

theorem sup_le (hf : Monotone f) {x : Course α} (h : ∀ n, f n ≤ x) : sup f ≤ x := by
  intro w b hb
  obtain ⟨n, hn⟩ := (sup_eq_some hf).1 hb
  exact h n w b hn

/-- Two sequences that overtake each other have one upper bound. -/
theorem sup_congr {g : Nat → Course α} (hf : Monotone f) (hg : Monotone g) (h₁ : ∀ n, ∃ m, f n ≤ g m)
    (h₂ : ∀ n, ∃ m, g n ≤ f m) : sup f = sup g := by
  apply le_antisymm
  · refine sup_le hf fun n => ?_
    obtain ⟨m, hm⟩ := h₁ n
    exact le_trans hm (le_sup hg m)
  · refine sup_le hg fun n => ?_
    obtain ⟨m, hm⟩ := h₂ n
    exact le_trans hm (le_sup hf m)

theorem sup_const (x : Course α) : sup (fun _ => x) = x :=
  le_antisymm (sup_le monotone_const fun _ => le_refl x) (le_sup (f := fun _ => x) monotone_const 0)

theorem monotone_succ (hf : Monotone f) : Monotone fun n => f (n + 1) := fun _ _ h => hf (Nat.succ_le_succ h)

/-- The first member does not matter. -/
theorem sup_succ (hf : Monotone f) : sup (fun n => f (n + 1)) = sup f :=
  sup_congr (monotone_succ hf) hf (fun n => ⟨n + 1, le_refl _⟩) fun n => ⟨n, hf (Nat.le_succ n)⟩

theorem monotone_bind {g : Nat → α → Course β} (hf : Monotone f) (hg : ∀ a, Monotone fun n => g n a) :
    Monotone fun n => f n >>= g n := fun _ _ h => bind_mono (hf h) fun a => hg a h

/-- The upper bound of sequences of computations is the sequence of the upper bounds. -/
theorem sup_bind {g : Nat → α → Course β} (hf : Monotone f) (hg : ∀ a, Monotone fun n => g n a) :
    sup (fun n => f n >>= g n) = sup f >>= fun a => sup fun n => g n a := by
  apply le_antisymm
  · refine sup_le (monotone_bind hf hg) fun n => ?_
    exact bind_mono (le_sup hf n) fun a => le_sup (hg a) n
  · intro w b hb
    rcases bind_eq_some hb with ⟨a, w', hx, ha⟩ | ⟨e, w', hx, rfl⟩
    · obtain ⟨n, hn⟩ := (sup_eq_some hf).1 hx
      obtain ⟨m, hm⟩ := (sup_eq_some (hg a)).1 ha
      refine (sup_eq_some (monotone_bind hf hg)).2 ⟨max n m, ?_⟩
      rw [bind_of_ok (hf (Nat.le_max_left n m) w _ hn)]
      exact hg a (Nat.le_max_right n m) w' b hm
    · obtain ⟨n, hn⟩ := (sup_eq_some hf).1 hx
      exact (sup_eq_some (monotone_bind hf hg)).2 ⟨n, bind_of_error hn⟩

theorem sup_const_bind (x : Course α) {g : Nat → α → Course β} (hg : ∀ a, Monotone fun n => g n a) :
    sup (fun n => x >>= g n) = x >>= fun a => sup fun n => g n a := by
  rw [sup_bind monotone_const hg, sup_const]

theorem sup_bind_const (hf : Monotone f) (g : α → Course β) : sup (fun n => f n >>= g) = sup f >>= g := by
  refine (sup_bind (g := fun _ => g) hf fun _ => monotone_const).trans ?_
  simp only [sup_const]

/-- To bound what follows an upper bound, it is enough to bound what follows the members. -/
theorem sup_bind_le (hf : Monotone f) {g : α → Course β} {y : Course β} (h : ∀ n, f n >>= g ≤ y) : sup f >>= g ≤ y := by
  rw [← sup_bind_const hf]
  exact sup_le (fun _ _ hn => bind_mono (hf hn) fun _ => le_refl _) h

theorem sup_map (g : α → β) (hf : Monotone f) : sup (fun n => g <$> f n) = g <$> sup f := by
  simp only [map_eq_pure_bind]
  exact sup_bind_const hf _

end Sup

/-! ## Loops -/

/-- What a turn of a loop leads to, given what the turns after it lead to: a turn knows whether one before it committed,
and those after it start from a state and a context. -/
structure Turn (ρ : Type) where
  after : (Bool → Value → Context → Course ρ) → Bool → ρ → Course ρ
  mono : ∀ {f g : Bool → Value → Context → Course ρ}, (∀ c s z, f c s z ≤ g c s z) → ∀ c r, after f c r ≤ after g c r
  sup : ∀ {f : Nat → Bool → Value → Context → Course ρ}, (∀ c s z, Monotone fun k => f k c s z) → ∀ c r,
    sup (fun k => after (f k) c r) = after (fun c s z => sup fun k => f k c s z) c r

namespace Turn

variable {ρ : Type} (t : Turn ρ) (body : Value → Context → Course ρ)

/-- A loop that is given up after `k` turns. -/
def rounds : Nat → Bool → Value → Context → Course ρ
  | 0, _, _, _ => never
  | k + 1, c, s, z => body s z >>= t.after (rounds k) c

/-- A loop. -/
noncomputable def loop (c : Bool) (s : Value) (z : Context) : Course ρ := Course.sup fun k => t.rounds body k c s z

variable {t body}

theorem rounds_le_succ : ∀ (k : Nat) (c : Bool) (s : Value) (z : Context),
    t.rounds body k c s z ≤ t.rounds body (k + 1) c s z
  | 0, _, _, _ => never_le _
  | k + 1, _, _, _ => bind_mono (le_refl _) fun _ => t.mono (rounds_le_succ k) _ _

theorem monotone_rounds (c : Bool) (s : Value) (z : Context) : Monotone fun k => t.rounds body k c s z :=
  monotone_nat_of_le_succ fun k => rounds_le_succ k c s z

theorem rounds_le_loop (k : Nat) (c : Bool) (s : Value) (z : Context) : t.rounds body k c s z ≤ t.loop body c s z :=
  le_sup (monotone_rounds c s z) k

/-- **A loop is one turn and the loop from there on.** -/
theorem loop_unfold (c : Bool) (s : Value) (z : Context) :
    t.loop body c s z = body s z >>= t.after (t.loop body) c := by
  have hafter : ∀ r, Monotone fun k => t.after (t.rounds body k) c r :=
    fun r _ _ h => t.mono (fun c s z => monotone_rounds c s z h) c r
  calc t.loop body c s z
      = Course.sup (fun k => t.rounds body (k + 1) c s z) := (sup_succ (monotone_rounds c s z)).symm
    _ = body s z >>= fun r => Course.sup fun k => t.after (t.rounds body k) c r := sup_const_bind _ hafter
    _ = body s z >>= t.after (t.loop body) c := bind_congr fun r => t.sup monotone_rounds c r

/-- A loop is the least of all that are their own unfolding. -/
theorem loop_le {f : Bool → Value → Context → Course ρ} (h : ∀ c s z, body s z >>= t.after f c ≤ f c s z) (c : Bool)
    (s : Value) (z : Context) : t.loop body c s z ≤ f c s z := by
  refine sup_le (monotone_rounds c s z) fun k => ?_
  induction k generalizing c s z with
  | zero => exact never_le _
  | succ k ih => exact le_trans (bind_mono (le_refl _) fun r => t.mono ih c r) (h c s z)

/-- Whatever holds of an end of a loop if it holds of the ends of the turns after the first, holds of every end. -/
theorem loop_induction {R : Bool → Value → Context → World → Except Fault ρ × World → Prop}
    (h : ∀ f : Bool → Value → Context → Course ρ, (∀ c s z w b, f c s z w = some b → R c s z w b) →
      ∀ c s z w b, (body s z >>= t.after f c) w = some b → R c s z w b)
    {c : Bool} {s : Value} {z : Context} {w : World} {b : Except Fault ρ × World}
    (hb : t.loop body c s z w = some b) : R c s z w b := by
  obtain ⟨k, hk⟩ := (sup_eq_some (monotone_rounds c s z)).1 hb
  induction k generalizing c s z w b with
  | zero => cases hk
  | succ k ih => exact h _ (fun c s z w b hb => ih (rounds_le_loop k c s z w b hb) hb) c s z w b hk

end Turn

/-! ## Courses of runs -/

/-- The course of a run. -/
def ofRun (x : Run α) : Course α := fun w =>
  match x w with
  | (.ok a, w) => some (.ok a, w)
  | (.error (.fault e), w) => some (.error e, w)
  | (.error .outOfFuel, _) => none

theorem ofRun_eq_some {x : Run α} {w w' : World} {a : Except Fault α} :
    ofRun x w = some (a, w') ↔ x w = (a.mapError .fault, w') := by
  unfold ofRun
  rcases x w with ⟨(_ | _) | b, w₁⟩ <;> rcases a with _ | a <;> simp [Except.mapError]

@[simp] theorem ofRun_pure (a : α) : ofRun (pure a : Run α) = pure a := rfl

@[simp] theorem ofRun_fault (e : Fault) : ofRun (Run.fault e : Run α) = fault e := rfl

@[simp] theorem ofRun_outOfFuel : ofRun (Run.halt .outOfFuel : Run α) = never := rfl

@[simp] theorem ofRun_bind (x : Run α) (f : α → Run β) : ofRun (x >>= f) = ofRun x >>= fun a => ofRun (f a) := by
  funext w
  show ofRun (Run.bind x f) w = _
  rw [bind_apply]
  unfold ofRun Run.bind
  rcases x w with ⟨(_ | _) | a, w'⟩ <;> rfl

theorem map_ofExcept (f : α → β) (x : Except Fault α) (w : World) :
    (f <$> ofRun (Run.ofExcept x)) w = some (x.map f, w) := by
  cases x <;> rfl

end Course

/-! ## More fuel -/

namespace Run

variable {α β : Type}

instance : LawfulMonad Run :=
  LawfulMonad.mk' Run
    (fun x => by
      funext w
      show Run.bind x _ w = x w
      unfold Run.bind
      rcases x w with ⟨_ | a, w'⟩ <;> rfl)
    (fun _ _ => rfl)
    (fun x f g => by
      funext w
      show Run.bind (Run.bind x f) g w = Run.bind x (fun a => Run.bind (f a) g) w
      unfold Run.bind
      rcases x w with ⟨_ | a, w'⟩ <;> rfl)

/-- `y` ends wherever `x` does, with the same answer in the same world. -/
def Le (x y : Run α) : Prop := ∀ w, (x w).1 = .error .outOfFuel ∨ y w = x w

theorem Le.refl (x : Run α) : Le x x := fun _ => .inr rfl

theorem Le.trans {x y z : Run α} (h : Le x y) (h' : Le y z) : Le x z := by
  intro w
  obtain hx | hy := h w
  · exact .inl hx
  · obtain hout | hz := h' w
    · exact .inl (hy ▸ hout)
    · exact .inr (hz.trans hy)

theorem Le.outOfFuel (y : Run α) : Le (halt .outOfFuel) y := fun _ => .inl rfl

theorem Le.bind {x y : Run α} {f g : α → Run β} (h : Le x y) (hf : ∀ a, Le (f a) (g a)) :
    Le (x >>= f) (y >>= g) := by
  intro w
  show (Run.bind x f w).1 = _ ∨ Run.bind y g w = Run.bind x f w
  unfold Run.bind
  rcases h w with hx | hx
  · left
    rcases hr : x w with ⟨e | a, w'⟩
    · rw [hr] at hx; cases hx; rfl
    · rw [hr] at hx; cases hx
  · rw [hx]
    rcases x w with ⟨_ | a, w'⟩
    · exact .inr rfl
    · exact hf a w'

/-- A run of more fuel is a larger course. -/
theorem Le.ofRun {x y : Run α} (h : Le x y) : Course.ofRun x ≤ Course.ofRun y := by
  rintro w ⟨a, w'⟩ hb
  rw [Course.ofRun_eq_some] at hb ⊢
  rcases h w with hx | hx
  · rw [hb] at hx
    cases a <;> cases hx
  · rw [hx, hb]

/-- Runs that end with more fuel wherever they end with less. -/
def Steady (f : Nat → Run α) : Prop := ∀ n, Le (f n) (f (n + 1))

theorem Steady.monotone {f : Nat → Run α} (h : Steady f) : Monotone fun n => Course.ofRun (f n) :=
  monotone_nat_of_le_succ fun n => (h n).ofRun

/-- What runs come to with enough fuel. -/
noncomputable def limit (f : Nat → Run α) : Course α := Course.sup fun n => Course.ofRun (f n)

/-- The runs end in `x` and leave the world `w'`, if there is enough fuel. -/
def Ends (f : Nat → Run α) (w : World) (x : Except Fault α) (w' : World) : Prop :=
  ∃ n, f n w = (x.mapError .fault, w')

/-- Runs whose answers are changed end where they did. -/
theorem ends_map {f : Nat → Run α} {g : α → β} {w w' : World} {b : β} :
    Ends (fun n => f n >>= fun a => pure (g a)) w (.ok b) w' ↔ ∃ a, Ends f w (.ok a) w' ∧ g a = b := by
  constructor
  · rintro ⟨n, hn⟩
    obtain ⟨a, w₁, ha, hb⟩ := Course.bind_eq_ok
      ((congrFun (Course.ofRun_bind _ _) w).symm.trans (Course.ofRun_eq_some.2 hn))
    cases hb
    exact ⟨a, ⟨n, Course.ofRun_eq_some.1 ha⟩, rfl⟩
  · rintro ⟨a, ⟨n, hn⟩, rfl⟩
    refine ⟨n, Course.ofRun_eq_some.1 ?_⟩
    rw [Course.ofRun_bind, Course.bind_of_ok (Course.ofRun_eq_some.2 hn)]
    rfl

theorem limit_eq_some {f : Nat → Run α} (h : Steady f) {w w' : World} {x : Except Fault α} :
    limit f w = some (x, w') ↔ Ends f w x w' := by
  unfold limit Ends
  rw [Course.sup_eq_some h.monotone]
  simp only [Course.ofRun_eq_some]

/-- Runs come to this, or need more fuel. -/
theorem Steady.out_or_eq {f : Nat → Run α} (h : Steady f) {w w' : World} {x : Except Fault α}
    (hx : limit f w = some (x, w')) (n : Nat) : (f n w).1 = .error .outOfFuel ∨ f n w = (x.mapError .fault, w') := by
  have hends : ∀ (y : Except Fault α) w₁, f n w = (y.mapError .fault, w₁) → f n w = (x.mapError .fault, w') := by
    intro y w₁ hn
    have hy := Course.le_sup h.monotone n _ _ (Course.ofRun_eq_some.2 hn)
    cases hx.symm.trans hy
    exact hn
  rcases hn : f n w with ⟨(e | _) | a, w₁⟩
  · exact .inr (hn ▸ hends (.error e) w₁ hn)
  · exact .inl rfl
  · exact .inr (hn ▸ hends (.ok a) w₁ hn)

theorem Steady.const (x : Run α) : Steady fun _ => x := fun _ => .refl x

theorem Steady.bind {f : Nat → Run α} {g : Nat → α → Run β} (hf : Steady f) (hg : ∀ a, Steady fun n => g n a) :
    Steady fun n => f n >>= g n := fun n => (hf n).bind fun a => hg a n

theorem limit_const (x : Run α) : limit (fun _ => x) = Course.ofRun x := Course.sup_const _

theorem limit_of_forall {f : Nat → Run α} {x : Run α} (h : ∀ n, f n = x) : limit f = Course.ofRun x := by
  rw [funext h]
  exact limit_const x

theorem limit_succ {f : Nat → Run α} (hf : Steady f) : limit (fun n => f (n + 1)) = limit f :=
  Course.sup_succ hf.monotone

theorem limit_bind {f : Nat → Run α} {g : Nat → α → Run β} (hf : Steady f) (hg : ∀ a, Steady fun n => g n a) :
    limit (fun n => f n >>= g n) = limit f >>= fun a => limit fun n => g n a := by
  unfold limit
  simp only [Course.ofRun_bind]
  exact Course.sup_bind hf.monotone fun a => (hg a).monotone

/-- Going on the same way whatever the fuel. -/
theorem limit_bind_const {f : Nat → Run α} (hf : Steady f) (g : α → Run β) :
    limit (fun n => f n >>= g) = limit f >>= fun a => Course.ofRun (g a) := by
  rw [limit_bind hf fun a => .const (g a)]
  simp only [limit_const]

/-- A first part that does not need fuel. -/
theorem limit_const_bind (x : Run α) {g : Nat → α → Run β} (hg : ∀ a, Steady fun n => g n a) :
    limit (fun n => x >>= g n) = Course.ofRun x >>= fun a => limit fun n => g n a := by
  rw [limit_bind (.const x) hg, limit_const]

/-- Two runs that overtake each other come to the same. -/
theorem limit_congr {f g : Nat → Run α} (hf : Steady f) (hg : Steady g) (h₁ : ∀ n, Le (f n) (g n))
    (h₂ : ∀ n, Le (g n) (f (n + 1))) : limit f = limit g :=
  Course.sup_congr hf.monotone hg.monotone (fun n => ⟨n, (h₁ n).ofRun⟩) fun n => ⟨n + 1, (h₂ n).ofRun⟩

end Run

end CommittedChoice
