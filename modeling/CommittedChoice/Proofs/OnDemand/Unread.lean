import CommittedChoice.Proofs.OnDemand.Reveal

/-!
# Lists that are not read

A list whose number is taken but which has no nodes cannot be read without a fault. So a run that ends without a fault
in a world with such a list does not read it, and it does the same whatever nodes the list has.

- `World.Reserved w l`: the number `l` is that of a list without nodes;
- `World.withNodes`: the same world with nodes for the list;
- `Run.Unread l`: the runs that end wherever another one does that finds the list without nodes. It is a congruence
  (`Run.Congruence`), so every part of the engine is in this relation to itself (`means_unread`);
- `reveal_unread`: the same with enough fuel.
-/

namespace CommittedChoice

open Run (limit Steady)

/-! ## Worlds -/

namespace World

/-- The number is that of a list without nodes. -/
def Reserved (w : World) (l : Nat) : Prop := w.lists[l]? = some #[]

/-- The world with these nodes for a list. -/
def withNodes (w : World) (l : Nat) (cells : Array (Cell Unparsed Node)) : World :=
  { w with lists := w.lists.setIfInBounds l cells }

variable {w : World} {l k : Nat} {cells : Array (Cell Unparsed Node)}

theorem Reserved.nodesOf (h : w.Reserved l) : w.nodesOf l = #[] := by
  rw [World.nodesOf, h]
  rfl

theorem nodesOf_withNodes_of_ne (h : k ≠ l) : (w.withNodes l cells).nodesOf k = w.nodesOf k := by
  unfold World.nodesOf withNodes
  rw [Array.getElem?_setIfInBounds_ne (Ne.symm h)]

theorem Reserved.nodesOf_withNodes (h : w.Reserved l) : (w.withNodes l cells).nodesOf l = cells := by
  obtain ⟨hl, -⟩ := Array.getElem?_eq_some_iff.1 h
  unfold World.nodesOf withNodes
  rw [Array.getElem?_setIfInBounds_self_of_lt hl]
  rfl

/-- Changes of the nodes of one list and of another one are independent. -/
theorem update_withNodes (h : k ≠ l) (f : Array (Cell Unparsed Node) → Array (Cell Unparsed Node)) :
    (listNodes k).update f (w.withNodes l cells) = ((listNodes k).update f w).withNodes l cells := by
  have hlists : (w.lists.setIfInBounds l cells).modify k f = (w.lists.modify k f).setIfInBounds l cells := by
    apply Array.ext_getElem?
    intro i
    grind
  exact congrArg (fun lists => ({ w with lists := lists } : World)) hlists

/-- A change of the nodes themselves. -/
theorem Reserved.update_self (h : w.Reserved l) (f : Array (Cell Unparsed Node) → Array (Cell Unparsed Node)) :
    (listNodes l).update f (w.withNodes l cells) = w.withNodes l (f cells) := by
  obtain ⟨hl, -⟩ := Array.getElem?_eq_some_iff.1 h
  have hlists : (w.lists.setIfInBounds l cells).modify l f = w.lists.setIfInBounds l (f cells) := by
    apply Array.ext_getElem?
    intro i
    grind
  exact congrArg (fun lists => ({ w with lists := lists } : World)) hlists

theorem Reserved.update (hr : w.Reserved l) (h : k ≠ l)
    (f : Array (Cell Unparsed Node) → Array (Cell Unparsed Node)) : ((listNodes k).update f w).Reserved l := by
  show (w.lists.modify k f)[l]? = some #[]
  unfold Reserved at hr
  grind

end World

/-! ## Runs -/

/-- Wherever `x` answers and finds the list without nodes, `y` answers in the same way with any nodes. -/
def Run.Unread (l : Nat) {α : Type} (x y : Run α) : Prop :=
  ∀ w a w', w.Reserved l → x w = (.ok a, w') →
    w'.Reserved l ∧ ∀ cells, y (w.withNodes l cells) = (.ok a, w'.withNodes l cells)

namespace Run.Unread

variable {l : Nat} {α β : Type}

theorem bind {x y : Run α} {f g : α → Run β} (h : Unread l x y) (hf : ∀ a, Unread l (f a) (g a)) :
    Unread l (x >>= f) (y >>= g) := by
  intro w b w' hw hb
  change Run.bind x f w = _ at hb
  unfold Run.bind at hb
  rcases hx : x w with ⟨e | a, w₁⟩
  · rw [hx] at hb
    cases hb
  · rw [hx] at hb
    obtain ⟨hw₁, hy⟩ := h w a w₁ hw hx
    obtain ⟨hw', hg⟩ := hf a w₁ b w' hw₁ hb
    refine ⟨hw', fun cells => ?_⟩
    show Run.bind y g _ = _
    unfold Run.bind
    rw [hy cells]
    exact hg cells

theorem listFree {x : Run α} (h : x.ListFree) : Unread l x x := by
  intro w a w' hw hx
  have hlists := h.lists_eq w
  rw [hx] at hlists
  refine ⟨by rwa [World.Reserved, hlists], fun cells => ?_⟩
  rw [World.withNodes, h w, hx, World.withNodes, hlists]

theorem makeList (u : Unparsed) : Unread l (OnDemand.Means.makeList u) (OnDemand.Means.makeList u) := by
  rintro w a w' hw ⟨⟩
  obtain ⟨hl, hnodes⟩ := Array.getElem?_eq_some_iff.1 hw
  constructor
  · show (w.lists.push #[.pending u])[l]? = some #[]
    rw [Array.getElem?_push_lt hl, hnodes]
  · intro cells
    have hpush : (w.lists.setIfInBounds l cells).push #[.pending u] =
        (w.lists.push #[.pending u]).setIfInBounds l cells := by
      apply Array.ext_getElem?
      intro i
      grind
    show (Except.ok (nodeNumber (w.lists.setIfInBounds l cells).size 0), ({ w with lists := _ } : World)) = _
    rw [Array.size_setIfInBounds]
    exact congrArg (fun lists => (Except.ok (nodeNumber w.lists.size 0), ({ w with lists := lists } : World))) hpush

end Run.Unread

theorem Run.Congruence.unread (l : Nat) : Congruence (fun {α} => @Unread l α) where
  bind := .bind
  plain := fun h => .listFree h.listFree
  outOfFuel := fun _ _ _ _ _ h => by cases h
  makeList := .makeList

namespace OnDemand

variable {l k : Nat}

theorem addNode_unread (h : k ≠ l) (u : Unparsed) : Run.Unread l (Means.addNode k u) (Means.addNode k u) := by
  rintro w a w' hw ⟨⟩
  refine ⟨hw.update h _, fun cells => ?_⟩
  show (Except.ok (nodeNumber k ((w.withNodes l cells).nodesOf k).size), _) = _
  rw [World.nodesOf_withNodes_of_ne h]
  exact congrArg _ (World.update_withNodes h _)

/-- The nodes of another list. -/
theorem force_node_unread (h : k ≠ l) {compute : Unparsed → Run Node} (hcompute : ∀ u, Run.Unread l (compute u) (compute u))
    (i : Nat) : Run.Unread l ((World.listNodes k).force compute (.fault .reentered) i)
      ((World.listNodes k).force compute (.fault .reentered) i) := by
  intro w a w' hw hx
  have hnodes : ∀ cells, (World.listNodes k).cells (w.withNodes l cells) = (World.listNodes k).cells w :=
    fun cells => World.nodesOf_withNodes_of_ne h
  unfold Table.force at hx ⊢
  simp only [hnodes]
  split at hx
  · cases hx
    exact ⟨hw, fun cells => rfl⟩
  · rename_i u hcell
    rcases hc : compute u ((World.listNodes k).set i .forcing w) with ⟨e | b, w₁⟩
    · rw [hc] at hx
      cases hx
    · rw [hc] at hx
      cases hx
      have hforcing : ((World.listNodes k).set i .forcing w).Reserved l := hw.update h _
      obtain ⟨hw₁, hcompute⟩ := hcompute u _ _ _ hforcing hc
      refine ⟨hw₁.update h _, fun cells => ?_⟩
      rw [show (World.listNodes k).set i .forcing (w.withNodes l cells) =
        ((World.listNodes k).set i .forcing w).withNodes l cells from World.update_withNodes h _, hcompute cells]
      exact congrArg _ (World.update_withNodes h _)
  · cases hx
  · cases hx

/-- **No part of the engine reads a list without nodes and answers.** -/
theorem means_unread (env : Env) (l : Nat) : ∀ n, (means env n).Related (fun {α} => @Run.Unread l α) (means env n)
  | 0 => means_related_zero (.unread l) env 0
  | n + 1 => by
    have ih := means_unread env l n
    refine means_related_succ (.unread l) (Nat.le_refl n) ih fun i w a w' hw hx => ?_
    rw [node_succ] at hx ⊢
    dsimp only at hx ⊢
    split at hx
    · rename_i hplace
      have hne : listOf i ≠ l := by
        rintro rfl
        rw [hw.nodesOf] at hplace
        exact absurd hplace (Nat.not_lt_zero _)
      have hforce := force_node_unread hne (fun u => ih.computeNode (.unread l) (Nat.le_refl n) (addNode_unread hne) u)
        (placeOf i) w a w' hw hx
      refine ⟨hforce.1, fun cells => ?_⟩
      rw [World.nodesOf_withNodes_of_ne hne, if_pos hplace]
      exact hforce.2 cells
    · cases hx

end OnDemand

/-! ## With enough fuel -/

/-- Wherever the course answers and finds the list without nodes, it answers in the same way with any nodes. -/
def Course.Unread (l : Nat) {α : Type} (x : Course α) : Prop :=
  ∀ w a w', w.Reserved l → x w = some (.ok a, w') →
    w'.Reserved l ∧ ∀ cells, x (w.withNodes l cells) = some (.ok a, w'.withNodes l cells)

namespace Course.Unread

variable {l : Nat} {α β : Type} {x : Course α}

theorem never : (Course.never : Course α).Unread l := fun _ _ _ _ h => by cases h

theorem pure (a : α) : (Pure.pure a : Course α).Unread l := by
  rintro w b w' hw ⟨⟩
  exact ⟨hw, fun _ => rfl⟩

theorem bind {f : α → Course β} (h : x.Unread l) (hf : ∀ a, (f a).Unread l) : (x >>= f).Unread l := by
  intro w b w' hw hb
  obtain ⟨a, w₁, hx, ha⟩ := Course.bind_eq_ok hb
  obtain ⟨hw₁, hx⟩ := h w a w₁ hw hx
  obtain ⟨hw', hf⟩ := hf a w₁ b w' hw₁ ha
  refine ⟨hw', fun cells => ?_⟩
  rw [Course.bind_of_ok (hx cells)]
  exact hf cells

theorem map (f : α → β) (h : x.Unread l) : (f <$> x).Unread l := by
  rw [map_eq_pure_bind]
  exact h.bind fun a => pure (f a)

theorem sup {f : Nat → Course α} (hf : Monotone f) (h : ∀ n, (f n).Unread l) : (Course.sup f).Unread l := by
  intro w a w' hw hx
  obtain ⟨n, hn⟩ := (Course.sup_eq_some hf).1 hx
  obtain ⟨hw', hn⟩ := h n w a w' hw hn
  exact ⟨hw', fun cells => (Course.sup_eq_some hf).2 ⟨n, hn cells⟩⟩

theorem limit {f : Nat → Run α} (hf : Steady f) (h : ∀ n, Run.Unread l (f n) (f n)) : (Run.limit f).Unread l := by
  refine sup hf.monotone fun n w a w' hw hx => ?_
  obtain ⟨hw', hn⟩ := h n w a w' hw (Course.ofRun_eq_some.1 hx)
  exact ⟨hw', fun cells => Course.ofRun_eq_some.2 (hn cells)⟩

end Course.Unread

namespace OnDemand

variable {env : Env} {l : Nat}

theorem late_unread {α : Type} (a : Late α) : (late env a).Unread l :=
  .limit (steady_late env a) fun n => (means_unread env l n).late (.unread l) a

theorem reveal_unread (s : Suspended) : (reveal env s).Unread l := by
  refine .sup (monotone_revealUpTo s) fun k => ?_
  induction k generalizing s with
  | zero => exact .never
  | succ k ih =>
    refine .bind (.limit (steady_answer env s) fun n => (means_unread env l n).answer s) fun a => ?_
    cases a with
    | success p =>
      exact .map _ (.limit (steady_finish env p) fun n => (means_unread env l n).finish (.unread l) p)
    | failure z message => exact .pure _
    | committed inner => exact .map _ (ih inner)

end OnDemand

end CommittedChoice
