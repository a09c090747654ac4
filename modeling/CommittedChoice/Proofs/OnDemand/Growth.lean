import CommittedChoice.Proofs.OnDemand.Nodes

/-!
# What stays

The world of a run only grows: what was read stays read, and a node of a list that is known stays known. So a list that
was read to its end once has an end in every later world, and asking for it again changes nothing.

- `World.Before`: the order of the worlds of a run. No part of the engine goes back in it (`means_grows`);
- `World.Walked`: a list all of whose nodes are known. So it is after a walk (`walk_walked`), and it is walked without
  changing anything (`Walked.walkFrom`);
- `Late.Anchored`: the context after a success is known, or it is that at the end of such a list.
-/

namespace CommittedChoice

open Run (limit Steady)

/-! ## Worlds -/

namespace World

/-- The node of this number. -/
def cell (w : World) (i : Nat) : Option (Cell Unparsed Node) := (w.nodesOf (listOf i))[placeOf i]?

/-- More was read and noted, lists have no fewer nodes, and the nodes that were known are the same. -/
structure Before (w w' : World) : Prop where
  feed : w.feed.Later w'.feed
  journal : w.journal <:+ w'.journal
  lists : w.lists.size ≤ w'.lists.size
  nodes : ∀ l : Nat, (w.nodesOf l).size ≤ (w'.nodesOf l).size
  forced : ∀ (l k : Nat) (x : Node), (w.nodesOf l)[k]? = some (.forced x) → (w'.nodesOf l)[k]? = some (.forced x)

namespace Before

variable {w w' w'' : World}

theorem refl (w : World) : w.Before w :=
  ⟨.refl, List.suffix_refl _, Nat.le_refl _, fun _ => Nat.le_refl _, fun _ _ _ => id⟩

theorem trans (h : w.Before w') (h' : w'.Before w'') : w.Before w'' :=
  ⟨h.feed.trans h'.feed, h.journal.trans h'.journal, Nat.le_trans h.lists h'.lists,
    fun l => Nat.le_trans (h.nodes l) (h'.nodes l), fun l k x hx => h'.forced l k x (h.forced l k x hx)⟩

theorem cell (h : w.Before w') {i : Nat} {x : Node} (hx : w.cell i = some (.forced x)) : w'.cell i = some (.forced x) :=
  h.forced _ _ x hx

end Before

theorem nodesOf_set (w : World) (l k l' : Nat) (c : Cell Unparsed Node) :
    ((listNodes l).set k c w).nodesOf l' = if l = l' then (w.nodesOf l').setIfInBounds k c else w.nodesOf l' := by
  show (w.lists.modify l fun cells => cells.setIfInBounds k c)[l']?.getD #[] = _
  rw [Array.getElem?_modify]
  split
  · unfold World.nodesOf
    cases w.lists[l']? <;> simp
  · rfl

theorem nodesOf_set_of_ne {w : World} {l k l' k' : Nat} {c : Cell Unparsed Node} (h : ¬ (l = l' ∧ k = k')) :
    (((listNodes l).set k c w).nodesOf l')[k']? = (w.nodesOf l')[k']? := by
  rw [nodesOf_set]
  split
  · rename_i hl
    exact Array.getElem?_setIfInBounds_ne fun hk => h ⟨hl, hk⟩
  · rfl

theorem nodesOf_set_self {w : World} {l k : Nat} {c : Cell Unparsed Node} (h : k < (w.nodesOf l).size) :
    (((listNodes l).set k c w).nodesOf l)[k]? = some c := by
  rw [nodesOf_set, if_pos rfl, Array.getElem?_setIfInBounds_self_of_lt h]

theorem size_nodesOf_set (w : World) (l k l' : Nat) (c : Cell Unparsed Node) :
    (((listNodes l).set k c w).nodesOf l').size = (w.nodesOf l').size := by
  rw [nodesOf_set]
  split
  · exact Array.size_setIfInBounds
  · rfl

/-- A node that is not known yet may be changed. -/
theorem before_set {w : World} {l k : Nat} {c : Cell Unparsed Node} (h : ∀ x, (w.nodesOf l)[k]? ≠ some (.forced x)) :
    w.Before ((listNodes l).set k c w) where
  feed := .refl
  journal := List.suffix_refl _
  lists := Nat.le_of_eq (Array.size_modify).symm
  nodes l' := Nat.le_of_eq (size_nodesOf_set w l k l' c).symm
  forced l' k' x hx := by
    rw [nodesOf_set_of_ne]
    · exact hx
    · rintro ⟨rfl, rfl⟩
      exact h x hx

/-- The nodes after one more was added. -/
theorem nodesOf_addNode (w : World) (l l' : Nat) (u : Unparsed) :
    (OnDemand.Means.addNode l u w).2.nodesOf l' =
      if l = l' ∧ l < w.lists.size then (w.nodesOf l').push (.pending u) else w.nodesOf l' := by
  show (w.lists.modify l fun cells => cells.push (.pending u))[l']?.getD #[] = _
  rw [Array.getElem?_modify]
  unfold World.nodesOf
  by_cases hl : l = l'
  · subst hl
    rw [if_pos rfl]
    by_cases hsize : l < w.lists.size
    · rw [if_pos ⟨rfl, hsize⟩, Array.getElem?_eq_getElem hsize]
      rfl
    · rw [if_neg (fun h => hsize h.2), Array.getElem?_eq_none (Nat.le_of_not_lt hsize)]
      rfl
  · rw [if_neg hl, if_neg fun h => hl h.1]

theorem before_addNode (w : World) (l : Nat) (u : Unparsed) : w.Before (OnDemand.Means.addNode l u w).2 where
  feed := .refl
  journal := List.suffix_refl _
  lists := Nat.le_of_eq (Array.size_modify).symm
  nodes l' := by
    rw [nodesOf_addNode]
    split
    · rw [Array.size_push]; exact Nat.le_succ _
    · exact Nat.le_refl _
  forced l' k x hx := by
    rw [nodesOf_addNode]
    split
    · obtain ⟨hk, hx⟩ := Array.getElem?_eq_some_iff.1 hx
      rw [Array.getElem?_push_lt hk, hx]
    · exact hx

/-- The nodes of a world with one more list. -/
theorem nodesOf_makeList (w : World) (u : Unparsed) (l : Nat) : (OnDemand.Means.makeList u w).2.nodesOf l =
    if l = w.lists.size then #[.pending u] else w.nodesOf l := by
  show (w.lists.push #[.pending u])[l]?.getD #[] = _
  rw [Array.getElem?_push]
  split
  · rfl
  · rfl

theorem before_makeList (w : World) (u : Unparsed) : w.Before (OnDemand.Means.makeList u w).2 where
  feed := .refl
  journal := List.suffix_refl _
  lists := by
    show w.lists.size ≤ (w.lists.push #[.pending u]).size
    rw [Array.size_push]
    exact Nat.le_succ _
  nodes l := by
    rw [nodesOf_makeList]
    split
    · rename_i hl
      rw [World.nodesOf, Array.getElem?_eq_none (Nat.le_of_eq hl.symm)]
      exact Nat.zero_le _
    · exact Nat.le_refl _
  forced l k x hx := by
    rw [nodesOf_makeList, if_neg]
    · exact hx
    · intro hl
      rw [World.nodesOf, Array.getElem?_eq_none (Nat.le_of_eq hl.symm)] at hx
      cases hx

end World

/-! ## Runs -/

/-- Nothing that was there before the run is lost. -/
def Run.Grows {α : Type} (x : Run α) : Prop := ∀ w : World, w.Before (x w).2

theorem Run.Congruence.grows : Run.Congruence fun {α} (x _ : Run α) => x.Grows where
  bind hx hf := Run.bind_advances (r := World.Before) .trans hx hf
  plain {α x} h w := by
    have hlists := h.listFree.lists_eq w
    have hnodes : ∀ l, (x w).2.nodesOf l = w.nodesOf l := fun l => by rw [World.nodesOf, hlists]; rfl
    exact ⟨h.feed w, h.journal w, Nat.le_of_eq (congrArg _ hlists.symm), fun l => by rw [hnodes],
      fun l k y hy => by rwa [hnodes]⟩
  outOfFuel _ w := .refl w
  makeList u w := World.before_makeList w u

theorem Run.Grows.limit {α : Type} {x : Nat → Run α} (h : ∀ n, (x n).Grows) (hsteady : Steady x) {w w' : World}
    {a : Except Fault α} (ha : Run.limit x w = some (a, w')) : w.Before w' := by
  obtain ⟨n, hn⟩ := (Run.limit_eq_some hsteady).1 ha
  have hw := h n w
  rwa [hn] at hw

namespace OnDemand

variable {env : Env} {n : Nat}

/-- Computing a node changes nothing that is known. -/
theorem force_node_grows {l : Nat} {compute : Unparsed → Run Node} (hcompute : ∀ u, (compute u).Grows)
    (k : Nat) : Run.Grows ((World.listNodes l).force compute (.fault .reentered) k) := by
  intro w
  unfold Table.force
  split
  · exact .refl w
  · rename_i u hu
    have hcell : (w.nodesOf l)[k]? = some (.pending u) := hu
    have hforcing : w.Before ((World.listNodes l).set k .forcing w) := World.before_set fun x hx => by
      rw [hcell] at hx
      cases hx
    -- the node is not known before it is computed, so it may be changed afterwards
    have hset : ∀ {w₁ : World} (c : Cell Unparsed Node), ((World.listNodes l).set k .forcing w).Before w₁ →
        w.Before ((World.listNodes l).set k c w₁) := by
      intro w₁ c h
      have h' := hforcing.trans h
      refine ⟨h'.feed, h'.journal, ?_, fun l' => ?_, fun l' k' x hx => ?_⟩
      · exact Nat.le_trans h'.lists (Nat.le_of_eq (Array.size_modify).symm)
      · rw [World.size_nodesOf_set]
        exact h'.nodes l'
      · rw [World.nodesOf_set_of_ne]
        · exact h'.forced l' k' x hx
        · rintro ⟨rfl, rfl⟩
          rw [hcell] at hx
          cases hx
    have h := hcompute u ((World.listNodes l).set k .forcing w)
    rcases hc : compute u ((World.listNodes l).set k .forcing w) with ⟨e | x, w₁⟩
    · rw [hc] at h
      exact hset _ h
    · rw [hc] at h
      exact hset _ h
  · exact .refl w
  · exact .refl w

/-- **No part of the engine goes back.** -/
theorem means_grows (env : Env) : ∀ n, (means env n).Related (fun {α} (x _ : Run α) => x.Grows) (means env n)
  | 0 => means_related_zero .grows env 0
  | n + 1 => by
    have ih := means_grows env n
    refine means_related_succ .grows (Nat.le_refl n) ih fun i w => ?_
    rw [node_succ]
    dsimp only
    split
    · exact force_node_grows (ih.computeNode .grows (Nat.le_refl n) fun u w => World.before_addNode w _ u) _ w
    · exact .refl w

theorem late_before {α : Type} {l : Late α} {x : Except Fault α} {w w' : World} (h : late env l w = some (x, w')) :
    w.Before w' :=
  Run.Grows.limit (fun n => (means_grows env n).late .grows l) (steady_late env l) h

/-! ## Lists that were read to their end -/

/-- A node that was read is known. -/
theorem cell_of_node {i : Nat} {w w' : World} {x : Node} (h : node env n i w = (.ok x, w')) :
    w'.cell i = some (.forced x) := by
  cases n with
  | zero => cases h
  | succ n =>
    rw [node_succ] at h
    dsimp only at h
    split at h
    · rename_i hplace
      unfold Table.force at h
      split at h
      · cases h
        assumption
      · rename_i u hu
        have hbefore := (means_grows env n).computeNode .grows (Nat.le_refl n)
          (fun u w => World.before_addNode w (listOf i) u) u ((World.listNodes (listOf i)).set (placeOf i) .forcing w)
        rcases hc : (means env n).computeNode n (listOf i) u ((World.listNodes (listOf i)).set (placeOf i) .forcing w) with
          ⟨e | y, w₁⟩
        · rw [hc] at h
          cases h
        · rw [hc] at h hbefore
          cases h
          refine World.nodesOf_set_self (Nat.lt_of_lt_of_le ?_ (hbefore.nodes (listOf i)))
          rw [World.size_nodesOf_set]
          exact hplace
      · cases h
      · cases h
    · cases h

/-- A node that is known is read without changing anything. -/
theorem nodeAt_of_cell {i : Nat} {w : World} {x : Node} (h : w.cell i = some (.forced x)) :
    nodeAt env i w = some (.ok x, w) := by
  refine (Run.limit_eq_some (steady_node env i)).2 ⟨1, ?_⟩
  show node env (0 + 1) i w = _
  rw [node_succ]
  dsimp only
  rw [if_pos (Array.getElem?_eq_some_iff.1 h).1]
  unfold Table.force
  rw [show ((World.listNodes (listOf i)).cells w)[placeOf i]? = some (.forced x) from h]
  rfl

end OnDemand

/-- All nodes of the list from this one on are known, and it ends here. -/
inductive World.Walked (w : World) : Nat → ListEnd → Prop
  | ended {i e} : w.cell i = some (.forced (.ended e)) → Walked w i e
  | item {i v next e} : w.cell i = some (.forced (.item v next)) → Walked w next e → Walked w i e

namespace World.Walked

variable {w w' : World} {i : Nat} {e : ListEnd}

theorem before (h : w.Walked i e) (hbefore : w.Before w') : w'.Walked i e := by
  induction h with
  | ended hcell => exact .ended (hbefore.cell hcell)
  | item hcell _ ih => exact .item (hbefore.cell hcell) ih

open OnDemand in
/-- Walking such a list changes nothing. -/
theorem walkFrom {env : Env} (h : w.Walked i e) (done : List Value) :
    ∃ vs, OnDemand.walkFrom env i done w = some (.ok (vs, e), w) := by
  induction h generalizing done with
  | ended hcell => exact ⟨_, by rw [walkFrom_eq, Course.bind_of_ok (nodeAt_of_cell hcell)]; rfl⟩
  | item hcell _ ih =>
    obtain ⟨vs, hvs⟩ := ih (_ :: done)
    exact ⟨vs, by rw [walkFrom_eq, Course.bind_of_ok (nodeAt_of_cell hcell)]; exact hvs⟩

end World.Walked

namespace OnDemand

variable {env : Env} {w w' : World}

/-- A list that was walked is known to its end. -/
theorem walk_walked {n fuel i : Nat} {done vs : List Value} {e : ListEnd}
    (h : walk (node env n) fuel i done w = (.ok (vs, e), w')) : w'.Walked i e := by
  induction fuel generalizing i done w with
  | zero => cases h
  | succ fuel ih =>
    change Run.bind (node env n i) _ w = _ at h
    unfold Run.bind at h
    rcases hx : node env n i w with ⟨_ | x, w₁⟩
    · rw [hx] at h
      cases h
    · rw [hx] at h
      cases x with
      | ended e' =>
        cases h
        exact .ended (cell_of_node hx)
      | item v next =>
        have hgrows : (walk (node env n) fuel next (v :: done)).Grows :=
          @walk_related _ .grows (node env n) (node env n) (means_grows env n).node _ _ (Nat.le_refl fuel) next (v :: done)
        have hbefore : w₁.Before w' := by
          have hw₁ := hgrows w₁
          rwa [show walk (node env n) fuel next (v :: done) w₁ = (.ok (vs, e), w') from h] at hw₁
        exact .item (hbefore.cell (cell_of_node hx)) (ih h)

/-- The context is known, or it is the end of a list that is known. -/
def Late.Anchored (w : World) (z : Context) : Late Context → Prop
  | .known z' => z' = z
  | .later act => ∃ i e, act = (do return (← Act.endOf i).rest) ∧ w.Walked i e ∧ e.rest = z
  | .mapped _ _ => False

theorem Late.Anchored.before {z : Context} {l : Late Context} (h : l.Anchored w z) (hbefore : w.Before w') :
    l.Anchored w' z := by
  cases l with
  | known z' => exact h
  | later act =>
    obtain ⟨i, e, hact, hwalked, hrest⟩ := h
    exact ⟨i, e, hact, hwalked.before hbefore, hrest⟩
  | mapped l f => exact h

/-- **Asking for such a context changes nothing.** -/
theorem Late.Anchored.late {z : Context} {l : Late Context} (h : l.Anchored w z) :
    late env l w = some (.ok z, w) := by
  cases l with
  | known z' => rw [late_known, h]; rfl
  | later act =>
    obtain ⟨i, e, rfl, hwalked, rfl⟩ := h
    obtain ⟨vs, hvs⟩ : ∃ vs, walkFrom env i [] w = some (.ok (vs, e), w) := hwalked.walkFrom []
    rw [late_later, exec_bind, Act.endOf, exec_walk, bind_assoc, Course.bind_of_ok hvs, exec_pure, pure_bind]
    exact congrFun (exec_pure _) w
  | mapped l f => exact h.elim

end OnDemand

end CommittedChoice
