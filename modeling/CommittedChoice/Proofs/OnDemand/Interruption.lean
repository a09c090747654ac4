import CommittedChoice.Proofs.Interruption

/-!
# On-demand runs that a source interrupts

The on-demand engine over a source that fails at some calls, beside the same engine over a source that never fails. Work that
is the same in both runs but for names is related part by part, and every operation keeps it so up to the first call that
fails. Both runs take the same steps, so they take the same fuel.

- `Stage.Lates`, `Promises`, `Frames`, `Answers`, `Suspensions`: work that is the same in both runs. What is late is a
  function of something known, or of the end of a list that is not below the floors;
- `Means.parseItem`, `Means.extend`: the node of a list in two parts, first the item and then the node after it;
- `Means.Paired`: means that do the same with such work; so does then all that is made of them;
- `means_paired`: the engine.
-/

namespace CommittedChoice

open OnDemand

namespace Stage

/-! ## Work -/

/-- Nodes at the same place of lists that are paired and are not below the floors. -/
structure Above (f f' : Nat) (σ : Stage) (i i' : Nat) : Prop where
  places : σ.Places i i'
  first : f ≤ listOf i
  second : f' ≤ listOf i'

section Work

variable (f f' : Nat) (σ : Stage)

/-- Something late in both runs. -/
inductive Lates {α : Type} (A : Stage → α → α → Prop) : Late α → Late α → Prop
  | known {a b} : A σ a b → Lates A (.known a) (.known b)
  | walked {i i'} (g : ListEnd → α) : Above f f' σ i i' → (∀ τ, σ ≤ τ → ∀ e e', τ.Stops e e' → A τ (g e) (g e')) →
      Lates A (.later (.walk i fun _ e => .pure (g e))) (.later (.walk i' fun _ e => .pure (g e)))
  | mapped {l l' h h'} : Lates A l l' → (∀ τ, σ ≤ τ → ∀ a b, A τ a b → Acts A τ (h a) (h' b)) →
      Lates A (.mapped l h) (.mapped l' h')

/-- A success in both runs. -/
structure Promises (p p' : Promise) : Prop where
  rest : Lates f f' σ Contexts p.rest p'.rest
  value : Lates f f' σ Values p.value p'.value
  finish : Option.Rel (Lates f f' σ Finishes) p.finish p'.finish

/-- What is done with an answer in both runs. -/
inductive Frames : Frame → Frame → Prop
  | bind {k k'} : Functions Parsers σ k k' → Frames (.bind k) (.bind k')
  | map {h h'} : Functions Values σ h h' → Frames (.map h) (.map h')
  | reword {h h'} : σ.Rewordings h h' → Frames (.reword h) (.reword h')
  | restoring {u u'} : σ.Values u u' → Frames (.restoring u) (.restoring u')
  | orElse {q q' z z'} : σ.Parsers q q' → σ.Contexts z z' → Frames (.orElse q z) (.orElse q' z')
  | loop {step step'} : Functions Parsers σ step step' → Frames (.loop step) (.loop step')

mutual

/-- An answer in both runs. -/
inductive Answers : Answer → Answer → Prop
  | success {p p'} : Promises f f' σ p p' → Answers (.success p) (.success p')
  | failure {z z'} (m) : σ.Contexts z z' → Answers (.failure z m) (.failure z' m)
  | committed {s s'} : Suspensions s s' → Answers (.committed s) (.committed s')

/-- Something suspended in both runs. -/
inductive Suspensions : Suspended → Suspended → Prop
  | ready {a a'} : Answers a a' → Suspensions (.ready a) (.ready a')
  | apply {p p' z z'} : σ.Parsers p p' → σ.Contexts z z' → Suspensions (.apply p z) (.apply p' z')
  | afresh {p p' z z'} : σ.Parsers p p' → σ.Contexts z z' → Suspensions (.afresh p z) (.afresh p' z')
  | framed {s s' g g'} : Suspensions s s' → σ.Frames g g' → Suspensions (.framed s g) (.framed s' g')

end

/-- An answer without its commitment in both runs. -/
inductive Settleds : Settled → Settled → Prop
  | success {p p'} : Promises f f' σ p p' → Settleds (.success p) (.success p')
  | failure {z z'} (m) : σ.Contexts z z' → Settleds (.failure z m) (.failure z' m)

/-- What a turn of a loop leads to in both runs. -/
inductive Turns : Means.Turn → Means.Turn → Prop
  | finished {a a'} : Answers f f' σ a a' → Turns (.finished a) (.finished a')
  | again {u u' z z'} : σ.Values u u' → σ.Contexts z z' → Turns (.again u z) (.again u' z')

end Work

variable {α β : Type} {ρ σ τ : Stage} {S : Supply} {f f' : Nat} {w w' : World}

theorem Above.mono (h : ρ ≤ σ) {i i' : Nat} (hi : Above f f' ρ i i') : Above f f' σ i i' :=
  ⟨hi.places.mono h, hi.first, hi.second⟩

theorem finishes_monotone : Monotone Finishes := fun _ _ h _ _ hx => hx.mono h

theorem contexts_monotone : Monotone Contexts := fun _ _ h _ _ hz => hz.mono h

theorem Lates.mono {A : Stage → α → α → Prop} (hA : Monotone A) (h : ρ ≤ σ) {l l' : Late α} (hl : Lates f f' ρ A l l') :
    Lates f f' σ A l l' := by
  induction hl with
  | known hab => exact .known (hA h _ _ hab)
  | walked g hi hg => exact .walked g (hi.mono h) fun τ hτ => hg τ (le_trans h hτ)
  | mapped _ hh ih => exact .mapped ih fun τ hτ => hh τ (le_trans h hτ)

theorem Promises.mono (h : ρ ≤ σ) {p p' : Promise} (hp : Promises f f' ρ p p') : Promises f f' σ p p' := by
  refine ⟨hp.rest.mono contexts_monotone h, hp.value.mono values_monotone h, ?_⟩
  have hfinish := hp.finish
  generalize p.finish = l at hfinish ⊢
  generalize p'.finish = l' at hfinish ⊢
  cases hfinish with
  | none => exact .none
  | some hl => exact .some (hl.mono finishes_monotone h)

theorem Frames.mono (h : ρ ≤ σ) {g g' : Frame} (hg : ρ.Frames g g') : σ.Frames g g' := by
  cases hg with
  | bind hk => exact .bind (hk.mono h)
  | map hh => exact .map (hh.mono h)
  | reword hh => exact .reword (hh.mono h)
  | restoring hu => exact .restoring (hu.mono h)
  | orElse hq hz => exact .orElse (hq.mono h) (hz.mono h)
  | loop hstep => exact .loop (hstep.mono h)

mutual

theorem Answers.mono (h : ρ ≤ σ) : ∀ {a a' : Answer}, Answers f f' ρ a a' → Answers f f' σ a a'
  | .success _, _, .success hp => .success (hp.mono h)
  | .failure _ _, _, .failure m hz => .failure m (hz.mono h)
  | .committed _, _, .committed hs => .committed (hs.mono h)

theorem Suspensions.mono (h : ρ ≤ σ) : ∀ {s s' : Suspended}, Suspensions f f' ρ s s' → Suspensions f f' σ s s'
  | .ready _, _, .ready ha => .ready (ha.mono h)
  | .apply _ _, _, .apply hp hz => .apply (hp.mono h) (hz.mono h)
  | .afresh _ _, _, .afresh hp hz => .afresh (hp.mono h) (hz.mono h)
  | .framed _ _, _, .framed hs hg => .framed (hs.mono h) (hg.mono h)

end

theorem Turns.mono (h : ρ ≤ σ) {t t' : Means.Turn} (ht : Turns f f' ρ t t') : Turns f f' σ t t' := by
  cases ht with
  | finished ha => exact .finished (ha.mono h)
  | again hu hz => exact .again (hu.mono h) (hz.mono h)

theorem Answers.known {z z' : Context} (hz : σ.Contexts z z') {v v' : Value} (hv : σ.Values v v') :
    Answers f f' σ (.known z v) (.known z' v') := .success ⟨.known hz, .known hv, .none⟩

theorem Promises.disclosed {p p' : Promise} (h : Promises f f' σ p p') : Promises f f' σ p.disclosed p'.disclosed :=
  ⟨h.rest, h.value, .none⟩

/-- A list is the same success in both runs. -/
theorem Answers.ofList {i i' : Nat} (h : Above f f' σ i i') : Answers f f' σ (.ofList i) (.ofList i') :=
  .success ⟨.walked _ h fun _ _ _ _ he => he.rest, .known (.list h.places), .some (.walked _ h fun _ _ _ _ he => he.finish)⟩

/-- Changing the failures that a success may turn out to be. -/
theorem Promises.onFailure {p p' : Promise} (h : Promises f f' σ p p') {g g' : Context → String → Act (Context × String)}
    (hg : ∀ τ, σ ≤ τ → ∀ z z' m, τ.Contexts z z' →
      Acts (fun τ x y => τ.Contexts x.1 y.1 ∧ x.2 = y.2) τ (g z m) (g' z' m)) :
    Promises f f' σ (p.onFailure g) (p'.onFailure g') := by
  refine ⟨h.rest, h.value, ?_⟩
  have hfinish := h.finish
  show Option.Rel _ (p.finish.map _) (p'.finish.map _)
  generalize p.finish = l at hfinish ⊢
  generalize p'.finish = l' at hfinish ⊢
  cases hfinish with
  | none => exact .none
  | some hl =>
    refine .some (.mapped hl fun τ hτ a b hab => ?_)
    cases hab with
    | plain => exact .pure .plain
    | committed => exact .pure .committed
    | failed m hz =>
      refine (hg τ hτ _ _ m hz).bind fun υ _ x y hxy => ?_
      obtain ⟨z, m⟩ := x
      obtain ⟨z', _⟩ := y
      obtain ⟨hz, rfl⟩ := hxy
      exact .pure (.failed m hz)

/-- The frame of a parser in both runs. -/
theorem Parsers.frame? {p p' : Parser} (h : σ.Parsers p p') {z z' : Context} (hz : σ.Contexts z z') :
    (OnDemand.frame? z p = none ∧ OnDemand.frame? z' p' = none) ∨
      ∃ q q' g g', OnDemand.frame? z p = some (q, g) ∧ OnDemand.frame? z' p' = some (q', g') ∧
        σ.Parsers q q' ∧ σ.Frames g g' := by
  cases h with
  | map hp hf => exact .inr ⟨_, _, _, _, rfl, rfl, hp, .map hf⟩
  | bind R hp hk hR => exact .inr ⟨_, _, _, _, rfl, rfl, hp, .bind (hk.imp hR)⟩
  | orElse hp hq => exact .inr ⟨_, _, _, _, rfl, rfl, hp, .orElse hq hz⟩
  | reword hp hf => exact .inr ⟨_, _, _, _, rfl, rfl, hp, .reword hf⟩
  | restoring hp => exact .inr ⟨_, _, _, _, rfl, rfl, hp, .restoring hz.state⟩
  | _ => exact .inl ⟨rfl, rfl⟩

/-! ## Nodes -/

/-- Lists that are the same have as many nodes. -/
theorem SameList.size {l l' : Nat} (h : σ.SameList w w' l l') : (w.nodesOf l).size = (w'.nodesOf l').size := by
  have hnone : (w.nodesOf l)[(w'.nodesOf l').size]? = none := by
    have hcell := h (w'.nodesOf l').size
    rw [Array.getElem?_eq_none (Nat.le_refl _)] at hcell
    generalize (w.nodesOf l)[(w'.nodesOf l').size]? = c at hcell
    cases hcell
    rfl
  have hnone' : (w'.nodesOf l')[(w.nodesOf l).size]? = none := by
    have hcell := h (w.nodesOf l).size
    rw [Array.getElem?_eq_none (Nat.le_refl _)] at hcell
    generalize (w'.nodesOf l')[(w.nodesOf l).size]? = c at hcell
    cases hcell
    rfl
  exact Nat.le_antisymm (Array.getElem?_eq_none_iff.1 hnone) (Array.getElem?_eq_none_iff.1 hnone')

namespace Worlds

/-- A new list in both runs. -/
theorem makeList (hw : Worlds S f f' σ w w') {u u' : Unparsed} (hu : σ.Waits u u') :
    ∃ τ, Worlds S f f' τ (Means.makeList u w).2 (Means.makeList u' w').2 ∧
      Onward f f' σ τ w w' (Means.makeList u w).2 (Means.makeList u' w').2 ∧
      Above f f' τ (nodeNumber w.lists.size 0) (nodeNumber w'.lists.size 0) := by
  have hnew : σ.lists.New w.lists.size w'.lists.size :=
    ⟨fun n hn => Nat.lt_irrefl _ (hw.lists _ n hn).1, fun m hm => Nat.lt_irrefl _ (hw.lists m _ hm).2⟩
  let τ : Stage := { σ with lists := σ.lists.add hnew }
  have hle : σ ≤ τ := ⟨Pairing.le_add hnew, le_refl _, Nat.le_refl _⟩
  have hsize : ∀ (w : World) (u : Unparsed), (Means.makeList u w).2.lists.size = w.lists.size + 1 :=
    fun w u => Array.size_push _
  have hleaves : ∀ {f : Nat} {w : World} (u : Unparsed), f ≤ w.lists.size → w.Leaves f (Means.makeList u w).2 := by
    intro f w u hf
    refine ⟨.refl, Nat.le_refl _, ?_, fun l hl => ?_⟩
    · rw [hsize]
      exact Nat.le_succ _
    · rw [World.nodesOf_makeList, if_neg (Nat.ne_of_lt (Nat.lt_of_lt_of_le hl hf))]
  refine ⟨τ, ⟨⟨hw.feeds.first, hw.feeds.second, hw.feeds.steady, hw.feeds.reach, hw.feeds.reach'⟩, ?_, ?_, hw.made, ?_, ?_⟩,
    ⟨hle, ?_, hleaves u hw.floor, hleaves u' hw.floor'⟩, ⟨.mk (show τ.lists.pairs _ _ from .inr ⟨rfl, rfl⟩) 0, ?_, ?_⟩⟩
  · rw [hsize]
    exact Nat.le_succ_of_le hw.floor
  · rw [hsize]
    exact Nat.le_succ_of_le hw.floor'
  · rintro l l' (hl | ⟨rfl, rfl⟩)
    · rw [hsize, hsize]
      exact ⟨Nat.lt_succ_of_lt (hw.lists l l' hl).1, Nat.lt_succ_of_lt (hw.lists l l' hl).2⟩
    · rw [hsize, hsize]
      exact ⟨Nat.lt_succ_self _, Nat.lt_succ_self _⟩
  · rintro l l' (hl | ⟨rfl, rfl⟩) hf hf' k
    · obtain ⟨hlt, hlt'⟩ := hw.lists l l' hl
      rw [World.nodesOf_makeList, World.nodesOf_makeList, if_neg (Nat.ne_of_lt hlt), if_neg (Nat.ne_of_lt hlt')]
      exact ((hw.same l l' hl hf hf').mono hle) k
    · rw [World.nodesOf_makeList, World.nodesOf_makeList, if_pos rfl, if_pos rfl]
      cases k with
      | zero => exact .some (.pending (hu.mono hle))
      | succ k => exact .none
  · rintro l l' (hl | ⟨rfl, rfl⟩)
    · exact .inl hl
    · exact .inr ⟨Nat.le_refl _, Nat.le_refl _⟩
  · rw [listOf_nodeNumber]
    exact hw.floor
  · rw [listOf_nodeNumber]
    exact hw.floor'

/-- A change of the nodes of a list in both runs. -/
theorem change (hw : Worlds S f f' σ w w') {w₁ w₁' : World} {l l' : Nat} (hl : σ.lists.pairs l l') (hf : f ≤ l)
    (hf' : f' ≤ l') (hworld : w₁.feed = w.feed ∧ w₁.made = w.made ∧ w₁.lists.size = w.lists.size)
    (hworld' : w₁'.feed = w'.feed ∧ w₁'.made = w'.made ∧ w₁'.lists.size = w'.lists.size)
    (hother : ∀ m, m ≠ l → w₁.nodesOf m = w.nodesOf m) (hother' : ∀ m, m ≠ l' → w₁'.nodesOf m = w'.nodesOf m)
    (hsame : σ.SameList w₁ w₁' l l') : Worlds S f f' σ w₁ w₁' ∧ Onward f f' σ σ w w' w₁ w₁' := by
  obtain ⟨hfeed, hmade, hsize⟩ := hworld
  obtain ⟨hfeed', hmade', hsize'⟩ := hworld'
  refine ⟨⟨?_, hsize ▸ hw.floor, hsize' ▸ hw.floor', ?_, ?_, fun m m' hm hmf hmf' => ?_⟩,
    ⟨le_refl σ, fun _ _ => .inl, ⟨hfeed ▸ .refl, Nat.le_of_eq hmade.symm, Nat.le_of_eq hsize.symm, fun m hm => ?_⟩,
      ⟨hfeed' ▸ .refl, Nat.le_of_eq hmade'.symm, Nat.le_of_eq hsize'.symm, fun m hm => ?_⟩⟩⟩
  · rw [hfeed, hfeed']
    exact hw.feeds
  · rw [hmade, hmade']
    exact hw.made
  · rw [hsize, hsize']
    exact hw.lists
  · by_cases hml : m = l
    · subst hml
      obtain rfl : m' = l' := (σ.lists.unique hm hl).1 rfl
      exact hsame
    · have hml' : m' ≠ l' := fun h => hml ((σ.lists.unique hm hl).2 h)
      intro k
      rw [hother m hml, hother' m' hml']
      exact hw.same m m' hm hmf hmf' k
  · exact hother m (Nat.ne_of_lt (Nat.lt_of_lt_of_le hm hf))
  · exact hother' m (Nat.ne_of_lt (Nat.lt_of_lt_of_le hm hf'))

/-- A node of a list is changed in both runs. -/
theorem set (hw : Worlds S f f' σ w w') {l l' : Nat} (hl : σ.lists.pairs l l') (hf : f ≤ l) (hf' : f' ≤ l') (k : Nat)
    {c c' : Cell Unparsed Node} (hc : Cells l l' σ c c') :
    Worlds S f f' σ ((World.listNodes l).set k c w) ((World.listNodes l').set k c' w') ∧
      Onward f f' σ σ w w' ((World.listNodes l).set k c w) ((World.listNodes l').set k c' w') := by
  refine hw.change hl hf hf' ⟨rfl, rfl, Array.size_modify⟩ ⟨rfl, rfl, Array.size_modify⟩ (fun m hm => ?_) (fun m hm => ?_)
    fun j => ?_
  · rw [World.nodesOf_set, if_neg (Ne.symm hm)]
  · rw [World.nodesOf_set, if_neg (Ne.symm hm)]
  · have hsame := hw.same l l' hl hf hf'
    rw [World.nodesOf_set, World.nodesOf_set, if_pos rfl, if_pos rfl, Array.getElem?_setIfInBounds,
      Array.getElem?_setIfInBounds, ← hsame.size]
    split
    · split
      · exact .some hc
      · exact .none
    · exact hsame j

/-- A node is added to a list in both runs. -/
theorem addNode (hw : Worlds S f f' σ w w') {l l' : Nat} (hl : σ.lists.pairs l l') (hf : f ≤ l) (hf' : f' ≤ l')
    {u u' : Unparsed} (hu : σ.Waits u u') :
    Worlds S f f' σ (Means.addNode l u w).2 (Means.addNode l' u' w').2 ∧
      Onward f f' σ σ w w' (Means.addNode l u w).2 (Means.addNode l' u' w').2 := by
  refine hw.change hl hf hf' ⟨rfl, rfl, Array.size_modify⟩ ⟨rfl, rfl, Array.size_modify⟩ (fun m hm => ?_) (fun m hm => ?_)
    fun j => ?_
  · rw [World.nodesOf_addNode, if_neg fun h => hm h.1.symm]
  · rw [World.nodesOf_addNode, if_neg fun h => hm h.1.symm]
  · have hsame := hw.same l l' hl hf hf'
    obtain ⟨hlt, hlt'⟩ := hw.lists l l' hl
    rw [World.nodesOf_addNode, World.nodesOf_addNode, if_pos ⟨rfl, hlt⟩, if_pos ⟨rfl, hlt'⟩, Array.getElem?_push,
      Array.getElem?_push, ← hsame.size]
    split
    · exact .some (.pending hu)
    · exact hsame j

end Worlds

namespace Runs

theorem makeList {u u' : Unparsed} (hu : σ.Waits u u') :
    Runs S f f' (Above f f') σ (Means.makeList u) (Means.makeList u') := by
  intro τ hτ w w' hw
  obtain ⟨υ, hw₁, hon, habove⟩ := hw.makeList (hu.mono hτ)
  exact .ok habove hw₁ hon

theorem addNode {l l' : Nat} (hl : σ.lists.pairs l l') (hf : f ≤ l) (hf' : f' ≤ l') {u u' : Unparsed} (hu : σ.Waits u u') :
    Runs S f f' (fun _ i i' => ∃ k, i = nodeNumber l k ∧ i' = nodeNumber l' k) σ (Means.addNode l u) (Means.addNode l' u') := by
  intro τ hτ w w' hw
  have hl := lists_le hτ hl
  obtain ⟨hw₁, hon⟩ := hw.addNode hl hf hf' (hu.mono hτ)
  exact .ok ⟨_, rfl, congrArg (nodeNumber l') (hw.same l l' hl hf hf').size.symm⟩ hw₁ hon

/-- A node is computed in both runs or in neither. -/
theorem force {l l' : Nat} (hl : σ.lists.pairs l l') (hf : f ≤ l) (hf' : f' ≤ l') {compute compute' : Unparsed → Run Node}
    (h : ∀ τ, σ ≤ τ → ∀ u u', τ.Waits u u' → Runs S f f' (Nodes l l') τ (compute u) (compute' u')) (k : Nat) :
    Runs S f f' (Nodes l l') σ ((World.listNodes l).force compute (.fault .reentered) k)
      ((World.listNodes l').force compute' (.fault .reentered) k) := by
  intro τ hτ w w' hw
  have hl := lists_le hτ hl
  have hcell : Option.Rel (Cells l l' τ) ((World.listNodes l).cells w)[k]? ((World.listNodes l').cells w')[k]? :=
    hw.same l l' hl hf hf' k
  unfold Table.force
  generalize ((World.listNodes l).cells w)[k]? = c at hcell ⊢
  generalize ((World.listNodes l').cells w')[k]? = c' at hcell ⊢
  cases hcell with
  | none => exact .fault nofun hw (.refl _ _ _ _ _)
  | some hc =>
    cases hc with
    | forcing => exact .fault nofun hw (.refl _ _ _ _ _)
    | forced hx => exact .ok hx hw (.refl _ _ _ _ _)
    | @pending u u' hu =>
      obtain ⟨hw₁, hon₁⟩ := hw.set hl hf hf' k .forcing
      have hcompute := h τ hτ u u' hu τ (le_refl τ) _ _ hw₁
      dsimp only
      generalize compute u _ = r at hcompute ⊢
      generalize compute' u' _ = r' at hcompute ⊢
      cases hcompute with
      | outOfFuel w₂ w₂' => exact .outOfFuel _ _
      | ok hx hw₂ hon₂ =>
        obtain ⟨hw₃, hon₃⟩ := hw₂.set (lists_le hon₂.le hl) hf hf' k (.forced hx)
        exact .ok hx hw₃ ((hon₁.trans hon₂).trans hon₃)
      | fault he hw₂ hon₂ =>
        obtain ⟨hw₃, hon₃⟩ := hw₂.set (lists_le hon₂.le hl) hf hf' k (.pending (hu.mono hon₂.le))
        exact .fault he hw₃ ((hon₁.trans hon₂).trans hon₃)
      | @stopped c w₂ _ hleaves hfails =>
        refine .stopped _ (hon₁.first.trans (hleaves.trans ⟨.refl, Nat.le_refl _, Nat.le_of_eq Array.size_modify.symm,
          fun m hm => ?_⟩)) hfails
        rw [World.nodesOf_set, if_neg (Ne.symm (Nat.ne_of_lt (Nat.lt_of_lt_of_le hm hf)))]

end Runs

end Stage

namespace OnDemand

/-! ## Items -/

namespace Means

variable (m : Means)

/-- What parsing an item of a list comes to. -/
inductive Parsed where
  | ended (e : ListEnd)
  | item (v : Value) (z : Context) (committed : Bool)

/-- An item whose finish is no failure. -/
def itemValue (u : Unparsed) (committed : Bool) (p : Promise) : Run Parsed := do
  let z ← m.late p.rest
  if z.input.consumed = u.start.input.consumed then pure (.ended ⟨u.start, if committed then .committed else .plain⟩)
  else do
    let v ← m.late p.value
    pure (.item v z committed)

/-- An item whose finish is known. -/
def itemFinished (u : Unparsed) (committed : Bool) (p : Promise) : Finish → Run Parsed
  | .failed z message => pure (.ended ⟨u.start, .failed z message⟩)
  | finish => m.itemValue u (commits committed finish) p

/-- Parses one item, and adds no node for what comes after it. -/
def parseItem (fuel : Nat) (u : Unparsed) : Run Parsed :=
  m.answer (.apply u.item u.start) >>= fun a =>
    match a with
    | .failure _ _ => pure (.ended ⟨u.start, if u.committed then .committed else .plain⟩)
    | .success p => m.finish p >>= m.itemFinished u u.committed p
    | .committed inner => m.settlement fuel inner >>= fun s =>
      match s with
      | .failure z message => pure (.ended ⟨u.start, .failed z message⟩)
      | .success p => m.finish p >>= m.itemFinished u true p

/-- The node of an item that was parsed. -/
def extend (l : Nat) (u : Unparsed) : Parsed → Run Node
  | .ended e => pure (.ended e)
  | .item v z committed => do
    let next ← addNode l ⟨u.item, z, committed⟩
    pure (.item (m.emit v z next) next)

/-- A node is computed by parsing its item first. -/
theorem computeNode_eq_parseItem (fuel l : Nat) (u : Unparsed) :
    m.computeNode fuel l u = m.parseItem fuel u >>= m.extend l u := by
  have hvalue : ∀ committed p, m.nodeValue l u committed p = m.itemValue u committed p >>= m.extend l u := by
    intro committed p
    unfold nodeValue itemValue
    rw [bind_assoc]
    refine bind_congr fun z => ?_
    split
    · rfl
    · rw [bind_assoc]
      rfl
  have hfinished : ∀ committed p finish,
      m.nodeFinished l u committed p finish = m.itemFinished u committed p finish >>= m.extend l u := by
    intro committed p finish
    cases finish with
    | failed z message => rfl
    | plain => exact hvalue _ _
    | committed => exact hvalue _ _
  rw [computeNode_eq, parseItem, bind_assoc]
  refine bind_congr fun a => ?_
  cases a with
  | failure z message => rfl
  | success p =>
    rw [bind_assoc]
    exact bind_congr (hfinished _ _)
  | committed inner =>
    rw [bind_assoc]
    refine bind_congr fun t => ?_
    cases t with
    | failure z message => rfl
    | success p =>
      rw [bind_assoc]
      exact bind_congr (hfinished _ _)

end Means

end OnDemand

open OnDemand in
/-- An item that was parsed in both runs. -/
inductive Stage.Items (σ : Stage) : Means.Parsed → Means.Parsed → Prop
  | ended {e e'} : σ.Stops e e' → Items σ (.ended e) (.ended e')
  | item {v v' z z'} (committed) : σ.Values v v' → σ.Contexts z z' → Items σ (.item v z committed) (.item v' z' committed)

namespace OnDemand

open Stage

variable {S : Supply} {f f' : Nat} {σ : Stage}

/-! ## Means -/

variable (S) in
/-- Means that do the same in both runs with what is the same but for names. -/
structure Means.Paired (m : Means) : Prop where
  grammar : ∀ name, (m.env.grammar name).Pure
  node : ∀ {f f' σ i i'}, Above f f' σ i i' → 
    Runs S f f' (Nodes (listOf i) (listOf i')) σ (m.lists.node i) (m.lists.node i')
  walk : ∀ {f f' σ i i'}, Above f f' σ i i' →
    Runs S f f' (fun τ x y => List.Forall₂ τ.Values x.1 y.1 ∧ τ.Stops x.2 y.2) σ (m.lists.walk i) (m.lists.walk i')
  answer : ∀ {f f' σ s s'}, Suspensions f f' σ s s' → Runs S f f' (Answers f f') σ (m.answer s) (m.answer s')

namespace Means.Paired

variable {m : Means} (h : m.Paired S)

theorem answered {a a' : Answer} (ha : Answers f f' σ a a') : Runs S f f' (Answers f f') σ (pure a) (pure a') :=
  .pure fun _ hτ => ha.mono hτ

theorem turned {t t' : Turn} (ht : Turns f f' σ t t') : Runs S f f' (Turns f f') σ (pure t) (pure t') :=
  .pure fun _ hτ => ht.mono hτ

include h

theorem late {α : Type} {A : Stage → α → α → Prop} (hA : Monotone A) {l l' : Late α} (hl : Lates f f' σ A l l') :
    Runs S f f' A σ (m.late l) (m.late l') := by
  induction hl with
  | known hab => exact .pure fun _ hτ => hA hτ _ _ hab
  | walked g hi hg =>
    rw [late_later, late_later, Means.exec, Means.exec, Act.exec_walk, Act.exec_walk]
    exact (h.walk hi).bind fun τ hτ x y hxy => .pure fun υ hυ => hA hυ _ _ (hg τ hτ _ _ hxy.2)
  | mapped _ hh ih =>
    rw [late_mapped, late_mapped]
    exact ih.bind fun τ hτ a b hab => (hh τ hτ a b hab).runs hA

theorem finish {p p' : Promise} (hp : Promises f f' σ p p') : Runs S f f' Finishes σ (m.finish p) (m.finish p') := by
  rw [finish_eq, finish_eq]
  have hfinish := hp.finish
  generalize p.finish = l at hfinish ⊢
  generalize p'.finish = l' at hfinish ⊢
  cases hfinish with
  | none => exact .pure fun _ _ => .plain
  | some hl => exact h.late finishes_monotone hl

theorem bindFinished {k k' : Value → Act Parser} (hk : Functions Parsers σ k k') {p p' : Promise}
    (hp : Promises f f' σ p p') {finish finish' : Finish} (hfinish : σ.Finishes finish finish') :
    Runs S f f' (Answers f f') σ (m.bindFinished k p finish) (m.bindFinished k' p' finish') := by
  cases hfinish with
  | plain =>
    refine (h.late contexts_monotone hp.rest).bind fun τ hτ z z' hz => ?_
    refine (h.late values_monotone (hp.value.mono values_monotone hτ)).bind fun υ hυ v v' hv => ?_
    refine ((hk υ (le_trans hτ hυ) v v' hv).runs parsers_monotone).bind fun φ hφ q q' hq => ?_
    exact h.answer (.apply hq (hz.mono (le_trans hυ hφ)))
  | committed => exact answered (.committed (.framed (.ready (.success hp.disclosed)) (.bind hk)))
  | failed m hz => exact answered (.committed (.ready (.failure m hz)))

theorem settlement : ∀ (fuel : Nat) {σ : Stage} {s s' : Suspended}, Suspensions f f' σ s s' →
    Runs S f f' (Settleds f f') σ (m.settlement fuel s) (m.settlement fuel s')
  | 0, _, _, _, _ => .outOfFuel
  | fuel + 1, σ, s, s', hs => by
    rw [settlement_succ, settlement_succ]
    refine (h.answer hs).bind fun τ hτ a a' ha => ?_
    cases ha with
    | success hp => exact .pure fun _ hυ => .success (hp.mono hυ)
    | failure m hz => exact .pure fun _ hυ => .failure m (hz.mono hυ)
    | committed hinner => exact settlement fuel hinner

/-! ### Loops -/

theorem turnValue {p p' : Promise} (hp : Promises f f' σ p p') :
    Runs S f f' (Turns f f') σ (m.turnValue p) (m.turnValue p') := by
  refine (h.late values_monotone hp.value).bind fun τ hτ v v' hv => ?_
  have hnext := hv.toStep
  generalize v.toStep = s at hnext ⊢
  generalize v'.toStep = s' at hnext ⊢
  cases hnext with
  | done hv => exact turned (.finished (.success ⟨hp.rest.mono contexts_monotone hτ, .known hv, .none⟩))
  | again hv =>
    exact (h.late contexts_monotone (hp.rest.mono contexts_monotone hτ)).bind fun υ hυ z z' hz =>
      turned (.again (hv.mono hυ) hz)

section Loop

variable {step step' : Value → Act Parser} (hstep : Functions Parsers σ step step')

include hstep

theorem turnFinished (committed : Bool) {p p' : Promise} (hp : Promises f f' σ p p') {finish finish' : Finish}
    (hfinish : σ.Finishes finish finish') :
    Runs S f f' (Turns f f') σ (m.turnFinished step committed p finish) (m.turnFinished step' committed p' finish') := by
  cases hfinish with
  | plain => exact h.turnValue hp
  | committed =>
    cases committed with
    | true => exact h.turnValue hp
    | false => exact turned (.finished (.committed (.framed (.ready (.success hp.disclosed)) (.loop hstep))))
  | failed m hz =>
    cases committed with
    | true => exact turned (.finished (.failure m hz))
    | false => exact turned (.finished (.committed (.ready (.failure m hz))))

theorem turnAnswer (fuel : Nat) (committed : Bool) {a a' : Answer} (ha : Answers f f' σ a a') :
    Runs S f f' (Turns f f') σ (m.turnAnswer fuel step committed a) (m.turnAnswer fuel step' committed a') := by
  have hsuccess : ∀ {τ}, σ ≤ τ → ∀ {p p'}, Promises f f' τ p p' → Runs S f f' (Turns f f') τ
      (m.finish p >>= m.turnFinished step committed p) (m.finish p' >>= m.turnFinished step' committed p') := by
    intro τ hτ p p' hp
    exact (h.finish hp).bind fun υ hυ _ _ hfinish =>
      h.turnFinished (hstep.mono (le_trans hτ hυ)) committed (hp.mono hυ) hfinish
  cases ha with
  | failure m hz => exact turned (.finished (.failure m hz))
  | success hp => exact hsuccess (le_refl σ) hp
  | committed hinner =>
    cases committed with
    | false => exact turned (.finished (.committed (.framed hinner (.loop hstep))))
    | true =>
      refine (h.settlement fuel hinner).bind fun τ hτ t t' ht => ?_
      cases ht with
      | failure m hz => exact turned (.finished (.failure m hz))
      | success hp => exact hsuccess hτ hp

omit h hstep in
theorem afterTurn {next next' : Value → Context → Run Answer}
    (h : ∀ τ, σ ≤ τ → ∀ u u' z z', τ.Values u u' → τ.Contexts z z' →
      Runs S f f' (Answers f f') τ (next u z) (next' u' z'))
    {t t' : Turn} (ht : Turns f f' σ t t') :
    Runs S f f' (Answers f f') σ (Means.afterTurn next t) (Means.afterTurn next' t') := by
  cases ht with
  | finished ha => exact answered ha
  | again hu hz => exact h σ (le_refl σ) _ _ _ _ hu hz

theorem turns (committed : Bool) : ∀ (fuel : Nat) {τ : Stage}, σ ≤ τ → ∀ {u u' : Value} {z z' : Context},
    τ.Values u u' → τ.Contexts z z' →
      Runs S f f' (Answers f f') τ (m.turns step committed fuel u z) (m.turns step' committed fuel u' z')
  | 0, _, _, _, _, _, _, _, _ => .outOfFuel
  | fuel + 1, τ, hτ, u, u', z, z', hu, hz => by
    rw [turns_succ, turns_succ]
    refine ((hstep τ hτ u u' hu).runs parsers_monotone).bind fun υ hυ p p' hp => ?_
    refine (h.answer (.apply hp (hz.mono hυ))).bind fun φ hφ a a' ha => ?_
    have hσφ := le_trans hτ (le_trans hυ hφ)
    refine (h.turnAnswer (hstep.mono hσφ) fuel committed ha).bind fun χ hχ t t' => afterTurn fun ψ hψ _ _ _ _ => ?_
    exact turns committed fuel (le_trans hσφ (le_trans hχ hψ))

end Loop

/-! ### Frames and primitives -/

theorem resumption (fuel : Nat) {g g' : Frame} (hg : σ.Frames g g') {a a' : Answer} (ha : Answers f f' σ a a') :
    Runs S f f' (Answers f f') σ (m.resumption fuel g a) (m.resumption fuel g' a') := by
  cases hg with
  | bind hk =>
    cases ha with
    | success hp =>
      rw [resumption_bind_success, resumption_bind_success]
      exact (h.finish hp).bind fun τ hτ _ _ hfinish => h.bindFinished (hk.mono hτ) (hp.mono hτ) hfinish
    | failure m hz => exact answered (.failure m hz)
    | committed hinner => exact answered (.committed (.framed hinner (.bind hk)))
  | map hh =>
    cases ha with
    | success hp => exact answered (.success ⟨hp.rest, .mapped hp.value hh, hp.finish⟩)
    | failure m hz => exact answered (.failure m hz)
    | committed hinner => exact answered (.committed (.framed hinner (.map hh)))
  | reword hh =>
    cases ha with
    | success hp =>
      refine answered (.success (hp.onFailure fun τ hτ z z' m hz => (hh τ hτ m).bind fun υ hυ x y hxy => ?_))
      exact .pure ⟨hz.mono hυ, hxy⟩
    | failure m hz =>
      rw [resumption_reword_failure, resumption_reword_failure]
      exact ((hh σ (le_refl σ) m).runs monotone_const).bind fun τ hτ m _ hm => hm ▸ answered (.failure m (hz.mono hτ))
    | committed hinner => exact answered (.committed (.framed hinner (.reword hh)))
  | restoring hu =>
    cases ha with
    | success hp =>
      exact answered (.success (hp.onFailure fun τ hτ z z' m hz => .pure ⟨hz.withState (hu.mono hτ), rfl⟩))
    | failure m hz => exact answered (.failure m (hz.withState hu))
    | committed hinner => exact answered (.committed (.framed hinner (.restoring hu)))
  | orElse hq hz =>
    cases ha with
    | success hp => exact answered (.success hp)
    | failure _ _ =>
      rw [resumption_orElse_failure, resumption_orElse_failure]
      exact h.answer (.apply hq hz)
    | committed hinner => exact answered (.committed hinner)
  | loop hstep =>
    rw [resumption_loop, resumption_loop]
    refine (h.turnAnswer hstep fuel true ha).bind fun τ hτ t t' => afterTurn fun υ hυ _ _ _ _ => ?_
    exact h.turns hstep true fuel (le_trans hτ hυ)

theorem alternatives {ps ps' : List (String × Parser)}
    (hps : List.Forall₂ (fun a b => a.1 = b.1 ∧ σ.Parsers a.2 b.2) ps ps') {z z' : Context} (hz : σ.Contexts z z') :
    ∀ failures, Runs S f f' (Answers f f') σ (m.alternatives z failures ps) (m.alternatives z' failures ps') := by
  induction hps with
  | nil =>
    intro failures
    exact (Runs.report _ _).bind fun τ hτ m _ hm => hm ▸ answered (.failure m (hz.mono hτ))
  | @cons a b ps ps' hab _ ih =>
    intro failures
    obtain ⟨label, p⟩ := a
    obtain ⟨_, p'⟩ := b
    obtain ⟨rfl, hp⟩ := hab
    refine (h.answer (.apply hp hz)).bind fun τ hτ a a' ha => ?_
    cases ha with
    | success hp => exact answered (.success hp)
    | committed hinner => exact answered (.committed hinner)
    | failure _ _ => exact (Runs.print _ _).bind fun υ hυ _ _ _ => (ih _).later (le_trans hτ hυ)

theorem primitive (fuel : Nat) {p p' : Parser} (hp : σ.Parsers p p') {z z' : Context} (hz : σ.Contexts z z') :
    Runs S f f' (Answers f f') σ (m.primitive fuel p z) (m.primitive fuel p' z') := by
  have hparser : Suspensions f f' σ (.apply p z) (.apply p' z') := .apply hp hz
  cases hp with
  | pure hv => exact answered (.known hz hv)
  | fail m => exact answered (.failure m hz)
  | commit hp => exact answered (.committed (.afresh hp hz))
  | loop R hinit hstep hR => exact h.turns (hstep.imp hR) false fuel (le_refl σ) hinit hz
  | choice R hps hR _ => exact h.alternatives (hps.imp fun _ _ hab => ⟨hab.1, hR _ _ _ hab.2⟩) hz []
  | next =>
    refine (Runs.next? hz.input).bind fun τ hτ x x' hx => ?_
    cases hx with
    | none => exact answered (.failure _ (hz.mono hτ))
    | some ht hrest => exact answered (.known ((hz.mono hτ).withInput hrest) ht)
  | eof =>
    refine (Runs.next? hz.input).bind fun τ hτ x x' hx => ?_
    cases hx with
    | none => exact answered (.known (hz.mono hτ) (.of_names rfl))
    | some _ _ => exact answered (.failure _ (hz.mono hτ))
  | satisfy htest =>
    refine (Runs.next? hz.input).bind fun τ hτ x x' hx => ?_
    cases hx with
    | none => exact answered (.failure _ (hz.mono hτ))
    | some ht hrest =>
      refine ((htest τ hτ _ _ ht).runs monotone_const).bind fun υ hυ b b' hb => ?_
      subst hb
      cases b with
      | true => exact answered (.known ((hz.mono (le_trans hτ hυ)).withInput (hrest.mono hυ)) (ht.mono hυ))
      | false =>
        exact (Runs.unexpected (ht.mono hυ)).bind fun φ hφ m _ hm =>
          hm ▸ answered (.failure m (hz.mono (le_trans hτ (le_trans hυ hφ))))
  | pushBack hts => exact answered (.known (hz.withInput (hz.input.push hts)) (.of_names rfl))
  | position =>
    unfold Means.primitive
    rw [hz.input.consumed]
    exact answered (.known hz (.of_names rfl))
  | get => exact answered (.known hz hz.state)
  | put hs => exact answered (.known (hz.withState hs) (.of_names rfl))
  | stream hp =>
    have hu : σ.Waits ⟨_, z, false⟩ ⟨_, z', false⟩ := ⟨hp, hz, rfl⟩
    exact (Runs.makeList hu).bind fun τ _ i i' hi => answered (.ofList hi)
  | rule name => exact h.answer (.apply (h.grammar name σ) hz)
  | map | bind | orElse | reword | restoring => exact h.answer hparser

/-! ### List nodes -/

section Nodes

variable {u u' : Unparsed} (hu : σ.Waits u u')

omit h in
/-- A list that ends where an item started. -/
theorem stopped (committed : Bool) (hu : σ.Waits u u') :
    σ.Stops ⟨u.start, if committed then .committed else .plain⟩ ⟨u'.start, if committed then .committed else .plain⟩ := by
  cases committed with
  | true => exact ⟨hu.start, .committed⟩
  | false => exact ⟨hu.start, .plain⟩

omit h in
theorem parsed {x x' : Parsed} (hx : σ.Items x x') : Runs S f f' Items σ (pure x) (pure x') := by
  refine .pure fun τ hτ => ?_
  cases hx with
  | ended he => exact .ended (he.mono hτ)
  | item committed hv hz => exact .item committed (hv.mono hτ) (hz.mono hτ)

include hu

theorem itemValue (committed : Bool) {p p' : Promise} (hp : Promises f f' σ p p') :
    Runs S f f' Items σ (m.itemValue u committed p) (m.itemValue u' committed p') := by
  refine (h.late contexts_monotone hp.rest).bind fun τ hτ z z' hz => ?_
  rw [hz.input.consumed, hu.start.input.consumed]
  split
  · exact parsed (.ended (stopped committed (hu.mono hτ)))
  · exact (h.late values_monotone (hp.value.mono values_monotone hτ)).bind fun υ hυ v v' hv =>
      parsed (.item committed hv (hz.mono hυ))

theorem itemFinished (committed : Bool) {p p' : Promise} (hp : Promises f f' σ p p') {finish finish' : Finish}
    (hfinish : σ.Finishes finish finish') :
    Runs S f f' Items σ (m.itemFinished u committed p finish) (m.itemFinished u' committed p' finish') := by
  cases hfinish with
  | failed m hz => exact parsed (.ended ⟨hu.start, .failed m hz⟩)
  | plain => exact h.itemValue hu _ hp
  | committed => exact h.itemValue hu _ hp

theorem parseItem (fuel : Nat) : Runs S f f' Items σ (m.parseItem fuel u) (m.parseItem fuel u') := by
  unfold Means.parseItem
  rw [← hu.committed]
  refine (h.answer (.apply hu.item hu.start)).bind fun τ hτ a a' ha => ?_
  have hu := hu.mono hτ
  cases ha with
  | failure _ _ => exact parsed (.ended (stopped _ hu))
  | success hp =>
    exact (h.finish hp).bind fun υ hυ _ _ hfinish => h.itemFinished (hu.mono hυ) u.committed (hp.mono hυ) hfinish
  | committed hinner =>
    refine (h.settlement fuel hinner).bind fun υ hυ t t' ht => ?_
    have hu := hu.mono hυ
    cases ht with
    | failure m hz => exact parsed (.ended ⟨hu.start, .failed m hz⟩)
    | success hp =>
      exact (h.finish hp).bind fun φ hφ _ _ hfinish => h.itemFinished (hu.mono hφ) true (hp.mono hφ) hfinish

omit h hu in
/-- The item of a node in both runs. -/
theorem emit {v v' : Value} (hv : σ.Values v v') {z z' : Context} (hz : σ.Contexts z z') {i i' : Nat}
    (hi : σ.Places i i') : σ.Values (m.emit v z i) (m.emit v' z' i') := by
  unfold Means.emit
  split
  · exact .item hi hv hz.state _ _
  · exact hv

theorem computeNode (fuel : Nat) {l l' : Nat} (hl : σ.lists.pairs l l') (hf : f ≤ l) (hf' : f' ≤ l') :
    Runs S f f' (Nodes l l') σ (m.computeNode fuel l u) (m.computeNode fuel l' u') := by
  rw [computeNode_eq_parseItem, computeNode_eq_parseItem]
  refine (h.parseItem hu fuel).bind fun τ hτ x x' hx => ?_
  cases hx with
  | ended he => exact .pure fun _ hυ => .ended (he.mono hυ)
  | @item v v' z z' committed hv hz =>
    have hnew : τ.Waits ⟨u.item, z, committed⟩ ⟨u'.item, z', committed⟩ := ⟨hu.item.mono hτ, hz, rfl⟩
    refine (Runs.addNode (lists_le hτ hl) hf hf' hnew).bind fun υ hυ i i' hi => .pure fun φ hφ => ?_
    obtain ⟨k, rfl, rfl⟩ := hi
    have hl := lists_le (le_trans hτ (le_trans hυ hφ)) hl
    exact .item k (emit (hv.mono (le_trans hυ hφ)) (hz.mono (le_trans hυ hφ)) (.mk hl k)) hl

end Nodes

end Means.Paired

/-! ## The engine -/

/-- Reading lists to their end. -/
theorem walk_paired {node : Nat → Run Node}
    (h : ∀ {σ i i'}, Above f f' σ i i' → Runs S f f' (Nodes (listOf i) (listOf i')) σ (node i) (node i')) :
    ∀ (fuel : Nat) {σ : Stage} {i i' : Nat} (_ : Above f f' σ i i') {done done' : List Value}
      (_ : List.Forall₂ σ.Values done done'),
      Runs S f f' (fun τ x y => List.Forall₂ τ.Values x.1 y.1 ∧ τ.Stops x.2 y.2) σ (walk node fuel i done)
        (walk node fuel i' done')
  | 0, _, _, _, _, _, _, _ => .outOfFuel
  | fuel + 1, σ, i, i', hi, done, done', hdone => by
    unfold walk
    refine (h hi).bind fun τ hτ x x' hx => ?_
    have hdone := Values.mono_all hτ hdone
    cases hx with
    | item k hv hl =>
      refine walk_paired h fuel ⟨.mk hl k, ?_, ?_⟩ (.cons hv hdone)
      · rw [listOf_nodeNumber]
        exact hi.first
      · rw [listOf_nodeNumber]
        exact hi.second
    | ended he =>
      exact .pure fun υ hυ => ⟨Values.mono_all hυ (List.rel_reverse hdone), he.mono hυ⟩

/-- **The on-demand engine does the same in both runs,** up to the first call of the source that fails. -/
theorem means_paired {env : Env} (hg : ∀ name, (env.grammar name).Pure) : ∀ n, (means env n).Paired S
  | 0 => ⟨hg, fun _ => .outOfFuel, fun _ => .outOfFuel, fun _ => .outOfFuel⟩
  | n + 1 => by
    have ih := means_paired hg n
    have hnode : ∀ {f f' σ i i'}, Above f f' σ i i' →
        Runs S f f' (Nodes (listOf i) (listOf i')) σ (node env (n + 1) i) (node env (n + 1) i') := by
      intro f f' σ i i' hi τ hτ w w' hw
      obtain ⟨hplaces, hf, hf'⟩ := hi.mono hτ
      obtain ⟨hl, k⟩ := hplaces
      rw [node_succ, node_succ]
      dsimp only
      rw [listOf_nodeNumber] at hf hf'
      rw [listOf_nodeNumber, listOf_nodeNumber, placeOf_nodeNumber, placeOf_nodeNumber,
        (hw.same _ _ hl hf hf').size]
      split
      · exact Runs.force hl hf hf' (fun υ hυ u u' hu => ih.computeNode hu n (lists_le hυ hl) hf hf') k τ (le_refl τ) w w' hw
      · exact .fault nofun hw (.refl _ _ _ _ _)
    refine ⟨hg, hnode, fun hi => walk_paired hnode (n + 1) hi .nil, fun hs => ?_⟩
    cases hs with
    | ready ha => rw [means_answer_ready, means_answer_ready]; exact Means.Paired.answered ha
    | afresh hp hz => rw [means_answer_afresh, means_answer_afresh]; exact ih.answer (.apply hp hz)
    | framed hs hg =>
      rw [means_answer_framed, means_answer_framed]
      exact (ih.answer hs).bind fun τ hτ _ _ ha => ih.resumption n (hg.mono hτ) ha
    | @apply p p' z z' hp hz =>
      rw [means_answer_apply, means_answer_apply]
      obtain ⟨hnone, hnone'⟩ | ⟨q, q', g, g', hsome, hsome', hq, hg⟩ := hp.frame? hz
      · rw [hnone, hnone']
        exact ih.primitive n hp hz
      · rw [hsome, hsome']
        exact ih.answer (.framed (.apply hq hz) hg)

end OnDemand

end CommittedChoice
