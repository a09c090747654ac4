import CommittedChoice.Proofs.Heap.Frames

/-!
# Nodes and links

A list has a node for each item, which is parsed when it is asked for, and in cells a link to each of them, which is followed
when it is asked for. The engine on demand has no links. To parse a node by a link to it is to parse it, and a link that was
followed says what its node says.

- `Heap.parsed`, `Heap.followed`: what becomes of nodes and links, with an answer and without one;
- `Adequate.computed`: what comes of a node that waits to be parsed;
- `Adequate.node_succ`, `Adequate.link_succ`: one node, and one node by the link to it, with one more unit of fuel.
-/

namespace CommittedChoice

open OnDemand

namespace Heap

variable {env : Env} {n b i : Nat} {s : Heap × World} {K : Kind → Prop} {u : Unparsed}

/-- A node once it was parsed, or was not. -/
def parsed (i : Nat) (u : Unparsed) : Except Halt Node × Heap × World → Except Halt Node × Heap × World
  | (.ok x, s) => (.ok x, mark i (.forced x) s)
  | (.error e, s) => (.error e, mark i (.pending u) s)

theorem node_pending (hi : (s.2.nodesOf (listOf i))[placeOf i]? = some (.pending u)) (k : Nat) :
    Heap.node env (k + 1) i s.1 s.2 =
      parsed i u ((access env k).computeNode (listOf i) u (mark i .forcing s).1 (mark i .forcing s).2) := by
  rw [Heap.node_succ, if_pos (Array.getElem?_eq_some_iff.1 hi).1]
  unfold Table.force
  rw [show ((nodeTable (listOf i)).cells s)[placeOf i]? = some (.pending u) from hi]
  show _ = parsed i u ((access env k).computeNode (listOf i) u ((nodeTable (listOf i)).set (placeOf i) .forcing s).1
    ((nodeTable (listOf i)).set (placeOf i) .forcing s).2)
  dsimp only
  rcases (access env k).computeNode (listOf i) u ((nodeTable (listOf i)).set (placeOf i) .forcing s).1
    ((nodeTable (listOf i)).set (placeOf i) .forcing s).2 with ⟨_ | x, s'⟩ <;> rfl

/-- A node that does not wait. -/
theorem node_settled (env : Env) (n : Nat) (hi : ∀ u, (s.2.nodesOf (listOf i))[placeOf i]? ≠ some (.pending u)) (k : Nat) :
    Heap.node env (k + 1) i s.1 s.2 = ((OnDemand.node env (n + 1) i s.2).1, s) ∧
      (OnDemand.node env (n + 1) i s.2).2 = s.2 := by
  rw [Heap.node_succ, OnDemand.node_succ]
  dsimp only
  by_cases hplace : placeOf i < (s.2.nodesOf (listOf i)).size
  · rw [if_pos hplace, if_pos hplace]
    unfold Table.force
    have hnode : ((nodeTable (listOf i)).cells s)[placeOf i]? = (s.2.nodesOf (listOf i))[placeOf i]? := rfl
    have hnode' : ((World.listNodes (listOf i)).cells s.2)[placeOf i]? = (s.2.nodesOf (listOf i))[placeOf i]? := rfl
    rw [hnode, hnode']
    rcases hc : (s.2.nodesOf (listOf i))[placeOf i]? with _ | u | _ | x
    · exact ⟨rfl, rfl⟩
    · exact absurd hc (hi u)
    · exact ⟨rfl, rfl⟩
    · exact ⟨rfl, rfl⟩
  · rw [if_neg hplace, if_neg hplace]
    exact ⟨rfl, rfl⟩

/-- What comes of a node that waits. -/
theorem Adequate.computed (h : Adequate env n) (hi : (s.2.nodesOf (listOf i))[placeOf i]? = some (.pending u))
    (hs : Beside (mark i .forcing s)) (hb : b ≤ s.1.cells.size) {r : Except Halt Node} {w : World}
    (hrun : OnDemand.node env (n + 1) i s.2 = (r, w)) (hr : r ≠ .error .outOfFuel) :
    (∃ e h', r = .error (.fault e) ∧ Settles (fun k => Heap.node env k i) s (.error (.fault e), h', w)) ∨
      ∃ x s₁, r = .ok x ∧ w = (mark i (.forced x) s₁).2 ∧
        Settles (fun k => Heap.node env k i) s (.ok x, mark i (.forced x) s₁) ∧
        Touches (From b Kind.None) (mark i .forcing s) s₁ ∧ Beside s₁ := by
  rw [OnDemand.node_succ] at hrun
  dsimp only at hrun
  rw [if_pos (Array.getElem?_eq_some_iff.1 hi).1] at hrun
  unfold Table.force at hrun
  rw [show ((World.listNodes (listOf i)).cells s.2)[placeOf i]? = some (.pending u) from hi] at hrun
  dsimp only at hrun
  rcases hx : (means env n).computeNode n (listOf i) u (mark i .forcing s).2 with ⟨e | x, w₁⟩
  · rw [show (means env n).computeNode n (listOf i) u ((World.listNodes (listOf i)).set (placeOf i) .forcing s.2) = _
      from hx] at hrun
    cases hrun
    obtain ⟨r', h', ⟨m, hm⟩, hmeets⟩ := h.computeNode (listOf i) u hs hb _ _ hx (fun he => hr (by cases he; rfl))
    cases hmeets with
    | fault e =>
      exact .inl ⟨e, _, rfl, .of_succ m fun k hk => (node_pending hi k).trans (congrArg (parsed i u) (hm k hk))⟩
  · rw [show (means env n).computeNode n (listOf i) u ((World.listNodes (listOf i)).set (placeOf i) .forcing s.2) = _
      from hx] at hrun
    cases hrun
    obtain ⟨r', h', ⟨m, hm⟩, hmeets⟩ := h.computeNode (listOf i) u hs hb _ _ hx nofun
    cases hmeets with
    | ok hR ht hbeside =>
      cases hR
      exact .inr ⟨x, (h', w₁), rfl, rfl,
        .of_succ m fun k hk => (node_pending hi k).trans (congrArg (parsed i u) (hm k hk)), ht, hbeside⟩

/-- **One node of a list.** -/
theorem Adequate.node_succ (h : Adequate env n) (i : Nat) :
    Mirrors b Kind.None Same (OnDemand.node env (n + 1) i) (fun k => Heap.node env k i) s := by
  intro hs hb r w hrun hr
  by_cases hi : ∃ u, (s.2.nodesOf (listOf i))[placeOf i]? = some (.pending u)
  · obtain ⟨u, hi⟩ := hi
    have hopen := Beside.opens hi rfl (.refl i s.1) hs fun y hy => by cases (hs.forced _ _ y hy).symm.trans hi
    obtain ⟨e, h', rfl, hsettles⟩ | ⟨x, s₁, rfl, rfl, hsettles, ht, hs₁⟩ := h.computed hi hopen hb hrun hr
    · exact ⟨_, _, hsettles, .fault e⟩
    · -- the link to the node says nothing yet: it was not followed before, and the node is not known before this
      have hlink : linkAt s₁.1 i ≠ some .forcing := fun hf => by
        cases (hs.forcing _ _ (ht.followed _ _ hf)).symm.trans hi
      have hparsing := ht.parsed _ _ (World.nodesOf_set_self (Array.getElem?_eq_some_iff.1 hi).1)
      exact ⟨_, _, hsettles, .ok rfl (ht.closes hi rfl (.refl i s.1) (.refl i s₁.1) hlink x)
        (.closes hi rfl ht (.refl i s₁.1) hlink hs₁ fun y hy => by cases (hs₁.forced _ _ y hy).symm.trans hparsing)⟩
  · have hwaits : ∀ u, (s.2.nodesOf (listOf i))[placeOf i]? ≠ some (.pending u) := fun u hu => hi ⟨u, hu⟩
    exact Mirrors.still (fun k => (node_settled env n hwaits k).1) (node_settled env n hwaits 0).2 hs hb r w hrun hr

/-- What becomes of a link that was followed: one that led to a failure is followed again. -/
def linkOf : Node → Cell Unit Node
  | .item v next => .forced (.item v next)
  | .ended e => if e.fault?.isSome then .pending () else .forced (.ended e)

theorem linkOf_ne_forcing (x : Node) : linkOf x ≠ .forcing := by
  cases x with
  | item v next => simp [linkOf]
  | ended e => simp only [linkOf]; split <;> simp

theorem eq_of_linkOf {x y : Node} (h : linkOf x = .forced y) : y = x := by
  cases x with
  | item v next => exact (Cell.forced.inj h).symm
  | ended e =>
    simp only [linkOf] at h
    split at h
    · cases h
    · exact (Cell.forced.inj h).symm

theorem relink_world (i : Nat) (c : Cell Unit Node) (s : Heap × World) : (relink i c s).2 = s.2 := rfl

/-- A link once it was followed. -/
def followed (i : Nat) : Except Halt Node × Heap × World → Except Halt Node × Heap × World
  | (.ok x, s) => (.ok x, relink i (linkOf x) s)
  | (.error e, s) => (.error e, relink i (.pending ()) s)

theorem link_pending (hi : linkAt s.1 i = some (.pending ())) (k : Nat) :
    Heap.link env (k + 1) i s.1 s.2 =
      followed i (Heap.node env k i (relink i .forcing s).1 (relink i .forcing s).2) := by
  rw [link_succ, if_pos (Array.getElem?_eq_some_iff.1 hi).1]
  unfold Table.force
  rw [show ((linkTable (listOf i)).cells s)[placeOf i]? = some (.pending ()) from hi]
  unfold Access.follow
  show _ = followed i ((access env k).node i ((linkTable (listOf i)).set (placeOf i) .forcing s).1
    ((linkTable (listOf i)).set (placeOf i) .forcing s).2)
  dsimp only
  rcases (access env k).node i ((linkTable (listOf i)).set (placeOf i) .forcing s).1
    ((linkTable (listOf i)).set (placeOf i) .forcing s).2 with ⟨e | x, s'⟩
  · rfl
  · cases x with
    | item v next => rfl
    | ended e =>
      simp only [followed, linkOf]
      cases e.fault?.isSome <;> rfl

/-- A link that does not wait says what its node says. -/
theorem link_settled (env : Env) (n : Nat) (hs : Beside s) (hi : linkAt s.1 i ≠ some (.pending ())) (k : Nat) :
    Heap.link env (k + 1) i s.1 s.2 = ((OnDemand.node env (n + 1) i s.2).1, s) ∧
      (OnDemand.node env (n + 1) i s.2).2 = s.2 := by
  have hplaces := hs.places (listOf i)
  rw [Heap.link_succ, OnDemand.node_succ]
  dsimp only
  unfold Table.force
  rcases hl : linkAt s.1 i with _ | t | _ | x
  · have hplace := Nat.not_lt_of_le (Array.getElem?_eq_none_iff.1 hl)
    rw [if_neg hplace, if_neg (hplaces ▸ hplace)]
    exact ⟨rfl, rfl⟩
  · exact absurd hl hi
  · have hnode := hs.forcing _ _ hl
    rw [if_pos (Array.getElem?_eq_some_iff.1 hl).1, if_pos (Array.getElem?_eq_some_iff.1 hnode).1,
      show ((linkTable (listOf i)).cells s)[placeOf i]? = _ from hl,
      show ((World.listNodes (listOf i)).cells s.2)[placeOf i]? = _ from hnode]
    exact ⟨rfl, rfl⟩
  · have hnode := hs.forced _ _ x hl
    rw [if_pos (Array.getElem?_eq_some_iff.1 hl).1, if_pos (Array.getElem?_eq_some_iff.1 hnode).1,
      show ((linkTable (listOf i)).cells s)[placeOf i]? = _ from hl,
      show ((World.listNodes (listOf i)).cells s.2)[placeOf i]? = _ from hnode]
    exact ⟨rfl, rfl⟩

/-- What becomes of a link, when it is known what becomes of the node. -/
theorem Settles.follow (hl : linkAt s.1 i = some (.pending ())) {r : Except Halt Node × Heap × World}
    (h : Settles (fun k => Heap.node env k i) (relink i .forcing s) r) :
    Settles (fun k => Heap.link env k i) s (followed i r) := by
  obtain ⟨m, hm⟩ := h
  exact .of_succ m fun k hk => (link_pending hl k).trans (congrArg (followed i) (hm k hk))

/-- A link that waits, to a node that waits. -/
theorem Adequate.follow (h : Adequate env n) (hl : linkAt s.1 i = some (.pending ()))
    (hi : (s.2.nodesOf (listOf i))[placeOf i]? = some (.pending u)) :
    Mirrors b Kind.None Same (OnDemand.node env (n + 1) i) (fun k => Heap.link env k i) s := by
  intro hs hb r w hrun hr
  have hlink := linkAt_relink .forcing (Array.getElem?_eq_some_iff.1 hl).1
  have hopen := Beside.opens hi (relink_world i .forcing s) (.relink i .forcing s) hs fun y hy => by
    cases hlink.symm.trans hy
  obtain ⟨e, h', rfl, hnode⟩ | ⟨x, s₁, rfl, rfl, hnode, ht, hs₁⟩ :=
    h.computed (s := relink i .forcing s) hi hopen hb hrun hr
  · exact ⟨_, _, hnode.follow hl, .fault e⟩
  · have hparsing := ht.parsed _ _ (World.nodesOf_set_self (Array.getElem?_eq_some_iff.1 hi).1)
    have hlink' := linkAt_relink (s := s₁) (linkOf x)
      (hs₁.places (listOf i) ▸ (Array.getElem?_eq_some_iff.1 hparsing).1)
    have hforcing : linkAt (relink i (linkOf x) s₁).1 i ≠ some .forcing := fun hf =>
      linkOf_ne_forcing x (Option.some.inj (hlink'.symm.trans hf))
    exact ⟨_, _, hnode.follow hl, .ok rfl
      (ht.closes hi (relink_world i .forcing s) (.relink i .forcing s) (.relink i (linkOf x) s₁) hforcing x)
      (.closes hi (relink_world i .forcing s) ht (.relink i (linkOf x) s₁) hforcing hs₁ fun y hy =>
        eq_of_linkOf (Option.some.inj (hlink'.symm.trans hy)))⟩

/-- A link that waits, to a node that does not. -/
theorem follow_settled (hl : linkAt s.1 i = some (.pending ()))
    (hi : ∀ u, (s.2.nodesOf (listOf i))[placeOf i]? ≠ some (.pending u)) :
    Mirrors b K Same (OnDemand.node env (n + 1) i) (fun k => Heap.link env k i) s := by
  intro hs _ r w hrun hr
  have hworld := (node_settled env n hi 0).2
  have hnode : Settles (fun k => Heap.node env k i) (relink i .forcing s) (r, relink i .forcing s) := .of_succ 0 fun k _ => by
    rw [(node_settled (s := relink i .forcing s) env n hi k).1]
    exact congrArg (fun r => (r.1, relink i .forcing s)) hrun
  rw [hrun] at hworld
  cases hworld
  match r with
  | .error (.fault e) => exact ⟨_, _, hnode.follow hl, .fault e⟩
  | .error .outOfFuel => exact absurd rfl hr
  | .ok x =>
    have hlink := linkAt_relink (s := relink i .forcing s) (linkOf x)
      ((Elsewhere.relink i .forcing s).places (listOf i) ▸ (Array.getElem?_eq_some_iff.1 hl).1)
    have hforcing : linkAt (relink i (linkOf x) (relink i .forcing s)).1 i ≠ some .forcing := fun hf =>
      linkOf_ne_forcing x (Option.some.inj (hlink.symm.trans hf))
    have hlinks := (Elsewhere.relink i .forcing s).trans (.relink i (linkOf x) (relink i .forcing s))
    refine ⟨_, _, hnode.follow hl, .ok rfl (.relinked hlinks hforcing) (.relinked hlinks hforcing hs fun y hy => ?_)⟩
    rw [eq_of_linkOf (Option.some.inj (hlink.symm.trans hy))]
    exact cell_of_node hrun

/-- **One node of a list, by the link to it.** -/
theorem Adequate.link_succ (h : Adequate env n) (i : Nat) :
    Mirrors b Kind.None Same (OnDemand.node env (n + 1) i) (fun k => Heap.link env k i) s := by
  by_cases hl : linkAt s.1 i = some (.pending ())
  · by_cases hi : ∃ u, (s.2.nodesOf (listOf i))[placeOf i]? = some (.pending u)
    · obtain ⟨u, hi⟩ := hi
      exact h.follow hl hi
    · exact follow_settled hl fun u hu => hi ⟨u, hu⟩
  · intro hs
    exact Mirrors.still (fun k => (link_settled env n hs hl k).1) (link_settled env n hs hl 0).2 hs

end Heap

end CommittedChoice
