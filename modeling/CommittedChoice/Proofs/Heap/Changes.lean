import CommittedChoice.OnDemand.Heap
import CommittedChoice.Proofs.OnDemand.Growth

/-!
# What changes in a heap

Work in cells makes new cells, and computes some of those that were there. It makes lists and adds nodes to them, parses nodes
and follows links. This module says what stays: most cells, the ends of lists that are known, and that links lead to what the
nodes say.

- `Heap.Kind`: what kind of thing is in a cell;
- `Heap.Touches`: work that changes certain cells only;
- `Heap.push`, `Heap.put`: a new cell, and one that is replaced;
- `Heap.Beside`: the links of all lists go with their nodes (`Beside.start`, `Beside.makeList`, `Beside.addNode`);
- `Heap.mark`, `Heap.relink`: a node that is parsed and a link that is followed, and that they go together again when that is
  done (`Beside.opens`, `Beside.closes`).
-/

namespace CommittedChoice

open OnDemand

namespace Heap

/-! ## Cells that change and cells that do not -/

/-- The kinds of things that are in cells. -/
inductive Kind where
  | outcome
  | value
  | rest
  | finish
  | ended

/-- All of them. -/
abbrev Kind.Any (_ : Kind) : Prop := True

/-- None of them. -/
abbrev Kind.None (_ : Kind) : Prop := False

def Task.kind : Task → Kind
  | .primitive .. | .afresh .. | .framed .. | .settled _ => .outcome
  | .mapped .. => .value
  | .pushed .. | .restOf _ => .rest
  | .changed .. | .finishOf _ => .finish
  | .walked _ => .ended

def Content.kind : Content → Kind
  | .outcome _ => .outcome
  | .value _ => .value
  | .rest _ => .rest
  | .finish _ => .finish
  | .ended _ => .ended

/-- A cell that is not being computed is of a kind. -/
def kind? : Cell Task Content → Option Kind
  | .pending t => some t.kind
  | .forcing => none
  | .forced c => some c.kind

/-- The end of the list from node `n` on is in cell `i`, or will be. -/
inductive EndAt (s : Heap × World) (i n : Nat) : Prop
  | waits : s.1.cells[i]? = some (.pending (.walked n)) → EndAt s i n
  | known {e} : s.1.cells[i]? = some (.forced (.ended e)) → s.2.Walked n e → EndAt s i n

/-- A run that changes only cells of which `T` holds. A node that was being parsed still is, and a link that is being
followed was so before. -/
structure Touches (T : Nat → Cell Task Content → Prop) (s s' : Heap × World) : Prop where
  before : s.2.Before s'.2
  size : s.1.cells.size ≤ s'.1.cells.size
  same : ∀ i c, s.1.cells[i]? = some c → ¬ T i c → s'.1.cells[i]? = some c
  ended : ∀ i n, EndAt s i n → EndAt s' i n
  parsed : ∀ l k : Nat, (s.2.nodesOf l)[k]? = some .forcing → (s'.2.nodesOf l)[k]? = some .forcing
  followed : ∀ l k : Nat, (s'.1.linksOf l)[k]? = some .forcing → (s.1.linksOf l)[k]? = some .forcing

/-- Cells from `b` on, of certain kinds, that are not being computed. -/
def From (b : Nat) (K : Kind → Prop) (i : Nat) (c : Cell Task Content) : Prop := b ≤ i ∧ ∃ κ, kind? c = some κ ∧ K κ

variable {T T' : Nat → Cell Task Content → Prop} {s s' s'' : Heap × World} {b b' : Nat} {K K' : Kind → Prop}

theorem not_from {i : Nat} {c : Cell Task Content} {κ : Kind} (hc : kind? c = some κ) (hK : ¬ K κ) : ¬ From b K i c := by
  rintro ⟨-, κ', hκ, hK'⟩
  cases hc.symm.trans hκ
  exact hK hK'

theorem not_forcing {c : Cell Task Content} {κ : Kind} (hc : kind? c = some κ) : c ≠ .forcing := by
  rintro rfl
  cases hc

theorem EndAt.kind {i n : Nat} (h : EndAt s i n) : ∃ c, s.1.cells[i]? = some c ∧ kind? c = some .ended := by
  cases h with
  | waits hi => exact ⟨_, hi, rfl⟩
  | known hi _ => exact ⟨_, hi, rfl⟩

/-- An end stays in its cell as long as the cell stays as it is. -/
theorem EndAt.keep {i n : Nat} (h : EndAt s i n) (hbefore : s.2.Before s'.2)
    (hsame : ∀ c, s.1.cells[i]? = some c → kind? c = some .ended → s'.1.cells[i]? = some c) : EndAt s' i n := by
  cases h with
  | waits hi => exact .waits (hsame _ hi rfl)
  | known hi hn => exact .known (hsame _ hi rfl) (hn.before hbefore)

namespace Touches

theorem refl (s : Heap × World) : Touches T s s :=
  ⟨.refl _, Nat.le_refl _, fun _ _ hc _ => hc, fun _ _ => id, fun _ _ => id, fun _ _ => id⟩

theorem trans (h : Touches T s s') (h' : Touches T s' s'') : Touches T s s'' where
  before := h.before.trans h'.before
  size := Nat.le_trans h.size h'.size
  same i c hc hT := h'.same i c (h.same i c hc hT) hT
  ended i n hn := h'.ended i n (h.ended i n hn)
  parsed l k hk := h'.parsed l k (h.parsed l k hk)
  followed l k hk := h.followed l k (h'.followed l k hk)

theorem mono (h : Touches T s s') (hT : ∀ i c, s.1.cells[i]? = some c → T i c → T' i c) : Touches T' s s' :=
  { h with same := fun i c hc hT' => h.same i c hc fun h => hT' (hT i c hc h) }

theorem weaken (h : Touches (From b K) s s') (hb : b' ≤ b) (hK : ∀ κ, K κ → K' κ) : Touches (From b' K') s s' :=
  h.mono fun _ _ _ ⟨hi, κ, hc, hκ⟩ => ⟨Nat.le_trans hb hi, κ, hc, hK κ hκ⟩

/-- Cells that are new are no cells that were there. -/
theorem of_new (h : Touches (From s.1.cells.size K) s s') : Touches (From b Kind.None) s s' :=
  h.mono fun _ _ hc hT => absurd (Array.getElem?_eq_some_iff.1 hc).1 (Nat.not_lt_of_le hT.1)

/-- What leaves the cells alone touches none of them. -/
theorem of_cells (hcells : s'.1.cells = s.1.cells) (hbefore : s.2.Before s'.2)
    (hparsed : ∀ l k : Nat, (s.2.nodesOf l)[k]? = some .forcing → (s'.2.nodesOf l)[k]? = some .forcing)
    (hfollowed : ∀ l k : Nat, (s'.1.linksOf l)[k]? = some .forcing → (s.1.linksOf l)[k]? = some .forcing) :
    Touches T s s' :=
  ⟨hbefore, Nat.le_of_eq (congrArg Array.size hcells).symm, fun _ _ hc _ => hcells ▸ hc,
    fun _ _ h => h.keep hbefore fun _ hc _ => hcells ▸ hc, hparsed, hfollowed⟩

end Touches

/-- A new cell. -/
def push (c : Cell Task Content) (s : Heap × World) : Heap × World := ({ s.1 with cells := s.1.cells.push c }, s.2)

/-- A cell that is replaced. -/
def put (i : Nat) (c : Cell Task Content) (s : Heap × World) : Heap × World :=
  ({ s.1 with cells := s.1.cells.setIfInBounds i c }, s.2)

theorem push_self (c : Cell Task Content) (s : Heap × World) : (push c s).1.cells[s.1.cells.size]? = some c :=
  Array.getElem?_push_size

theorem put_self {i : Nat} {d : Cell Task Content} (h : s.1.cells[i]? = some d) (c : Cell Task Content) :
    (put i c s).1.cells[i]? = some c :=
  Array.getElem?_setIfInBounds_self_of_lt (Array.getElem?_eq_some_iff.1 h).1

theorem put_of_ne {i j : Nat} (h : j ≠ i) (c : Cell Task Content) (s : Heap × World) :
    (put i c s).1.cells[j]? = s.1.cells[j]? := Array.getElem?_setIfInBounds_ne h.symm

@[simp] theorem size_put (i : Nat) (c : Cell Task Content) (s : Heap × World) :
    (put i c s).1.cells.size = s.1.cells.size := Array.size_setIfInBounds

@[simp] theorem size_push (c : Cell Task Content) (s : Heap × World) :
    (push c s).1.cells.size = s.1.cells.size + 1 := Array.size_push ..

theorem lt_push (c : Cell Task Content) (s : Heap × World) : s.1.cells.size < (push c s).1.cells.size :=
  size_push c s ▸ Nat.lt_succ_self _

theorem push_old (c : Cell Task Content) {i : Nat} {d : Cell Task Content} (h : s.1.cells[i]? = some d) :
    (push c s).1.cells[i]? = some d := by
  obtain ⟨hi, hd⟩ := Array.getElem?_eq_some_iff.1 h
  show (s.1.cells.push c)[i]? = _
  rw [Array.getElem?_push_lt hi, hd]

theorem touches_push (c : Cell Task Content) : Touches T s (push c s) :=
  ⟨.refl _, Nat.le_of_lt (lt_push c s), fun _ _ hd _ => push_old c hd, fun _ _ h => h.keep (.refl _) fun _ hd _ =>
    push_old c hd, fun _ _ => id, fun _ _ => id⟩

/-- A cell that is no end, or an end that comes to be known, may be replaced. -/
theorem touches_put {i : Nat} {c : Cell Task Content} (hend : ∀ n, EndAt s i n → EndAt (put i c s) i n) :
    Touches (fun j _ => j = i) s (put i c s) := by
  refine ⟨.refl _, Nat.le_of_eq (size_put i c s).symm, fun j d hd hj => (put_of_ne hj c s).trans hd, fun j n h => ?_,
    fun _ _ => id, fun _ _ => id⟩
  by_cases hj : j = i
  · exact hj ▸ hend n (hj ▸ h)
  · exact h.keep (.refl _) fun d hd _ => (put_of_ne hj c s).trans hd

/-- A cell that waits and is no end may be replaced. -/
theorem touches_put_pending {i : Nat} {t : Task} (hi : s.1.cells[i]? = some (.pending t)) (ht : t.kind ≠ .ended)
    (c : Cell Task Content) : Touches (fun j d => j = i ∧ d = .pending t) s (put i c s) := by
  refine (touches_put fun n h => ?_).mono fun j d hd hj => ⟨hj, ?_⟩
  · obtain ⟨d, hd, hkind⟩ := h.kind
    cases hd.symm.trans hi
    exact absurd (Option.some.inj hkind) ht
  · subst hj
    exact Option.some.inj (hd.symm.trans hi)

/-- A cell that is being computed may be replaced. -/
theorem touches_put_forcing {i : Nat} (hi : s.1.cells[i]? = some .forcing) (c : Cell Task Content) :
    Touches (fun _ d => d = .forcing) s (put i c s) := by
  refine (touches_put fun n h => ?_).mono fun j d hd hj => ?_
  · obtain ⟨d, hd, hkind⟩ := h.kind
    cases hi.symm.trans hd
    cases hkind
  · subst hj
    exact Option.some.inj (hd.symm.trans hi)

/-- While a cell is computed, others of its kind may change. -/
theorem Touches.around {i : Nat} {t : Task} {c : Content} (hi : s.1.cells[i]? = some (.pending t)) (hb : b ≤ i)
    (hK : K t.kind) (h : Touches (From b K) (put i .forcing s) s')
    (hend : ∀ n, t = .walked n → EndAt (put i (.forced c) s') i n) : Touches (From b K) s (put i (.forced c) s') := by
  refine ⟨h.before, ?_, fun j d hd hT => ?_, fun j n hn => ?_, h.parsed, h.followed⟩
  · rw [size_put]
    exact size_put i .forcing s ▸ h.size
  · have hj : j ≠ i := by
      rintro rfl
      cases hd.symm.trans hi
      exact hT ⟨hb, _, rfl, hK⟩
    exact (put_of_ne hj _ _).trans (h.same j d ((put_of_ne hj _ _).trans hd) hT)
  · by_cases hj : j = i
    · subst hj
      cases hn with
      | waits hn =>
        cases hn.symm.trans hi
        exact hend n rfl
      | known hn _ => cases hn.symm.trans hi
    · have hforcing : EndAt (put i .forcing s) j n := hn.keep (.refl _) fun d hd _ => (put_of_ne hj _ _).trans hd
      exact (h.ended j n hforcing).keep (.refl _) fun d hd _ => (put_of_ne hj _ _).trans hd

/-! ## Links beside nodes -/

/-- A link that is being followed leads to a node that is being parsed, and one that was followed leads to what is known. -/
structure Beside (s : Heap × World) : Prop where
  size : s.1.links.size = s.2.lists.size
  places : ∀ l, (s.1.linksOf l).size = (s.2.nodesOf l).size
  forcing : ∀ l k : Nat, (s.1.linksOf l)[k]? = some .forcing → (s.2.nodesOf l)[k]? = some .forcing
  forced : ∀ (l k : Nat) (x : Node), (s.1.linksOf l)[k]? = some (.forced x) → (s.2.nodesOf l)[k]? = some (.forced x)

/-- Only links and lists matter. -/
theorem Beside.of_lists (h : Beside s) (hlinks : s'.1.links = s.1.links) (hlists : s'.2.lists = s.2.lists) :
    Beside s' := by
  have hl : ∀ l, s'.1.linksOf l = s.1.linksOf l := fun l => by unfold linksOf; rw [hlinks]
  have hn : ∀ l, s'.2.nodesOf l = s.2.nodesOf l := fun l => by unfold World.nodesOf; rw [hlists]
  exact ⟨by rw [hlinks, hlists, h.size], fun l => by rw [hl, hn, h.places], fun l k => by rw [hl, hn]; exact h.forcing l k,
    fun l k x => by rw [hl, hn]; exact h.forced l k x⟩

/-- Beside the lists of a world there are no cells, and links that wait to nodes that wait or not. -/
theorem Beside.start (w : World) : Beside (ofLists w, w) := by
  have hlinks : ∀ l, (ofLists w).linksOf l = (w.nodesOf l).map fun _ => .pending () := by
    intro l
    show (w.lists.map _)[l]?.getD #[] = (w.lists[l]?.getD #[]).map _
    rw [Array.getElem?_map]
    cases w.lists[l]? <;> simp
  refine ⟨Array.size_map, fun l => ?_, fun l k hk => ?_, fun l k x hk => ?_⟩
  · rw [show (ofLists w, w).1.linksOf l = _ from hlinks l]
    exact Array.size_map
  all_goals
    rw [show (ofLists w, w).1.linksOf l = _ from hlinks l, Array.getElem?_map] at hk
    rcases (w.nodesOf l)[k]? with _ | c <;> simp at hk

/-! ### New lists and new nodes -/

section Lists

variable (hs : Beside s) (l : Nat) (u : Unparsed)

/-- What a new list changes. -/
theorem linksOf_makeList (hs : Beside s) (u : Unparsed) (l : Nat) : (Heap.makeList u s.1 s.2).2.1.linksOf l =
    if l = s.2.lists.size then #[.pending ()] else s.1.linksOf l := hs.size ▸ linksOf_push s.1 _ l

/-- What a new node changes. -/
theorem linksOf_addNode (s : Heap × World) (l l' : Nat) (u : Unparsed) : (Heap.addNode l u s.1 s.2).2.1.linksOf l' =
    if l = l' ∧ l < s.1.links.size then (s.1.linksOf l').push (.pending ()) else s.1.linksOf l' := linksOf_modify s.1 l l' _

/-- There is nothing at the end of an array, and a cell that waits when one is pushed. -/
theorem getElem?_push_pending {θ α : Type} {cells : Array (Cell θ α)} {t : θ} {k : Nat} {c : Cell θ α}
    (h : (cells.push (.pending t))[k]? = some c) (hc : c ≠ .pending t) : cells[k]? = some c := by
  rw [Array.getElem?_push] at h
  split at h
  · exact absurd (Option.some.inj h).symm hc
  · exact h

include hs

/-- A new list has one node and one link, and both of them wait. -/
theorem Beside.makeList : Beside (Heap.makeList u s.1 s.2).2 := by
  have hlinks := linksOf_makeList hs u
  have hnodes : ∀ l, (Heap.makeList u s.1 s.2).2.2.nodesOf l =
      if l = s.2.lists.size then #[.pending u] else s.2.nodesOf l := World.nodesOf_makeList s.2 u
  refine ⟨?_, fun l => ?_, fun l k => ?_, fun l k x => ?_⟩
  · show (s.1.links.push _).size = (s.2.lists.push _).size
    rw [Array.size_push, Array.size_push, hs.size]
  all_goals
    rw [hlinks, hnodes]
    split
  · rfl
  · exact hs.places l
  · intro hk
    cases k <;> cases hk
  · exact hs.forcing l k
  · intro hk
    cases k <;> cases hk
  · exact hs.forced l k x

theorem touches_makeList : Touches T s (Heap.makeList u s.1 s.2).2 := by
  refine .of_cells rfl (World.before_makeList s.2 u) (fun l k hk => ?_) fun l k hk => ?_
  · have hl : l ≠ s.2.lists.size := by
      rintro rfl
      rw [World.nodesOf, Array.getElem?_eq_none (Nat.le_refl _)] at hk
      cases hk
    exact (congrArg (·[k]?) ((World.nodesOf_makeList s.2 u l).trans (if_neg hl))).trans hk
  · rw [linksOf_makeList hs] at hk
    split at hk
    · cases k <;> cases hk
    · exact hk

/-- A new node and the link to it wait. -/
theorem Beside.addNode : Beside (Heap.addNode l u s.1 s.2).2 := by
  have hnodes : ∀ l', (Heap.addNode l u s.1 s.2).2.2.nodesOf l' =
      if l = l' ∧ l < s.2.lists.size then (s.2.nodesOf l').push (.pending u) else s.2.nodesOf l' :=
    fun l' => World.nodesOf_addNode s.2 l l' u
  have hlinks := fun l' => hs.size ▸ linksOf_addNode s l l' u
  refine ⟨?_, fun l' => ?_, fun l' k => ?_, fun l' k x => ?_⟩
  · exact Array.size_modify.trans (hs.size.trans Array.size_modify.symm)
  all_goals
    rw [hlinks, hnodes]
    split
  · rw [Array.size_push, Array.size_push, hs.places]
  · exact hs.places l'
  · intro hk
    have hk := hs.forcing l' k (getElem?_push_pending hk nofun)
    rw [Array.getElem?_push_lt (Array.getElem?_eq_some_iff.1 hk).1, ← Array.getElem?_eq_getElem]
    exact hk
  · exact hs.forcing l' k
  · intro hk
    have hk := hs.forced l' k x (getElem?_push_pending hk nofun)
    rw [Array.getElem?_push_lt (Array.getElem?_eq_some_iff.1 hk).1, ← Array.getElem?_eq_getElem]
    exact hk
  · exact hs.forced l' k x

omit hs in
theorem touches_addNode : Touches T s (Heap.addNode l u s.1 s.2).2 := by
  refine .of_cells rfl (World.before_addNode s.2 l u) (fun l' k hk => ?_) fun l' k hk => ?_
  · refine (congrArg (·[k]?) (World.nodesOf_addNode s.2 l l' u)).trans ?_
    split
    · rw [Array.getElem?_push_lt (Array.getElem?_eq_some_iff.1 hk).1, ← Array.getElem?_eq_getElem]
      exact hk
    · exact hk
  · rw [linksOf_addNode] at hk
    split at hk
    · exact getElem?_push_pending hk nofun
    · exact hk

end Lists

/-! ### Nodes that are parsed and links that are followed -/

/-- A node is replaced. -/
def mark (i : Nat) (c : Cell Unparsed Node) (s : Heap × World) : Heap × World :=
  (s.1, (World.listNodes (listOf i)).set (placeOf i) c s.2)

/-- The link to a node is replaced. -/
def relink (i : Nat) (c : Cell Unit Node) (s : Heap × World) : Heap × World :=
  (linkTable (listOf i)).set (placeOf i) c s

/-- The link to a node. -/
def linkAt (h : Heap) (i : Nat) : Option (Cell Unit Node) := (h.linksOf (listOf i))[placeOf i]?

/-- Heaps that differ in nothing but the link to node `i`. -/
structure Elsewhere (i : Nat) (h h' : Heap) : Prop where
  cells : h'.cells = h.cells
  size : h'.links.size = h.links.size
  places : ∀ l, (h'.linksOf l).size = (h.linksOf l).size
  same : ∀ l k : Nat, ¬ (listOf i = l ∧ placeOf i = k) → (h'.linksOf l)[k]? = (h.linksOf l)[k]?

variable {s₁ : Heap × World} {h' : Heap} {i : Nat} {u : Unparsed} {x : Node}

theorem Elsewhere.refl (i : Nat) (h : Heap) : Elsewhere i h h := ⟨rfl, rfl, fun _ => rfl, fun _ _ _ => rfl⟩

theorem Elsewhere.relink (i : Nat) (c : Cell Unit Node) (s : Heap × World) : Elsewhere i s.1 (relink i c s).1 where
  cells := rfl
  size := Array.size_modify
  places l := by
    refine (congrArg Array.size (linksOf_modify s.1 (listOf i) l _)).trans ?_
    split
    · exact Array.size_setIfInBounds
    · rfl
  same l k hk := by
    refine (congrArg (·[k]?) (linksOf_modify s.1 (listOf i) l _)).trans ?_
    split
    · rename_i hl
      exact Array.getElem?_setIfInBounds_ne fun hk' => hk ⟨hl.1, hk'⟩
    · rfl

theorem linkAt_relink (c : Cell Unit Node) (h : placeOf i < (s.1.linksOf (listOf i)).size) :
    linkAt (relink i c s).1 i = some c := by
  have hsize : listOf i < s.1.links.size := by
    by_contra hl
    rw [linksOf, Array.getElem?_eq_none (Nat.le_of_not_lt hl)] at h
    exact Nat.not_lt_zero _ h
  refine (congrArg (·[placeOf i]?) (linksOf_modify s.1 (listOf i) (listOf i) _)).trans ?_
  rw [if_pos ⟨rfl, hsize⟩]
  exact Array.getElem?_setIfInBounds_self_of_lt h

theorem Elsewhere.trans {h h' h'' : Heap} (h₁ : Elsewhere i h h') (h₂ : Elsewhere i h' h'') : Elsewhere i h h'' where
  cells := h₂.cells.trans h₁.cells
  size := h₂.size.trans h₁.size
  places l := (h₂.places l).trans (h₁.places l)
  same l k hk := (h₂.same l k hk).trans (h₁.same l k hk)

section Relink

variable (hlinks : Elsewhere i s.1 h') (hforcing : linkAt h' i ≠ some .forcing)

include hlinks hforcing

/-- A link that is not being followed changes. -/
theorem Touches.relinked : Touches T s (h', s.2) := by
  refine .of_cells hlinks.cells (.refl _) (fun _ _ => id) fun l k hk => ?_
  have h : ¬ (listOf i = l ∧ placeOf i = k) := by
    rintro ⟨rfl, rfl⟩
    exact hforcing hk
  exact (hlinks.same l k h).symm.trans hk

theorem Beside.relinked (hs : Beside s)
    (hforced : ∀ y, linkAt h' i = some (.forced y) → (s.2.nodesOf (listOf i))[placeOf i]? = some (.forced y)) :
    Beside (h', s.2) := by
  refine ⟨hlinks.size.trans hs.size, fun l => (hlinks.places l).trans (hs.places l), fun l k hk => ?_, fun l k y hk => ?_⟩
  · have h : ¬ (listOf i = l ∧ placeOf i = k) := by
      rintro ⟨rfl, rfl⟩
      exact hforcing hk
    exact hs.forcing l k ((hlinks.same l k h).symm.trans hk)
  · by_cases h : listOf i = l ∧ placeOf i = k
    · obtain ⟨rfl, rfl⟩ := h
      exact hforced y hk
    · exact hs.forced l k y ((hlinks.same l k h).symm.trans hk)

end Relink

section Compute

variable (hi : (s.2.nodesOf (listOf i))[placeOf i]? = some (.pending u)) (hw : s'.2 = s.2) (hlinks : Elsewhere i s.1 s'.1)

include hi hw hlinks

/-- A node that waited may be parsed, as long as the link to it does not say that it is known. -/
theorem Beside.opens (hs : Beside s) (hlink : ∀ y, linkAt s'.1 i ≠ some (.forced y)) : Beside (mark i .forcing s') := by
  have hi' : (s'.2.nodesOf (listOf i))[placeOf i]? = some (.pending u) := hw ▸ hi
  have hself : ((mark i .forcing s').2.nodesOf (listOf i))[placeOf i]? = some .forcing :=
    World.nodesOf_set_self (Array.getElem?_eq_some_iff.1 hi').1
  refine ⟨?_, fun l => ?_, fun l k hk => ?_, fun l k y hk => ?_⟩
  · exact hlinks.size.trans (hs.size.trans ((congrArg _ (congrArg World.lists hw)).symm.trans Array.size_modify.symm))
  · rw [show (mark i .forcing s').1.linksOf l = s'.1.linksOf l from rfl, hlinks.places, hs.places, ← hw]
    exact (World.size_nodesOf_set s'.2 _ _ l _).symm
  · by_cases h : listOf i = l ∧ placeOf i = k
    · obtain ⟨rfl, rfl⟩ := h
      exact hself
    · refine (World.nodesOf_set_of_ne h).trans ?_
      rw [hw]
      exact hs.forcing l k ((hlinks.same l k h).symm.trans hk)
  · by_cases h : listOf i = l ∧ placeOf i = k
    · obtain ⟨rfl, rfl⟩ := h
      exact absurd hk (hlink y)
    · refine (World.nodesOf_set_of_ne h).trans ?_
      rw [hw]
      exact hs.forced l k y ((hlinks.same l k h).symm.trans hk)

variable (ht : Touches T (mark i .forcing s') s₁) (hlinks' : Elsewhere i s₁.1 h') (hforcing : linkAt h' i ≠ some .forcing)

include ht hlinks' hforcing

/-- A node that was parsed is known, and nothing but its parser has touched anything. -/
theorem Touches.closes (x : Node) : Touches T s (mark i (.forced x) (h', s₁.2)) := by
  have hi' : (s'.2.nodesOf (listOf i))[placeOf i]? = some (.pending u) := hw ▸ hi
  have hparsing : (s₁.2.nodesOf (listOf i))[placeOf i]? = some .forcing :=
    ht.parsed _ _ (World.nodesOf_set_self (Array.getElem?_eq_some_iff.1 hi').1)
  have hopen : s.2.Before (mark i .forcing s').2 := hw ▸ World.before_set fun y hy => by rw [hi'] at hy; cases hy
  have hclose : s₁.2.Before (mark i (.forced x) (h', s₁.2)).2 := World.before_set fun y hy => by
    rw [hparsing] at hy
    cases hy
  refine ⟨hopen.trans (ht.before.trans hclose), ?_, fun j c hc hT => ?_, fun j n hn => ?_, fun l k hk => ?_, fun l k hk => ?_⟩
  · exact (congrArg Array.size hlinks.cells) ▸ Nat.le_trans ht.size (Nat.le_of_eq (congrArg Array.size hlinks'.cells).symm)
  · exact (congrArg (·[j]?) hlinks'.cells).trans (ht.same j c ((congrArg (·[j]?) hlinks.cells).trans hc) hT)
  · have hn' : EndAt (mark i .forcing s') j n := hn.keep hopen fun c hc _ => (congrArg (·[j]?) hlinks.cells).trans hc
    exact (ht.ended j n hn').keep hclose fun c hc _ => (congrArg (·[j]?) hlinks'.cells).trans hc
  · have h : ¬ (listOf i = l ∧ placeOf i = k) := by
      rintro ⟨rfl, rfl⟩
      cases hi.symm.trans hk
    refine (World.nodesOf_set_of_ne h).trans (ht.parsed l k ((World.nodesOf_set_of_ne h).trans ?_))
    rw [hw]
    exact hk
  · have h : ¬ (listOf i = l ∧ placeOf i = k) := by
      rintro ⟨rfl, rfl⟩
      exact hforcing hk
    exact (hlinks.same l k h).symm.trans (ht.followed l k ((hlinks'.same l k h).symm.trans hk))

omit hlinks in
/-- The link to a node that is known may say so. -/
theorem Beside.closes (hs₁ : Beside s₁) (hforced : ∀ y, linkAt h' i = some (.forced y) → y = x) :
    Beside (mark i (.forced x) (h', s₁.2)) := by
  have hi' : (s'.2.nodesOf (listOf i))[placeOf i]? = some (.pending u) := hw ▸ hi
  have hparsing : (s₁.2.nodesOf (listOf i))[placeOf i]? = some .forcing :=
    ht.parsed _ _ (World.nodesOf_set_self (Array.getElem?_eq_some_iff.1 hi').1)
  refine ⟨hlinks'.size.trans (hs₁.size.trans Array.size_modify.symm), fun l => ?_, fun l k hk => ?_, fun l k y hk => ?_⟩
  · exact (hlinks'.places l).trans ((hs₁.places l).trans (World.size_nodesOf_set s₁.2 _ _ l _).symm)
  · have h : ¬ (listOf i = l ∧ placeOf i = k) := by
      rintro ⟨rfl, rfl⟩
      exact hforcing hk
    exact (World.nodesOf_set_of_ne h).trans (hs₁.forcing l k ((hlinks'.same l k h).symm.trans hk))
  · by_cases h : listOf i = l ∧ placeOf i = k
    · obtain ⟨rfl, rfl⟩ := h
      rw [hforced y hk]
      exact World.nodesOf_set_self (Array.getElem?_eq_some_iff.1 hparsing).1
    · exact (World.nodesOf_set_of_ne h).trans (hs₁.forced l k y ((hlinks'.same l k h).symm.trans hk))

end Compute

end Heap

end CommittedChoice
