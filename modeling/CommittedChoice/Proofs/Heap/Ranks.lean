import Mathlib.Algebra.Order.Field.Basic
import Mathlib.Algebra.Order.Ring.Rat
import Mathlib.Algebra.Field.Rat
import Mathlib.Data.Finset.Insert
import CommittedChoice.OnDemand.Heap
import CommittedChoice.Proofs.Given
import CommittedChoice.Proofs.Interruption

/-!
# Cells in ranks

The cells of a heap refer to each other, and while one of them is being computed, others are forced and made. All of them are
given ranks such that a cell refers only to what is of a lower rank: its task before it is computed, and what is in it
afterwards. So no cell refers to itself, however far the references are followed. What is computed for a cell then stays below
its rank, and a cell that is being computed is above everything that its own computation can come by.

- `Heap.Spot`: whatever is computed once, a cell, a node of a list, or a link to one. `Spot.tier` is what has a rank: all
  nodes of a list have one rank, and all links to them have one above it;
- `Heap.Ranking`: the ranks of what is there. There is always a rank between those that are there (`exists_rank`), so what is
  made below a bound comes above all that is there already (`Ranking.add`);
- `Given.Tasks`, `Given.Contents`: tasks and contents of cells that refer only to what is given;
- `Heap.Ranked`: what a cell refers to is of a lower rank than the cell;
- `Heap.Ready`: nothing below a bound is being computed;
- `Heap.Works`: work that forces only what is below a bound. It leaves nothing being computed that was not before, and meets
  nothing that is (`Works.force`).
-/

namespace CommittedChoice

open OnDemand Given

namespace Heap

/-! ## Spots and tiers -/

/-- What is computed once. -/
inductive Spot where
  | cell (i : Nat)
  | node (l k : Nat)
  | link (l k : Nat)

/-- What has a rank. -/
inductive Tier where
  | cell (i : Nat)
  | nodes (l : Nat)
  | links (l : Nat)
deriving DecidableEq

/-- Where something that is computed once stands. -/
def Spot.tier : Spot → Tier
  | .cell i => .cell i
  | .node l _ => .nodes l
  | .link l _ => .links l

/-- Whether there is something at the tier. -/
def Has (s : Heap × World) : Tier → Prop
  | .cell i => i < s.1.cells.size
  | .nodes l => l < s.2.lists.size
  | .links l => l < s.1.links.size

/-- Whether it is being computed. -/
def Busy (s : Heap × World) : Spot → Prop
  | .cell i => s.1.cells[i]? = some .forcing
  | .node l k => (s.2.nodesOf l)[k]? = some .forcing
  | .link l k => (s.1.linksOf l)[k]? = some .forcing

theorem lt_size_of_node {w : World} {l k : Nat} {c : Cell Unparsed Node} (h : (w.nodesOf l)[k]? = some c) :
    l < w.lists.size := by
  by_contra hl
  rw [World.nodesOf, Array.getElem?_eq_none (Nat.le_of_not_lt hl)] at h
  cases h

theorem lt_size_of_link {h : Heap} {l k : Nat} {c : Cell Unit Node} (hc : (h.linksOf l)[k]? = some c) :
    l < h.links.size := by
  by_contra hl
  rw [linksOf, Array.getElem?_eq_none (Nat.le_of_not_lt hl)] at hc
  cases hc

/-- What is being computed is there. -/
theorem Busy.has {s : Heap × World} {x : Spot} (h : Busy s x) : Has s x.tier := by
  cases x with
  | cell i => exact (Array.getElem?_eq_some_iff.1 h).1
  | node l k => exact lt_size_of_node h
  | link l k => exact lt_size_of_link h

/-! ## Ranks -/

/-- The ranks of what was made so far. -/
structure Ranking where
  there : Finset Tier
  rank : Tier → ℚ

/-- There is a rank below a bound that is above all other ranks below it. -/
theorem exists_rank {α : Type} [DecidableEq α] (rank : α → ℚ) (b : ℚ) (s : Finset α) :
    ∃ r < b, ∀ x ∈ s, rank x < b → rank x < r := by
  induction s using Finset.induction_on with
  | empty => exact ⟨b - 1, sub_one_lt b, fun _ hx => absurd hx (Finset.notMem_empty _)⟩
  | insert y s _ ih =>
    obtain ⟨r, hr, h⟩ := ih
    by_cases hy : rank y < b
    · obtain ⟨q, hq, hqb⟩ := exists_between (max_lt hr hy)
      refine ⟨q, hqb, fun x hx hxb => ?_⟩
      rcases Finset.mem_insert.1 hx with rfl | hx
      · exact lt_of_le_of_lt (le_max_right _ _) hq
      · exact lt_trans (h x hx hxb) (lt_of_le_of_lt (le_max_left _ _) hq)
    · refine ⟨r, hr, fun x hx hxb => ?_⟩
      rcases Finset.mem_insert.1 hx with rfl | hx
      · exact absurd hxb hy
      · exact h x hx hxb

namespace Ranking

/-- More was made. -/
instance : Preorder Ranking where
  le σ τ := ∀ x ∈ σ.there, x ∈ τ.there ∧ τ.rank x = σ.rank x
  le_refl _ := fun _ hx => ⟨hx, rfl⟩
  le_trans _ _ _ h h' := fun x hx => ⟨(h' x (h x hx).1).1, (h' x (h x hx).1).2.trans (h x hx).2⟩

/-- What is there below a bound. -/
def below (σ : Ranking) (b : ℚ) : Set Tier := {x | x ∈ σ.there ∧ σ.rank x < b}

/-- Something more, of rank `r`. -/
def add (σ : Ranking) (x : Tier) (r : ℚ) : Ranking := ⟨insert x σ.there, fun y => if y = x then r else σ.rank y⟩

variable {σ τ : Ranking} {b c r : ℚ} {x y : Tier}

theorem below_mono (h : σ ≤ τ) : σ.below b ⊆ τ.below b :=
  fun x hx => ⟨(h x hx.1).1, (h x hx.1).2.symm ▸ hx.2⟩

theorem below_subset (h : b ≤ c) : σ.below b ⊆ σ.below c := fun _ hx => ⟨hx.1, lt_of_lt_of_le hx.2 h⟩

theorem rank_add : (σ.add x r).rank x = r := if_pos rfl

theorem mem_add : y ∈ (σ.add x r).there ↔ y = x ∨ y ∈ σ.there := Finset.mem_insert

theorem rank_add_of_mem (hx : x ∉ σ.there) (hy : y ∈ σ.there) : (σ.add x r).rank y = σ.rank y :=
  if_neg fun h : y = x => hx (h ▸ hy)

theorem le_add (hx : x ∉ σ.there) : σ ≤ σ.add x r := fun _ hy => ⟨mem_add.2 (.inr hy), rank_add_of_mem hx hy⟩

/-- What is below something that is there stays below it. -/
theorem below_rank (h : σ ≤ τ) (hx : x ∈ σ.there) : σ.below (σ.rank x) ⊆ τ.below (τ.rank x) :=
  (h x hx).2 ▸ below_mono h

/-- What is added is below the bounds above its rank. -/
theorem mem_below_add (h : r < b) : x ∈ (σ.add x r).below b := ⟨mem_add.2 (.inl rfl), rank_add.symm ▸ h⟩

/-- Something can be added above all that is below a bound. -/
theorem exists_add (σ : Ranking) (b : ℚ) (hx : x ∉ σ.there) : ∃ r < b, σ.below b ⊆ (σ.add x r).below r := by
  obtain ⟨r, hr, h⟩ := exists_rank σ.rank b σ.there
  refine ⟨r, hr, fun y hy => ⟨mem_add.2 (.inr hy.1), ?_⟩⟩
  rw [rank_add_of_mem hx hy.1]
  exact h y hy.1 hy.2

end Ranking

end Heap

/-! ## What cells refer to -/

namespace Given

open Heap (Tier Outcome Task Content)

/-- Statements on lists that are given, where what is given is more than lists: a list is given by its links. -/
def Linked {α : Type} (A : Set Nat → α → Prop) (K : Set Tier) : α → Prop := A {l | .links l ∈ K}

/-- A node that waits, where all lists are given. -/
structure Waits (K : Set Nat) (u : Unparsed) : Prop where
  item : Parsers K u.item
  start : Contexts K u.start

/-- What is done with an outcome, where all lists are given. -/
inductive Frames (K : Set Nat) : Frame → Prop
  | bind {k} : Functions Parsers K k → Frames K (.bind k)
  | map {f} : Functions Values K f → Frames K (.map f)
  | reword {f} : Rewordings K f → Frames K (.reword f)
  | restoring {u} : Values K u → Frames K (.restoring u)
  | orElse {q z} : Parsers K q → Contexts K z → Frames K (.orElse q z)
  | loop {step} : Functions Parsers K step → Frames K (.loop step)

/-- Functions of failures whose callbacks read only lists that are given. -/
def Changes (K : Set Nat) (f : Context → String → Act (Context × String)) : Prop :=
  ∀ K', K ⊆ K' → ∀ z m, Contexts K' z → Acts (fun K x => Contexts K x.1) K' (f z m)

section Refers

variable (K : Set Tier)

/-- A settled outcome that refers only to what is given. -/
inductive Settleds : Heap.Settled → Prop
  | success {rest value finish} : .cell rest ∈ K → .cell value ∈ K → (∀ i ∈ finish, .cell i ∈ K) →
      Settleds (.success rest value finish)
  | failure {z} (m) : Linked Contexts K z → Settleds (.failure z m)

/-- An outcome that refers only to what is given. -/
inductive Outcomes : Outcome → Prop
  | plain {s} : Settleds K s → Outcomes (.plain s)
  | committed {i} : .cell i ∈ K → Outcomes (.committed i)

/-- The task of a cell that refers only to what is given. -/
inductive Tasks : Task → Prop
  | primitive {p z} : Linked Parsers K p → Linked Contexts K z → Tasks (.primitive p z)
  | afresh {p z} : Linked Parsers K p → Linked Contexts K z → Tasks (.afresh p z)
  | framed (under) {i f} : .cell i ∈ K → Linked Frames K f → Tasks (.framed under i f)
  | settled {i} : .cell i ∈ K → Tasks (.settled i)
  | pushed {z ts} : Linked Contexts K z → (∀ t ∈ ts, Linked Values K t) → Tasks (.pushed z ts)
  | mapped {i f} : .cell i ∈ K → Linked (Functions Values) K f → Tasks (.mapped i f)
  | changed {i f} : .cell i ∈ K → Linked Changes K f → Tasks (.changed i f)
  | walked {i} : .nodes (listOf i) ∈ K → Tasks (.walked i)
  | restOf {i} : .cell i ∈ K → Tasks (.restOf i)
  | finishOf {i} : .cell i ∈ K → Tasks (.finishOf i)

/-- What is in a cell, where it refers only to what is given. -/
inductive Contents : Content → Prop
  | outcome {o} : Outcomes K o → Contents (.outcome o)
  | value {v} : Linked Values K v → Contents (.value v)
  | rest {z} : Linked Contexts K z → Contents (.rest z)
  | finish {f} : Linked Finishes K f → Contents (.finish f)
  | ended {e} : Linked Stops K e → Contents (.ended e)

/-- A cell whose task satisfies `P`, or whose content satisfies `Q`. -/
inductive Cells {θ α : Type} (P : Set Tier → θ → Prop) (Q : Set Tier → α → Prop) : Cell θ α → Prop
  | pending {t} : P K t → Cells P Q (.pending t)
  | forcing : Cells P Q .forcing
  | forced {a} : Q K a → Cells P Q (.forced a)

end Refers

variable {K K' : Set Tier}

theorem Waits.mono {K K' : Set Nat} (h : K ⊆ K') {u : Unparsed} (hu : Waits K u) : Waits K' u :=
  ⟨hu.item.mono h, hu.start.mono h⟩

theorem Frames.mono {K K' : Set Nat} (h : K ⊆ K') {f : Frame} (hf : Frames K f) : Frames K' f := by
  cases hf with
  | bind hk => exact .bind (hk.mono h)
  | map hf => exact .map (hf.mono h)
  | reword hf => exact .reword (hf.mono h)
  | restoring hu => exact .restoring (hu.mono h)
  | orElse hq hz => exact .orElse (hq.mono h) (hz.mono h)
  | loop hstep => exact .loop (hstep.mono h)

theorem Changes.mono {K K' : Set Nat} (h : K ⊆ K') {f : Context → String → Act (Context × String)}
    (hf : Changes K f) : Changes K' f := fun K'' hK => hf K'' (h.trans hK)

theorem Linked.mono {α : Type} {A : Set Nat → α → Prop} (hA : Monotone A) : Monotone (Linked A) :=
  fun _ _ h a ha => hA (fun _ hl => h hl) a ha

theorem linked_values : Monotone (Linked Values) := Linked.mono monotone_values

theorem linked_contexts : Monotone (Linked Contexts) := Linked.mono monotone_contexts

theorem linked_parsers : Monotone (Linked Parsers) := Linked.mono monotone_parsers

theorem linked_waits : Monotone (Linked Waits) := Linked.mono fun _ _ h _ hu => hu.mono h

theorem linked_nodes (l : Nat) : Monotone (Linked (Nodes l)) := Linked.mono fun _ _ h _ hx => hx.mono h

theorem linked_frames : Monotone (Linked Frames) := Linked.mono fun _ _ h _ hf => hf.mono h

theorem linked_changes : Monotone (Linked Changes) := Linked.mono fun _ _ h _ hf => hf.mono h

theorem linked_functions {α : Type} {A : Set Nat → α → Prop} : Monotone (Linked (Functions A)) :=
  Linked.mono fun _ _ h _ hf => hf.mono h

theorem monotone_settleds : Monotone Settleds := fun _ _ h _ hs => by
  cases hs with
  | success hr hv hf => exact .success (h hr) (h hv) fun i hi => h (hf i hi)
  | failure m hz => exact .failure m (linked_contexts h _ hz)

theorem monotone_outcomes : Monotone Outcomes := fun _ _ h _ ho => by
  cases ho with
  | plain hs => exact .plain (monotone_settleds h _ hs)
  | committed hi => exact .committed (h hi)

theorem monotone_tasks : Monotone Tasks := fun _ _ h _ ht => by
  cases ht with
  | primitive hp hz => exact .primitive (linked_parsers h _ hp) (linked_contexts h _ hz)
  | afresh hp hz => exact .afresh (linked_parsers h _ hp) (linked_contexts h _ hz)
  | framed under hi hf => exact .framed under (h hi) (linked_frames h _ hf)
  | settled hi => exact .settled (h hi)
  | pushed hz hts => exact .pushed (linked_contexts h _ hz) fun t ht => linked_values h _ (hts t ht)
  | mapped hi hf => exact .mapped (h hi) (linked_functions h _ hf)
  | changed hi hf => exact .changed (h hi) (linked_changes h _ hf)
  | walked hi => exact .walked (h hi)
  | restOf hi => exact .restOf (h hi)
  | finishOf hi => exact .finishOf (h hi)

theorem monotone_contents : Monotone Contents := fun _ _ h _ hc => by
  cases hc with
  | outcome ho => exact .outcome (monotone_outcomes h _ ho)
  | value hv => exact .value (linked_values h _ hv)
  | rest hz => exact .rest (linked_contexts h _ hz)
  | finish hf => exact .finish (Linked.mono monotone_finishes h _ hf)
  | ended he => exact .ended (Linked.mono (fun _ _ h _ he => he.mono h) h _ he)

theorem Cells.mono {θ α : Type} {P : Set Tier → θ → Prop} {Q : Set Tier → α → Prop} (hP : Monotone P)
    (hQ : Monotone Q) : Monotone fun K => Cells K P Q := fun _ _ h _ hc => by
  cases hc with
  | pending ht => exact .pending (hP h _ ht)
  | forcing => exact .forcing
  | forced ha => exact .forced (hQ h _ ha)

end Given

namespace Heap

/-! ## Heaps in ranks -/

/-- What something refers to is of a lower rank. The links of a list are above its nodes. -/
structure Ranked (s : Heap × World) (σ : Ranking) : Prop where
  feed : s.2.feed.Listless
  there : ∀ x, x ∈ σ.there ↔ Has s x
  cells : ∀ (i : Nat) (c : Cell Task Content), s.1.cells[i]? = some c →
    Cells (σ.below (σ.rank (.cell i))) Tasks Contents c
  nodes : ∀ (l k : Nat) (c : Cell Unparsed Node), (s.2.nodesOf l)[k]? = some c →
    Cells (σ.below (σ.rank (.nodes l))) (Linked Waits) (Linked (Nodes l)) c
  links : ∀ (l k : Nat) (c : Cell Unit Node), (s.1.linksOf l)[k]? = some c →
    Cells (σ.below (σ.rank (.links l))) (Linked Anything) (Linked (Nodes l)) c
  linked : ∀ l, .links l ∈ σ.there → .nodes l ∈ σ.below (σ.rank (.links l))
  beside : s.1.links.size = s.2.lists.size

/-- Nothing below the bound is being computed. -/
structure Ready (s : Heap × World) (b : ℚ) (σ : Ranking) : Prop where
  ranked : Ranked s σ
  quiet : ∀ x, Busy s x → b ≤ σ.rank x.tier

/-- More was made below the bound, and nothing is being computed that was not before. -/
structure Leads (b : ℚ) (σ : Ranking) (s : Heap × World) (τ : Ranking) (s' : Heap × World) : Prop where
  le : σ ≤ τ
  new : ∀ x ∈ τ.there, x ∉ σ.there → τ.rank x < b
  ranked : Ranked s' τ
  rests : ∀ x, Busy s' x → Busy s x

variable {s s' s'' : Heap × World} {σ τ υ : Ranking} {b c : ℚ}

/-- The same is there as long as nothing is made. -/
theorem Ranked.there_of_sizes (h : Ranked s σ) (hcells : s'.1.cells.size = s.1.cells.size)
    (hlists : s'.2.lists.size = s.2.lists.size) (hlinks : s'.1.links.size = s.1.links.size) (x : Tier) :
    x ∈ σ.there ↔ Has s' x := by
  rw [h.there]
  cases x with
  | cell i => exact iff_of_eq (congrArg (i < ·) hcells.symm)
  | nodes l => exact iff_of_eq (congrArg (l < ·) hlists.symm)
  | links l => exact iff_of_eq (congrArg (l < ·) hlinks.symm)

theorem Leads.refl (h : Ranked s σ) : Leads b σ s σ s :=
  ⟨le_refl σ, fun _ hx hnew => absurd hx hnew, h, fun _ => id⟩

theorem Leads.trans (h : Leads b σ s τ s') (h' : Leads b τ s' υ s'') : Leads b σ s υ s'' := by
  refine ⟨le_trans h.le h'.le, fun x hx hnew => ?_, h'.ranked, fun x hx => h.rests x (h'.rests x hx)⟩
  by_cases hold : x ∈ τ.there
  · rw [(h'.le x hold).2]
    exact h.new x hold hnew
  · exact h'.new x hx hold

/-- A lower bound. -/
theorem Leads.mono (hcb : c ≤ b) (h : Leads c σ s τ s') : Leads b σ s τ s' :=
  ⟨h.le, fun x hx hnew => lt_of_lt_of_le (h.new x hx hnew) hcb, h.ranked, h.rests⟩

theorem Leads.ready (h : Leads b σ s τ s') (hs : Ready s b σ) : Ready s' b τ := by
  refine ⟨h.ranked, fun x hx => ?_⟩
  have hbusy := h.rests x hx
  rw [(h.le _ ((hs.ranked.there _).2 hbusy.has)).2]
  exact hs.quiet x hbusy

/-- Cells and lists that stay as they are. -/
theorem Leads.of_lists (h : Ranked s σ) {w : World} (hfeed : w.feed.Listless) (hlists : w.lists = s.2.lists) :
    Leads b σ s σ (s.1, w) := by
  have hnodes : ∀ l, w.nodesOf l = s.2.nodesOf l := fun l => by rw [World.nodesOf, World.nodesOf, hlists]
  refine ⟨le_refl σ, (Leads.refl h (b := b)).new, ⟨hfeed, fun x => ?_, h.cells, fun l k c hc => ?_, h.links, h.linked,
    h.beside.trans (congrArg Array.size hlists).symm⟩, fun x hx => ?_⟩
  · rw [h.there]
    cases x with
    | nodes l =>
      show l < s.2.lists.size ↔ l < w.lists.size
      rw [hlists]
    | cell i => exact Iff.rfl
    | links l => exact Iff.rfl
  · rw [hnodes] at hc
    exact h.nodes l k c hc
  · cases x with
    | node l k =>
      have hx : (w.nodesOf l)[k]? = some .forcing := hx
      rwa [hnodes] at hx
    | cell i => exact hx
    | link l k => exact hx

/-! ### What is there, in more ranks -/

theorem Ranked.mem_cell (h : Ranked s σ) {i : Nat} {c : Cell Task Content} (hc : s.1.cells[i]? = some c) :
    .cell i ∈ σ.there := (h.there _).2 (Array.getElem?_eq_some_iff.1 hc).1

theorem Ranked.mem_nodes (h : Ranked s σ) {l k : Nat} {c : Cell Unparsed Node} (hc : (s.2.nodesOf l)[k]? = some c) :
    .nodes l ∈ σ.there := (h.there _).2 (lt_size_of_node hc)

theorem Ranked.mem_links (h : Ranked s σ) {l k : Nat} {c : Cell Unit Node} (hc : (s.1.linksOf l)[k]? = some c) :
    .links l ∈ σ.there := (h.there _).2 (lt_size_of_link hc)

theorem Ranked.cells_le (h : Ranked s σ) (hle : σ ≤ τ) {i : Nat} {c : Cell Task Content}
    (hc : s.1.cells[i]? = some c) : Cells (τ.below (τ.rank (.cell i))) Tasks Contents c :=
  Cells.mono monotone_tasks monotone_contents (Ranking.below_rank hle (h.mem_cell hc)) _ (h.cells i c hc)

theorem Ranked.nodes_le (h : Ranked s σ) (hle : σ ≤ τ) {l k : Nat} {c : Cell Unparsed Node}
    (hc : (s.2.nodesOf l)[k]? = some c) :
    Cells (τ.below (τ.rank (.nodes l))) (Linked Waits) (Linked (Nodes l)) c :=
  Cells.mono linked_waits (linked_nodes l) (Ranking.below_rank hle (h.mem_nodes hc)) _ (h.nodes l k c hc)

theorem Ranked.links_le (h : Ranked s σ) (hle : σ ≤ τ) {l k : Nat} {c : Cell Unit Node}
    (hc : (s.1.linksOf l)[k]? = some c) :
    Cells (τ.below (τ.rank (.links l))) (Linked Anything) (Linked (Nodes l)) c :=
  Cells.mono (Linked.mono monotone_anything) (linked_nodes l) (Ranking.below_rank hle (h.mem_links hc)) _ (h.links l k c hc)

theorem Ranked.linked_le (h : Ranked s σ) (hle : σ ≤ τ) {l : Nat} (hl : .links l ∈ σ.there) :
    .nodes l ∈ τ.below (τ.rank (.links l)) := Ranking.below_rank hle hl (h.linked l hl)

/-! ### What is made -/

/-- A new cell is put above all that is there below the bound. -/
theorem Ready.push (hs : Ready s b σ) {c : Cell Task Content} (hc : Cells (σ.below b) Tasks Contents c)
    (hne : c ≠ .forcing) : ∃ τ, Leads b σ s τ ({ s.1 with cells := s.1.cells.push c }, s.2) ∧
      .cell s.1.cells.size ∈ τ.below b := by
  have hnew : Tier.cell s.1.cells.size ∉ σ.there := fun h => Nat.lt_irrefl _ ((hs.ranked.there _).1 h)
  obtain ⟨r, hrb, hr⟩ := σ.exists_add b hnew
  have hle := Ranking.le_add (r := r) hnew
  have h := hs.ranked
  refine ⟨_, ⟨hle, fun x hx hx' => ?_, ⟨h.feed, fun x => ?_, fun i d hd => ?_, fun l k d hd => h.nodes_le hle hd,
    fun l k d hd => h.links_le hle hd, fun l hl => ?_, h.beside⟩, fun x hx => ?_⟩, Ranking.mem_below_add hrb⟩
  · obtain rfl := (Ranking.mem_add.1 hx).resolve_right hx'
    rwa [Ranking.rank_add]
  · rw [Ranking.mem_add, h.there]
    cases x with
    | cell i =>
      show _ ↔ i < (s.1.cells.push c).size
      rw [Array.size_push, Nat.lt_succ_iff_lt_or_eq, or_comm, Tier.cell.injEq]
      exact Iff.rfl
    | nodes l => exact or_iff_right nofun
    | links l => exact or_iff_right nofun
  · rw [Array.getElem?_push] at hd
    split at hd
    · rename_i hi
      subst hi
      cases hd
      rw [Ranking.rank_add]
      exact Cells.mono monotone_tasks monotone_contents hr _ hc
    · exact h.cells_le hle hd
  · exact h.linked_le hle ((Ranking.mem_add.1 hl).resolve_left nofun)
  · cases x with
    | cell i =>
      have hx : (s.1.cells.push c)[i]? = some .forcing := hx
      rw [Array.getElem?_push] at hx
      split at hx
      · exact absurd (Option.some.inj hx) hne
      · exact hx
    | node l k => exact hx
    | link l k => exact hx

/-- A new list has one node, which waits. -/
theorem node_of_makeList {w : World} {u : Unparsed} {l k : Nat} {c : Cell Unparsed Node}
    (hc : ((Means.makeList u w).2.nodesOf l)[k]? = some c) :
    l = w.lists.size ∧ c = .pending u ∨ (w.nodesOf l)[k]? = some c := by
  rw [World.nodesOf_makeList] at hc
  split at hc
  · rename_i hl
    cases k with
    | zero => exact .inl ⟨hl, (Option.some.inj hc).symm⟩
    | succ k => cases hc
  · exact .inr hc

theorem link_of_makeList {h : Heap} {l k : Nat} {c : Cell Unit Node}
    (hc : (({ h with links := h.links.push #[.pending ()] }).linksOf l)[k]? = some c) :
    c = .pending () ∨ (h.linksOf l)[k]? = some c := by
  rw [linksOf_push] at hc
  split at hc
  · cases k with
    | zero => exact .inl (Option.some.inj hc).symm
    | succ k => cases hc
  · exact .inr hc

theorem has_makeList (hs : s.1.links.size = s.2.lists.size) (u : Unparsed) (x : Tier) :
    Has (Heap.makeList u s.1 s.2).2 x ↔ x = .nodes s.2.lists.size ∨ x = .links s.2.lists.size ∨ Has s x := by
  cases x with
  | cell i => exact ((or_iff_right nofun).trans (or_iff_right nofun)).symm
  | nodes l =>
    show l < (s.2.lists.push _).size ↔ _
    rw [Array.size_push, Nat.lt_succ_iff_lt_or_eq, or_comm, Tier.nodes.injEq]
    exact or_congr_right (or_iff_right nofun).symm
  | links l =>
    show l < (s.1.links.push _).size ↔ _
    rw [Array.size_push, Nat.lt_succ_iff_lt_or_eq, or_comm, Tier.links.injEq, ← hs]
    exact (or_iff_right nofun).symm

/-- A new list is put above all that is there below the bound, and its links above its nodes. -/
theorem Ready.makeList (hs : Ready s b σ) {u : Unparsed} (hu : Linked Waits (σ.below b) u) :
    ∃ τ, Leads b σ s τ (Heap.makeList u s.1 s.2).2 ∧ .nodes s.2.lists.size ∈ τ.below b ∧
      .links s.2.lists.size ∈ τ.below b := by
  have h := hs.ranked
  have hnew : Tier.links s.2.lists.size ∉ σ.there := fun hx => Nat.lt_irrefl _ (h.beside ▸ (h.there _).1 hx)
  obtain ⟨r, hrb, hr⟩ := σ.exists_add b hnew
  have hnew' : Tier.nodes s.2.lists.size ∉ (σ.add (.links s.2.lists.size) r).there := fun hx =>
    Nat.lt_irrefl _ ((h.there (.nodes _)).1 ((Ranking.mem_add.1 hx).resolve_left nofun))
  obtain ⟨r', hrr, hr'⟩ := Ranking.exists_add _ r hnew'
  have hle' := Ranking.le_add (r := r') hnew'
  have hle := le_trans (Ranking.le_add (r := r) hnew) hle'
  have hmem : Tier.links s.2.lists.size ∈ (σ.add (.links s.2.lists.size) r).below b := Ranking.mem_below_add hrb
  refine ⟨_, ⟨hle, fun x hx hx' => ?_, ⟨h.feed, fun x => ?_, fun i c hc => h.cells_le hle hc, fun l k c hc => ?_,
    fun l k c hc => ?_, fun l hl => ?_, ?_⟩, fun x hx => ?_⟩,
    Ranking.mem_below_add (lt_trans hrr hrb), Ranking.below_mono hle' hmem⟩
  · rcases Ranking.mem_add.1 hx with rfl | hx
    · rw [Ranking.rank_add]
      exact lt_trans hrr hrb
    · obtain rfl := (Ranking.mem_add.1 hx).resolve_right hx'
      exact (Ranking.below_mono hle' hmem).2
  · rw [Ranking.mem_add, Ranking.mem_add, h.there]
    exact (has_makeList h.beside u x).symm
  · obtain ⟨rfl, rfl⟩ | hc := node_of_makeList hc
    · rw [Ranking.rank_add]
      exact .pending (linked_waits (fun x hx => hr' (hr hx)) _ hu)
    · exact h.nodes_le hle hc
  · obtain rfl | hc := link_of_makeList hc
    · exact .pending trivial
    · exact h.links_le hle hc
  · rcases Ranking.mem_add.1 ((Ranking.mem_add.1 hl).resolve_left nofun) with hl | hl
    · cases hl
      refine ⟨Ranking.mem_add.2 (.inl rfl), ?_⟩
      rw [Ranking.rank_add, Ranking.rank_add_of_mem hnew' hmem.1, Ranking.rank_add]
      exact hrr
    · exact h.linked_le hle hl
  · show (s.1.links.push _).size = (s.2.lists.push _).size
    rw [Array.size_push, Array.size_push, h.beside]
  · cases x with
    | cell i => exact hx
    | node l k => exact (node_of_makeList hx).resolve_left fun hc => by cases hc.2
    | link l k => exact (link_of_makeList hx).resolve_left nofun

/-- A node that is added waits. -/
theorem node_of_addNode {w : World} {u : Unparsed} {l l' k : Nat} {c : Cell Unparsed Node}
    (hc : ((Means.addNode l u w).2.nodesOf l')[k]? = some c) : l = l' ∧ c = .pending u ∨ (w.nodesOf l')[k]? = some c := by
  rw [World.nodesOf_addNode] at hc
  split at hc
  · rename_i hl
    rw [Array.getElem?_push] at hc
    split at hc
    · exact .inl ⟨hl.1, (Option.some.inj hc).symm⟩
    · exact .inr hc
  · exact .inr hc

theorem link_of_addLink {h : Heap} {l l' k : Nat} {c : Cell Unit Node}
    (hc : (({ h with links := h.links.modify l fun links => links.push (.pending ()) }).linksOf l')[k]? = some c) :
    c = .pending () ∨ (h.linksOf l')[k]? = some c := by
  rw [linksOf_modify] at hc
  split at hc
  · rw [Array.getElem?_push] at hc
    split at hc
    · exact .inl (Option.some.inj hc).symm
    · exact .inr hc
  · exact .inr hc

/-- A node is added to a list. -/
theorem Ranked.addNode (h : Ranked s σ) {l : Nat} {u : Unparsed} (hu : Linked Waits (σ.below (σ.rank (.nodes l))) u) :
    Leads b σ s σ (s.1, (Means.addNode l u s.2).2) := by
  refine ⟨le_refl σ, (Leads.refl h (b := b)).new, ⟨h.feed, h.there_of_sizes rfl Array.size_modify rfl, h.cells,
    fun l' k c hc => ?_, h.links, h.linked, h.beside.trans Array.size_modify.symm⟩, fun x hx => ?_⟩
  · obtain ⟨rfl, rfl⟩ | hc := node_of_addNode hc
    · exact .pending hu
    · exact h.nodes l' k c hc
  · cases x with
    | cell i => exact hx
    | link l' k => exact hx
    | node l' k => exact (node_of_addNode hx).resolve_left fun hc => by cases hc.2

/-- A link is added to a list. -/
theorem Ranked.addLink (h : Ranked s σ) (l : Nat) :
    Leads b σ s σ ({ s.1 with links := s.1.links.modify l fun links => links.push (.pending ()) }, s.2) := by
  refine ⟨le_refl σ, (Leads.refl h (b := b)).new, ⟨h.feed, h.there_of_sizes rfl rfl Array.size_modify, h.cells, h.nodes,
    fun l' k c hc => ?_, h.linked, Array.size_modify.trans h.beside⟩, fun x hx => ?_⟩
  · obtain rfl | hc := link_of_addLink hc
    · exact .pending trivial
    · exact h.links l' k c hc
  · cases x with
    | cell i => exact hx
    | node l' k => exact hx
    | link l' k => exact (link_of_addLink hx).resolve_left nofun

/-! ### What is computed once -/

section Entries

variable {θ α ε : Type} {P : Set Tier → θ → Prop} {Q : Set Tier → α → Prop}

/-- Entry `i` of a table is what is computed at spot `x`. -/
structure Keeps (t : Table (Heap × World) θ α) (i : Nat) (x : Spot) (P : Set Tier → θ → Prop)
    (Q : Set Tier → α → Prop) : Prop where
  busy : ∀ {s}, (t.cells s)[i]? = some .forcing → Busy s x
  get : ∀ {s σ c}, Ranked s σ → (t.cells s)[i]? = some c → Cells (σ.below (σ.rank x.tier)) P Q c
  set : ∀ {s σ c}, Ranked s σ → Cells (σ.below (σ.rank x.tier)) P Q c → Ranked (t.set i c s) σ
  other : ∀ {s c y}, y ≠ x → Busy (t.set i c s) y → Busy s y
  self : ∀ {s c}, Busy (t.set i c s) x → c = .forcing

/-- One entry of a table is what was put there, and the others are what they were. -/
theorem entry_of_set {β : Type} {cells : Array β} {i j : Nat} {c d : β} (hd : (cells.setIfInBounds i c)[j]? = some d) :
    i = j ∧ d = c ∨ i ≠ j ∧ cells[j]? = some d := by
  by_cases hij : i = j
  · subst hij
    rw [Array.getElem?_setIfInBounds_self] at hd
    split at hd
    · exact .inl ⟨rfl, (Option.some.inj hd).symm⟩
    · cases hd
  · rw [Array.getElem?_setIfInBounds_ne hij] at hd
    exact .inr ⟨hij, hd⟩

theorem node_of_set {w : World} {l l' k k' : Nat} {c d : Cell Unparsed Node}
    (hd : (((World.listNodes l).set k c w).nodesOf l')[k']? = some d) :
    (l = l' ∧ k = k') ∧ d = c ∨ ¬ (l = l' ∧ k = k') ∧ (w.nodesOf l')[k']? = some d := by
  rw [World.nodesOf_set] at hd
  split at hd
  · rename_i hl
    obtain ⟨hk, hd⟩ | ⟨hk, hd⟩ := entry_of_set hd
    · exact .inl ⟨⟨hl, hk⟩, hd⟩
    · exact .inr ⟨fun h => hk h.2, hd⟩
  · rename_i hl
    exact .inr ⟨fun h => hl h.1, hd⟩

theorem link_of_set {h : Heap} {l l' k k' : Nat} {c d : Cell Unit Node}
    (hd : (({ h with links := h.links.modify l fun links => links.setIfInBounds k c }).linksOf l')[k']? = some d) :
    (l = l' ∧ k = k') ∧ d = c ∨ ¬ (l = l' ∧ k = k') ∧ (h.linksOf l')[k']? = some d := by
  rw [linksOf_modify] at hd
  split at hd
  · rename_i hl
    obtain ⟨hk, hd⟩ | ⟨hk, hd⟩ := entry_of_set hd
    · exact .inl ⟨⟨hl.1, hk⟩, hd⟩
    · exact .inr ⟨fun h => hk h.2, hd⟩
  · rename_i hl
    exact .inr ⟨fun heq => hl ⟨heq.1, heq.1 ▸ lt_size_of_link hd⟩, hd⟩

theorem keeps_cell (i : Nat) : Keeps cellTable i (.cell i) Tasks Contents where
  busy h := h
  get h hc := h.cells i _ hc
  set := by
    intro s σ c h hc
    refine ⟨h.feed, h.there_of_sizes Array.size_setIfInBounds rfl rfl, fun j d hd => ?_, h.nodes, h.links, h.linked,
      h.beside⟩
    obtain ⟨rfl, rfl⟩ | ⟨-, hd⟩ := entry_of_set hd
    · exact hc
    · exact h.cells j d hd
  other := by
    intro s c y hy h
    cases y with
    | cell j =>
      obtain ⟨rfl, -⟩ | ⟨-, h⟩ := entry_of_set h
      · exact absurd rfl hy
      · exact h
    | node l k => exact h
    | link l k => exact h
  self := by
    intro s c h
    obtain ⟨-, h⟩ | ⟨hne, -⟩ := entry_of_set h
    · exact h.symm
    · exact absurd rfl hne

theorem keeps_node (l k : Nat) : Keeps (nodeTable l) k (.node l k) (Linked Waits) (Linked (Nodes l)) where
  busy h := h
  get h hc := h.nodes l k _ hc
  set := by
    intro s σ c h hc
    refine ⟨h.feed, h.there_of_sizes rfl Array.size_modify rfl, h.cells, fun l' k' d hd => ?_, h.links, h.linked,
      h.beside.trans Array.size_modify.symm⟩
    obtain ⟨⟨rfl, rfl⟩, rfl⟩ | ⟨-, hd⟩ := node_of_set hd
    · exact hc
    · exact h.nodes l' k' d hd
  other := by
    intro s c y hy h
    cases y with
    | cell i => exact h
    | link l k => exact h
    | node l' k' =>
      obtain ⟨⟨rfl, rfl⟩, -⟩ | ⟨-, h⟩ := node_of_set h
      · exact absurd rfl hy
      · exact h
  self := by
    intro s c h
    obtain ⟨-, h⟩ | ⟨hne, -⟩ := node_of_set h
    · exact h.symm
    · exact absurd ⟨rfl, rfl⟩ hne

theorem keeps_link (l k : Nat) : Keeps (linkTable l) k (.link l k) (Linked Anything) (Linked (Nodes l)) where
  busy h := h
  get h hc := h.links l k _ hc
  set := by
    intro s σ c h hc
    refine ⟨h.feed, h.there_of_sizes rfl rfl Array.size_modify, h.cells, h.nodes, fun l' k' d hd => ?_, h.linked,
      Array.size_modify.trans h.beside⟩
    obtain ⟨⟨rfl, rfl⟩, rfl⟩ | ⟨-, hd⟩ := link_of_set hd
    · exact hc
    · exact h.links l' k' d hd
  other := by
    intro s c y hy h
    cases y with
    | cell i => exact h
    | node l k => exact h
    | link l' k' =>
      obtain ⟨⟨rfl, rfl⟩, -⟩ | ⟨-, h⟩ := link_of_set h
      · exact absurd rfl hy
      · exact h
  self := by
    intro s c h
    obtain ⟨-, h⟩ | ⟨hne, -⟩ := link_of_set h
    · exact h.symm
    · exact absurd ⟨rfl, rfl⟩ hne

end Entries

/-! ## Work -/

section Work

variable {α β ε θ : Type} {P : Set Tier → θ → Prop} {Q : Set Tier → α → Prop}

/-- An answer of which `A` holds, or an error of which `E` holds. -/
inductive Comes (A : α → Prop) (E : ε → Prop) : Except ε α → Prop
  | ok {a} : A a → Comes A E (.ok a)
  | error {e} : E e → Comes A E (.error e)

/-- Not what a demand is refused with. -/
def Unrefused (_ : Set Tier) (e : Halt) : Prop := e ≠ .fault .reentered

/-- Computations that force only what is below the bound. What comes of them refers only to that. -/
def Does (b : ℚ) (A : Set Tier → α → Prop) (E : Set Tier → ε → Prop) (σ : Ranking)
    (x : Heap × World → Except ε α × (Heap × World)) : Prop :=
  ∀ s, Ready s b σ → ∃ τ, Leads b σ s τ (x s).2 ∧ Comes (A (τ.below b)) (E (τ.below b)) (x s).1

/-- Work that forces only what is below the bound, and is not refused. -/
def Works (b : ℚ) (A : Set Tier → α → Prop) (σ : Ranking) (x : Hold Heap α) : Prop :=
  Does b A Unrefused σ fun s => x s.1 s.2

/-- **Computing something once** below the bound. It is itself the bound of its own computation. -/
theorem Does.force {t : Table (Heap × World) θ α} {i : Nat} {x : Spot} (h : Keeps t i x P Q) (hP : Monotone P)
    (hQ : Monotone Q) {E : Set Tier → ε → Prop} (hE : Monotone E) (hx : x.tier ∈ σ.below b)
    {compute : θ → Heap × World → Except ε α × (Heap × World)} (busy : ε)
    (hcompute : ∀ u, P (σ.below (σ.rank x.tier)) u → Does (σ.rank x.tier) Q E σ (compute u)) :
    ∀ s, Ready s b σ → i < (t.cells s).size →
      ∃ τ, Leads b σ s τ (t.force compute busy i s).2 ∧
        Comes (Q (τ.below b)) (E (τ.below b)) (t.force compute busy i s).1 := by
  intro s hs hi
  have hcell : (t.cells s)[i]? = some (t.cells s)[i] := Array.getElem?_eq_getElem hi
  have hgiven := h.get hs.ranked hcell
  have hbelow : ∀ {τ}, σ ≤ τ → τ.below (τ.rank x.tier) ⊆ τ.below b := fun hτ =>
    Ranking.below_subset ((hτ _ hx.1).2.symm ▸ le_of_lt hx.2)
  unfold Table.force
  rw [hcell]
  generalize (t.cells s)[i] = c at hcell hgiven
  cases hgiven with
  | forced ha => exact ⟨σ, .refl hs.ranked, .ok (hQ (hbelow (le_refl σ)) _ ha)⟩
  | forcing => exact absurd (hs.quiet x (h.busy hcell)) (not_le_of_gt hx.2)
  | @pending u hu =>
    -- meanwhile this one is being computed, and what was being computed before is at the bound or above
    have hforcing : Ready (t.set i .forcing s) (σ.rank x.tier) σ := by
      refine ⟨h.set hs.ranked .forcing, fun y hy => ?_⟩
      by_cases heq : y = x
      · exact heq ▸ le_refl _
      · exact le_trans (le_of_lt hx.2) (hs.quiet y (h.other heq hy))
    obtain ⟨τ, hlead, hcomes⟩ := hcompute u hu _ hforcing
    have hrank : τ.rank x.tier = σ.rank x.tier := (hlead.le _ hx.1).2
    have hback : ∀ {s₁ : Heap × World} {c : Cell θ α}, Leads (σ.rank x.tier) σ (t.set i .forcing s) τ s₁ → c ≠ .forcing →
        Cells (τ.below (τ.rank x.tier)) P Q c → Leads b σ s τ (t.set i c s₁) := by
      intro s₁ c hlead hne hc
      refine ⟨hlead.le, (hlead.mono (le_of_lt hx.2)).new, h.set hlead.ranked hc, fun y hy => ?_⟩
      by_cases heq : y = x
      · exact absurd (h.self (heq ▸ hy)) hne
      · exact h.other heq (hlead.rests y (h.other heq hy))
    dsimp only
    rcases hrun : compute u (t.set i .forcing s) with ⟨e | a, s₁⟩
    · rw [hrun] at hlead hcomes
      cases hcomes with
      | error he =>
        refine ⟨τ, hback hlead nofun (.pending (hP (Ranking.below_rank hlead.le hx.1) _ hu)), .error (hE ?_ _ he)⟩
        exact hrank ▸ hbelow hlead.le
    · rw [hrun] at hlead hcomes
      cases hcomes with
      | ok ha =>
        rw [← hrank] at ha
        exact ⟨τ, hback hlead nofun (.forced ha), .ok (hQ (hbelow hlead.le) _ ha)⟩

namespace Works

variable {A : Set Tier → α → Prop} {B : Set Tier → β → Prop} {x : Hold Heap α}

theorem pure {a : α} (ha : A (σ.below b) a) : Works b A σ (Pure.pure a) := fun _ hs => ⟨σ, .refl hs.ranked, .ok ha⟩

theorem halt {e : Halt} (he : e ≠ .fault .reentered) : Works b A σ (Hold.lift (Run.halt e)) :=
  fun _ hs => ⟨σ, .refl hs.ranked, .error he⟩

theorem bind {f : α → Hold Heap β} (hx : Works b A σ x) (hf : ∀ τ, σ ≤ τ → ∀ a, A (τ.below b) a → Works b B τ (f a)) :
    Works b B σ (x >>= f) := by
  intro s hs
  obtain ⟨τ, hlead, hcomes⟩ := hx s hs
  show ∃ τ, Leads b σ s τ (Hold.bind x f s.1 s.2).2 ∧ Comes (B (τ.below b)) _ (Hold.bind x f s.1 s.2).1
  unfold Hold.bind
  rcases hrun : x s.1 s.2 with ⟨e | a, h, w⟩
  · simp only [hrun] at hlead hcomes
    cases hcomes with
    | error he => exact ⟨τ, hlead, .error he⟩
  · simp only [hrun] at hlead hcomes
    cases hcomes with
    | ok ha =>
      obtain ⟨υ, hlead', hcomes'⟩ := hf τ hlead.le a ha (h, w) (hlead.ready hs)
      exact ⟨υ, hlead.trans hlead', hcomes'⟩

/-- Work on an answer. -/
theorem map {f : α → β} (hx : Works b A σ x) (hf : ∀ τ, σ ≤ τ → ∀ a, A (τ.below b) a → B (τ.below b) (f a)) :
    Works b B σ (f <$> x) := hx.bind fun τ hτ a ha => .pure (hf τ hτ a ha)

/-- Runs that leave the feed and the lists alone. -/
theorem quiet {x : Run α} {a : World → α} {g : World → World} (hx : ∀ w, x w = (.ok (a w), g w))
    (hg : ∀ w, (g w).feed = w.feed ∧ (g w).lists = w.lists) (ha : ∀ w, A (σ.below b) (a w)) :
    Works b A σ (Hold.lift x) := by
  intro s hs
  have hrun : Hold.lift x s.1 s.2 = (.ok (a s.2), s.1, g s.2) := by rw [Hold.lift, hx]
  show ∃ τ, Leads b σ s τ (Hold.lift x s.1 s.2).2 ∧ Comes _ _ (Hold.lift x s.1 s.2).1
  rw [hrun]
  exact ⟨σ, .of_lists hs.ranked ((hg s.2).1 ▸ hs.ranked.feed) (hg s.2).2, .ok (ha s.2)⟩

theorem print (lines : List Line) : Works b (Linked Anything) σ (Hold.lift (Run.print lines)) :=
  quiet (fun _ => rfl) (fun _ => ⟨rfl, rfl⟩) fun _ => trivial

theorem note (id : String) : Works b (Linked Anything) σ (Hold.lift (Run.note id)) :=
  quiet (fun _ => rfl) (fun _ => ⟨rfl, rfl⟩) fun _ => trivial

theorem count (mark : Nat) : Works b (Linked Anything) σ (Hold.lift (Run.count mark)) :=
  quiet (fun _ => rfl) (fun _ => ⟨rfl, rfl⟩) fun _ => trivial

theorem identity : Works b (Linked Anything) σ (Hold.lift Run.identity) :=
  quiet (fun _ => rfl) (fun _ => ⟨rfl, rfl⟩) fun _ => trivial

/-- The report of a choice. -/
theorem report (width : Nat) (failures : List (String × String)) :
    Works b (Linked Anything) σ (Hold.lift (Run.ofExcept (Message.choiceReport width failures))) := by
  obtain h | ⟨m, h⟩ := Message.choiceReport_cases width failures
  · rw [h]
    exact .halt nofun
  · rw [h]
    exact .pure trivial

/-- The message about a token. -/
theorem unexpected (t : Value) : Works b (Linked Anything) σ (Hold.lift (Run.ofExcept (Message.unexpected t))) := by
  cases h : Message.unexpected t with
  | ok m => exact .pure trivial
  | error e =>
    obtain ⟨m, rfl⟩ := Message.unexpected_error h
    exact .halt nofun

/-- The first token, and what is left after it. -/
theorem next? {r : Remainder} (hr : Linked Remainders (σ.below b) r) :
    Works b (Linked fun K o => Readings K (.ok o)) σ (Hold.lift (Run.next? r)) := by
  intro s hs
  have hrun : Hold.lift (Run.next? r) s.1 s.2 = ((r.next? s.2.feed).1.mapError .fault, s.1, { s.2 with
      feed := (r.next? s.2.feed).2
      journal := if (r.next? s.2.feed).2.calls = s.2.feed.calls then s.2.journal else .called :: s.2.journal }) := rfl
  have hnext := Remainders.next? hr hs.ranked.feed
  show ∃ τ, Leads b σ s τ (Hold.lift (Run.next? r) s.1 s.2).2 ∧ Comes _ _ (Hold.lift (Run.next? r) s.1 s.2).1
  rw [hrun]
  refine ⟨σ, .of_lists hs.ranked (hs.ranked.feed.later (r.later_next? s.2.feed)) rfl, ?_⟩
  generalize (r.next? s.2.feed).1 = x at hnext ⊢
  cases hnext with
  | ended => exact .ok .ended
  | token ht hrest => exact .ok (.token ht hrest)
  | failed c => exact .error nofun

/-- A new cell. -/
theorem new {c : Cell Task Content} (hc : Cells (σ.below b) Tasks Contents c) (hne : c ≠ .forcing) :
    Works b (fun K i => .cell i ∈ K) σ (Heap.new c) := by
  intro s hs
  obtain ⟨τ, hlead, hmem⟩ := hs.push hc hne
  exact ⟨τ, hlead, .ok hmem⟩

theorem known {c : Content} (hc : Contents (σ.below b) c) : Works b (fun K i => .cell i ∈ K) σ (Heap.known c) :=
  new (.forced hc) nofun

theorem waiting {t : Task} (ht : Tasks (σ.below b) t) : Works b (fun K i => .cell i ∈ K) σ (Heap.waiting t) :=
  new (.pending ht) nofun

/-- A new list. -/
theorem makeList {u : Unparsed} (hu : Linked Waits (σ.below b) u) :
    Works b (fun K i => .nodes (listOf i) ∈ K ∧ .links (listOf i) ∈ K) σ (Heap.makeList u) := by
  intro s hs
  obtain ⟨τ, hlead, hl⟩ := hs.makeList hu
  rw [← listOf_nodeNumber s.2.lists.size 0] at hl
  exact ⟨τ, hlead, .ok hl⟩

/-- A node is added to the list of the bound. -/
theorem addNode {l : Nat} (hl : σ.rank (.nodes l) = b) {u : Unparsed} (hu : Linked Waits (σ.below b) u) :
    Works b (fun _ i => listOf i = l) σ (Heap.addNode l u) := by
  subst hl
  intro s hs
  have hnode := hs.ranked.addNode (b := σ.rank (.nodes l)) hu
  exact ⟨σ, hnode.trans (hnode.ranked.addLink l), .ok (listOf_nodeNumber _ _)⟩

end Works

end Work

end Heap

end CommittedChoice
