import CommittedChoice.Proofs.Heap.Guarded

/-!
# Nothing asks for itself

A memoized computation that asks for its own value is refused. Outcomes, the outcomes under commitments, values, remainders,
what successes turn out to be, the ends of lists, their nodes and the links to them are all computed once, and refer to each
other. No parser makes one of them ask for itself, in whatever order a consumer makes its demands, as long as callbacks read no
other lists than those that they are given.

- `Request`: whatever a consumer can do next: apply a term, force any cell, settle an outcome or have it revealed, read lists,
  or parse;
- `Sound`: what holds before and after each request, also after one that was stopped: everything is of a rank below a bound
  and refers to lower ranks only, and nothing is being computed;
- `never_reentered`: no request is refused.
-/

namespace CommittedChoice

open OnDemand Given

namespace Heap

/-! ## Requests -/

/-- Whatever a consumer of outcomes and lists can do. -/
inductive Request where
  /-- Applies a term. -/
  | apply (p : Parser) (z : Context)
  /-- Forces a cell: an outcome, what is under a commitment, or a part of a success. -/
  | force (i : Nat)
  | settle (o : Outcome)
  | reveal (o : Outcome)
  | settleAll (o : Outcome)
  /-- Reads lists, and does with them what callbacks can do. -/
  | read (act : Act Value)
  /-- Applies a term and computes everything. -/
  | parse (p : Parser) (z : Context)

namespace Request

/-- Does what is asked. -/
def meet (m : Access) : Request → Hold Heap Unit
  | .apply p z => do let _ ← Heap.apply m.env.grammar p z
  | .force i => do let _ ← m.force i
  | .settle o => do let _ ← m.settle o
  | .reveal o => do let _ ← m.reveal o
  | .settleAll o => do let _ ← m.settleAll o
  | .read act => do let _ ← m.exec act
  | .parse p z => do let _ ← m.verdict p z

/-- A request refers only to what is there. There may be lists in the tokens and in the state that a term is applied to. -/
def Fits (s : Heap × World) : Request → Prop
  | .apply p z | .parse p z => p.Closed ∧ Linked Contexts {x | Has s x} z
  | .force i => i < s.1.cells.size
  | .settle o | .reveal o | .settleAll o => Outcomes {x | Has s x} o
  | .read act => Linked (Acts Anything) {x | Has s x} act

end Request

/-- What a consumer can get to. It may go on after a request that was stopped. -/
def Reaches (env : Env) : Heap × World → Heap × World → Prop :=
  Relation.ReflTransGen fun s s' => ∃ n, ∃ r : Request, r.Fits s ∧ (r.meet (access env n) s.1 s.2).2 = s'

variable {env : Env} {s s' : Heap × World} {σ τ : Ranking}

/-! ## What stays -/

/-- Everything is below a bound, and nothing is being computed. -/
structure Sound (s : Heap × World) (σ : Ranking) : Prop where
  ready : Ready s 0 σ
  below : ∀ x ∈ σ.there, σ.rank x < 0

/-- Where nothing was done yet. -/
theorem Sound.start {w : World} (hfeed : w.feed.Listless) (hlists : w.lists = #[]) : Sound ({}, w) ⟨∅, fun _ => 0⟩ := by
  have hnodes : ∀ (l k : Nat) c, (w.nodesOf l)[k]? ≠ some c := fun l k c h => by
    rw [World.nodesOf, hlists] at h
    cases h
  have hcells : ∀ (i : Nat) c, (({} : Heap).cells)[i]? ≠ some c := fun i c h => by cases h
  have hlinks : ∀ (l k : Nat) c, (({} : Heap).linksOf l)[k]? ≠ some c := fun l k c h => by cases h
  have hhas : ∀ x, ¬ Has ({}, w) x := fun x hx => by
    cases x with
    | cell i => exact Nat.not_lt_zero i hx
    | links l => exact Nat.not_lt_zero l hx
    | nodes l =>
      have hx : l < w.lists.size := hx
      rw [hlists] at hx
      exact Nat.not_lt_zero l hx
  refine ⟨⟨⟨hfeed, fun x => iff_of_false (Finset.notMem_empty x) (hhas x), fun i c h => absurd h (hcells i c),
    fun l k c h => absurd h (hnodes l k c), fun l k c h => absurd h (hlinks l k c), fun _ hl => absurd hl (Finset.notMem_empty _), ?_⟩, fun x hx => absurd hx.has (hhas _)⟩,
    fun x hx => absurd hx (Finset.notMem_empty _)⟩
  rw [hlists]
  rfl

/-- Nothing is being computed. -/
theorem Sound.not_busy (h : Sound s σ) (x : Spot) : ¬ Busy s x := fun hx =>
  absurd (h.ready.quiet x hx) (not_le_of_gt (h.below _ ((h.ready.ranked.there _).2 hx.has)))

/-- **A request is not refused.** -/
theorem Sound.meet (hg : ∀ name, (env.grammar name).Closed) (h : Sound s σ) {r : Request} (hr : r.Fits s) (n : Nat) :
    (∃ τ, Sound (r.meet (access env n) s.1 s.2).2 τ) ∧
      (r.meet (access env n) s.1 s.2).1 ≠ .error (.fault .reentered) := by
  have hm := access_guarded hg n
  have hthere : {x | Has s x} ⊆ σ.below 0 := fun x hx =>
    have hx := (h.ready.ranked.there x).2 hx
    ⟨hx, h.below x hx⟩
  have hdone : ∀ {α : Type} {A : Set Tier → α → Prop} {x : Hold Heap α}, Works 0 A σ x →
      Works 0 (Linked Anything) σ (do let _ ← x) := fun hx => hx.bind fun _ _ _ _ => .pure trivial
  have hworks : Works 0 (Linked Anything) σ (r.meet (access env n)) := by
    cases r with
    | apply p z => exact hdone (Works.apply hg (hr.1.given _) subset_rfl (linked_contexts hthere _ hr.2))
    | force i => exact hdone (hm.force (hthere hr))
    | settle o => exact hdone (hm.settle (monotone_outcomes hthere _ hr))
    | reveal o => exact hdone (hm.reveal (monotone_outcomes hthere _ hr))
    | settleAll o => exact hdone (hm.settleAll (monotone_outcomes hthere _ hr))
    | read act =>
      exact hdone (hm.exec monotone_anything (Linked.mono (fun _ _ hK _ ha => ha.mono monotone_anything hK) hthere _ hr))
    | parse p z => exact hdone (hm.verdict (hr.1.given _) (linked_contexts hthere _ hr.2))
  obtain ⟨τ, hlead, hcomes⟩ := hworks s h.ready
  refine ⟨⟨τ, hlead.ready h.ready, fun x hx => ?_⟩, fun heq => ?_⟩
  · by_cases hold : x ∈ σ.there
    · rw [(hlead.le x hold).2]
      exact h.below x hold
    · exact hlead.new x hx hold
  · dsimp only at hcomes
    rw [heq] at hcomes
    cases hcomes with
    | error he => exact he rfl

theorem Sound.reaches (hg : ∀ name, (env.grammar name).Closed) (h : Sound s σ) (hs : Reaches env s s') :
    ∃ τ, Sound s' τ := by
  induction hs with
  | refl => exact ⟨σ, h⟩
  | tail _ hstep ih =>
    obtain ⟨τ, hτ⟩ := ih
    obtain ⟨n, r, hr, rfl⟩ := hstep
    exact (hτ.meet hg hr n).1

/-- **Nothing asks for itself.** A consumer applies closed terms, forces whatever it gets hold of and reads the lists that it
gets hold of, in any order and as often as it likes, and may go on after a request that was stopped. No request is stopped
because a memoized computation asks for its own value, and none leaves anything being computed. -/
theorem never_reentered (hg : ∀ name, (env.grammar name).Closed) {w : World} (hfeed : w.feed.Listless)
    (hlists : w.lists = #[]) (hs : Reaches env ({}, w) s) {r : Request} (hr : r.Fits s) (n : Nat) :
    (r.meet (access env n) s.1 s.2).1 ≠ .error (.fault .reentered) ∧
      ∀ x, ¬ Busy (r.meet (access env n) s.1 s.2).2 x := by
  obtain ⟨σ, hσ⟩ := (Sound.start hfeed hlists).reaches hg hs
  obtain ⟨⟨τ, hτ⟩, hne⟩ := hσ.meet hg hr n
  exact ⟨hne, hτ.not_busy⟩

/-- A group is the token `a`, or groups in brackets. The list of the groups in brackets is walked by a callback. -/
def groups : Grammar := fun _ =>
  .orElse (.satisfy fun t => .pure (t.same (.text "a"))) <|
    .bind (.satisfy fun t => .pure (t.same (.text "("))) fun _ => .pure <|
      .bind (.stream (.rule "group")) fun v => .pure <|
        .map (.satisfy fun t => .pure (t.same (.text ")"))) fun _ => Callback.walked v

theorem groups_closed (name : String) : (groups name).Closed := by
  have htest : ∀ {K} (u : Value), Parsers K (.satisfy fun t => .pure (t.same u)) := fun u =>
    .satisfy fun _ _ _ _ => .pure trivial
  refine .orElse (htest _) (.bind Parsers (htest _) (fun K _ _ _ => .pure ?_) fun _ _ => id)
  refine .bind Parsers (.stream (.rule _)) (fun K _ v hv => .pure ?_) fun _ _ => id
  exact .map (htest _) fun K' hK _ _ => .walked (hv.mono hK)

/-- Access for the parse of groups. -/
def groupsAccess : Access := access ((Engine.lazy false).env groups {}) 60

/-- The groups in `a(a)`, applied. -/
def groupsApplied : Heap × World :=
  (Request.meet groupsAccess (.apply (.stream (.rule "group")) ⟨.ofText "a(a)", .absent⟩) {} {}).2

/-- What is left after the groups is forced before anything else, which parses them all. -/
def groupsForced : Heap × World := (Request.meet groupsAccess (.force 1) groupsApplied.1 groupsApplied.2).2

theorem never_reentered_groups : Reaches ((Engine.lazy false).env groups {}) ({}, {}) groupsForced ∧
    (groupsAccess.exec (Callback.walked (.list (nodeNumber 0 0))) groupsForced.1 groupsForced.2).1.toOption.map Value.joined =
      some "aa" ∧
    (Request.meet groupsAccess (.read (Callback.walked (.list (nodeNumber 0 0)))) groupsForced.1 groupsForced.2).1 ≠
      .error (.fault .reentered) := by
  have hstart : Request.Fits ({}, {}) (.apply (.stream (.rule "group")) ⟨.ofText "a(a)", .absent⟩) :=
    ⟨.stream (.rule "group"), fun t ht => absurd ht List.not_mem_nil, Values.of_nil rfl⟩
  have hcells : 1 < groupsApplied.1.cells.size := by decide +kernel
  have hlinks : 0 < groupsForced.1.links.size := by decide +kernel
  have hreaches : Reaches ((Engine.lazy false).env groups {}) ({}, {}) groupsForced :=
    .tail (.single ⟨60, _, hstart, rfl⟩) ⟨60, .force 1, hcells, rfl⟩
  have hfits : Request.Fits groupsForced (.read (Callback.walked (.list (nodeNumber 0 0)))) :=
    (Acts.walked (Values.list (listOf_nodeNumber 0 0 ▸ hlinks))).imp fun _ _ _ => trivial
  exact ⟨hreaches, by decide +kernel, (never_reentered groups_closed .empty rfl hreaches hfits 60).1⟩

/-- A cell that refers to itself is refused. No parser makes one. -/
example (env : Env) : (force env 2 0 { cells := #[.pending (.settled 0)] } {}).1 = .error (.fault .reentered) := rfl

end Heap

end CommittedChoice
