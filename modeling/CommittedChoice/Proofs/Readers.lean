import CommittedChoice.Proofs.Demands
import CommittedChoice.Proofs.Walking

/-!
# Readers of one list

The list of a parser can be read in any order: by any number of readers, from any of its tails, item by item, a few items at
once or as a whole, and its end can be asked for at any time. Every answer is what one walk along the list gives, and the
world is that of such a walk up to the furthest item that was asked for, so no item is parsed twice.

- `Act.uncons`, `Ask`, `Visit`: what readers can ask of a list, and sequences of such demands;
- `OnDemand.Trail`: one walk along a list, with the nodes it comes to and the world before each of them;
- `Trail.nodeAt_eq`: a node is read alike at all later stages of the walk; `Trail.exec_take`, `Trail.walkFrom_eq`: so are
  some or all items from it on;
- `Trail.meets_iff`: what a demand comes to at some stage of the walk;
- `OnDemand.read_in_any_order`: what all demands of a visit come to.
-/

namespace CommittedChoice

open Run (limit Steady Ends)

/-- The first item of a list and the rest after it, if it has an item. A list that ends in a failure throws it. -/
def Act.uncons (start : Nat) : Act (Option (Value × Nat)) :=
  .node start fun
    | .item v next => .pure (some (v, next))
    | .ended e =>
      match e.fault? with
      | some fault => .throw fault
      | none => .pure none

namespace OnDemand

/-! ## Demands -/

/-- What is left of a list after `depth` items. -/
structure Tail where
  depth : Nat
  node : Nat

/-- What can be asked of the success of a list: the first item and the rest of a tail, the leading items of a tail or all of
them, what is left of the input after the list, and what the success turned out to be. -/
inductive Ask where
  | uncons (t : Tail)
  | take (n : Nat) (t : Tail)
  | toArray (t : Tail)
  | rest
  | ending

/-- What is given for it. -/
inductive Reply where
  | cell (c : Option (Value × Tail))
  | items (vs : List Value)
  | context (z : Context)
  | finish (f : Finish)

namespace Ask

/-- Meets a demand on the success in hand. -/
def meet (m : Means) : Ask → Hold Promise Reply
  | .uncons t => Hold.lift do return .cell ((← m.exec (Act.uncons t.node)).map fun c => (c.1, ⟨t.depth + 1, c.2⟩))
  | .take n t => Hold.lift do return .items (← m.exec (Act.take n t.node))
  | .toArray t => Hold.lift do return .items (← m.exec (Act.toArray t.node))
  | .rest => do return .context (← Promise.forceRest m.env m.lists)
  | .ending => do return .finish (← Promise.disclose m.env m.lists)

/-- The demand is met or stops with a fault, if there is enough fuel, and leaves `q'` in hand. -/
def Meets (env : Env) (a : Ask) (q : Promise) (w : World) (x : Except Fault Reply) (q' : Promise) (w' : World) : Prop :=
  ∃ n, a.meet (means env n) q w = (x.mapError .fault, q', w')

/-- The demand is for one of these tails, if it is for a tail. -/
def On (tails : List Tail) : Ask → Prop
  | .uncons t | .take _ t | .toArray t => t ∈ tails
  | .rest | .ending => True

/-- How many items of a list are to be parsed for the demand if the list has `count` items. At the end, the application
of the parser that ends the list counts as one. -/
def reach (count : Nat) : Ask → Nat
  | .uncons t => t.depth + 1
  | .take n t => min (t.depth + n) (count + 1)
  | .toArray _ | .rest | .ending => count + 1

end Ask

/-- The tail that a reader obtains from what it is given. -/
def Reply.tails : Except Fault Reply → List Tail
  | .ok (.cell (some (_, t))) => [t]
  | _ => []

/-- Demands with what they came to, the newest first. -/
abbrev Asks := List (Ask × Except Fault Reply)

/-- How many items are to be parsed for all demands. -/
def Asks.reach (count : Nat) (asks : Asks) : Nat := asks.foldr (fun a m => max m (a.1.reach count)) 0

/-- Any sequence of demands on the success of list `i`, each for the list or for a tail that was obtained before. -/
inductive Visit (env : Env) (i : Nat) (w : World) : Asks → List Tail → Promise → World → Prop
  | start {q : Promise} : Answer.ofList i = .success q → Visit env i w [] [⟨0, i⟩] q w
  | ask {asks : Asks} {tails : List Tail} {q q' : Promise} {w₁ w' : World} {a : Ask} {x : Except Fault Reply} :
      Visit env i w asks tails q w₁ → a.On tails → a.Meets env q w₁ x q' w' →
      Visit env i w ((a, x) :: asks) (Reply.tails x ++ tails) q' w'

/-! ### What meeting a demand comes to -/

section Meets

variable {env : Env} {q q' : Promise} {w w₁ w' : World} {x : Except Fault Reply}

theorem lift_eq_iff {φ α : Type} {run : Run α} {s s' : φ} {w w' : World} {r : Except Halt α} :
    Hold.lift run s w = (r, s', w') ↔ run w = (r, w') ∧ s' = s := by
  unfold Hold.lift
  rcases run w with ⟨r', w₁⟩
  simp only [Prod.mk.injEq]
  constructor
  · rintro ⟨rfl, rfl, rfl⟩
    exact ⟨⟨rfl, rfl⟩, rfl⟩
  · rintro ⟨⟨rfl, rfl⟩, rfl⟩
    exact ⟨rfl, rfl, rfl⟩

/-- Reading a list leaves the success in hand as it is. -/
theorem meets_lift_iff {α : Type} {act : Act α} {g : α → Reply} {y : Except Fault α}
    (h : exec env act w = some (y, w₁)) :
    (∃ n, (Hold.lift do return g (← (means env n).exec act) : Hold Promise Reply) q w = (x.mapError .fault, q', w')) ↔
      x = y.map g ∧ q' = q ∧ w' = w₁ := by
  have hlimit : limit (fun n => (do return g (← (means env n).exec act) : Run Reply)) w = some (y.map g, w₁) := by
    rw [Run.limit_bind_const (steady_exec env act)]
    cases y with
    | error e => exact Course.bind_of_error h
    | ok a => exact Course.bind_of_ok h
  have hsteady : Steady fun n => (do return g (← (means env n).exec act) : Run Reply) :=
    .bind (steady_exec env act) fun _ => .const _
  constructor
  · rintro ⟨n, hn⟩
    obtain ⟨hrun, rfl⟩ := lift_eq_iff.1 hn
    cases hlimit.symm.trans ((Run.limit_eq_some hsteady).2 ⟨n, hrun⟩)
    exact ⟨rfl, rfl, rfl⟩
  · rintro ⟨rfl, rfl, rfl⟩
    obtain ⟨n, hn⟩ := (Run.limit_eq_some hsteady).1 hlimit
    exact ⟨n, lift_eq_iff.2 ⟨hn, rfl⟩⟩

/-- Something late that has a value is that value from then on. -/
theorem force_iff {α : Type} {l l' : Late α} {a : α} {y : Except Fault α} (h : late env l w = some (.ok a, w₁)) :
    (∃ n, l.force env (means env n).lists w = (y.mapError .fault, l', w')) ↔ y = .ok a ∧ l' = .known a ∧ w' = w₁ := by
  constructor
  · rintro ⟨n, hn⟩
    cases h.symm.trans (late_of_force hn)
    exact ⟨rfl, Late.force_keeps hn, rfl⟩
  · rintro ⟨rfl, rfl, rfl⟩
    obtain ⟨n, hn⟩ := (Run.limit_eq_some (steady_late env l)).1 h
    refine ⟨n, ?_⟩
    change Hold.on l (Late.force env (means env n).lists) w = _ at hn
    unfold Hold.on at hn
    rcases hl : l.force env (means env n).lists w with ⟨r, l'', w₂⟩
    rw [hl] at hn
    cases hn
    cases Late.force_keeps hl
    rfl

theorem meets_rest_iff {z : Context} (h : late env q.rest w = some (.ok z, w₁)) :
    Ask.rest.Meets env q w x q' w' ↔ x = .ok (.context z) ∧ q' = { q with rest := .known z } ∧ w' = w₁ := by
  constructor
  · rintro ⟨n, hn⟩
    obtain ⟨y, hy, rfl⟩ := Hold.map_cases hn
    unfold Promise.forceRest at hy
    rcases hl : q.rest.force (means env n).env (means env n).lists w with ⟨r, l, w₂⟩
    rw [hl] at hy
    cases hy
    obtain ⟨rfl, rfl, rfl⟩ := (force_iff h).1 ⟨n, hl⟩
    exact ⟨rfl, rfl, rfl⟩
  · rintro ⟨rfl, rfl, rfl⟩
    obtain ⟨n, hn⟩ := (force_iff (y := .ok z) h).2 ⟨rfl, rfl, rfl⟩
    have hforce : Promise.forceRest (means env n).env (means env n).lists q w =
        (.ok z, { q with rest := .known z }, w') := by
      unfold Promise.forceRest
      rw [show q.rest.force (means env n).env (means env n).lists w = _ from hn]
      rfl
    exact ⟨n, Hold.bind_of_ok hforce⟩

theorem meets_ending_iff {l : Late Finish} {f : Finish} (hq : q.finish = some l)
    (h : late env l w = some (.ok f, w₁)) :
    Ask.ending.Meets env q w x q' w' ↔ x = .ok (.finish f) ∧ q' = { q with finish := some (.known f) } ∧ w' = w₁ := by
  constructor
  · rintro ⟨n, hn⟩
    obtain ⟨y, hy, rfl⟩ := Hold.map_cases hn
    unfold Promise.disclose at hy
    rw [hq] at hy
    dsimp only at hy
    rcases hl : l.force (means env n).env (means env n).lists w with ⟨r, l', w₂⟩
    rw [hl] at hy
    cases hy
    obtain ⟨rfl, rfl, rfl⟩ := (force_iff h).1 ⟨n, hl⟩
    exact ⟨rfl, rfl, rfl⟩
  · rintro ⟨rfl, rfl, rfl⟩
    obtain ⟨n, hn⟩ := (force_iff (y := .ok f) h).2 ⟨rfl, rfl, rfl⟩
    have hdisclose : Promise.disclose (means env n).env (means env n).lists q w =
        (.ok f, { q with finish := some (.known f) }, w') := by
      unfold Promise.disclose
      rw [hq]
      dsimp only
      rw [show l.force (means env n).env (means env n).lists w = _ from hn]
      rfl
    exact ⟨n, Hold.bind_of_ok hdisclose⟩

end Meets

/-! ## One walk along the list -/

/-- One walk along the list of `p`, from node `i` in the world `w` to its end: the node after each number of items, and the
world in which it is read. There it waits, so the walk parses each item once. -/
structure Trail (env : Env) (p : Parser) (i : Nat) (w : World) (vs : List Value) (e : ListEnd) where
  node : Nat → Nat
  world : Nat → World
  node_zero : node 0 = i
  world_zero : world 0 = w
  waits : ∀ k ≤ vs.length, ∃ z c, (world k).cell (node k) = some (.pending ⟨p, z, c⟩)
  item : ∀ k v, vs[k]? = some v → nodeAt env (node k) (world k) = some (.ok (.item v (node (k + 1))), world (k + 1))
  ended : nodeAt env (node vs.length) (world vs.length) = some (.ok (.ended e), world (vs.length + 1))

variable {env : Env} {p : Parser}

/-- What a parser reveals is in a later world. -/
theorem reveal_before {z : Context} {w w' : World} {r : Revealed}
    (h : reveal env (.apply p z) w = some (.ok r, w')) : w.Before w' := by
  have hadmits : ∀ p : Parser, p.Throughout everywhere.Admits :=
    Parser.throughout_of_forall fun _ _ _ _ _ _ => trivial
  have hs : everywhere.Suspends w (.apply p z) := by rw [Domain.Suspends]; exact ⟨hadmits p, trivial⟩
  exact (Domain.reveal_within (fun _ => hadmits _) hs h).1

/-- The node of an item that waited is computed by what the item parser reveals. -/
theorem nodeAt_computed {l k : Nat} {u : Unparsed} {w w' : World} {x : Node}
    (hcell : (w.nodesOf l)[k]? = some (.pending u)) (h : nodeAt env (nodeNumber l k) w = some (.ok x, w')) :
    ∃ w₁, (reveal env (.apply u.item u.start) >>= nodeOf env l u) ((World.listNodes l).set k .forcing w) =
      some (.ok x, w₁) ∧ w' = (World.listNodes l).set k (.forced x) w₁ := by
  obtain ⟨n, hn⟩ := (Run.limit_eq_some (steady_node env _)).1 h
  cases n with
  | zero => cases hn
  | succ n =>
    have hsize : k < (w.nodesOf l).size := (Array.getElem?_eq_some_iff.1 hcell).1
    change node env (n + 1) (nodeNumber l k) w = _ at hn
    rw [node_succ] at hn
    simp only [listOf_nodeNumber, placeOf_nodeNumber, hsize, if_true] at hn
    unfold Table.force at hn
    rw [show ((World.listNodes l).cells w)[k]? = some (.pending u) from hcell] at hn
    dsimp only at hn
    rcases hc : (means env n).computeNode n l u ((World.listNodes l).set k .forcing w) with ⟨err | y, w₁⟩
    · rw [hc] at hn
      cases hn
    · rw [hc] at hn
      cases hn
      refine ⟨w₁, ?_, rfl⟩
      rw [← limit_computeNode, Run.limit_eq_some (steady_computeNode l u)]
      exact ⟨n, hc⟩

/-- **What an item is computed from.** Its parser has matched and consumed something, and the next node waits for the item
after the match. Besides, only lists have changed in the world. -/
theorem item_computed {l k : Nat} {u : Unparsed} {w w' : World} {v : Value} {next : Nat}
    (hcell : (w.nodesOf l)[k]? = some (.pending u))
    (h : nodeAt env (nodeNumber l k) w = some (.ok (.item v next), w')) :
    ∃ d z a w₁ k' lists,
      eval env u.item u.start ((World.listNodes l).set k .forcing w) = some (.ok ((Result.success z a).commitIf d), w₁) ∧
      z.input.consumed ≠ u.start.input.consumed ∧ v = itemOf env a z next ∧ w' = { w₁ with lists := lists } ∧
      next = nodeNumber l k' ∧ (w'.nodesOf l)[k']? = some (.pending ⟨u.item, z, u.committed || d⟩) := by
  obtain ⟨w₁, hcomputed, rfl⟩ := nodeAt_computed hcell h
  obtain ⟨r, w₂, hreveal, hnode⟩ := Course.bind_eq_ok hcomputed
  obtain ⟨d, q | ⟨rest, message⟩⟩ := r
  · obtain ⟨z, w₃, hz, hnode⟩ := Course.bind_eq_ok hnode
    split at hnode
    · cases hnode
    rename_i hconsumed
    obtain ⟨a, w₄, ha, hnode⟩ := Course.bind_eq_ok hnode
    obtain ⟨next', w₅, hnext, hnode⟩ := Course.bind_eq_ok hnode
    have hbefore := ((reveal_before hreveal).trans (late_before hz)).trans (late_before ha)
    have hlist : l < w₄.lists.size :=
      Nat.lt_of_lt_of_le (World.lt_of_node hcell) (Nat.le_trans (Nat.le_of_eq (Array.size_modify).symm) hbefore.lists)
    have hplace : k < (w₄.nodesOf l).size := by
      refine Nat.lt_of_lt_of_le ?_ (hbefore.nodes l)
      rw [World.size_nodesOf_set]
      exact (Array.getElem?_eq_some_iff.1 hcell).1
    have heval : eval env u.item u.start ((World.listNodes l).set k .forcing w) =
        some (.ok ((Result.success z a).commitIf d), w₄) := by
      refine (Course.bind_of_ok hreveal).trans ((Course.bind_of_ok hz).trans ((Course.bind_of_ok ha).trans rfl))
    cases hnext
    cases hnode
    exact ⟨d, z, a, w₄, _, _, heval, hconsumed, rfl, rfl, rfl, World.addNode_waits hlist hplace _ _⟩
  · cases hnode

/-- After an item, the next node waits. -/
theorem next_waits {l k : Nat} {u : Unparsed} {w w' : World} {v : Value} {next : Nat}
    (hcell : (w.nodesOf l)[k]? = some (.pending u))
    (h : nodeAt env (nodeNumber l k) w = some (.ok (.item v next), w')) :
    ∃ k' z c, next = nodeNumber l k' ∧ (w'.nodesOf l)[k']? = some (.pending ⟨u.item, z, c⟩) := by
  obtain ⟨d, z, a, w₁, k', lists, -, -, -, -, hnext, hwaits⟩ := item_computed hcell h
  exact ⟨k', z, _, hnext, hwaits⟩

/-- A list ends where its last item does. -/
theorem rest_of_ended {l k : Nat} {u : Unparsed} {w w' : World} {e : ListEnd}
    (hcell : (w.nodesOf l)[k]? = some (.pending u))
    (h : nodeAt env (nodeNumber l k) w = some (.ok (.ended e), w')) : e.rest = u.start := by
  obtain ⟨w₁, hcomputed, -⟩ := nodeAt_computed hcell h
  obtain ⟨r, w₂, -, hnode⟩ := Course.bind_eq_ok hcomputed
  obtain ⟨d, q | ⟨rest, message⟩⟩ := r
  · obtain ⟨z, w₃, -, hnode⟩ := Course.bind_eq_ok hnode
    split at hnode
    · cases hnode
      rfl
    · obtain ⟨a, w₄, -, hnode⟩ := Course.bind_eq_ok hnode
      obtain ⟨next, w₅, -, hnode⟩ := Course.bind_eq_ok hnode
      cases hnode
  · cases hnode
    rfl

/-- Some walk reads the list. -/
theorem Reads.trail {l k : Nat} {z : Context} {c : Bool} {w w' : World} {vs : List Value} {e : ListEnd}
    (hcell : (w.nodesOf l)[k]? = some (.pending ⟨p, z, c⟩)) (h : Reads (nodeAt env) (nodeNumber l k) w vs (.ok e) w') :
    ∃ t : Trail env p (nodeNumber l k) w vs e, t.world (vs.length + 1) = w' := by
  have hwaits : ∀ {k z c} {w : World}, (w.nodesOf l)[k]? = some (.pending ⟨p, z, c⟩) →
      w.cell (nodeNumber l k) = some (.pending ⟨p, z, c⟩) := by
    intro k z c w h
    rwa [World.cell, listOf_nodeNumber, placeOf_nodeNumber]
  generalize hi : nodeNumber l k = i at h
  generalize hx : (.ok e : Except Fault ListEnd) = x at h
  induction h generalizing k z c with
  | fault hnode => cases hx
  | @ended i w e' w' hnode =>
    cases hx
    cases hi
    refine ⟨⟨fun _ => nodeNumber l k, fun n => if n = 0 then w else w', rfl, rfl, fun n hn => ?_, nofun, hnode⟩, rfl⟩
    cases Nat.le_zero.1 hn
    exact ⟨z, c, hwaits hcell⟩
  | @item i w v next w₁ vs x w' hnode _ ih =>
    cases hi
    obtain ⟨k', z', c', rfl, hcell'⟩ := next_waits hcell hnode
    obtain ⟨t, ht⟩ := ih hcell' rfl hx
    refine ⟨⟨fun n => n.casesOn (nodeNumber l k) t.node, fun n => n.casesOn w t.world, rfl, rfl, ?_, ?_, t.ended⟩, ht⟩
    · intro n hn
      cases n with
      | zero => exact ⟨z, c, hwaits hcell⟩
      | succ n => exact t.waits n (Nat.le_of_succ_le_succ hn)
    · intro n v' hv'
      cases n with
      | zero =>
        cases hv'
        dsimp only
        rw [t.node_zero, t.world_zero]
        exact hnode
      | succ n => exact t.item n v' hv'

/-! ## Reading at some stage of the walk -/

namespace Trail

variable {i : Nat} {w : World} {vs : List Value} {e : ListEnd} (t : Trail env p i w vs e)

/-- The node after `k` items. -/
def found (k : Nat) : Node :=
  match vs[k]? with
  | some v => .item v (t.node (k + 1))
  | none => .ended e

theorem found_of_lt {k : Nat} (hk : k < vs.length) : t.found k = .item vs[k] (t.node (k + 1)) := by
  rw [Trail.found, List.getElem?_eq_getElem hk]

theorem found_length : t.found vs.length = .ended e := by
  rw [Trail.found, List.getElem?_eq_none (Nat.le_refl _)]

/-- Each node of the walk leads to the next world. -/
theorem nodeAt_next {k : Nat} (hk : k ≤ vs.length) :
    nodeAt env (t.node k) (t.world k) = some (.ok (t.found k), t.world (k + 1)) := by
  rcases Nat.lt_or_eq_of_le hk with hk | rfl
  · rw [t.found_of_lt hk]
    exact t.item k _ (List.getElem?_eq_getElem hk)
  · rw [t.found_length]
    exact t.ended

/-- The worlds of the walk come one after the other. -/
theorem world_before {k m : Nat} (hkm : k ≤ m) (hm : m ≤ vs.length + 1) : (t.world k).Before (t.world m) := by
  induction m, hkm using Nat.le_induction with
  | base => exact .refl _
  | succ m _ ih =>
    have hnode := t.nodeAt_next (Nat.le_of_succ_le_succ hm)
    exact (ih (Nat.le_of_succ_le hm)).trans
      (Run.Grows.limit (fun n => (means_grows env n).node _) (steady_node env _) hnode)

/-- **A node is read alike at all stages of the walk.** A node that was read before is known, and the one that comes next
is parsed. -/
theorem nodeAt_eq {k m : Nat} (hkm : k ≤ m) (hk : k ≤ vs.length) (hm : m ≤ vs.length + 1) :
    nodeAt env (t.node k) (t.world m) = some (.ok (t.found k), t.world (max m (k + 1))) := by
  have hnode := t.nodeAt_next hk
  rcases Nat.lt_or_eq_of_le hkm with hlt | rfl
  · obtain ⟨n, hn⟩ := (Run.limit_eq_some (steady_node env _)).1 hnode
    have hcell := (t.world_before hlt hm).cell (cell_of_node hn)
    rw [Nat.max_eq_left hlt]
    exact nodeAt_of_cell hcell
  · rw [Nat.max_eq_right (Nat.le_succ k)]
    exact hnode

/-- The answer of a demand that reads the list to its end. -/
theorem exec_reading {α : Type} (a : α) (w : World) :
    exec env (match e.fault? with
      | some fault => .throw fault
      | none => .pure a) w = some (e.reading a, w) := by
  rw [ListEnd.reading]
  cases e.fault? with
  | some fault => exact congrFun (exec_throw fault) w
  | none => exact congrFun (exec_pure a) w

/-- Leading items from a node on. -/
theorem exec_takeFrom (n : Nat) : ∀ {k m : Nat} (done : List Value), k ≤ m → k ≤ vs.length → m ≤ vs.length + 1 →
    exec env (Act.takeFrom n (t.node k) done) (t.world m) =
      some (if k + n ≤ vs.length then .ok (done.reverse ++ (vs.drop k).take n) else e.reading (done.reverse ++ vs.drop k),
        t.world (max m (min (k + n) (vs.length + 1)))) := by
  induction n with
  | zero =>
    intro k m done hkm hk hm
    have hstage : max m (min (k + 0) (vs.length + 1)) = m := by omega
    rw [hstage, if_pos (by omega), List.take_zero, List.append_nil]
    exact congrFun (exec_pure _) _
  | succ n ih =>
    intro k m done hkm hk hm
    rw [Act.takeFrom, exec_node, Course.bind_of_ok (t.nodeAt_eq hkm hk hm)]
    rcases Nat.lt_or_eq_of_le hk with hlt | rfl
    · have hstage : max (max m (k + 1)) (min (k + 1 + n) (vs.length + 1)) =
          max m (min (k + (n + 1)) (vs.length + 1)) := by omega
      have hcount : k + 1 + n ≤ vs.length ↔ k + (n + 1) ≤ vs.length := by omega
      have hdrop : vs.drop k = vs[k] :: vs.drop (k + 1) := List.drop_eq_getElem_cons hlt
      rw [t.found_of_lt hlt]
      refine (ih (vs[k] :: done) (by omega) (by omega) (by omega)).trans ?_
      simp only [hstage, hcount, hdrop, List.reverse_cons, List.append_assoc, List.singleton_append, List.take_succ_cons]
    · have hstage : min (vs.length + (n + 1)) (vs.length + 1) = vs.length + 1 := by omega
      rw [t.found_length, hstage, if_neg (by omega), List.drop_length, List.append_nil]
      exact exec_reading _ _

/-- All items from a node on. -/
theorem walkFrom_eq {k m : Nat} (done : List Value) (hkm : k ≤ m) (hk : k ≤ vs.length) (hm : m ≤ vs.length + 1) :
    walkFrom env (t.node k) done (t.world m) = some (.ok (done.reverse ++ vs.drop k, e), t.world (vs.length + 1)) := by
  -- the induction is on the number of items that are left
  induction hleft : vs.length - k generalizing k m done with
  | zero =>
    obtain rfl : k = vs.length := by omega
    have hstage : max m (vs.length + 1) = vs.length + 1 := by omega
    rw [OnDemand.walkFrom_eq, Course.bind_of_ok (t.nodeAt_eq hkm hk hm), t.found_length, hstage, List.drop_length,
      List.append_nil]
    rfl
  | succ left ih =>
    have hlt : k < vs.length := by omega
    have hdrop : vs.drop k = vs[k] :: vs.drop (k + 1) := List.drop_eq_getElem_cons hlt
    rw [OnDemand.walkFrom_eq, Course.bind_of_ok (t.nodeAt_eq hkm hk hm), t.found_of_lt hlt]
    refine (ih (vs[k] :: done) (by omega) (by omega) (by omega) (by omega)).trans ?_
    rw [hdrop, List.reverse_cons, List.append_assoc, List.singleton_append]

theorem exec_toArray {k m : Nat} (hkm : k ≤ m) (hk : k ≤ vs.length) (hm : m ≤ vs.length + 1) :
    exec env (Act.toArray (t.node k)) (t.world m) = some (e.reading (vs.drop k), t.world (vs.length + 1)) := by
  rw [Act.toArray, exec_walk, Course.bind_of_ok (t.walkFrom_eq [] hkm hk hm)]
  exact exec_reading _ _

theorem exec_endOf {α : Type} (f : ListEnd → α) {m : Nat} (hm : m ≤ vs.length + 1) :
    exec env (do return f (← Act.endOf i)) (t.world m) = some (.ok (f e), t.world (vs.length + 1)) := by
  have hwalk := t.walkFrom_eq [] (Nat.zero_le m) (Nat.zero_le _) hm
  rw [t.node_zero] at hwalk
  rw [exec_bind, Act.endOf, exec_walk, bind_assoc, Course.bind_of_ok hwalk, exec_pure, pure_bind]
  exact congrFun (exec_pure _) _

/-! ## Demands at some stage of the walk -/

/-- What a demand comes to: the items from the tail on, or the failure in which the list ends. -/
def reply (t : Trail env p i w vs e) : Ask → Except Fault Reply
  | .uncons s =>
    match vs[s.depth]? with
    | some v => .ok (.cell (some (v, ⟨s.depth + 1, t.node (s.depth + 1)⟩)))
    | none => e.reading (.cell none)
  | .take n s =>
    if s.depth + n ≤ vs.length then .ok (.items ((vs.drop s.depth).take n)) else e.reading (.items (vs.drop s.depth))
  | .toArray s => e.reading (.items (vs.drop s.depth))
  | .rest => .ok (.context e.rest)
  | .ending => .ok (.finish e.finish)

/-- The success in hand after a demand: the end that was asked for is kept. -/
def after (_ : Trail env p i w vs e) (a : Ask) (q : Promise) : Promise :=
  match a with
  | .rest => { q with rest := .known e.rest }
  | .ending => { q with finish := some (.known e.finish) }
  | _ => q

/-- The success in hand after `m` nodes of the walk: its end is still to be walked to, or it is known. -/
structure Holds (_ : Trail env p i w vs e) (m : Nat) (q : Promise) : Prop where
  stage : m ≤ vs.length + 1
  rest : q.rest = .later (do return (← Act.endOf i).rest) ∨ q.rest = .known e.rest ∧ m = vs.length + 1
  finish : q.finish = some (.later (do return (← Act.endOf i).finish)) ∨
    q.finish = some (.known e.finish) ∧ m = vs.length + 1

/-- The tail is one that the walk has come to after `m` nodes. -/
def Reaches (t : Trail env p i w vs e) (m : Nat) (s : Tail) : Prop :=
  s.node = t.node s.depth ∧ s.depth ≤ m ∧ s.depth ≤ vs.length

theorem late_rest {m : Nat} {q : Promise} (hq : t.Holds m q) :
    late env q.rest (t.world m) = some (.ok e.rest, t.world (vs.length + 1)) := by
  obtain hrest | ⟨hrest, rfl⟩ := hq.rest
  · rw [hrest, late_later]
    exact t.exec_endOf _ hq.stage
  · rw [hrest, late_known]
    rfl

theorem late_finish {m : Nat} {q : Promise} (hq : t.Holds m q) : ∃ l, q.finish = some l ∧
    late env l (t.world m) = some (.ok e.finish, t.world (vs.length + 1)) := by
  obtain hfinish | ⟨hfinish, rfl⟩ := hq.finish
  · refine ⟨_, hfinish, ?_⟩
    rw [late_later]
    exact t.exec_endOf _ hq.stage
  · refine ⟨_, hfinish, ?_⟩
    rw [late_known]
    rfl

theorem exec_uncons {k m : Nat} (hkm : k ≤ m) (hk : k ≤ vs.length) (hm : m ≤ vs.length + 1) :
    exec env (Act.uncons (t.node k)) (t.world m) =
      some (match vs[k]? with
        | some v => .ok (some (v, t.node (k + 1)))
        | none => e.reading none, t.world (max m (k + 1))) := by
  rw [Act.uncons, exec_node, Course.bind_of_ok (t.nodeAt_eq hkm hk hm), found]
  cases vs[k]? with
  | some v => exact congrFun (exec_pure _) _
  | none => exact exec_reading _ _

theorem map_reading {α β : Type} (f : α → β) (a : α) : (e.reading a).map f = e.reading (f a) := by
  unfold ListEnd.reading
  cases e.fault? <;> rfl

/-- **What a demand comes to at some stage of the walk.** It is met, what it comes to does not depend on the stage, and the
walk has gone on as far as the demand reaches. -/
theorem meets_iff {a : Ask} {q q' : Promise} {m : Nat} {x : Except Fault Reply} {w' : World} (hq : t.Holds m q)
    {tails : List Tail} (htails : ∀ s ∈ tails, t.Reaches m s) (ha : a.On tails) :
    a.Meets env q (t.world m) x q' w' ↔
      x = t.reply a ∧ q' = t.after a q ∧ w' = t.world (max m (a.reach vs.length)) := by
  have hlast : max m (vs.length + 1) = vs.length + 1 := Nat.max_eq_right hq.stage
  cases a with
  | uncons s =>
    obtain ⟨hnode, hm, hdepth⟩ := htails s ha
    have hexec := t.exec_uncons hm hdepth hq.stage
    rw [← hnode] at hexec
    refine (meets_lift_iff hexec).trans ?_
    rw [reply, Ask.reach]
    cases vs[s.depth]? with
    | some v => rfl
    | none => dsimp only; rw [map_reading]; rfl
  | take n s =>
    obtain ⟨hnode, hm, hdepth⟩ := htails s ha
    have hexec := t.exec_takeFrom n [] hm hdepth hq.stage
    rw [← hnode] at hexec
    refine (meets_lift_iff hexec).trans ?_
    rw [reply]
    split
    · rfl
    · rw [map_reading]; rfl
  | toArray s =>
    obtain ⟨hnode, hm, hdepth⟩ := htails s ha
    have hexec := t.exec_toArray hm hdepth hq.stage
    rw [← hnode] at hexec
    refine (meets_lift_iff hexec).trans ?_
    rw [map_reading, Ask.reach, hlast]
    rfl
  | rest =>
    rw [Ask.reach, hlast]
    exact meets_rest_iff (t.late_rest hq)
  | ending =>
    obtain ⟨l, hfinish, hl⟩ := t.late_finish hq
    rw [Ask.reach, hlast]
    exact meets_ending_iff hfinish hl

/-! ## Visits -/

variable {m : Nat} {tails : List Tail}

theorem Reaches.mono {m' : Nat} {s : Tail} (h : t.Reaches m s) (hm : m ≤ m') : t.Reaches m' s :=
  ⟨h.1, Nat.le_trans h.2.1 hm, h.2.2⟩

/-- No demand reaches beyond the end of the list. -/
theorem reach_le {a : Ask} (htails : ∀ s ∈ tails, t.Reaches m s) (ha : a.On tails) :
    a.reach vs.length ≤ vs.length + 1 := by
  cases a with
  | uncons s => exact Nat.succ_le_succ (htails s ha).2.2
  | take n s => exact Nat.min_le_right _ _
  | toArray s => exact Nat.le_refl _
  | rest => exact Nat.le_refl _
  | ending => exact Nat.le_refl _

/-- A demand for leading items parses no more items than it asks for. -/
theorem reach_take_le {n : Nat} {s : Tail} (hs : t.Reaches m s) :
    max m ((Ask.take n s).reach vs.length) ≤ m + n := by
  have hdepth := hs.2.1
  simp only [Ask.reach]
  omega

theorem Holds.after {a : Ask} {q : Promise} (hq : t.Holds m q) (hreach : a.reach vs.length ≤ vs.length + 1) :
    t.Holds (max m (a.reach vs.length)) (t.after a q) := by
  have hlast : ∀ {q : Prop}, q ∧ m = vs.length + 1 → q ∧ max m (a.reach vs.length) = vs.length + 1 :=
    fun h => ⟨h.1, by omega⟩
  refine ⟨Nat.max_le.2 ⟨hq.stage, hreach⟩, ?_, ?_⟩
  · cases a with
    | rest => exact .inr ⟨rfl, Nat.max_eq_right hq.stage⟩
    | _ => exact hq.rest.imp_right hlast
  · cases a with
    | ending => exact .inr ⟨rfl, Nat.max_eq_right hq.stage⟩
    | _ => exact hq.finish.imp_right hlast

/-- A tail that a demand gives is one that the walk has come to. -/
theorem reaches_reply (m : Nat) (a : Ask) :
    ∀ s ∈ Reply.tails (t.reply a), t.Reaches (max m (a.reach vs.length)) s := by
  intro s hs
  have hreading : ∀ r : Reply, Reply.tails (.ok r) = [] → Reply.tails (e.reading r) = [] := by
    intro r hr
    unfold ListEnd.reading
    cases e.fault? with
    | some fault => rfl
    | none => exact hr
  cases a with
  | uncons s₀ =>
    rw [reply] at hs
    cases hv : vs[s₀.depth]? with
    | some v =>
      rw [hv] at hs
      cases List.mem_singleton.1 hs
      have hlt : s₀.depth < vs.length := (List.getElem?_eq_some_iff.1 hv).1
      exact ⟨rfl, Nat.le_max_right _ _, hlt⟩
    | none =>
      rw [hv] at hs
      dsimp only at hs
      rw [hreading (.cell none) rfl] at hs
      cases hs
  | take n s₀ =>
    rw [reply] at hs
    split at hs
    · cases hs
    · rw [hreading (.items _) rfl] at hs
      cases hs
  | toArray s₀ =>
    rw [reply, hreading (.items _) rfl] at hs
    cases hs
  | rest => cases hs
  | ending => cases hs

/-- What holds after any demands: the world is that of the walk as far as they reach, and each of them came to what it comes
to at any stage. -/
structure Visited (asks : Asks) (tails : List Tail) (q : Promise) (w' : World) : Prop where
  world : w' = t.world (asks.reach vs.length)
  holds : t.Holds (asks.reach vs.length) q
  tails : ∀ s ∈ tails, t.Reaches (asks.reach vs.length) s
  replies : ∀ a x, (a, x) ∈ asks → x = t.reply a

theorem visited {asks : Asks} {q : Promise} {w' : World} (h : Visit env i w asks tails q w') :
    t.Visited asks tails q w' := by
  induction h with
  | start hq =>
    cases hq
    refine ⟨t.world_zero.symm, ⟨Nat.zero_le _, .inl rfl, .inl rfl⟩, fun s hs => ?_, nofun⟩
    cases List.mem_singleton.1 hs
    exact ⟨t.node_zero.symm, Nat.le_refl _, Nat.zero_le _⟩
  | @ask asks tails q q' w₁ w' a x _ ha hmeets ih =>
    obtain ⟨rfl, hq, htails, hreplies⟩ := ih
    obtain ⟨rfl, rfl, rfl⟩ := (t.meets_iff hq htails ha).1 hmeets
    have hreach : Asks.reach vs.length ((a, t.reply a) :: asks) = max (asks.reach vs.length) (a.reach vs.length) := rfl
    refine ⟨rfl, hq.after t (t.reach_le htails ha), fun s hs => ?_, fun a' x' hmem => ?_⟩
    · rcases List.mem_append.1 hs with hs | hs
      · exact t.reaches_reply _ a s hs
      · exact (htails s hs).mono t (Nat.le_max_left _ _)
    · rcases List.mem_cons.1 hmem with heq | hmem
      · cases heq
        rfl
      · exact hreplies a' x' hmem

end Trail

/-- A list that was walked to its end is read node by node. -/
theorem reads_of_walk {n fuel i : Nat} {done vs : List Value} {e : ListEnd} {w w' : World}
    (h : walk (node env n) fuel i done w = (.ok (vs, e), w')) :
    ∃ vs', vs = done.reverse ++ vs' ∧ Reads (nodeAt env) i w vs' (.ok e) w' := by
  induction fuel generalizing i done w with
  | zero => cases h
  | succ fuel ih =>
    obtain ⟨x, w₁, hx, hrest⟩ := Run.bind_eq_ok h
    have hnode : nodeAt env i w = some (.ok x, w₁) := (Run.limit_eq_some (steady_node env i)).2 ⟨n, hx⟩
    cases x with
    | ended e' =>
      cases hrest
      exact ⟨[], (List.append_nil _).symm, .ended hnode⟩
    | item v next =>
      obtain ⟨vs', rfl, hreads⟩ := ih hrest
      refine ⟨v :: vs', ?_, .item hnode hreads⟩
      rw [List.reverse_cons, List.append_assoc]
      rfl

/-- **A list can be read in any order.** Where the list of a parser can be walked to its end, there is one walk such that
after any demands on the list, by any readers and in any order, the world is that of this walk up to the furthest item that
was asked for. So each item is parsed once, with all that its parser does. Each demand comes to what the items of the walk
say, whatever was asked before: the items from a tail on, some of them, the end of the list, or the failure in which it ends.
Every further demand is met as well, and one for `n` items parses `n` items at most. -/
theorem read_in_any_order {z : Context} {i : Nat} {w w₁ w₂ : World} {vs : List Value} {e : ListEnd}
    (hlist : Ends (fun n => (means env n).fresh (.stream p) z) w (.ok (.ofList i)) w₁)
    (hwalk : Ends (fun n => (means env n).lists.walk i) w₁ (.ok (vs, e)) w₂) :
    ∃ t : Trail env p i w₁ vs e, t.world (vs.length + 1) = w₂ ∧
      ∀ asks tails q w', Visit env i w₁ asks tails q w' →
        w' = t.world (asks.reach vs.length) ∧
        (∀ a x, (a, x) ∈ asks → x = t.reply a) ∧
        (∀ a : Ask, a.On tails → ∃ q',
          a.Meets env q w' (t.reply a) q' (t.world (max (asks.reach vs.length) (a.reach vs.length)))) ∧
        ∀ n, ∀ s ∈ tails, max (asks.reach vs.length) ((Ask.take n s).reach vs.length) ≤ asks.reach vs.length + n := by
  have hanswer : answer env (.apply (.stream p) z) w = some (.ok (.ofList i), w₁) :=
    (Run.limit_eq_some (steady_answer env _)).2 hlist
  rw [answer_stream] at hanswer
  obtain ⟨j, w₀, hmake, hanswer⟩ := Course.bind_eq_ok hanswer
  obtain ⟨n, hn⟩ := hwalk
  obtain ⟨vs', rfl, hreads⟩ := reads_of_walk hn
  cases hmake
  cases hanswer
  obtain ⟨t, ht⟩ := hreads.trail (w.makeList_waits ⟨p, z, false⟩)
  refine ⟨t, ht, fun asks tails q w' hvisit => ?_⟩
  obtain ⟨rfl, hq, htails, hreplies⟩ := t.visited hvisit
  refine ⟨rfl, hreplies, fun a ha => ⟨_, (t.meets_iff hq htails ha).2 ⟨rfl, rfl, rfl⟩⟩, fun n s hs => ?_⟩
  exact t.reach_take_le (htails s hs)

theorem read_in_any_order_next : ∃ i w₁ e, ∃ t : Trail ((Engine.lazy false).env (fun _ => .fail "") {}) .next i w₁
      [.text "a", .text "b"] e,
    ∀ asks tails q w', Visit ((Engine.lazy false).env (fun _ => .fail "") {}) i w₁ asks tails q w' →
      w' = t.world (asks.reach 2) ∧ ∀ x, (Ask.take 1 ⟨0, i⟩, x) ∈ asks → x = .ok (.items [.text "a"]) := by
  have hlist : Ends (fun n => (means ((Engine.lazy false).env (fun _ => .fail "") {}) n).fresh (.stream .next)
      ⟨.ofList [.text "a", .text "b"], .absent⟩) {} (.ok (.ofList (nodeNumber 0 0)))
      (Means.makeList ⟨.next, ⟨.ofList [.text "a", .text "b"], .absent⟩, false⟩ {}).2 := ⟨3, rfl⟩
  have hwalk : Ends (fun n => (means ((Engine.lazy false).env (fun _ => .fail "") {}) n).lists.walk (nodeNumber 0 0))
      (Means.makeList ⟨.next, ⟨.ofList [.text "a", .text "b"], .absent⟩, false⟩ {}).2
      (.ok ([.text "a", .text "b"], ⟨⟨.tokens [] 2, .absent⟩, .plain⟩)) _ := ⟨20, rfl⟩
  obtain ⟨t, -, hvisits⟩ := read_in_any_order hlist hwalk
  refine ⟨_, _, _, t, fun asks tails q w' hvisit => ?_⟩
  obtain ⟨hworld, hreplies, -⟩ := hvisits asks tails q w' hvisit
  exact ⟨hworld, fun x hx => hreplies _ x hx⟩

end OnDemand

end CommittedChoice
