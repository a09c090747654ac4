import CommittedChoice.Proofs.Readers

/-!
# Leading items of a list

A list need not have an end that can be reached: its input may go on for ever, and the parser of a later item may stop with
a fault or not stop at all. Its leading items are fixed as soon as they can be read one after the other. Whatever is asked
of the list before or after, be it answered or not, they are the same whenever they are given.

- `OnDemand.Stretch`: leading items of a list, with the nodes before them and the worlds in which these are read first;
- `Stretch.Reached`: what is known of the world after so many of these nodes. Once all of them are read, any later world
  will do;
- `Stretch.nodeAt_eq`, `Stretch.exec_take`, `Stretch.walkFrom_eq`: reading from one of the nodes on;
- `Stretch.gives_of_meets`: what a demand gives and where it leaves the reader; `Stretch.seen`: the same for a visit;
- `Stretch.meets_take`: leading items are given when they are asked for.
-/

namespace CommittedChoice.OnDemand

open Run (limit Steady Ends)

variable {env : Env}

/-! ## Items that were read before -/

/-- Items that were read before come first in what is read. -/
theorem takeFrom_done (n i : Nat) (done : List Value) :
    exec env (Act.takeFrom n i done) = exec env (Act.take n i) >>= fun us => pure (done.reverse ++ us) := by
  -- the induction is on the number of items, for any items before them
  rw [Act.take]
  induction n generalizing i done with
  | zero => rw [Act.takeFrom, Act.takeFrom, exec_pure, exec_pure, pure_bind, List.reverse_nil, List.append_nil]
  | succ n ih =>
    rw [Act.takeFrom, Act.takeFrom, exec_node, exec_node, bind_assoc]
    refine bind_congr fun x => ?_
    cases x with
    | item v next =>
      dsimp only
      rw [ih next (v :: done), ih next [v], bind_assoc]
      simp only [pure_bind, List.reverse_cons, List.reverse_nil, List.nil_append, List.append_assoc]
    | ended e =>
      dsimp only
      cases e.fault? with
      | some fault => rw [exec_throw]; rfl
      | none => rw [exec_pure, exec_pure, pure_bind, List.reverse_nil, List.append_nil]

theorem walk_done (node : Nat → Run Node) (fuel i : Nat) (done : List Value) :
    walk node fuel i done = walk node fuel i [] >>= fun x => pure (done.reverse ++ x.1, x.2) := by
  induction fuel generalizing i done with
  | zero => rfl
  | succ fuel ih =>
    show (node i >>= _) = (node i >>= _) >>= _
    rw [bind_assoc]
    refine bind_congr fun x => ?_
    cases x with
    | item v next =>
      dsimp only
      rw [ih next (v :: done), ih next [v], bind_assoc]
      simp only [pure_bind, List.reverse_cons, List.reverse_nil, List.nil_append, List.append_assoc]
    | ended e => simp only [pure_bind, List.reverse_nil, List.append_nil]

theorem walkFrom_done (i : Nat) (done : List Value) :
    walkFrom env i done = walkFrom env i [] >>= fun x => pure (done.reverse ++ x.1, x.2) := by
  unfold walkFrom
  rw [funext fun n => walk_done (node env n) n i done]
  exact Run.limit_bind_const (fun n => (means_le env n).walk i) _

theorem exec_before {α : Type} {act : Act α} {w w' : World} {x : Except Fault α} (h : exec env act w = some (x, w')) :
    w.Before w' := by
  rw [← late_later] at h
  exact late_before h

theorem walkFrom_before {i : Nat} {w w' : World} {x : Except Fault (List Value × ListEnd)}
    (h : walkFrom env i [] w = some (x, w')) : w.Before w' :=
  Run.Grows.limit (fun n => (means_grows env n).walk i) (fun n => (means_le env n).walk i) h

/-! ## Leading items -/

/-- Leading items of the list at node `i`, read one after the other from the world `w` on: the node after each number of
items, and the world in which it is read. -/
structure Stretch (env : Env) (i : Nat) (w : World) (vs : List Value) where
  node : Nat → Nat
  world : Nat → World
  node_zero : node 0 = i
  world_zero : world 0 = w
  item : ∀ k v, vs[k]? = some v → nodeAt env (node k) (world k) = some (.ok (.item v (node (k + 1))), world (k + 1))

/-- No items. -/
def Stretch.nil (i : Nat) (w : World) : Stretch env i w [] := ⟨fun _ => i, fun _ => w, rfl, rfl, nofun⟩

/-- One item, and then others. -/
def Stretch.cons {i next : Nat} {w w₁ : World} {v : Value} {vs : List Value}
    (h : nodeAt env i w = some (.ok (.item v next), w₁)) (t : Stretch env next w₁ vs) : Stretch env i w (v :: vs) where
  node
    | 0 => i
    | n + 1 => t.node n
  world
    | 0 => w
    | n + 1 => t.world n
  node_zero := rfl
  world_zero := rfl
  item k v' hv' := by
    cases k with
    | zero =>
      cases hv'
      dsimp only
      rw [t.node_zero, t.world_zero]
      exact h
    | succ k => exact t.item k v' hv'

/-- The items of a list that was walked along to its end. -/
def Trail.stretch {p : Parser} {i : Nat} {w : World} {vs : List Value} {e : ListEnd} (t : Trail env p i w vs e) :
    Stretch env i w vs :=
  ⟨t.node, t.world, t.node_zero, t.world_zero, t.item⟩

/-- Items that are all there when they are asked for are read one after the other. -/
theorem exists_stretch {n i : Nat} {w w' : World} {vs : List Value}
    (h : exec env (Act.take n i) w = some (.ok vs, w')) (hvs : vs.length = n) : Nonempty (Stretch env i w vs) := by
  rw [Act.take] at h
  induction n generalizing i w vs with
  | zero =>
    cases List.length_eq_zero_iff.1 hvs
    exact ⟨.nil i w⟩
  | succ n ih =>
    rw [Act.takeFrom, exec_node] at h
    obtain ⟨x, w₁, hx, h⟩ := Course.bind_eq_ok h
    cases x with
    | item v next =>
      dsimp only at h
      rw [takeFrom_done] at h
      obtain ⟨us, w₂, hus, h⟩ := Course.bind_eq_ok h
      cases h
      obtain ⟨t⟩ := ih hus (Nat.succ.inj hvs)
      exact ⟨t.cons hx⟩
    | ended e =>
      have hreading := h.symm.trans (Trail.exec_reading [] w₁)
      rw [ListEnd.reading] at hreading
      cases hfault : e.fault? with
      | some fault => rw [hfault] at hreading; cases hreading
      | none => rw [hfault] at hreading; cases hreading; cases hvs

/-- The tail at depth `d` gives these items as far as they are leading items `vs` of the list. -/
def Agrees (vs : List Value) (d : Nat) (us : List Value) : Prop :=
  ∀ j v, us[j]? = some v → d + j < vs.length → vs[d + j]? = some v

theorem Agrees.nil (vs : List Value) (d : Nat) : Agrees vs d [] := nofun

theorem Agrees.of_le {vs : List Value} {d : Nat} (h : vs.length ≤ d) (us : List Value) : Agrees vs d us :=
  fun _ _ _ hlt => absurd (Nat.lt_of_le_of_lt (Nat.le_add_right _ _) hlt) (Nat.not_lt.2 h)

/-- Leading items from `d` on and then others, which come after all of `vs` if there are any. -/
theorem Agrees.append {vs us : List Value} {d n : Nat} (h : us = [] ∨ vs.length ≤ d + n) :
    Agrees vs d ((vs.drop d).take n ++ us) := by
  intro j v hv hlt
  rcases Nat.lt_or_ge j ((vs.drop d).take n).length with hj | hj
  · rw [List.getElem?_append_left hj, List.getElem?_take_of_lt, List.getElem?_drop] at hv
    · exact hv
    · exact Nat.lt_of_lt_of_le hj (List.length_take_le _ _)
  · rw [List.getElem?_append_right hj] at hv
    rcases h with rfl | hall
    · cases hv
    · rw [List.length_take, List.length_drop] at hj
      omega

namespace Stretch

variable {i : Nat} {w : World} {vs : List Value} (t : Stretch env i w vs)

/-! ## Reading at some stage -/

/-- The world after `m` of the nodes. Once all of them are read, it may be any later one. -/
structure Reached (m : Nat) (w' : World) : Prop where
  le : m ≤ vs.length
  before : (t.world m).Before w'
  world : m < vs.length → w' = t.world m

theorem reached_zero : t.Reached 0 w :=
  ⟨Nat.zero_le _, by rw [t.world_zero]; exact .refl _, fun _ => t.world_zero.symm⟩

variable {m : Nat} {w₁ w' : World}

theorem Reached.later (h : t.Reached vs.length w₁) (hbefore : w₁.Before w') : t.Reached vs.length w' :=
  ⟨h.le, h.before.trans hbefore, fun hlt => absurd hlt (Nat.lt_irrefl _)⟩

/-- Each node leads to the next world. -/
theorem nodeAt_next {k : Nat} (hk : k < vs.length) :
    nodeAt env (t.node k) (t.world k) = some (.ok (.item vs[k] (t.node (k + 1))), t.world (k + 1)) :=
  t.item k _ (List.getElem?_eq_getElem hk)

/-- The worlds come one after the other. -/
theorem world_before {k : Nat} (hkm : k ≤ m) (hm : m ≤ vs.length) : (t.world k).Before (t.world m) := by
  induction m, hkm using Nat.le_induction with
  | base => exact .refl _
  | succ m _ ih =>
    exact (ih (Nat.le_of_succ_le hm)).trans
      (Run.Grows.limit (fun n => (means_grows env n).node _) (steady_node env _) (t.nodeAt_next hm))

/-- **A node is read alike at all stages.** -/
theorem nodeAt_eq {d : Nat} (h : t.Reached m w₁) (hdm : d ≤ m) (hd : d < vs.length) :
    ∃ w', nodeAt env (t.node d) w₁ = some (.ok (.item vs[d] (t.node (d + 1))), w') ∧ t.Reached (max m (d + 1)) w' := by
  have hnode := t.nodeAt_next hd
  rcases Nat.lt_or_eq_of_le hdm with hlt | rfl
  · obtain ⟨n, hn⟩ := (Run.limit_eq_some (steady_node env _)).1 hnode
    have hcell := ((t.world_before hlt h.le).trans h.before).cell (cell_of_node hn)
    rw [Nat.max_eq_left hlt]
    exact ⟨w₁, nodeAt_of_cell hcell, h⟩
  · cases h.world hd
    rw [Nat.max_eq_right (Nat.le_succ d)]
    exact ⟨_, hnode, hd, .refl _, fun _ => rfl⟩

/-- Leading items from a node on, and then others. -/
theorem exec_take {n d : Nat} (k : Nat) (h : t.Reached m w₁) (hdm : d ≤ m) (hn : d + n ≤ vs.length) :
    ∃ w', t.Reached (max m (d + n)) w' ∧ exec env (Act.take (n + k) (t.node d)) w₁ =
      (exec env (Act.take k (t.node (d + n))) >>= fun us => pure ((vs.drop d).take n ++ us)) w' := by
  induction n generalizing d m w₁ with
  | zero =>
    rw [Nat.add_zero, Nat.max_eq_left hdm]
    refine ⟨w₁, h, ?_⟩
    rw [Nat.zero_add, List.take_zero]
    exact congrFun (bind_pure _).symm w₁
  | succ n ih =>
    have hd : d < vs.length := by omega
    obtain ⟨w₂, hnode, h₂⟩ := t.nodeAt_eq h hdm hd
    obtain ⟨w', h', hexec⟩ := ih h₂ (Nat.le_max_right m (d + 1)) (by omega)
    have hstage : max (max m (d + 1)) (d + 1 + n) = max m (d + (n + 1)) := by omega
    have hnext : d + (n + 1) = d + 1 + n := by omega
    have hdrop : vs.drop d = vs[d] :: vs.drop (d + 1) := List.drop_eq_getElem_cons hd
    refine ⟨w', hstage ▸ h', ?_⟩
    rw [show n + 1 + k = n + k + 1 by omega, Act.take, Act.takeFrom, exec_node, Course.bind_of_ok hnode]
    dsimp only
    rw [takeFrom_done, Course.bind_apply, hexec, ← Course.bind_apply, bind_assoc, hnext, hdrop]
    simp only [pure_bind]
    rfl

/-- All leading items from a node on, and then the rest of the list. -/
theorem walkFrom_eq {d : Nat} (h : t.Reached m w₁) (hdm : d ≤ m) (hd : d ≤ vs.length) :
    ∃ w', t.Reached vs.length w' ∧ walkFrom env (t.node d) [] w₁ =
      (walkFrom env (t.node vs.length) [] >>= fun x => pure (vs.drop d ++ x.1, x.2)) w' := by
  -- the induction is on the number of leading items that are left
  induction hleft : vs.length - d generalizing d m w₁ with
  | zero =>
    obtain rfl : d = vs.length := by omega
    obtain rfl : m = vs.length := Nat.le_antisymm h.le hdm
    refine ⟨w₁, h, ?_⟩
    rw [List.drop_length]
    exact congrFun (bind_pure _).symm w₁
  | succ left ih =>
    have hlt : d < vs.length := by omega
    obtain ⟨w₂, hnode, h₂⟩ := t.nodeAt_eq h hdm hlt
    obtain ⟨w', h', hwalk⟩ := ih h₂ (Nat.le_max_right m (d + 1)) hlt (by omega)
    have hdrop : vs.drop d = vs[d] :: vs.drop (d + 1) := List.drop_eq_getElem_cons hlt
    refine ⟨w', h', ?_⟩
    rw [OnDemand.walkFrom_eq, Course.bind_of_ok hnode]
    dsimp only
    rw [walkFrom_done, Course.bind_apply, hwalk, ← Course.bind_apply, bind_assoc, hdrop]
    simp only [pure_bind]
    rfl

/-- Reading the whole list goes through all leading items. -/
theorem Reached.walked {x : Except Fault (List Value × ListEnd)} {d : Nat} (h : t.Reached m w₁) (hdm : d ≤ m)
    (hd : d ≤ vs.length) (hwalk : walkFrom env (t.node d) [] w₁ = some (x, w')) :
    t.Reached vs.length w' ∧ ∀ us e, x = .ok (us, e) → ∃ us', us = vs.drop d ++ us' := by
  obtain ⟨w₂, h₂, heq⟩ := t.walkFrom_eq h hdm hd
  rw [heq] at hwalk
  obtain ⟨⟨us', e'⟩, w₃, hus', hx⟩ | ⟨fault, w₃, hfault, hx⟩ := Course.bind_eq_some hwalk
  · cases hx
    refine ⟨h₂.later t (walkFrom_before hus'), ?_⟩
    rintro us e ⟨⟩
    exact ⟨us', rfl⟩
  · cases hx
    exact ⟨h₂.later t (walkFrom_before hfault), nofun⟩

/-- So does asking for the end of the list. -/
theorem Reached.ended {α : Type} {f : ListEnd → α} {y : Except Fault α} (h : t.Reached m w₁)
    (hend : exec env (do return f (← Act.endOf i)) w₁ = some (y, w')) : t.Reached vs.length w' := by
  rw [exec_bind, Act.endOf, exec_walk, bind_assoc, ← t.node_zero] at hend
  obtain ⟨x, w₂, hwalk, hend⟩ | ⟨fault, w₂, hwalk, hend⟩ := Course.bind_eq_some hend
  · rw [exec_pure, pure_bind] at hend
    change exec env (.pure _) w₂ = _ at hend
    rw [exec_pure] at hend
    cases hend
    exact (h.walked t (Nat.zero_le m) (Nat.zero_le _) hwalk).1
  · cases hend
    exact (h.walked t (Nat.zero_le m) (Nat.zero_le _) hwalk).1

/-- Items that are all among the leading ones are given. -/
theorem exec_take_within {n d : Nat} (h : t.Reached m w₁) (hdm : d ≤ m) (hn : d + n ≤ vs.length) :
    ∃ w', t.Reached (max m (d + n)) w' ∧ exec env (Act.take n (t.node d)) w₁ = some (.ok ((vs.drop d).take n), w') := by
  obtain ⟨w', h', hexec⟩ := t.exec_take 0 h hdm hn
  refine ⟨w', h', hexec.trans ?_⟩
  rw [show Act.take 0 _ = .pure [] from rfl, exec_pure, pure_bind, List.append_nil]
  rfl

end Stretch

/-! ## Demands at some stage -/

/-- The depth from which a demand gives items. -/
def Ask.depth : Ask → Nat
  | .uncons t | .take _ t | .toArray t => t.depth
  | .rest | .ending => 0

/-- The items that are given. -/
def Reply.given : Reply → List Value
  | .cell (some (v, _)) => [v]
  | .items vs => vs
  | _ => []

/-- A demand that reads a list does what is read. -/
theorem reading_of_meets {α : Type} {act : Act α} {g : α → Reply} {q q' : Promise} {w w' : World} {x : Except Fault Reply}
    (h : ∃ n, (Hold.lift do return g (← (means env n).exec act) : Hold Promise Reply) q w =
      (x.mapError .fault, q', w')) : ∃ y, exec env act w = some (y, w') ∧ x = y.map g ∧ q' = q := by
  obtain ⟨n, hn⟩ := h
  have hsteady : Steady fun n => (do return g (← (means env n).exec act) : Run Reply) :=
    .bind (steady_exec env act) fun _ => .const _
  have hlimit := (Run.limit_eq_some hsteady).2 ⟨n, (lift_eq_iff.1 hn).1⟩
  rw [Run.limit_bind_const (steady_exec env act)] at hlimit
  have hends : ∃ b, exec env act w = some b := by
    obtain ⟨a, w₁, ha, -⟩ | ⟨e, w₁, he, -⟩ := Course.bind_eq_some hlimit
    · exact ⟨_, ha⟩
    · exact ⟨_, he⟩
  obtain ⟨⟨y, w₁⟩, hy⟩ := hends
  obtain ⟨hx, hq, rfl⟩ := (meets_lift_iff hy).1 ⟨n, hn⟩
  exact ⟨y, hy, hx, hq⟩

/-- Something of the end of list `i`, which is still to be walked to or is known. -/
def Late.AtEnd (i : Nat) {α : Type} (l : Late α) : Prop :=
  (∃ f : ListEnd → α, l = .later (do return f (← Act.endOf i))) ∨ ∃ a, l = .known a

theorem Late.AtEnd.force {i n : Nat} {α : Type} {l l' : Late α} {w w' : World} {r : Except Halt α} (h : l.AtEnd i)
    (hl : l.force env (means env n).lists w = (r, l', w')) : l'.AtEnd i := by
  obtain ⟨f, rfl⟩ | ⟨a, rfl⟩ := h
  · rw [Late.force] at hl
    split at hl <;> cases hl
    · exact .inr ⟨_, rfl⟩
    · exact .inl ⟨f, rfl⟩
  · cases hl
    exact .inr ⟨a, rfl⟩

/-- The success in hand is that of list `i`. -/
structure Promise.Awaits (i : Nat) (q : Promise) : Prop where
  rest : q.rest.AtEnd i
  finish : ∃ l, q.finish = some l ∧ l.AtEnd i

namespace Stretch

variable {i : Nat} {w : World} {vs : List Value} (t : Stretch env i w vs) {m : Nat} {w₁ w' : World}

/-- The tail begins at one of the nodes, or after all of them. -/
structure Follows (m : Nat) (s : Tail) : Prop where
  node : s.depth < vs.length → s.node = t.node s.depth
  stage : min s.depth vs.length ≤ m

theorem Follows.mono {m' : Nat} {s : Tail} (h : t.Follows m s) (hm : m ≤ m') : t.Follows m' s :=
  ⟨h.node, Nat.le_trans h.stage hm⟩

/-- What a demand from depth `d` on gives, and where it leaves the reader: the leading items are what they are, and no node
that was read before is read again. -/
structure Gives (m d : Nat) (x : Except Fault Reply) (w' : World) : Prop where
  stage : ∃ m', m ≤ m' ∧ t.Reached m' w' ∧ ∀ s ∈ Reply.tails x, t.Follows m' s
  items : ∀ r, x = .ok r → Agrees vs d r.given

/-- Whatever is read after all of the nodes. -/
theorem gives_of_le {α : Type} {act : Act α} {g : α → Reply} {y : Except Fault α} {s : Tail} (h : t.Reached m w₁)
    (hs : t.Follows m s) (hle : vs.length ≤ s.depth) (hexec : exec env act w₁ = some (y, w'))
    (htails : ∀ a, ∀ s' ∈ Reply.tails (.ok (g a)), s.depth ≤ s'.depth) : t.Gives m s.depth (y.map g) w' := by
  obtain rfl : m = vs.length := Nat.le_antisymm h.le (Nat.min_eq_right hle ▸ hs.stage)
  refine ⟨⟨_, Nat.le_refl _, h.later t (exec_before hexec), fun s' hs' => ?_⟩, fun _ _ => .of_le hle _⟩
  cases y with
  | error e => cases hs'
  | ok a =>
    have hdepth := Nat.le_trans hle (htails a s' hs')
    exact ⟨fun hlt => absurd hlt (Nat.not_lt.2 hdepth), Nat.min_le_right _ _⟩

/-- Items that are given, but no tail. -/
theorem gives_items {m' d : Nat} {y : Except Fault (List Value)} (hm : m ≤ m') (h : t.Reached m' w')
    (hitems : ∀ us, y = .ok us → Agrees vs d us) : t.Gives m d (y.map .items) w' := by
  refine ⟨⟨m', hm, h, fun s hs => ?_⟩, fun r hr => ?_⟩
  · cases y <;> cases hs
  · cases y with
    | error e => cases hr
    | ok us => cases hr; exact hitems us rfl

theorem gives_uncons {s : Tail} {y : Except Fault (Option (Value × Nat))} (h : t.Reached m w₁) (hs : t.Follows m s)
    (hexec : exec env (Act.uncons s.node) w₁ = some (y, w')) :
    t.Gives m s.depth (y.map fun c => .cell (c.map fun c => (c.1, ⟨s.depth + 1, c.2⟩))) w' := by
  rcases Nat.lt_or_ge s.depth vs.length with hlt | hle
  · obtain ⟨w₂, hnode, h₂⟩ := t.nodeAt_eq h (Nat.min_eq_left hlt.le ▸ hs.stage) hlt
    rw [Act.uncons, hs.node hlt, exec_node, Course.bind_of_ok hnode] at hexec
    dsimp only at hexec
    rw [exec_pure] at hexec
    cases hexec
    refine ⟨⟨_, Nat.le_max_left _ _, h₂, fun s' hs' => ?_⟩, ?_⟩
    · cases List.mem_singleton.1 hs'
      exact ⟨fun _ => rfl, Nat.le_trans (Nat.min_le_left _ _) (Nat.le_max_right _ _)⟩
    · rintro r ⟨⟩ j v hv hj
      cases j with
      | zero => cases hv; exact List.getElem?_eq_getElem hlt
      | succ j => cases hv
  · refine t.gives_of_le h hs hle hexec fun c s' hs' => ?_
    cases c with
    | none => cases hs'
    | some c => cases List.mem_singleton.1 hs'; exact Nat.le_succ _

theorem gives_take {n : Nat} {s : Tail} {y : Except Fault (List Value)} (h : t.Reached m w₁) (hs : t.Follows m s)
    (hexec : exec env (Act.take n s.node) w₁ = some (y, w')) : t.Gives m s.depth (y.map .items) w' := by
  rcases Nat.lt_or_ge s.depth vs.length with hlt | hle
  · have hdm : s.depth ≤ m := Nat.min_eq_left hlt.le ▸ hs.stage
    rw [hs.node hlt] at hexec
    rcases Nat.lt_or_ge vs.length (s.depth + n) with hbeyond | hwithin
    · -- all leading items from the tail on, and then others
      obtain ⟨k, hk⟩ : ∃ k, n = (vs.length - s.depth) + k := ⟨n - (vs.length - s.depth), by omega⟩
      have hlength : s.depth + (vs.length - s.depth) = vs.length := by omega
      have hm : max m vs.length = vs.length := Nat.max_eq_right h.le
      obtain ⟨w₂, h₂, heq⟩ := t.exec_take k h hdm hlength.le
      rw [hlength, hm] at h₂
      rw [hk, heq] at hexec
      obtain ⟨us, w₃, hus, hexec⟩ | ⟨fault, w₃, hfault, hexec⟩ := Course.bind_eq_some hexec
      · cases hexec
        refine t.gives_items h.le (h₂.later t (exec_before hus)) ?_
        rintro _ ⟨⟩
        exact .append (.inr hlength.ge)
      · cases hexec
        exact t.gives_items h.le (h₂.later t (exec_before hfault)) nofun
    · obtain ⟨w₂, h₂, heq⟩ := t.exec_take_within h hdm hwithin
      rw [heq] at hexec
      cases hexec
      refine t.gives_items (Nat.le_max_left _ _) h₂ ?_
      rintro _ ⟨⟩
      rw [← List.append_nil (List.take _ _)]
      exact .append (.inl rfl)
  · exact t.gives_of_le h hs hle hexec nofun

theorem gives_toArray {s : Tail} {y : Except Fault (List Value)} (h : t.Reached m w₁) (hs : t.Follows m s)
    (hexec : exec env (Act.toArray s.node) w₁ = some (y, w')) : t.Gives m s.depth (y.map .items) w' := by
  rcases Nat.lt_or_ge s.depth vs.length with hlt | hle
  · rw [Act.toArray, hs.node hlt, exec_walk] at hexec
    have hdm : s.depth ≤ m := Nat.min_eq_left hlt.le ▸ hs.stage
    obtain ⟨⟨us, e⟩, w₂, hwalk, hexec⟩ | ⟨fault, w₂, hwalk, hexec⟩ := Course.bind_eq_some hexec
    · obtain ⟨h₂, hus⟩ := h.walked t hdm hlt.le hwalk
      obtain ⟨us', rfl⟩ := hus us e rfl
      cases (Trail.exec_reading _ w₂).symm.trans hexec
      refine t.gives_items h.le h₂ fun us'' hus'' => ?_
      rw [ListEnd.reading] at hus''
      cases hfault : e.fault? with
      | some fault => rw [hfault] at hus''; cases hus''
      | none =>
        rw [hfault] at hus''
        cases hus''
        rw [← List.take_of_length_le (l := vs.drop s.depth) (Nat.le_refl _)]
        exact .append (.inr (by rw [List.length_drop]; omega))
    · cases hexec
      exact t.gives_items h.le (h.walked t hdm hlt.le hwalk).1 fun _ hus => by cases hus
  · exact t.gives_of_le h hs hle hexec fun _ _ hs => absurd hs List.not_mem_nil

/-- Forcing something of the end of the list. -/
theorem reached_force {n : Nat} {α : Type} {l l' : Late α} {y : Except Fault α} (h : t.Reached m w₁) (hl : l.AtEnd i)
    (hforce : l.force env (means env n).lists w₁ = (y.mapError .fault, l', w')) : ∃ m', m ≤ m' ∧ t.Reached m' w' := by
  obtain ⟨f, rfl⟩ | ⟨a, rfl⟩ := hl
  · have hlate := late_of_force hforce
    rw [late_later] at hlate
    exact ⟨_, h.le, h.ended t hlate⟩
  · cases (Prod.mk.inj (Prod.mk.inj hforce).2).2
    exact ⟨m, Nat.le_refl m, h⟩

/-- **What a demand gives at some stage,** be it met or stopped by a fault. -/
theorem gives_of_meets {a : Ask} {x : Except Fault Reply} {q q' : Promise} {tails : List Tail} (h : t.Reached m w₁)
    (hq : q.Awaits i) (htails : ∀ s ∈ tails, t.Follows m s) (ha : a.On tails) (hmeets : a.Meets env q w₁ x q' w') :
    t.Gives m a.depth x w' ∧ q'.Awaits i := by
  cases a with
  | uncons s =>
    obtain ⟨y, hexec, rfl, rfl⟩ := reading_of_meets hmeets
    exact ⟨t.gives_uncons h (htails s ha) hexec, hq⟩
  | take n s =>
    obtain ⟨y, hexec, rfl, rfl⟩ := reading_of_meets hmeets
    exact ⟨t.gives_take h (htails s ha) hexec, hq⟩
  | toArray s =>
    obtain ⟨y, hexec, rfl, rfl⟩ := reading_of_meets hmeets
    exact ⟨t.gives_toArray h (htails s ha) hexec, hq⟩
  | rest =>
    obtain ⟨n, hn⟩ := hmeets
    obtain ⟨y, hy, rfl⟩ := Hold.map_cases hn
    unfold Promise.forceRest at hy
    rcases hl : q.rest.force (means env n).env (means env n).lists w₁ with ⟨r, l, w₂⟩
    rw [hl] at hy
    cases hy
    obtain ⟨m', hm, h'⟩ := t.reached_force h hq.rest hl
    refine ⟨⟨⟨m', hm, h', ?_⟩, ?_⟩, hq.rest.force hl, hq.finish⟩
    · cases y <;> exact nofun
    · cases y <;> rintro _ ⟨⟩
      exact .nil vs _
  | ending =>
    obtain ⟨n, hn⟩ := hmeets
    obtain ⟨y, hy, rfl⟩ := Hold.map_cases hn
    obtain ⟨l, hfinish, hend⟩ := hq.finish
    unfold Promise.disclose at hy
    rw [hfinish] at hy
    dsimp only at hy
    rcases hl : l.force (means env n).env (means env n).lists w₁ with ⟨r, l', w₂⟩
    rw [hl] at hy
    cases hy
    obtain ⟨m', hm, h'⟩ := t.reached_force h hend hl
    refine ⟨⟨⟨m', hm, h', ?_⟩, ?_⟩, hq.rest, l', rfl, hend.force hl⟩
    · cases y <;> exact nofun
    · cases y <;> rintro _ ⟨⟩
      exact .nil vs _

/-! ## Visits -/

/-- What holds after any demands. -/
structure Seen (asks : Asks) (tails : List Tail) (q : Promise) (w' : World) : Prop where
  stage : ∃ m, t.Reached m w' ∧ ∀ s ∈ tails, t.Follows m s
  awaits : q.Awaits i
  items : ∀ a r, (a, .ok r) ∈ asks → Agrees vs a.depth r.given

/-- **Leading items are the same in all visits.** -/
theorem seen {asks : Asks} {tails : List Tail} {q : Promise} (h : Visit env i w asks tails q w') :
    t.Seen asks tails q w' := by
  induction h with
  | start hq =>
    cases hq
    refine ⟨⟨0, t.reached_zero, fun s hs => ?_⟩, ⟨.inl ⟨_, rfl⟩, _, rfl, .inl ⟨_, rfl⟩⟩, nofun⟩
    cases List.mem_singleton.1 hs
    exact ⟨fun _ => t.node_zero.symm, Nat.min_le_left _ _⟩
  | @ask asks tails q q' w₁ w' a x _ ha hmeets ih =>
    obtain ⟨⟨m, hm, htails⟩, hq, hitems⟩ := ih
    obtain ⟨⟨⟨m', hle, hm', htails'⟩, hgiven⟩, hq'⟩ := t.gives_of_meets hm hq htails ha hmeets
    refine ⟨⟨m', hm', fun s hs => ?_⟩, hq', fun a' r hmem => ?_⟩
    · rcases List.mem_append.1 hs with hs | hs
      · exact htails' s hs
      · exact (htails s hs).mono t hle
    · rcases List.mem_cons.1 hmem with heq | hmem
      · cases heq
        exact hgiven r rfl
      · exact hitems a' r hmem

/-- Leading items are given when they are asked for, whatever was asked before. -/
theorem meets_take (t : Stretch env i w vs) {asks : Asks} {tails : List Tail} {q : Promise}
    (h : Visit env i w asks tails q w') {n : Nat} {s : Tail} (hs : s ∈ tails) (hn : s.depth + n ≤ vs.length) :
    ∃ w'', (Ask.take n s).Meets env q w' (.ok (.items ((vs.drop s.depth).take n))) q w'' := by
  obtain ⟨⟨m, hm, htails⟩, -, -⟩ := t.seen h
  have hfollows := htails s hs
  rcases Nat.eq_zero_or_pos n with rfl | hpos
  · have hexec : exec env (Act.take 0 s.node) w' = some (.ok [], w') := congrFun (exec_pure _) w'
    exact ⟨w', (meets_lift_iff hexec).2 ⟨rfl, rfl, rfl⟩⟩
  · have hlt : s.depth < vs.length := by omega
    obtain ⟨w'', -, hexec⟩ := t.exec_take_within hm (Nat.min_eq_left hlt.le ▸ hfollows.stage) hn
    rw [← hfollows.node hlt] at hexec
    exact ⟨w'', (meets_lift_iff hexec).2 ⟨rfl, rfl, rfl⟩⟩

end Stretch

end CommittedChoice.OnDemand
