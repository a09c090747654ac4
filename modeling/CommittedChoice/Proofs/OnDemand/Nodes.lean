import CommittedChoice.Proofs.OnDemand.Reveal

/-!
# Nodes of lists

What reading a list comes to with enough fuel.

- `nodeOf`: the node that an item makes, in terms of what the item parser reveals (`limit_computeNode`);
- `nodeAt`: one node of a list. A node that waits is computed and kept (`nodeAt_pending`);
- `walkFrom`: a list to its end, one node after the other (`walkFrom_eq`);
- `reveal_stream`: a list reveals where it ends only by being read to its end;
- `Reads`: a list read node by node, its items and its end, from which walks (`Reads.walkFrom`) and the readers of items
  (`Reads.fuel`) follow.
-/

namespace CommittedChoice.OnDemand

open Run (limit Steady)

variable (env : Env)

/-! ## Computing nodes -/

/-- The item of a list before node `next`. -/
def itemOf (v : Value) (z : Context) (next : Nat) : Value := (means env 0).emit v z next

/-- The node of list `l` that an item makes, given what its parser reveals. -/
noncomputable def nodeOf (l : Nat) (u : Unparsed) (r : Revealed) : Course Node :=
  match r.settled with
  | .failure z message =>
    pure (.ended ⟨u.start, if r.committed then .failed z message else if u.committed then .committed else .plain⟩)
  | .success p => do
    let z ← late env p.rest
    if z.input.consumed = u.start.input.consumed then
      pure (.ended ⟨u.start, if u.committed || r.committed then .committed else .plain⟩)
    else
      let v ← late env p.value
      let next ← Course.ofRun (Means.addNode l ⟨u.item, z, u.committed || r.committed⟩)
      pure (.item (itemOf env v z next) next)

section Compute

variable {env} (l : Nat) (u : Unparsed)

theorem steady_nodeFinished (c : Bool) (p : Promise) (finish : Finish) :
    Steady fun n => (means env n).nodeFinished l u c p finish :=
  fun n => (means_le env n).nodeFinished .le (fun _ => .refl _) u c p finish

theorem steady_computeNode : Steady fun n => (means env n).computeNode n l u :=
  fun n => (means_le env n).computeNode .le (Nat.le_succ n) (fun _ => .refl _) u

theorem limit_nodeValue (c : Bool) (p : Promise) :
    (limit fun n => (means env n).nodeValue l u c p) =
      late env p.rest >>= fun z =>
        if z.input.consumed = u.start.input.consumed then pure (.ended ⟨u.start, if c then .committed else .plain⟩)
        else late env p.value >>= fun v =>
          Course.ofRun (Means.addNode l ⟨u.item, z, c⟩) >>= fun next => pure (.item (itemOf env v z next) next) := by
  have hitem : ∀ n v z next, (means env n).emit v z next = itemOf env v z next := fun _ _ _ _ => rfl
  simp only [Means.nodeValue, hitem]
  refine (Run.limit_bind (steady_late env _) fun z => ?_).trans (bind_congr fun z => ?_)
  · split
    · exact .const _
    · exact .bind (steady_late env _) fun v => .const _
  · split
    · exact Run.limit_const _
    · refine (Run.limit_bind_const (steady_late env _) _).trans (bind_congr fun v => ?_)
      exact Course.ofRun_bind _ _

variable (env) in
/-- What is disclosed of a success makes the node; `d` says whether the success stands under a commitment. -/
theorem limit_nodeFinished (d : Bool) (p : Promise) :
    (limit fun n => (means env n).finish p >>= (means env n).nodeFinished l u (u.committed || d) p) =
      p.revealed <$> finish env p >>= fun r => nodeOf env l u (r.commitIf d) := by
  rw [Run.limit_bind (steady_finish env p) (steady_nodeFinished l u _ p), bind_map_left]
  refine bind_congr fun finish => ?_
  cases finish with
  | plain =>
    refine (limit_nodeValue l u (u.committed || d) p).trans ?_
    cases d <;> rfl
  | committed =>
    refine (limit_nodeValue l u true p).trans ?_
    simp only [nodeOf, Promise.revealed, Revealed.commitIf, Bool.or_true]
    rfl
  | failed z message =>
    refine (Run.limit_const _).trans ?_
    cases d <;> rfl

/-- **The node that an item makes.** -/
theorem limit_computeNode :
    (limit fun n => (means env n).computeNode n l u) = reveal env (.apply u.item u.start) >>= nodeOf env l u := by
  have hplain : ∀ p, (limit fun n => (means env n).finish p >>= (means env n).nodeFinished l u u.committed p) =
      p.revealed <$> finish env p >>= nodeOf env l u := by
    intro p
    have h := limit_nodeFinished env l u false p
    rwa [Bool.or_false] at h
  have hcommitted : ∀ p, (limit fun n => (means env n).finish p >>= (means env n).nodeFinished l u true p) =
      Revealed.commit <$> p.revealed <$> finish env p >>= nodeOf env l u := by
    intro p
    have h := limit_nodeFinished env l u true p
    rw [Bool.or_true] at h
    rw [h, bind_map_left (Revealed.commit)]
    rfl
  have hsteady : ∀ (c : Bool) (p : Promise),
      Steady fun n => (means env n).finish p >>= (means env n).nodeFinished l u c p :=
    fun c p => .bind (steady_finish env p) (steady_nodeFinished l u c p)
  simp only [Means.computeNode_eq]
  rw [reveal_eq, bind_assoc]
  refine (Run.limit_bind (steady_answer env _) fun a => ?_).trans (bind_congr fun a => ?_)
  · match a with
    | .failure z message => exact .const _
    | .success p => exact hsteady u.committed p
    | .committed inner =>
      refine .bind (steady_settlement env inner) fun t => ?_
      match t with
      | .failure z message => exact .const _
      | .success p => exact hsteady true p
  · match a with
    | .failure z message => exact Run.limit_const _
    | .success p => exact hplain p
    | .committed inner =>
      -- settling the parser under the commitment reveals as much as the parser does
      rw [revealing, ← commit_settle, map_bind, bind_assoc]
      refine (Run.limit_bind (steady_settlement env inner) fun t => ?_).trans (bind_congr fun t => ?_)
      · match t with
        | .failure z message => exact .const _
        | .success p => exact hsteady true p
      · match t with
        | .failure z message => exact Run.limit_const _
        | .success p => exact hcommitted p

end Compute

/-! ## Reading nodes -/

/-- One node of a list. -/
noncomputable def nodeAt (i : Nat) : Course Node := limit fun n => node env n i

/-- A list from a node to its end, with the items before that node, newest first. -/
noncomputable def walkFrom (i : Nat) (done : List Value) : Course (List Value × ListEnd) :=
  limit fun n => walk (node env n) n i done

theorem steady_node (i : Nat) : Steady fun n => node env n i := fun n => (means_le env n).node i

variable {env}

/-- A node that waits is computed while it is marked. If that fails it waits again, else its value is kept. -/
theorem nodeAt_pending {l k : Nat} {u : Unparsed} {w w' : World} {x : Except Fault Node}
    (hcell : (w.nodesOf l)[k]? = some (.pending u))
    (hx : (reveal env (.apply u.item u.start) >>= nodeOf env l u) ((World.listNodes l).set k .forcing w) = some (x, w')) :
    nodeAt env (nodeNumber l k) w = some (x, (World.listNodes l).set k
      (match x with
        | .ok y => .forced y
        | .error _ => .pending u) w') := by
  rw [← limit_computeNode, Run.limit_eq_some (steady_computeNode l u)] at hx
  obtain ⟨n, hn⟩ := hx
  change (means env n).computeNode n l u _ = _ at hn
  refine (Run.limit_eq_some (steady_node env _)).2 ⟨n + 1, ?_⟩
  have hsize : k < (w.nodesOf l).size := (Array.getElem?_eq_some_iff.1 hcell).1
  show node env (n + 1) (nodeNumber l k) w = _
  rw [node_succ]
  simp only [listOf_nodeNumber, placeOf_nodeNumber, hsize, if_true]
  unfold Table.force
  rw [show ((World.listNodes l).cells w)[k]? = some (.pending u) from hcell]
  dsimp only
  rw [hn]
  cases x <;> rfl

theorem steady_walk (i : Nat) (done : List Value) : Steady fun n => walk (node env n) n i done :=
  fun n => walk_related .le (fun i => steady_node env i n) (Nat.le_succ n) i done

theorem walkFrom_eq (i : Nat) (done : List Value) :
    walkFrom env i done = nodeAt env i >>= fun x =>
      match x with
      | .item v next => walkFrom env next (v :: done)
      | .ended e => pure (done.reverse, e) := by
  have hle : ∀ {n m k j : Nat}, n ≤ m → (∀ i, Run.Le (node env k i) (node env j i)) → ∀ i done,
      Run.Le (walk (node env k) n i done) (walk (node env j) m i done) :=
    fun hnm hnode i done => walk_related .le hnode hnm i done
  have hsteady' : ∀ i done, Steady fun n => walk (node env (n + 1)) n i done :=
    fun i done n => hle (Nat.le_succ n) (fun i => steady_node env i (n + 1)) i done
  rw [walkFrom, ← Run.limit_succ (steady_walk i done), nodeAt, ← Run.limit_succ (steady_node env i)]
  refine (Run.limit_bind (fun n => steady_node env i (n + 1)) fun x => ?_).trans (bind_congr fun x => ?_)
  · match x with
    | .item v next => exact hsteady' next (v :: done)
    | .ended e => exact .const _
  · match x with
    | .item v next =>
      refine (Run.limit_congr (steady_walk next (v :: done)) (hsteady' next (v :: done)) (fun n => ?_) fun n => ?_).symm
      · exact hle (Nat.le_refl n) (fun i => steady_node env i n) next (v :: done)
      · exact hle (Nat.le_succ n) (fun i => .refl _) next (v :: done)
    | .ended e => exact Run.limit_const _

theorem exec_node {α : Type} (i : Nat) (k : Node → Act α) :
    exec env (.node i k) = nodeAt env i >>= fun x => exec env (k x) := by
  unfold exec Means.exec
  simp only [Act.exec_node]
  exact Run.limit_bind (fun n => (means_le env n).node i) fun x => steady_exec env (k x)

theorem exec_walk {α : Type} (i : Nat) (k : List Value → ListEnd → Act α) :
    exec env (.walk i k) = walkFrom env i [] >>= fun x => exec env (k x.1 x.2) := by
  unfold exec Means.exec
  simp only [Act.exec_walk]
  exact Run.limit_bind (fun n => (means_le env n).walk i) fun x => steady_exec env (k x.1 x.2)

/-- **A list reveals where it ends by being read to its end.** -/
theorem reveal_stream (p : Parser) (z : Context) :
    reveal env (.apply (.stream p) z) = Course.ofRun (Means.makeList ⟨p, z, false⟩) >>= fun i =>
      walkFrom env i [] >>= fun x =>
        match x.2.finish with
        | .plain => pure ⟨false, .success { rest := .later (do return (← Act.endOf i).rest), value := .known (.list i) }⟩
        | .committed =>
          pure ⟨true, .success { rest := .later (do return (← Act.endOf i).rest), value := .known (.list i) }⟩
        | .failed rest message => pure ⟨true, .failure rest message⟩ := by
  rw [reveal_eq, answer_stream, bind_assoc]
  refine bind_congr fun i => ?_
  rw [pure_bind, Answer.ofList, revealing, finish_of_some rfl, late_later, map_eq_pure_bind, exec_bind, Act.endOf, exec_walk,
    bind_assoc, bind_assoc]
  refine bind_congr fun x => ?_
  rw [exec_pure, pure_bind, show (pure x.2.finish : Act Finish) = .pure x.2.finish from rfl, exec_pure, pure_bind]
  cases x.2.finish <;> rfl

/-! ## Reading whole lists -/

/-- A list is read node by node: its items from a node on, and its end or the fault that stopped the reading. -/
inductive Reads (nodes : Nat → Course Node) : Nat → World → List Value → Except Fault ListEnd → World → Prop
  | ended {i w e w'} : nodes i w = some (.ok (.ended e), w') → Reads nodes i w [] (.ok e) w'
  | fault {i w e w'} : nodes i w = some (.error e, w') → Reads nodes i w [] (.error e) w'
  | item {i w v next w₁ vs x w'} : nodes i w = some (.ok (.item v next), w₁) → Reads nodes next w₁ vs x w' →
      Reads nodes i w (v :: vs) x w'

namespace Reads

variable {i : Nat} {w w' : World} {vs : List Value} {x : Except Fault ListEnd}

theorem mono {nodes nodes' : Nat → Course Node} (hle : ∀ i, nodes i ≤ nodes' i) (h : Reads nodes i w vs x w') :
    Reads nodes' i w vs x w' := by
  induction h with
  | ended hnode => exact .ended (hle _ _ _ hnode)
  | fault hnode => exact .fault (hle _ _ _ hnode)
  | item hnode _ ih => exact .item (hle _ _ _ hnode) ih

/-- A walk gives the items and the end. -/
theorem walkFrom (h : Reads (nodeAt env) i w vs x w') (done : List Value) :
    OnDemand.walkFrom env i done w = some (x.map fun e => (done.reverse ++ vs, e), w') := by
  induction h generalizing done with
  | ended hnode =>
    rw [walkFrom_eq, Course.bind_of_ok hnode, List.append_nil]
    rfl
  | fault hnode =>
    rw [walkFrom_eq, Course.bind_of_error hnode]
    rfl
  | item hnode _ ih =>
    rw [walkFrom_eq, Course.bind_of_ok hnode]
    refine (ih _).trans ?_
    rw [List.reverse_cons, List.append_assoc]
    rfl

/-- Some fuel is enough for all of the nodes. -/
theorem fuel (h : Reads (nodeAt env) i w vs x w') :
    ∃ n, Reads (fun i => Course.ofRun (node env n i)) i w vs x w' := by
  have hmono : ∀ {n m : Nat}, n ≤ m → ∀ i, Course.ofRun (node env n i) ≤ Course.ofRun (node env m i) :=
    fun hnm i => (steady_node env i).monotone hnm
  induction h with
  | ended hnode =>
    obtain ⟨n, hn⟩ := (Run.limit_eq_some (steady_node env _)).1 hnode
    exact ⟨n, .ended (Course.ofRun_eq_some.2 hn)⟩
  | fault hnode =>
    obtain ⟨n, hn⟩ := (Run.limit_eq_some (steady_node env _)).1 hnode
    exact ⟨n, .fault (Course.ofRun_eq_some.2 hn)⟩
  | item hnode _ ih =>
    obtain ⟨n, hn⟩ := (Run.limit_eq_some (steady_node env _)).1 hnode
    obtain ⟨m, hm⟩ := ih
    refine ⟨max n m, .item (hmono (Nat.le_max_left n m) _ _ _ (Course.ofRun_eq_some.2 hn)) ?_⟩
    exact hm.mono (hmono (Nat.le_max_right n m))

end Reads

end CommittedChoice.OnDemand
