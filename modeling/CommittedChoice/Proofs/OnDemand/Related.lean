import CommittedChoice.Proofs.OnDemand.Demand
import CommittedChoice.Proofs.Tokens

/-!
# Related demands

Two runs of the on-demand engine that differ in their fuel, or in a list that neither of them reads, go through the same
steps. What such pairs of runs have in common is a relation that goes through sequencing, so it is followed through the
operations of the engine once and for all.

- `Run.Pulled`: runs that depend only on the answers of the source to the calls made so far;
- `Run.Plain`: such runs that neither look at lists nor change them, and that only add to what was read and noted;
- `Run.Congruence`: what is asked of such a relation;
- `Means.Related`: means whose answers and lists are related; so is then everything made of them, up to the node of a
  list (`Means.Related.computeNode`);
- `means_related_succ`: one more unit of fuel on both sides;
- `means_le`: more fuel does not change what a demand gives.
-/

namespace CommittedChoice

/-- The world with another source. -/
def World.withSource (w : World) (source : Nat → Pull) : World := { w with feed := w.feed.withSource source }

namespace Run

variable {α β : Type}

/-- Whatever two runs do to the world, one after the other, they do as one run. -/
theorem bind_advances {r : World → World → Prop} (htrans : ∀ {w₁ w₂ w₃}, r w₁ w₂ → r w₂ w₃ → r w₁ w₃) {x : Run α}
    {f : α → Run β} (hx : ∀ w, r w (x w).2) (hf : ∀ a w, r w (f a w).2) (w : World) : r w ((x >>= f) w).2 := by
  have h := hx w
  show r w (Run.bind x f w).2
  unfold Run.bind
  rcases hw : x w with ⟨_ | a, w'⟩
  · rw [hw] at h
    exact h
  · rw [hw] at h
    exact htrans h (hf a w')

/-- Where a sequence answers, so does its first part, and then the second one. -/
theorem bind_eq_ok {x : Run α} {f : α → Run β} {w w' : World} {b : β} (h : (x >>= f) w = (.ok b, w')) :
    ∃ a w₁, x w = (.ok a, w₁) ∧ f a w₁ = (.ok b, w') := by
  change Run.bind x f w = _ at h
  unfold Run.bind at h
  rcases hx : x w with ⟨_ | a, w₁⟩
  · rw [hx] at h; cases h
  · rw [hx] at h; exact ⟨a, w₁, rfl, h⟩

/-! ## Runs without lists -/

/-- Runs that neither look at lists nor change them. -/
def ListFree (x : Run α) : Prop := ∀ w lists, x { w with lists := lists } = ((x w).1, { (x w).2 with lists := lists })

theorem ListFree.pure (a : α) : ListFree (pure a) := fun _ _ => rfl

theorem ListFree.fault (e : Fault) : ListFree (fault e : Run α) := fun _ _ => rfl

theorem ListFree.ofExcept (x : Except Fault α) : ListFree (ofExcept x) := fun _ _ => rfl

theorem ListFree.print (lines : List Line) : ListFree (print lines) := fun _ _ => rfl

theorem ListFree.bind {x : Run α} {f : α → Run β} (hx : ListFree x) (hf : ∀ a, ListFree (f a)) :
    ListFree (x >>= f) := by
  intro w lists
  show Run.bind x f _ = ((Run.bind x f w).1, { (Run.bind x f w).2 with lists := lists })
  unfold Run.bind
  rw [hx w lists]
  rcases x w with ⟨_ | a, w'⟩
  · rfl
  · exact hf a w' lists

theorem ListFree.next? (s : Remainder) : ListFree (next? s) := by
  intro w lists
  rfl

/-- The lists are left as they were. -/
theorem ListFree.lists_eq {x : Run α} (hx : ListFree x) (w : World) : (x w).2.lists = w.lists := by
  have h := hx w w.lists
  rw [show ({ w with lists := w.lists } : World) = w from rfl] at h
  rw [h]

/-! ## Runs and their source -/

/-- The source is called one time after the other, and a run depends on no call that it does not make: under any source
that answers the calls made by its end in the same way, it does the same. -/
structure Pulled (x : Run α) : Prop where
  later : ∀ w : World, w.feed.Later (x w).2.feed
  agrees : ∀ w source, (∀ k < (x w).2.feed.calls, source k = w.feed.source k) →
    x (w.withSource source) = ((x w).1, (x w).2.withSource source)

namespace Pulled

/-- A run that does not touch the feed. -/
theorem of_keeps {x : Run α} (hfeed : ∀ w, (x w).2.feed = w.feed)
    (hsource : ∀ w source, x (w.withSource source) = ((x w).1, (x w).2.withSource source)) : Pulled x :=
  ⟨fun w => hfeed w ▸ .refl, fun w source _ => hsource w source⟩

theorem next? (s : Remainder) : Pulled (next? s) where
  later w := s.later_next? w.feed
  agrees w source h := by
    have hnext : ∀ w, Run.next? s w = ((s.next? w.feed).1.mapError .fault, { w with
        feed := (s.next? w.feed).2
        journal := if (s.next? w.feed).2.calls = w.feed.calls then w.journal else .called :: w.journal }) := fun _ => rfl
    rw [hnext, hnext, show (w.withSource source).feed = w.feed.withSource source from rfl, Remainder.next?_withSource h]
    rfl

theorem bind {x : Run α} {f : α → Run β} (hx : Pulled x) (hf : ∀ a, Pulled (f a)) : Pulled (x >>= f) where
  later := bind_advances (r := fun w w' => w.feed.Later w'.feed) .trans hx.later fun a => (hf a).later
  agrees w source h := by
    change Run.bind x f _ = ((Run.bind x f w).1, (Run.bind x f w).2.withSource source)
    change ∀ k < (Run.bind x f w).2.feed.calls, _ at h
    have hfirst := hx.agrees w source
    have hsource := (hx.later w).source_eq
    unfold Run.bind at h ⊢
    rcases hw : x w with ⟨e | a, w₁⟩
    · rw [hw] at h hfirst
      rw [hfirst h]
    · rw [hw] at h hfirst hsource
      -- the calls of the first part are among those of both
      have hcalls : w₁.feed.calls ≤ (f a w₁).2.feed.calls := ((hf a).later w₁).calls_le
      rw [hfirst fun k hk => h k (Nat.lt_of_lt_of_le hk hcalls)]
      exact (hf a).agrees w₁ source fun k hk => (h k hk).trans (congrFun hsource k).symm

end Pulled

/-- Runs without lists that only add to what was read and noted. -/
structure Plain (x : Run α) : Prop where
  listFree : x.ListFree
  pulled : x.Pulled
  journal : ∀ w : World, w.journal <:+ (x w).2.journal

namespace Plain

theorem feed {x : Run α} (h : Plain x) (w : World) : w.feed.Later (x w).2.feed := h.pulled.later w

/-- A run that changes neither the feed nor the journal. -/
theorem of_keeps {x : Run α} (h : x.ListFree) (hpulled : x.Pulled) (hjournal : ∀ w, (x w).2.journal = w.journal) :
    Plain x :=
  ⟨h, hpulled, fun w => hjournal w ▸ List.suffix_refl _⟩

theorem pure (a : α) : Plain (pure a) :=
  of_keeps (.pure a) (.of_keeps (fun _ => rfl) fun _ _ => rfl) fun _ => rfl

theorem halt (e : Halt) : Plain (halt e : Run α) :=
  of_keeps (fun _ _ => rfl) (.of_keeps (fun _ => rfl) fun _ _ => rfl) fun _ => rfl

theorem fault (e : Fault) : Plain (fault e : Run α) := halt (.fault e)

theorem ofExcept (x : Except Fault α) : Plain (ofExcept x) :=
  of_keeps (.ofExcept x) (.of_keeps (fun _ => rfl) fun _ _ => rfl) fun _ => rfl

theorem print (lines : List Line) : Plain (print lines) :=
  of_keeps (.print lines) (.of_keeps (fun _ => rfl) fun _ _ => rfl) fun _ => rfl

theorem note (id : String) : Plain (note id) :=
  ⟨fun _ _ => rfl, .of_keeps (fun _ => rfl) fun _ _ => rfl, fun _ => List.suffix_cons _ _⟩

theorem next? (s : Remainder) : Plain (next? s) where
  listFree := .next? s
  pulled := .next? s
  journal w := by
    show w.journal <:+ if _ then w.journal else .called :: w.journal
    split
    · exact List.suffix_refl _
    · exact List.suffix_cons _ _

theorem bind {x : Run α} {f : α → Run β} (hx : Plain x) (hf : ∀ a, Plain (f a)) : Plain (x >>= f) where
  listFree := hx.listFree.bind fun a => (hf a).listFree
  pulled := hx.pulled.bind fun a => (hf a).pulled
  journal := bind_advances (r := fun w w' => w.journal <:+ w'.journal) .trans hx.journal fun a => (hf a).journal

end Plain

/-! ## Relations -/

/-- A relation between runs that goes through sequencing, and in which runs without lists are related to themselves. -/
structure Congruence (R : {α : Type} → Run α → Run α → Prop) : Prop where
  bind : ∀ {α β : Type} {x y : Run α} {f g : α → Run β}, R x y → (∀ a, R (f a) (g a)) → R (x >>= f) (y >>= g)
  plain : ∀ {α : Type} {x : Run α}, x.Plain → R x x
  outOfFuel : ∀ {α : Type} (y : Run α), R (halt .outOfFuel) y
  makeList : ∀ u, R (OnDemand.Means.makeList u) (OnDemand.Means.makeList u)

theorem Congruence.pure {R : {α : Type} → Run α → Run α → Prop} (hR : Congruence R) (a : α) :
    R (pure a : Run α) (pure a) := hR.plain (.pure a)

theorem Congruence.le : Congruence Le where
  bind := .bind
  plain := fun _ => .refl _
  outOfFuel := .outOfFuel
  makeList := fun _ => .refl _

end Run

variable {R : {α : Type} → Run α → Run α → Prop} (hR : Run.Congruence R)

/-! ## Callbacks -/

theorem Run.Plain.count (mark : Nat) : Plain (Run.count mark) :=
  of_keeps (fun _ _ => rfl) (.of_keeps (fun _ => rfl) fun _ _ => rfl) fun _ => rfl

theorem Run.Plain.identity : Plain Run.identity :=
  of_keeps (fun _ _ => rfl) (.of_keeps (fun _ => rfl) fun _ _ => rfl) fun _ => rfl

namespace Act

variable {env : Env} {lists lists' : Lists} {α : Type}

theorem exec_note (id : String) (act : Act α) :
    (Act.note id act).exec env lists = Run.note id >>= fun _ => act.exec env lists := rfl

theorem exec_count (mark : Nat) (k : Nat → Act α) :
    (Act.count mark k).exec env lists = Run.count mark >>= fun c => (k c).exec env lists := rfl

theorem exec_fresh (k : Identity → Act α) :
    (Act.fresh k).exec env lists = Run.identity >>= fun id => (k id).exec env lists := rfl

theorem exec_node (i : Nat) (k : Node → Act α) :
    (Act.node i k).exec env lists = lists.node i >>= fun x => (k x).exec env lists := by
  funext w
  show (Act.node i k).exec env lists w = Run.bind (lists.node i) _ w
  unfold Run.bind
  rw [Act.exec]
  dsimp only
  rcases lists.node i w with ⟨_ | x, w'⟩ <;> rfl

theorem exec_walk (i : Nat) (k : List Value → ListEnd → Act α) :
    (Act.walk i k).exec env lists = lists.walk i >>= fun x => (k x.1 x.2).exec env lists := by
  funext w
  show (Act.walk i k).exec env lists w = Run.bind (lists.walk i) _ w
  unfold Run.bind
  rw [Act.exec]
  dsimp only
  rcases lists.walk i w with ⟨_ | ⟨items, e⟩, w'⟩ <;> rfl

/-- A callback that goes on with the answer of another one. -/
theorem exec_bind {β : Type} (act : Act α) (k : α → Act β) :
    (act >>= k).exec env lists = act.exec env lists >>= fun a => (k a).exec env lists := by
  show (Act.bind act k).exec env lists = _
  induction act with
  | pure a => rfl
  | throw e => rfl
  | note id next ih => rw [exec_note, bind_assoc, Act.bind, exec_note, ih]
  | width f ih => exact ih _
  | count mark f ih => rw [exec_count, bind_assoc, Act.bind, exec_count]; exact bind_congr ih
  | fresh f ih => rw [exec_fresh, bind_assoc, Act.bind, exec_fresh]; exact bind_congr ih
  | node i f ih => rw [exec_node, bind_assoc, Act.bind, exec_node]; exact bind_congr ih
  | walk i f ih => rw [exec_walk, bind_assoc, Act.bind, exec_walk]; exact bind_congr fun x => ih x.1 x.2

/-- Of all that surrounds a run, a callback knows the indentation. -/
theorem exec_congr {env' : Env} (h : env.settings = env'.settings) (act : Act α) :
    act.exec env lists = act.exec env' lists := by
  induction act with
  | pure a => rfl
  | throw e => rfl
  | note id next ih => rw [exec_note, exec_note, ih]
  | width k ih => rw [exec, exec, h]; exact ih _
  | count mark k ih => rw [exec_count, exec_count]; exact bind_congr ih
  | fresh k ih => rw [exec_fresh, exec_fresh]; exact bind_congr ih
  | node i k ih => rw [exec_node, exec_node]; exact bind_congr ih
  | walk i k ih => rw [exec_walk, exec_walk]; exact bind_congr fun x => ih x.1 x.2

/-- A callback for which there are no lists. -/
theorem listFree_exec_none (act : Act α) : (act.exec env .none).ListFree := by
  induction act with
  | pure a => exact .pure a
  | throw e => exact .fault e
  | note id next ih => rw [exec_note]; exact .bind (fun _ _ => rfl) fun _ => ih
  | width k ih => exact ih _
  | count mark k ih => rw [exec_count]; exact .bind (fun _ _ => rfl) ih
  | fresh k ih => rw [exec_fresh]; exact .bind (fun _ _ => rfl) ih
  | node i k ih => exact .fault _
  | walk i k ih => exact .fault _

include hR in
/-- A callback does related things if the lists it reads are related. -/
theorem exec_related (hnode : ∀ i, R (lists.node i) (lists'.node i)) (hwalk : ∀ i, R (lists.walk i) (lists'.walk i))
    (act : Act α) : R (act.exec env lists) (act.exec env lists') := by
  induction act with
  | pure a => exact hR.pure a
  | throw e => exact hR.plain (.fault e)
  | note id next ih =>
    rw [exec_note, exec_note]
    exact hR.bind (hR.plain (.note id)) fun _ => ih
  | width k ih => exact ih _
  | count mark k ih =>
    rw [exec_count, exec_count]
    exact hR.bind (hR.plain (.count mark)) ih
  | fresh k ih =>
    rw [exec_fresh, exec_fresh]
    exact hR.bind (hR.plain .identity) ih
  | node i k ih =>
    rw [exec_node, exec_node]
    exact hR.bind (hnode i) ih
  | walk i k ih =>
    rw [exec_walk, exec_walk]
    exact hR.bind (hwalk i) fun x => ih x.1 x.2

end Act

namespace OnDemand

/-! ## Means -/

/-- Means whose answers and lists are related. -/
structure Means.Related (R : {α : Type} → Run α → Run α → Prop) (m m' : Means) : Prop where
  env : m.env = m'.env
  node : ∀ i, R (m.lists.node i) (m'.lists.node i)
  walk : ∀ i, R (m.lists.walk i) (m'.lists.walk i)
  answer : ∀ s, R (m.answer s) (m'.answer s)

namespace Means.Related

variable {m m' : Means} (h : m.Related R m') {fuel fuel' : Nat} (hf : fuel ≤ fuel')

include hR h

theorem exec {α : Type} (act : Act α) : R (m.exec act) (m'.exec act) := by
  unfold Means.exec
  rw [h.env]
  exact act.exec_related hR h.node h.walk

theorem late {α : Type} (l : Late α) : R (m.late l) (m'.late l) := by
  induction l with
  | known a => exact hR.pure a
  | later act => rw [late_later, late_later]; exact h.exec hR act
  | mapped l f ih => rw [late_mapped, late_mapped]; exact hR.bind ih fun a => h.exec hR (f a)

theorem finish (p : Promise) : R (m.finish p) (m'.finish p) := by
  rw [finish_eq, finish_eq]
  cases p.finish with
  | none => exact hR.pure _
  | some l => exact h.late hR l

theorem bindFinished (k : Value → Act Parser) (p : Promise) (finish : Finish) :
    R (m.bindFinished k p finish) (m'.bindFinished k p finish) := by
  cases finish with
  | plain =>
    exact hR.bind (h.late hR _) fun z => hR.bind (h.late hR _) fun v => hR.bind (h.exec hR _) fun q => h.answer _
  | committed => exact hR.pure _
  | failed z message => exact hR.pure _

theorem settlement : ∀ {fuel fuel' : Nat} (_ : fuel ≤ fuel') (s : Suspended),
    R (m.settlement fuel s) (m'.settlement fuel' s)
  | 0, _, _, _ => hR.outOfFuel _
  | fuel + 1, fuel' + 1, hf, s => by
    rw [settlement_succ, settlement_succ]
    refine hR.bind (h.answer s) fun a => ?_
    match a with
    | .success p => exact hR.pure _
    | .failure z message => exact hR.pure _
    | .committed inner => exact settlement (Nat.le_of_succ_le_succ hf) inner

/-! ### Loops -/

theorem turnValue (p : Promise) : R (m.turnValue p) (m'.turnValue p) := by
  refine hR.bind (h.late hR _) fun v => ?_
  cases v.toStep with
  | done value => exact hR.pure _
  | again state => exact hR.bind (h.late hR _) fun z => hR.pure _

theorem turnFinished (step : Value → Act Parser) (committed : Bool) (p : Promise) (finish : Finish) :
    R (m.turnFinished step committed p finish) (m'.turnFinished step committed p finish) := by
  cases finish with
  | plain => exact h.turnValue hR p
  | committed =>
    cases committed with
    | true => exact h.turnValue hR p
    | false => exact hR.pure _
  | failed z message => exact hR.pure _

include hf in
theorem turnAnswer (step : Value → Act Parser) (committed : Bool) (a : Answer) :
    R (m.turnAnswer fuel step committed a) (m'.turnAnswer fuel' step committed a) := by
  match a, committed with
  | .failure z message, _ => exact hR.pure _
  | .success p, _ => exact hR.bind (h.finish hR p) fun finish => h.turnFinished hR step _ p finish
  | .committed inner, false => exact hR.pure _
  | .committed inner, true =>
    refine hR.bind (h.settlement hR hf inner) fun s => ?_
    match s with
    | .failure z message => exact hR.pure _
    | .success p => exact hR.bind (h.finish hR p) fun finish => h.turnFinished hR step true p finish

omit h in
theorem afterTurn {next next' : Value → Context → Run Answer} (h : ∀ state z, R (next state z) (next' state z)) :
    ∀ t : Turn, R (Means.afterTurn next t) (Means.afterTurn next' t)
  | .finished a => hR.pure a
  | .again state z => h state z

theorem turns (step : Value → Act Parser) (committed : Bool) : ∀ {fuel fuel' : Nat} (_ : fuel ≤ fuel') (state : Value)
    (z : Context), R (m.turns step committed fuel state z) (m'.turns step committed fuel' state z)
  | 0, _, _, _, _ => hR.outOfFuel _
  | fuel + 1, fuel' + 1, hf, state, z => by
    rw [turns_succ, turns_succ]
    exact hR.bind (h.exec hR _) fun p => hR.bind (h.answer _) fun a =>
      hR.bind (h.turnAnswer hR (Nat.le_of_succ_le_succ hf) step committed a) fun t =>
        afterTurn hR (fun state z => turns step committed (Nat.le_of_succ_le_succ hf) state z) t

/-! ### Frames and primitives -/

include hf in
theorem resumption (f : Frame) (a : Answer) : R (m.resumption fuel f a) (m'.resumption fuel' f a) := by
  cases f with
  | bind k =>
    cases a with
    | success p =>
      rw [resumption_bind_success, resumption_bind_success]
      exact hR.bind (h.finish hR p) fun finish => h.bindFinished hR k p finish
    | failure z message => rw [resumption_bind_failure, resumption_bind_failure]; exact hR.pure _
    | committed inner => rw [resumption_bind_committed, resumption_bind_committed]; exact hR.pure _
  | map f =>
    cases a with
    | success p => rw [resumption_map_success, resumption_map_success]; exact hR.pure _
    | failure z message => rw [resumption_map_failure, resumption_map_failure]; exact hR.pure _
    | committed inner => rw [resumption_map_committed, resumption_map_committed]; exact hR.pure _
  | reword f =>
    cases a with
    | success p => rw [resumption_reword_success, resumption_reword_success]; exact hR.pure _
    | failure z message =>
      rw [resumption_reword_failure, resumption_reword_failure]
      exact hR.bind (h.exec hR _) fun _ => hR.pure _
    | committed inner => rw [resumption_reword_committed, resumption_reword_committed]; exact hR.pure _
  | restoring state =>
    cases a with
    | success p => rw [resumption_restoring_success, resumption_restoring_success]; exact hR.pure _
    | failure z message => rw [resumption_restoring_failure, resumption_restoring_failure]; exact hR.pure _
    | committed inner => rw [resumption_restoring_committed, resumption_restoring_committed]; exact hR.pure _
  | orElse q z =>
    cases a with
    | success p => rw [resumption_orElse_success, resumption_orElse_success]; exact hR.pure _
    | failure rest message => rw [resumption_orElse_failure, resumption_orElse_failure]; exact h.answer _
    | committed inner => rw [resumption_orElse_committed, resumption_orElse_committed]; exact hR.pure _
  | loop step =>
    rw [resumption_loop, resumption_loop]
    exact hR.bind (h.turnAnswer hR hf step true a) fun t =>
      afterTurn hR (fun state z => h.turns hR step true hf state z) t

theorem alternatives (z : Context) : ∀ (failures : List (String × String)) (ps : List (String × Parser)),
    R (m.alternatives z failures ps) (m'.alternatives z failures ps)
  | failures, [] => by
    unfold Means.alternatives
    rw [h.env]
    exact hR.plain (.bind (.ofExcept _) fun _ => .pure _)
  | failures, (label, p) :: rest => by
    unfold Means.alternatives
    rw [h.env]
    refine hR.bind (h.answer _) fun a => ?_
    match a with
    | .failure _ message => exact hR.bind (hR.plain (.print _)) fun _ => alternatives z _ rest
    | .success p => exact hR.pure _
    | .committed inner => exact hR.pure _

include hf in
theorem primitive (p : Parser) (z : Context) : R (m.primitive fuel p z) (m'.primitive fuel' p z) := by
  cases p with
  | loop init step => exact h.turns hR step false hf init z
  | choice ps => exact h.alternatives hR z [] ps
  | next =>
    refine hR.plain (.bind (.next? _) fun answer => ?_)
    match answer with
    | none => exact .pure _
    | some (t, rest) => exact .pure _
  | eof =>
    refine hR.plain (.bind (.next? _) fun answer => ?_)
    match answer with
    | none => exact .pure _
    | some (t, rest) => exact .pure _
  | satisfy test =>
    refine hR.bind (hR.plain (.next? _)) fun answer => ?_
    match answer with
    | none => exact hR.pure _
    | some (t, rest) =>
      refine hR.bind (h.exec hR _) fun b => ?_
      cases b with
      | true => exact hR.pure _
      | false => exact hR.plain (.bind (.ofExcept _) fun _ => .pure _)
  | stream p => exact hR.bind (hR.makeList _) fun i => hR.pure _
  | rule name =>
    show R (m.answer (.apply (m.env.grammar name) z)) (m'.answer (.apply (m'.env.grammar name) z))
    rw [h.env]
    exact h.answer _
  | map | bind | orElse | reword | restoring => exact h.answer _
  | _ => exact hR.pure _

/-! ### List nodes -/

section Nodes

variable {l : Nat} (hadd : ∀ u, R (addNode l u) (addNode l u))

include hadd

theorem nodeValue (u : Unparsed) (committed : Bool) (p : Promise) :
    R (m.nodeValue l u committed p) (m'.nodeValue l u committed p) := by
  refine hR.bind (h.late hR _) fun z => ?_
  split
  · exact hR.pure _
  · refine hR.bind (h.late hR _) fun v => hR.bind (hadd _) fun next => ?_
    unfold emit
    rw [h.env]
    exact hR.pure _

theorem nodeFinished (u : Unparsed) (committed : Bool) (p : Promise) (finish : Finish) :
    R (m.nodeFinished l u committed p finish) (m'.nodeFinished l u committed p finish) := by
  cases finish with
  | failed z message => exact hR.pure _
  | plain => exact h.nodeValue hR hadd u _ p
  | committed => exact h.nodeValue hR hadd u _ p

include hf in
theorem computeNode (u : Unparsed) : R (m.computeNode fuel l u) (m'.computeNode fuel' l u) := by
  rw [computeNode_eq, computeNode_eq]
  refine hR.bind (h.answer _) fun a => ?_
  match a with
  | .failure z message => exact hR.pure _
  | .success p => exact hR.bind (h.finish hR p) fun finish => h.nodeFinished hR hadd u _ p finish
  | .committed inner =>
    refine hR.bind (h.settlement hR hf inner) fun s => ?_
    match s with
    | .failure z message => exact hR.pure _
    | .success p => exact hR.bind (h.finish hR p) fun finish => h.nodeFinished hR hadd u true p finish

end Nodes

end Means.Related

/-! ## The engine -/

include hR in
theorem walk_related {node node' : Nat → Run Node} (h : ∀ i, R (node i) (node' i)) : ∀ {fuel fuel' : Nat}
    (_ : fuel ≤ fuel') (i : Nat) (done : List Value), R (walk node fuel i done) (walk node' fuel' i done)
  | 0, _, _, _, _ => hR.outOfFuel _
  | fuel + 1, fuel' + 1, hf, i, done => by
    unfold walk
    refine hR.bind (h i) fun x => ?_
    match x with
    | .item v next => exact walk_related h (Nat.le_of_succ_le_succ hf) next (v :: done)
    | .ended e => exact hR.pure _

include hR in
theorem means_related_zero (env : Env) (n : Nat) : (means env 0).Related R (means env n) :=
  ⟨rfl, fun _ => hR.outOfFuel _, fun _ => hR.outOfFuel _, fun _ => hR.outOfFuel _⟩

include hR in
/-- **One more unit of fuel keeps means related,** as soon as the nodes of lists are. -/
theorem means_related_succ {env : Env} {n n' : Nat} (hn : n ≤ n') (h : (means env n).Related R (means env n'))
    (hnode : ∀ i, R (node env (n + 1) i) (node env (n' + 1) i)) :
    (means env (n + 1)).Related R (means env (n' + 1)) := by
  refine ⟨rfl, hnode, fun i => walk_related hR hnode (Nat.succ_le_succ hn) i [], fun s => ?_⟩
  match s with
  | .ready a => rw [means_answer_ready, means_answer_ready]; exact hR.pure a
  | .afresh p z => rw [means_answer_afresh, means_answer_afresh]; exact h.answer _
  | .after act s => rw [means_answer_after, means_answer_after]; exact hR.bind (h.exec hR act) fun _ => h.answer s
  | .framed s f =>
    rw [means_answer_framed, means_answer_framed]
    exact hR.bind (h.answer s) fun a => h.resumption hR hn f a
  | .apply p z =>
    rw [means_answer_apply, means_answer_apply]
    split
    · exact h.answer _
    · exact h.primitive hR hn p z

/-! ## More fuel -/

theorem Means.Related.refl (m : Means) : m.Related Run.Le m :=
  ⟨rfl, fun _ => .refl _, fun _ => .refl _, fun _ => .refl _⟩

/-- Nodes are computed wherever they were if their tasks can be done wherever they could. -/
theorem force_node_le {l : Nat} {compute compute' : Unparsed → Run Node} (h : ∀ u, (compute u).Le (compute' u))
    (i : Nat) : Run.Le ((World.listNodes l).force compute (.fault .reentered) i)
      ((World.listNodes l).force compute' (.fault .reentered) i) := by
  intro w
  unfold Table.force
  split
  · exact .inr rfl
  · rename_i u _
    rcases h u ((World.listNodes l).set i .forcing w) with hu | hu
    · left
      rcases hc : compute u ((World.listNodes l).set i .forcing w) with ⟨e | a, w'⟩
      · rw [hc] at hu; cases hu; rfl
      · rw [hc] at hu; cases hu
    · right
      rw [hu]
  all_goals exact .inr rfl

/-- **More fuel does not change what a demand gives.** -/
theorem means_le (env : Env) : ∀ n, (means env n).Related Run.Le (means env (n + 1))
  | 0 => means_related_zero .le env 1
  | n + 1 => by
    have ih := means_le env n
    refine means_related_succ .le (Nat.le_succ n) ih fun i w => ?_
    rw [node_succ, node_succ]
    dsimp only
    split
    · exact force_node_le (fun u => ih.computeNode .le (Nat.le_succ n) (fun _ => .refl _) u) _ w
    · exact .inr rfl

end OnDemand

end CommittedChoice
