import CommittedChoice.Proofs.OnDemand.Nodes
import CommittedChoice.Proofs.OnDemand.Session
import CommittedChoice.Proofs.OnDemand.Unread

/-!
# Repetition, at once and on demand

There are two ways to match a parser again and again: `many` collects the values of a loop, and a list parses one item
whenever it is read one node further. Both go through the same matches.

- `Repeats`: the matches of a parser one after the other, up to the application that ends them;
- `many_repeats`: `many` gives the values of the matches, or the committed failure that ended them;
- `Repeats.reads_last`: a list that is read to its end gives the same items and ends in the same way. While it is read, the
  parser does what it does in a world where the list has no nodes (`reveal_unread`).
-/

namespace CommittedChoice.OnDemand

open Strict (Outcome)

/-! ## Matches -/

/-- No match follows this application: it failed, or consumed nothing. -/
def Stops (z : Context) (r : Outcome) : Prop :=
  match r.verdict with
  | .failure _ _ => True
  | .success z' _ => z'.input.consumed = z.input.consumed

/-- A parser is matched again and again, with the values and the contexts after each match, up to an application that
is not followed by another one. The flags say whether a match before the first one, or any at all, committed. -/
inductive Repeats (env : Env) (p : Parser) :
    Bool → Context → World → List (Value × Context) → Bool → Outcome → World → Prop
  | stop {c z w r w'} : eval env p z w = some (.ok r, w') → Stops z r → Repeats env p c z w [] (c || r.isCommitted) r w'
  | item {c z w r w₁ z₁ v items c' last w'} : eval env p z w = some (.ok r, w₁) → r.verdict = .success z₁ v →
      z₁.input.consumed ≠ z.input.consumed → Repeats env p (c || r.isCommitted) z₁ w₁ items c' last w' →
      Repeats env p c z w ((v, z₁) :: items) c' last w'

/-- The context after the last match, where the application that ends the matches starts. -/
def lastContext (z : Context) : List (Value × Context) → Context
  | [] => z
  | (_, z₁) :: items => lastContext z₁ items

/-! ## At once -/

section Many

variable {env : Env} (p : Parser)

/-- What `many` does after a match: a match that consumed nothing is the last. -/
def manyEnd (acc before a after : Value) : Act Value :=
  if after.same before then .pure (.done acc) else do return .again (← .pure (.keep a acc))

theorem exec_manyEnd (acc a : Value) (m n : Nat) :
    exec env (manyEnd acc (.nat m) a (.nat n)) = if n = m then pure (.done acc) else pure (.again (.keep a acc)) := by
  rw [manyEnd, Value.same_nat]
  by_cases h : n = m
  · rw [if_pos h, if_pos (beq_iff_eq.2 h), exec_pure]
  · rw [if_neg h, if_neg (by rwa [beq_iff_eq])]
    exact exec_pure _

/-- A turn of `many`. -/
def manyStep (acc : Value) : Act Parser :=
  .pure <| .orElse (.bind .position fun before => .pure <| .bind p fun a => .pure <| .map .position (manyEnd acc before a))
    (.pure (.done acc))

theorem many_eq : Parser.many p = .map (.loop (.kept []) (manyStep p)) fun acc => .array acc.items.reverse := rfl

/-- What the result of an item means for the loop. -/
noncomputable def manyAfter (next : Bool → Value → Context → Course Revealed) (c : Bool) (acc : Value) (z : Context)
    (r : Outcome) : Course Revealed :=
  match r.verdict with
  | .failure rest message =>
    if r.isCommitted then pure ⟨true, .failure rest message⟩
    else pure ⟨c, .success { rest := .known z, value := .known acc }⟩
  | .success rest v =>
    if rest.input.consumed = z.input.consumed then
      pure ⟨c || r.isCommitted, .success { rest := .known rest, value := .known acc }⟩
    else next (c || r.isCommitted) (.keep v acc) rest

theorem reveal_position (z : Context) :
    reveal env (.apply .position z) = pure ⟨false, .success { rest := .known z, value := .known (.nat z.input.consumed) }⟩ := by
  rw [reveal_leaf rfl]
  exact map_pure _ _

theorem reveal_pure (v : Value) (z : Context) :
    reveal env (.apply (.pure v) z) = pure ⟨false, .success { rest := .known z, value := .known v }⟩ := by
  rw [reveal_leaf rfl]
  exact map_pure _ _

/-- A turn of `many` is an application of its item. -/
theorem many_turn (next : Bool → Value → Context → Course Revealed) (c : Bool) (acc : Value) (z : Context) :
    revealBody env (manyStep p) acc z >>= (revealTurn env).after next c = eval env p z >>= manyAfter next c acc z := by
  have hbind : ∀ k : Value → Act Parser, Revealed.bind env k
      ⟨false, .success { rest := .known z, value := .known (.nat z.input.consumed) }⟩ =
        exec env (k (.nat z.input.consumed)) >>= fun q => reveal env (.apply q z) := by
    intro k
    simp only [Revealed.bind, late_known, pure_bind]
    exact bind_congr fun q => id_map _
  rw [revealBody, manyStep, exec_pure, pure_bind, reveal_orElse, reveal_bind, reveal_position, pure_bind, hbind, exec_pure,
    pure_bind, reveal_bind, reveal_pure, eval, bind_assoc, bind_assoc, bind_assoc]
  refine bind_congr fun r => ?_
  obtain ⟨d, q | ⟨rest, message⟩⟩ := r
  · -- the value is asked for before the loop looks at what was consumed
    simp only [Revealed.bind, Revealed.read, bind_assoc, pure_bind]
    refine bind_congr fun rest => bind_congr fun v => ?_
    rw [exec_pure, pure_bind, reveal_map, reveal_position, map_pure, map_pure, pure_bind]
    have horElse : Revealed.orElse (pure ⟨false, .success { rest := .known z, value := .known (.done acc) }⟩)
        (Revealed.commitIf d (Revealed.map (manyEnd acc (.nat z.input.consumed) v)
          ⟨false, .success { rest := .known rest, value := .known (.nat rest.input.consumed) }⟩)) =
        (pure ⟨d, .success ⟨.known rest, .mapped (.known (.nat rest.input.consumed))
          (manyEnd acc (.nat z.input.consumed) v), none⟩⟩ : Course Revealed) := by
      cases d <;> rfl
    have hafter : manyAfter next c acc z ((Result.success rest v).commitIf d) =
        if rest.input.consumed = z.input.consumed then
          pure ⟨c || d, .success { rest := .known rest, value := .known acc }⟩
        else next (c || d) (.keep v acc) rest := by
      cases d <;> rfl
    rw [horElse, pure_bind, hafter]
    simp only [revealTurn, late_mapped, late_known, pure_bind, exec_manyEnd]
    by_cases h : rest.input.consumed = z.input.consumed
    · simp only [h, if_true, pure_bind, Value.toStep_done]
    · simp only [h, if_false, pure_bind, Value.toStep_again]
  · cases d with
    | false =>
      simp only [Revealed.bind, Revealed.read, Revealed.orElse, pure_bind, revealTurn, late_known, Value.toStep_done,
        Bool.or_false]
      rfl
    | true =>
      simp only [Revealed.bind, Revealed.read, Revealed.orElse, pure_bind, revealTurn, Bool.or_true]
      rfl

/-- What the matches of a parser make of a loop that has collected `acc` before them. -/
def Collected (acc : List Value) (items : List (Value × Context)) (c : Bool) (last : Outcome) (r : Revealed) : Prop :=
  match last with
  | .committed (.failure z message) => r = ⟨true, .failure z message⟩
  | _ => ∃ rest, r = ⟨c, .success { rest := .known rest, value := .known (.kept ((items.map Prod.fst).reverse ++ acc)) }⟩

theorem loop_repeats {c : Bool} {acc : List Value} {z : Context} {w w' : World} {r : Revealed}
    (h : revealLoop env (manyStep p) c (.kept acc) z w = some (.ok r, w')) :
    ∃ items c' last, Repeats env p c z w items c' last w' ∧ Collected acc items c' last r := by
  refine Course.Turn.loop_induction (R := fun c s z w b => ∀ acc r w', s = .kept acc → b = (.ok r, w') →
    ∃ items c' last, Repeats env p c z w items c' last w' ∧ Collected acc items c' last r) ?_ h acc r w' rfl rfl
  rintro f hf c s z w b hb acc r w' rfl rfl
  rw [many_turn] at hb
  obtain ⟨o, w₁, ho, hafter⟩ := Course.bind_eq_ok hb
  cases hv : o.verdict with
  | failure rest message =>
    have hstop : Stops z o := by rw [Stops, hv]; trivial
    match o, hv with
    | .plain _, rfl =>
      cases hafter
      have hrepeats := Repeats.stop (c := c) ho hstop
      exact ⟨[], _, _, hrepeats, z, congrArg (Revealed.mk · _) (Bool.or_false c).symm⟩
    | .committed _, rfl =>
      cases hafter
      exact ⟨[], _, _, .stop ho hstop, rfl⟩
  | success rest v =>
    have hlast : ∀ {items : List (Value × Context)} {c' : Bool} {rest' : Context}, Collected acc items c' o
        ⟨c', .success { rest := .known rest', value := .known (.kept ((items.map Prod.fst).reverse ++ acc)) }⟩ := by
      intro items c' rest'
      match o, hv with
      | .plain _, rfl => exact ⟨rest', rfl⟩
      | .committed _, rfl => exact ⟨rest', rfl⟩
    simp only [manyAfter, hv] at hafter
    by_cases hconsumed : rest.input.consumed = z.input.consumed
    · rw [if_pos hconsumed] at hafter
      cases hafter
      have hstop : Stops z o := by rw [Stops, hv]; exact hconsumed
      exact ⟨[], _, o, .stop ho hstop, hlast⟩
    · rw [if_neg hconsumed] at hafter
      obtain ⟨items, c', last, hrepeats, hcollected⟩ := hf _ _ _ _ _ hafter (v :: acc) r w' rfl rfl
      refine ⟨(v, rest) :: items, c', last, .item ho hv hconsumed hrepeats, ?_⟩
      simpa only [Collected, List.map_cons, List.reverse_cons, List.append_assoc, List.singleton_append] using hcollected

/-- **`many` collects the values of the matches,** or gives the committed failure that ended them. -/
theorem many_repeats {z : Context} {w w' : World} {r : Revealed}
    (h : reveal env (.apply (Parser.many p) z) w = some (.ok r, w')) :
    ∃ items c last r₁, Repeats env p false z w items c last w' ∧ Collected [] items c last r₁ ∧
      r = r₁.map fun acc => .array acc.items.reverse := by
  rw [many_eq, reveal_map, map_eq_pure_bind, reveal_loop] at h
  obtain ⟨r₁, w₁, hloop, hr⟩ := Course.bind_eq_ok h
  cases hr
  obtain ⟨items, c, last, hrepeats, hcollected⟩ := loop_repeats p hloop
  exact ⟨items, c, last, r₁, hrepeats, hcollected, rfl⟩

end Many

/-! ## On demand -/

/-- How a list ends after the last application of its item. -/
def finishOf (c : Bool) (last : Outcome) : Finish :=
  match last with
  | .committed (.failure z message) => .failed z message
  | _ => if c then .committed else .plain

/-- Either the last application is the failure of both, or the collected values are those of a list that ends well. -/
theorem Collected.cases {acc : List Value} {items : List (Value × Context)} {c : Bool} {last : Outcome} {r : Revealed}
    (h : Collected acc items c last r) :
    (∃ z message, last = .committed (.failure z message) ∧ r = ⟨true, .failure z message⟩) ∨
      finishOf c last = (if c then .committed else .plain) ∧ ∃ rest,
        r = ⟨c, .success { rest := .known rest, value := .known (.kept ((items.map Prod.fst).reverse ++ acc)) }⟩ := by
  match last with
  | .committed (.failure z message) => exact .inl ⟨z, message, rfl, h⟩
  | .committed (.success z v) => exact .inr ⟨rfl, h⟩
  | .plain (.success z v) => exact .inr ⟨rfl, h⟩
  | .plain (.failure z message) => exact .inr ⟨rfl, h⟩

section List

variable {env : Env} {p : Parser} {l : Nat}

/-- What is revealed of a parser and read to its end, step by step. -/
theorem eval_success {z rest : Context} {w w' : World} {r : Outcome} {v : Value} (h : eval env p z w = some (.ok r, w'))
    (hv : r.verdict = .success rest v) :
    ∃ q w₁ w₂, reveal env (.apply p z) w = some (.ok ⟨r.isCommitted, .success q⟩, w₁) ∧
      late env q.rest w₁ = some (.ok rest, w₂) ∧ late env q.value w₂ = some (.ok v, w') := by
  obtain ⟨⟨d, q | ⟨z₁, message⟩⟩, w₁, hreveal, hread⟩ := Course.bind_eq_ok h
  · obtain ⟨rest', w₂, hrest, hread⟩ := Course.bind_eq_ok hread
    obtain ⟨v', w₃, hvalue, hread⟩ := Course.bind_eq_ok hread
    cases hread
    cases d with
    | false => cases hv; exact ⟨q, w₁, w₂, hreveal, hrest, hvalue⟩
    | true => cases hv; exact ⟨q, w₁, w₂, hreveal, hrest, hvalue⟩
  · cases hread
    cases d <;> cases hv

theorem eval_failure {z rest : Context} {w w' : World} {r : Outcome} {message : String}
    (h : eval env p z w = some (.ok r, w')) (hv : r.verdict = .failure rest message) :
    reveal env (.apply p z) w = some (.ok ⟨r.isCommitted, .failure rest message⟩, w') := by
  obtain ⟨⟨d, q | ⟨z₁, message'⟩⟩, w₁, hreveal, hread⟩ := Course.bind_eq_ok h
  · obtain ⟨rest', w₂, hrest, hread⟩ := Course.bind_eq_ok hread
    obtain ⟨v', w₃, hvalue, hread⟩ := Course.bind_eq_ok hread
    cases hread
    cases d <;> cases hv
  · cases hread
    cases d with
    | false => cases hv; exact hreveal
    | true => cases hv; exact hreveal

/-- The node that waits at the end of a list. -/
theorem nodeAt_last {u : Unparsed} {w w' : World} {done : Array (Cell Unparsed Node)} {x : Node}
    {cells : Array (Cell Unparsed Node)} (hw : w.Reserved l) (hw' : w'.Reserved l)
    (hx : (reveal env (.apply u.item u.start) >>= nodeOf env l u) (w.withNodes l (done.push .forcing)) =
      some (.ok x, w'.withNodes l cells)) :
    nodeAt env (nodeNumber l done.size) (w.withNodes l (done.push (.pending u))) =
      some (.ok x, w'.withNodes l (cells.setIfInBounds done.size (.forced x))) := by
  have hforcing : (World.listNodes l).set done.size .forcing (w.withNodes l (done.push (.pending u))) =
      w.withNodes l (done.push .forcing) := by
    refine (hw.update_self _).trans ?_
    congr 1
    grind
  have hcell : ((w.withNodes l (done.push (.pending u))).nodesOf l)[done.size]? = some (.pending u) := by
    rw [hw.nodesOf_withNodes, Array.getElem?_push_size]
  rw [← hforcing] at hx
  rw [nodeAt_pending hcell hx]
  exact congrArg (fun w => some (Except.ok x, w)) (hw'.update_self _)

theorem addNode_withNodes {w : World} (hw : w.Reserved l) (cells : Array (Cell Unparsed Node)) (u : Unparsed) :
    Course.ofRun (Means.addNode l u) (w.withNodes l cells) =
      some (.ok (nodeNumber l cells.size), w.withNodes l (cells.push (.pending u))) := by
  refine Course.ofRun_eq_some.2 ?_
  show (Except.ok (nodeNumber l ((w.withNodes l cells).nodesOf l).size), _) = _
  rw [hw.nodesOf_withNodes]
  exact congrArg _ (hw.update_self _)

/-- **A match is an item of the list,** and the node after it waits for the next one. -/
theorem nodeAt_item {c : Bool} {z rest : Context} {w w' : World} {r : Outcome} {v : Value} (hw : w.Reserved l)
    (hr : eval env p z w = some (.ok r, w')) (hv : r.verdict = .success rest v)
    (hconsumed : rest.input.consumed ≠ z.input.consumed) (done : Array (Cell Unparsed Node)) :
    w'.Reserved l ∧ ∃ x, x = Node.item (itemOf env v rest (nodeNumber l (done.size + 1))) (nodeNumber l (done.size + 1)) ∧
      nodeAt env (nodeNumber l done.size) (w.withNodes l (done.push (.pending ⟨p, z, c⟩))) =
        some (.ok x, w'.withNodes l ((done.push (.forced x)).push (.pending ⟨p, rest, c || r.isCommitted⟩))) := by
  obtain ⟨q, w₁, w₂, hreveal, hrest, hvalue⟩ := eval_success hr hv
  obtain ⟨hw₁, hreveal⟩ := reveal_unread _ _ _ _ hw hreveal
  obtain ⟨hw₂, hrest⟩ := late_unread _ _ _ _ hw₁ hrest
  obtain ⟨hw', hvalue⟩ := late_unread _ _ _ _ hw₂ hvalue
  refine ⟨hw', _, rfl, ?_⟩
  have hnode : (reveal env (.apply p z) >>= nodeOf env l ⟨p, z, c⟩) (w.withNodes l (done.push .forcing)) =
      some (.ok (.item (itemOf env v rest (nodeNumber l (done.size + 1))) (nodeNumber l (done.size + 1))),
        w'.withNodes l ((done.push .forcing).push (.pending ⟨p, rest, c || r.isCommitted⟩))) := by
    rw [Course.bind_of_ok (hreveal _)]
    refine (Course.bind_of_ok (hrest _)).trans ?_
    rw [if_neg hconsumed, Course.bind_of_ok (hvalue _), Course.bind_of_ok (addNode_withNodes hw' _ _), Array.size_push]
    rfl
  rw [nodeAt_last hw hw' hnode]
  congr 3
  grind

/-- **The last application is the end of the list.** -/
theorem nodeAt_stop {c : Bool} {z : Context} {w w' : World} {r : Outcome} (hw : w.Reserved l)
    (hr : eval env p z w = some (.ok r, w')) (hstop : Stops z r) (done : Array (Cell Unparsed Node)) :
    ∃ w'', nodeAt env (nodeNumber l done.size) (w.withNodes l (done.push (.pending ⟨p, z, c⟩))) =
      some (.ok (.ended ⟨z, finishOf (c || r.isCommitted) r⟩), w'') := by
  have hend : ∀ w₁ : World, w₁.Reserved l →
      (reveal env (.apply p z) >>= nodeOf env l ⟨p, z, c⟩) (w.withNodes l (done.push .forcing)) =
        some (.ok (.ended ⟨z, finishOf (c || r.isCommitted) r⟩), w₁.withNodes l (done.push .forcing)) →
      ∃ w'', nodeAt env (nodeNumber l done.size) (w.withNodes l (done.push (.pending ⟨p, z, c⟩))) =
        some (.ok (.ended ⟨z, finishOf (c || r.isCommitted) r⟩), w'') :=
    fun w₁ hw₁ hnode => ⟨_, nodeAt_last hw hw₁ hnode⟩
  cases hv : r.verdict with
  | failure rest message =>
    obtain ⟨hw', hreveal⟩ := reveal_unread _ _ _ _ hw (eval_failure hr hv)
    refine hend w' hw' ((Course.bind_of_ok (hreveal _)).trans ?_)
    match r, hv with
    | .plain _, rfl =>
      rw [show (c || (Result.plain (Verdict.failure rest message) : Outcome).isCommitted) = c from Bool.or_false c]
      rfl
    | .committed _, rfl => rfl
  | success rest v =>
    obtain ⟨q, w₁, w₂, hreveal, hrest, -⟩ := eval_success hr hv
    obtain ⟨hw₁, hreveal⟩ := reveal_unread _ _ _ _ hw hreveal
    obtain ⟨hw₂, hrest⟩ := late_unread _ _ _ _ hw₁ hrest
    refine hend w₂ hw₂ ((Course.bind_of_ok (hreveal _)).trans ((Course.bind_of_ok (hrest _)).trans ?_))
    rw [Stops, hv] at hstop
    rw [if_pos hstop]
    match r, hv with
    | .plain _, rfl => rfl
    | .committed _, rfl => rfl

/-- The values of a list: those of the stateful engines come with a state. -/
def produced (env : Env) (v : Value) : Value :=
  match env.stateful, v with
  | true, .record _ fields => (fields.lookup "value").getD .absent
  | _, v => v

theorem produced_itemOf (v : Value) (z : Context) (next : Nat) : produced env (itemOf env v z next) = v := by
  unfold produced itemOf Means.emit
  rw [show (means env 0).env = env from rfl]
  cases env.stateful <;> rfl

/-- **A list gives the matches,** and it ends as they do, after the last of them. -/
theorem Repeats.reads_last {c c' : Bool} {z : Context} {w w' : World} {items : List (Value × Context)} {last : Outcome}
    (h : Repeats env p c z w items c' last w') (hw : w.Reserved l) (done : Array (Cell Unparsed Node)) :
    ∃ vs w'', Reads (nodeAt env) (nodeNumber l done.size) (w.withNodes l (done.push (.pending ⟨p, z, c⟩))) vs
        (.ok ⟨lastContext z items, finishOf c' last⟩) w'' ∧ vs.map (produced env) = items.map Prod.fst := by
  induction h generalizing done with
  | stop hr hstop =>
    obtain ⟨w'', hnode⟩ := nodeAt_stop hw hr hstop done
    exact ⟨[], w'', .ended hnode, rfl⟩
  | item hr hv hconsumed _ ih =>
    obtain ⟨hw₁, x, rfl, hnode⟩ := nodeAt_item hw hr hv hconsumed done
    obtain ⟨vs, w'', hreads, hvs⟩ := ih hw₁ (done.push (.forced _))
    rw [Array.size_push] at hreads
    exact ⟨_ :: vs, w'', .item hnode hreads, congrArg₂ List.cons (produced_itemOf _ _ _) hvs⟩

theorem Repeats.reads {c c' : Bool} {z : Context} {w w' : World} {items : List (Value × Context)} {last : Outcome}
    (h : Repeats env p c z w items c' last w') (hw : w.Reserved l) (done : Array (Cell Unparsed Node)) :
    ∃ vs rest w'', Reads (nodeAt env) (nodeNumber l done.size) (w.withNodes l (done.push (.pending ⟨p, z, c⟩))) vs
        (.ok ⟨rest, finishOf c' last⟩) w'' ∧ vs.map (produced env) = items.map Prod.fst := by
  obtain ⟨vs, w'', hreads, hvs⟩ := h.reads_last hw done
  exact ⟨vs, _, w'', hreads, hvs⟩

end List

end CommittedChoice.OnDemand
