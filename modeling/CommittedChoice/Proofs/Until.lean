import CommittedChoice.Proofs.Matches

/-!
# Items up to a terminator

`manyUntil` applies its parser as `many` does, but the application that ends the matches does not end the repetition. Unless
it is committed, the terminator follows, at the end of the chain of matches; if that fails plainly as well, the repetition
fails there with the messages of both. After a committed application there is no way back: a failure is the result, and a
match that consumed nothing is a failure of its own.

- `Engine.untilTurn_after`: a turn is an application of the parser;
- `Engine.until_stops`: the matches of the chain and what comes after them;
- `Engine.closing_cases`: what the terminator makes of them;
- `Engine.manyUntil_decided`: all of it.
-/

namespace CommittedChoice

open Run (Ends)
open Strict (Outcome)

/-- Why there is no other item after an application that ends the matches. -/
def Verdict.lack : Verdict Context Value → String
  | .failure _ message => message
  | .success _ _ => Message.emptyItem

/-- What is traced when an alternative has failed. -/
def Message.alternativeFailed (label message : String) : String := "alternative \"" ++ label ++ "\" failed: " ++ message

namespace Engine

variable {e : Engine} {env : Env} {p t : Parser}

/-! ## One turn -/

section Turn

variable (e env t)

/-- After the last item: the terminator, and the report of both if it fails plainly. -/
noncomputable def closing (c : Bool) (acc : Value) (z : Context) (lack : String) : Course Outcome := do
  Course.ofRun (env.trace (Message.alternativeFailed "item in a sequence" lack))
  match ← (e.semantics env).eval t z with
  | .plain (.failure _ message) =>
    Course.ofRun (env.trace (Message.alternativeFailed "sequence terminator" message))
    let report ← Course.ofRun (Run.ofExcept (Message.choiceReport env.settings.indent
      [("item in a sequence", lack), ("sequence terminator", message)]))
    pure ((Result.failure z report).commitIf c)
  | .committed (.failure rest message) => pure (.committed (.failure rest message))
  | .plain (.success rest _) => do
    return (Result.success rest (← (e.semantics env).exec (Act.array acc.items.reverse))).commitIf c
  | .committed (.success rest _) => do
    return .committed (.success rest (← (e.semantics env).exec (Act.array acc.items.reverse)))

/-- What becomes of the items after the application that ends them. -/
noncomputable def ending (c : Bool) (acc : Value) (z : Context) (last : Outcome) : Course Outcome :=
  if last.isCommitted then
    match last.verdict with
    | .failure _ _ => pure last
    | .success rest _ => pure (.committed (.failure rest Message.emptyItem))
  else closing e env t c acc z last.verdict.lack

/-- What an application of the parser means for the repetition. -/
noncomputable def untilAfter (next : Bool → Value → Context → Course Outcome) (c : Bool) (acc : Value) (z : Context)
    (r : Outcome) : Course Outcome :=
  match r.verdict with
  | .failure _ _ => ending e env t c acc z r
  | .success rest v =>
    if rest.input.consumed = z.input.consumed then ending e env t c acc z r
    else next (c || r.isCommitted) (.keep v acc) rest

end Turn

/-- The item of a turn: it fails if it consumed nothing. -/
theorem eval_item (acc : Value) (z : Context) :
    (e.semantics env).eval (.bind .position fun before => .pure <| .bind p fun a => .pure <| .bind .position fun after =>
      .pure <| if after.same before then .fail Message.emptyItem else .pure (.again (.keep a acc))) z =
      (e.semantics env).eval p z >>= fun r => r.bind fun z' v =>
        pure (if z'.input.consumed = z.input.consumed then .failure z' Message.emptyItem
          else .success z' (.again (.keep v acc))) := by
  have hposition : ∀ z, (e.semantics env).eval .position z = pure (.success z (.nat z.input.consumed)) :=
    fun z => eval_meaning rfl z
  rw [eval_bind_pure, hposition, pure_bind]
  show (e.semantics env).eval (.bind p _) z = _
  rw [eval_bind_pure]
  refine bind_congr fun r => congrArg (r.bind ·) (funext fun z' => funext fun v => ?_)
  rw [eval_bind_pure, hposition, pure_bind]
  show (e.semantics env).eval (if _ then _ else _) z' = _
  rw [Value.same_nat]
  by_cases h : z'.input.consumed = z.input.consumed
  · rw [if_pos (beq_iff_eq.2 h), if_pos h]
    exact eval_meaning rfl z'
  · rw [if_neg fun heq => h (beq_iff_eq.1 heq), if_neg h]
    exact eval_meaning rfl z'

/-- What a turn does when its first alternative has failed plainly. -/
theorem closing_eq (next : Bool → Value → Context → Course Outcome) (c : Bool) (acc : Value) (z : Context) (lack : String) :
    (Course.ofRun (env.trace (Message.alternativeFailed "item in a sequence" lack)) >>= fun _ =>
      (e.semantics env).alternatives env z [("item in a sequence", lack)]
        [("sequence terminator", .map t fun _ => do return .done (← .array acc.items.reverse))]) >>=
      Semantics.turn.after next c = closing e env t c acc z lack := by
  have hS := e.compositional env
  rw [closing, bind_assoc]
  refine bind_congr fun _ => ?_
  rw [Semantics.alternatives, hS.eval_map, bind_assoc, bind_assoc]
  refine bind_congr fun r => ?_
  -- the array is made when the terminator has succeeded
  have harray : (e.semantics env).exec (do return Value.done (← Act.array acc.items.reverse)) =
      Value.done <$> (e.semantics env).exec (Act.array acc.items.reverse) := by
    rw [exec_bind, map_eq_pure_bind]
    exact bind_congr fun a => exec_pure _
  match r with
  | .plain (.failure _ message) =>
    simp only [Result.map, Result.failure, pure_bind, bind_assoc, Semantics.alternatives, Semantics.turn_after,
      Result.verdict, Result.isCommitted, Bool.or_false]
    rfl
  | .committed (.failure rest message) =>
    simp only [Result.map, pure_bind, Semantics.turn_after, Result.verdict, Result.isCommitted, Bool.or_true]
    rfl
  | .plain (.success rest v) =>
    simp only [Result.map, harray, map_eq_pure_bind, bind_assoc, pure_bind]
    refine bind_congr fun a => ?_
    simp only [pure_bind, Semantics.turn_after, Result.success, Result.verdict, Result.isCommitted, Bool.or_false]
    rfl
  | .committed (.success rest v) =>
    simp only [Result.map, harray, map_eq_pure_bind, bind_assoc, pure_bind]
    refine bind_congr fun a => ?_
    simp only [Semantics.turn_after, Result.verdict, Result.isCommitted, Bool.or_true]
    rfl

/-- **A turn up to a terminator is an application of its parser.** -/
theorem untilTurn_after (next : Bool → Value → Context → Course Outcome) (c : Bool) (acc : Value) (z : Context) :
    (e.semantics env).eval (untilTurn p t acc) z >>= Semantics.turn.after next c =
      (e.semantics env).eval p z >>= untilAfter e env t next c acc z := by
  rw [untilTurn, eval_meaning rfl, Semantics.meaning, Semantics.alternatives, eval_item, bind_assoc, bind_assoc]
  refine bind_congr fun r => ?_
  have hclosing : ∀ lack, _ = closing e env t c acc z lack := closing_eq next c acc z
  obtain (⟨rest, v⟩ | ⟨_, message⟩) | (⟨rest, v⟩ | ⟨_, _⟩) := r
  · simp only [Result.bind, untilAfter, Result.verdict, pure_bind]
    by_cases h : rest.input.consumed = z.input.consumed
    · simp only [h, if_true]
      exact hclosing Message.emptyItem
    · simp only [h, if_false]
      rfl
  · exact hclosing message
  · simp only [Result.bind, untilAfter, Result.verdict, pure_bind]
    by_cases h : rest.input.consumed = z.input.consumed
    · simp only [h, if_true]
      cases c <;> rfl
    · simp only [h, if_false]
      rfl
  · cases c <;> rfl

/-! ## All turns -/

variable (e env p t) in
/-- The loop up to a terminator. -/
noncomputable def untilLoop : Bool → Value → Context → Course Outcome :=
  (e.semantics env).loop fun acc => .pure (untilTurn p t acc)

theorem untilLoop_unfold (c : Bool) (acc : Value) (z : Context) : untilLoop e env p t c acc z =
    (e.semantics env).eval p z >>= untilAfter e env t (untilLoop e env p t) c acc z := by
  rw [← untilTurn_after, ← body_pure]
  exact Course.Turn.loop_unfold c acc z

/-- After an application that ends the matches. -/
theorem untilAfter_of_stops {next : Bool → Value → Context → Course Outcome} {c : Bool} {acc : Value} {z : Context}
    {last : Outcome} (h : OnDemand.Stops z last) : untilAfter e env t next c acc z last = ending e env t c acc z last := by
  rw [untilAfter]
  cases hv : last.verdict with
  | failure rest message => rfl
  | success rest v =>
    rw [OnDemand.Stops, hv] at h
    exact if_pos h

/-- After a match that consumed something. -/
theorem untilAfter_match {next : Bool → Value → Context → Course Outcome} {c : Bool} {acc : Value} {z : Context} {m : Match}
    (h : z.input.consumed < m.after.input.consumed) : untilAfter e env t next c acc z m.result =
      next (c || m.committed) (.keep m.value acc) m.after := by
  rw [untilAfter, m.result_verdict, m.result_isCommitted]
  exact if_neg (Nat.ne_of_gt h)

/-- The loop goes through a chain of matches, and ends as the application after them says. -/
theorem untilLoop_eq_ok {c : Bool} {vs : List Value} {z : Context} {w w' : World} {r : Outcome} :
    untilLoop e env p t c (.kept vs) z w = some (.ok r, w') ↔ ∃ ms last w₁, Chain e env p z w ms last w₁ ∧
      ending e env t (c || ms.any Match.committed) (.kept ((ms.map Match.value).reverse ++ vs)) (endOf z ms) last w₁ =
        some (.ok r, w') := by
  constructor
  · intro h
    refine Course.Turn.loop_induction (R := fun c acc z w b => ∀ vs r w', acc = .kept vs → b = (.ok r, w') →
      ∃ ms last w₁, Chain e env p z w ms last w₁ ∧ ending e env t (c || ms.any Match.committed)
        (.kept ((ms.map Match.value).reverse ++ vs)) (endOf z ms) last w₁ = some (.ok r, w')) ?_ h vs r w' rfl rfl
    rintro next hnext c _ z w b hb vs r w' rfl rfl
    rw [body_pure, untilTurn_after] at hb
    obtain ⟨last, w₁, hlast, hafter⟩ := Course.bind_eq_ok hb
    by_cases hstop : OnDemand.Stops z last
    · rw [untilAfter_of_stops hstop] at hafter
      exact ⟨[], last, w₁, .stop (ends_result.2 hlast) hstop, by rw [List.any_nil, Bool.or_false]; exact hafter⟩
    · obtain ⟨m, rfl, hlarger⟩ : ∃ m : Match, m.result = last ∧ z.input.consumed < m.after.input.consumed := by
        have hle := consumed_le hlast
        rw [OnDemand.Stops] at hstop
        cases hv : last.verdict with
        | failure rest message => rw [hv] at hstop; exact absurd trivial hstop
        | success rest v =>
          rw [hv] at hstop hle
          obtain ⟨m, hm, rfl, -⟩ := exists_match hv
          exact ⟨m, hm, Nat.lt_of_le_of_ne hle (Ne.symm hstop)⟩
      rw [untilAfter_match hlarger, Value.keep_kept] at hafter
      obtain ⟨ms, last, w₂, hchain, hending⟩ := hnext _ _ _ _ _ hafter (m.value :: vs) r w' rfl rfl
      refine ⟨m :: ms, last, w₂, .link (ends_result.2 hlast) hlarger hchain, ?_⟩
      rw [List.any_cons, List.map_cons, List.reverse_cons, List.append_assoc, ← Bool.or_assoc]
      exact hending
  · rintro ⟨ms, last, w₁, hchain, hending⟩
    induction hchain generalizing c vs with
    | stop hlast hstop =>
      rw [List.any_nil, Bool.or_false] at hending
      rw [untilLoop_unfold, Course.bind_of_ok (ends_result.1 hlast), untilAfter_of_stops hstop]
      exact hending
    | link hm hlarger _ ih =>
      rw [untilLoop_unfold, Course.bind_of_ok (ends_result.1 hm), untilAfter_match hlarger, Value.keep_kept]
      rw [List.any_cons, List.map_cons, List.reverse_cons, List.append_assoc, ← Bool.or_assoc] at hending
      exact ih hending

/-- **The matches of the chain and what comes after them.** -/
theorem until_stops {z : Context} {w w' : World} {r : Outcome} :
    (e.semantics env).eval (.manyUntil p t) z w = some (.ok r, w') ↔ ∃ ms last w₁, Chain e env p z w ms last w₁ ∧
      ending e env t (ms.any Match.committed) (.kept (ms.map Match.value).reverse) (endOf z ms) last w₁ =
        some (.ok r, w') := by
  have hloop : (e.semantics env).eval (.manyUntil p t) z w = untilLoop e env p t false (.kept []) z w := by
    rw [manyUntil_eq, eval_meaning rfl, Semantics.meaning, untilLoop]
  rw [hloop, untilLoop_eq_ok]
  simp only [Bool.false_or, List.append_nil]

/-! ## The terminator -/

/-- **What the terminator makes of the items.** It is applied where they end, in the world in which the lack of another item
was traced. -/
theorem closing_cases {c : Bool} {vs : List Value} {z : Context} {lack : String} {w w' : World} {r : Outcome}
    (h : closing e env t c (.kept vs) z lack w = some (.ok r, w')) : ∃ w₁ rt w₂,
      env.trace (Message.alternativeFailed "item in a sequence" lack) w = (.ok (), w₁) ∧
      Ends (fun n => e.result env n t z) w₁ (.ok rt) w₂ ∧ r.isCommitted = (c || rt.isCommitted) ∧
      match rt with
      | .committed (.failure _ _) => r = rt
      | .plain (.failure _ message) => ∃ report, r.verdict = .failure z report ∧
          Message.choiceReport env.settings.indent [("item in a sequence", lack), ("sequence terminator", message)] =
            .ok report
      | .plain (.success rest _) | .committed (.success rest _) => ∃ id, r.verdict = .success rest (.array id vs.reverse) := by
  obtain ⟨_, w₁, htrace, h⟩ := Course.bind_eq_ok h
  obtain ⟨rt, w₂, hrt, h⟩ := Course.bind_eq_ok h
  refine ⟨w₁, rt, w₂, Course.ofRun_eq_some.1 htrace, ends_result.2 hrt, ?_⟩
  match rt with
  | .committed (.failure _ _) =>
    cases h
    exact ⟨(Bool.or_true _).symm, rfl⟩
  | .plain (.failure _ message) =>
    obtain ⟨_, w₃, -, h⟩ := Course.bind_eq_ok h
    obtain ⟨report, w₄, hreport, h⟩ := Course.bind_eq_ok h
    cases h
    refine ⟨?_, report, Result.verdict_commitIf _ _, ?_⟩
    · rw [Result.isCommitted_commitIf]
      rfl
    · generalize Message.choiceReport env.settings.indent _ = x at hreport ⊢
      cases x with
      | error e => cases hreport
      | ok m => cases hreport; rfl
  | .plain (.success rest _) =>
    obtain ⟨v, w₃, hv, h⟩ := Course.bind_eq_ok h
    obtain ⟨id, rfl⟩ := exec_array hv
    cases h
    exact ⟨Result.isCommitted_commitIf _ _, id, Result.verdict_commitIf _ _⟩
  | .committed (.success rest _) =>
    obtain ⟨v, w₃, hv, h⟩ := Course.bind_eq_ok h
    obtain ⟨id, rfl⟩ := exec_array hv
    cases h
    exact ⟨(Bool.or_true _).symm, id, rfl⟩

/-- **Items up to a terminator.** Where `manyUntil` ends in a result, there is one chain of matches that each consumed
something, up to an application of the parser that fails or consumes nothing. If that is a committed failure, it is the
result; if it is a committed success, the result is a committed failure that says so. Otherwise the terminator is applied
where the matches end: if it succeeds, the result is a success with the values of the matches, in order, at the context that
the terminator has left; if it fails for good, that is the result; if it fails plainly, the result is a failure where the
matches end, with the report of both. The result is committed exactly if one of the applications was, and this shows at
once. -/
theorem manyUntil_decided {z : Context} {w w' : World} {r : Outcome}
    (h : Ends (fun n => e.result env n (.manyUntil p t) z) w (.ok r) w') :
    ∃ ms last w₁, Chain e env p z w ms last w₁ ∧
      (∀ ms' last' w₁', Chain e env p z w ms' last' w₁' → ms' = ms ∧ last' = last ∧ w₁' = w₁) ∧
      (match last with
        | .committed (.failure _ _) => r = last
        | .committed (.success rest _) => r = .committed (.failure rest Message.emptyItem)
        | .plain v => ∃ w₂ rt w₃,
            env.trace (Message.alternativeFailed "item in a sequence" v.lack) w₁ = (.ok (), w₂) ∧
            Ends (fun n => e.result env n t (endOf z ms)) w₂ (.ok rt) w₃ ∧
            r.isCommitted = (ms.any Match.committed || rt.isCommitted) ∧
            match rt with
            | .committed (.failure _ _) => r = rt
            | .plain (.failure _ message) => ∃ report, r.verdict = .failure (endOf z ms) report ∧
                Message.choiceReport env.settings.indent
                  [("item in a sequence", v.lack), ("sequence terminator", message)] = .ok report
            | .plain (.success rest _) | .committed (.success rest _) =>
                ∃ id, r.verdict = .success rest (.array id (ms.map Match.value))) ∧
      ∃ w₂, Ends (fun n => e.rawTag env n (.manyUntil p t) z) w (.ok r.tag) w₂ := by
  have heval := ends_result.1 h
  obtain ⟨ms, last, w₁, hchain, hending⟩ := until_stops.1 heval
  refine ⟨ms, last, w₁, hchain, fun _ _ _ h' => hchain.unique h', ?_,
    ends_rawTag_of_outright (OnDemand.outright_loop _ _) heval⟩
  match last with
  | .committed (.failure _ _) => cases hending; rfl
  | .committed (.success _ _) => cases hending; rfl
  | .plain v =>
    have hclosing := closing_cases hending
    rwa [List.reverse_reverse] at hclosing

theorem manyUntil_decided_items : ∃ ms last w₁, Chain (lazy true) ((lazy true).env (fun _ => .fail "") {}) decided
    ⟨.ofList [.text "a", .text "b"], .absent⟩ {} ms last w₁ ∧ ms.map Match.value = [.text "a", .text "b"] := by
  have huntil : Ends (fun n => (lazy true).result ((lazy true).env (fun _ => .fail "") {}) n
      (.manyUntil decided (.pure .absent)) ⟨.ofList [.text "a", .text "b"], .absent⟩) {}
      (.ok (.committed (.success ⟨.tokens [] 2, .absent⟩ (.array (.made 0) [.text "a", .text "b"])))) { made := 1 } :=
    ⟨14, rfl⟩
  obtain ⟨ms, last, w₁, hchain, -, hvalues, -⟩ := manyUntil_decided huntil
  refine ⟨ms, last, w₁, hchain, ?_⟩
  match last, hvalues with
  | .committed (.failure _ _), h | .committed (.success _ _), h => cases h
  | .plain _, ⟨_, .committed (.failure _ _), _, _, _, _, h⟩ => cases h
  | .plain _, ⟨_, .plain (.failure _ _), _, _, _, _, report, h, _⟩ => cases h
  | .plain _, ⟨_, .plain (.success _ _), _, _, _, _, id, h⟩ | .plain _, ⟨_, .committed (.success _ _), _, _, _, _, id, h⟩ =>
    injection h with _ harray
    injection harray with _ hitems
    exact hitems.symm

end Engine

end CommittedChoice
