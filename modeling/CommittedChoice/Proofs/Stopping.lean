import CommittedChoice.Proofs.Halting
import CommittedChoice.Proofs.Streaming
import Mathlib.Logic.Relation

/-!
# Where a repetition stops

A repetition is over when its parser fails plainly, or when it succeeds without having consumed a token. After a failure
the repetition has left what the parser was applied to. After such a success it has left what that success left: tokens
that were put back stay put back, and a state that was put stays put. A list that is parsed on demand is left before the
last application in both cases, so `many` and the list part ways there.

- `Engine.Folded`: a turn of a fold that is followed by another one;
- `Engine.fold_stops`: the turns of a fold and the application that ends them;
- `Engine.repetition_stops`: what every repetition has left;
- `Engine.many_stops`: the repetition that collects against the list.
-/

namespace CommittedChoice

open Run (Ends)
open Strict (Outcome)
open Relation (ReflTransGen)

/-- Where a fold is before a turn. -/
structure FoldState where
  committed : Bool
  acc : Value
  context : Context
  world : World

/-- What a fold gives after the application that ends it: `acc`, unless that is a failure that no choice may discard. A
success has left the context of that success, a failure the one before it. -/
def foldResult (committed : Bool) (acc : Value) (z : Context) (last : Outcome) : Outcome :=
  match last.verdict with
  | .success rest _ => (Result.success rest acc).commitIf (committed || last.isCommitted)
  | .failure rest message =>
    if last.isCommitted then .committed (.failure rest message) else (Result.success z acc).commitIf committed

theorem rest_of_foldResult {c : Bool} {acc v : Value} {z rest : Context} {last : Outcome}
    (h : (foldResult c acc z last).verdict = .success rest v) :
    rest = match last.verdict with
      | .success rest _ => rest
      | .failure _ _ => z := by
  have hcommitIf : ∀ (b : Bool) (z : Context), ((Result.success z acc).commitIf b).verdict = .success z acc :=
    fun b z => by cases b <;> rfl
  match last with
  | .plain (.success _ _) | .committed (.success _ _) => cases (hcommitIf _ _).symm.trans h; rfl
  | .plain (.failure _ _) => cases (hcommitIf _ _).symm.trans h; rfl
  | .committed (.failure _ _) => cases h

namespace Engine

variable {e : Engine} {env : Env} {p : Parser} {f : Value → Value → Act Value}

/-! ## One turn -/

variable (e env p f) in
/-- A turn that consumed a token leads to the next one. -/
inductive Folded : FoldState → FoldState → Prop
  | turn {c acc z w r w₁ z' v acc' w'} : (e.semantics env).eval p z w = some (.ok r, w₁) → r.verdict = .success z' v →
      z'.input.consumed ≠ z.input.consumed → (e.semantics env).exec (f acc v) w₁ = some (.ok acc', w') →
      Folded ⟨c, acc, z, w⟩ ⟨c || r.isCommitted, acc', z', w'⟩

variable (e env f) in
/-- What the result of the parser means for the fold. -/
noncomputable def foldAfter (next : Bool → Value → Context → Course Outcome) (c : Bool) (acc : Value) (z : Context)
    (r : Outcome) : Course Outcome :=
  match r.verdict with
  | .failure _ _ => pure (foldResult c acc z r)
  | .success rest v =>
    if rest.input.consumed = z.input.consumed then pure (foldResult c acc z r)
    else (e.semantics env).exec (f acc v) >>= fun acc => next (c || r.isCommitted) acc rest

/-- What a turn of a fold does after its parser: it compares two readings of what was consumed. -/
theorem exec_foldEnd (acc v : Value) (m n : Nat) :
    (e.semantics env).exec (if (Value.nat n).same (.nat m) then .pure (.done acc) else do return .again (← f acc v)) =
      if n = m then pure (.done acc) else Value.again <$> (e.semantics env).exec (f acc v) := by
  rw [Value.same_nat]
  by_cases h : n = m
  · rw [if_pos (beq_iff_eq.2 h), if_pos h, exec_pure]
  · rw [if_neg fun heq => h (beq_iff_eq.1 heq), if_neg h, exec_bind, map_eq_pure_bind]
    exact bind_congr fun a => exec_pure _

/-- **A turn of a fold is an application of its parser.** -/
theorem foldTurn_after (next : Bool → Value → Context → Course Outcome) (c : Bool) (acc : Value) (z : Context) :
    (e.semantics env).eval (foldTurn p f acc) z >>= Semantics.turn.after next c =
      (e.semantics env).eval p z >>= e.foldAfter env f next c acc z := by
  have hposition : ∀ z, (e.semantics env).eval .position z = pure (.success z (.nat z.input.consumed)) :=
    fun z => eval_meaning rfl z
  have hpure : ∀ v z, (e.semantics env).eval (.pure v) z = pure (.success z v) := fun v z => eval_meaning rfl z
  -- the item, and what was consumed after it against what was consumed before
  have hitem : (e.semantics env).eval (.bind .position fun before => .pure <| .bind p fun a => .pure <|
      .map .position fun after => if after.same before then .pure (.done acc) else do return .again (← f acc a)) z =
      (e.semantics env).eval p z >>= fun r => r.bind fun z' v => Result.success z' <$>
        if z'.input.consumed = z.input.consumed then pure (.done acc)
        else Value.again <$> (e.semantics env).exec (f acc v) := by
    rw [eval_bind_pure, hposition, pure_bind]
    show (e.semantics env).eval (.bind p _) z = _
    rw [eval_bind_pure]
    refine bind_congr fun r => congrArg (r.bind ·) (funext fun z' => funext fun v => ?_)
    rw [eval_meaning rfl, Semantics.meaning, hposition, pure_bind, ← exec_foldEnd]
    exact (map_eq_pure_bind _ _).symm
  rw [foldTurn, eval_meaning rfl, Semantics.meaning, hitem, hpure, bind_assoc, bind_assoc]
  refine bind_congr fun r => ?_
  rcases r with ⟨⟨z', v⟩ | _⟩ | ⟨⟨z', v⟩ | _⟩
  case plain.failure => simp only [Result.bind, Semantics.orElse, Result.failure, pure_bind]; cases c <;> rfl
  case committed.failure => simp only [Result.bind, Semantics.orElse, pure_bind]; cases c <;> rfl
  case plain.success =>
    simp only [Result.bind, Semantics.orElse, foldAfter, Result.verdict, Result.isCommitted]
    by_cases h : z'.input.consumed = z.input.consumed
    · simp only [h, if_true, map_pure, pure_bind]
      rfl
    · simp only [h, if_false, map_eq_pure_bind, bind_assoc, pure_bind]
      rfl
  case committed.success =>
    simp only [Result.bind, Semantics.orElse, foldAfter, Result.verdict, Result.isCommitted]
    by_cases h : z'.input.consumed = z.input.consumed
    · simp only [h, if_true, map_pure, pure_bind]
      rfl
    · simp only [h, if_false, map_eq_pure_bind, bind_assoc, pure_bind]
      rfl

/-! ## All turns -/

variable (e env p f) in
/-- The loop of a fold. -/
noncomputable def foldLoop : Bool → Value → Context → Course Outcome :=
  (e.semantics env).loop fun acc => .pure (foldTurn p f acc)

theorem foldLoop_unfold (c : Bool) (acc : Value) (z : Context) :
    foldLoop e env p f c acc z = (e.semantics env).eval p z >>= e.foldAfter env f (foldLoop e env p f) c acc z := by
  rw [← foldTurn_after, ← body_pure]
  exact Course.Turn.loop_unfold c acc z

/-- The fold goes on as it does from the next turn. -/
theorem Folded.foldLoop_eq {s s' : FoldState} (h : Folded e env p f s s') :
    foldLoop e env p f s.committed s.acc s.context s.world =
      foldLoop e env p f s'.committed s'.acc s'.context s'.world := by
  cases h with
  | turn hr hv hconsumed hacc =>
    rw [foldLoop_unfold, Course.bind_of_ok hr, foldAfter, hv]
    exact (congrFun (if_neg hconsumed) _).trans (Course.bind_of_ok hacc)

theorem foldLoop_of_stops {c : Bool} {acc : Value} {z : Context} {w w' : World} {last : Outcome}
    (hlast : (e.semantics env).eval p z w = some (.ok last, w')) (hstop : OnDemand.Stops z last) :
    foldLoop e env p f c acc z w = some (.ok (foldResult c acc z last), w') := by
  rw [foldLoop_unfold, Course.bind_of_ok hlast, foldAfter]
  cases hv : last.verdict with
  | failure rest message => rfl
  | success rest v =>
    rw [OnDemand.Stops, hv] at hstop
    exact congrFun (if_pos hstop) w'

/-- **A fold goes through turns that each consumed a token,** up to an application of its parser that failed or consumed
nothing, and `foldResult` is what that application makes of it. -/
theorem fold_stops {init : Value} {z : Context} {w w' : World} {r : Outcome} :
    (e.semantics env).eval (.repeatFold p init f) z w = some (.ok r, w') ↔
      ∃ s last, ReflTransGen (Folded e env p f) ⟨false, init, z, w⟩ s ∧
        (e.semantics env).eval p s.context s.world = some (.ok last, w') ∧ OnDemand.Stops s.context last ∧
        r = foldResult s.committed s.acc s.context last := by
  have hloop : (e.semantics env).eval (.repeatFold p init f) z w = foldLoop e env p f false init z w := by
    rw [repeatFold_eq, eval_meaning rfl, Semantics.meaning, foldLoop]
  rw [hloop]
  constructor
  · intro h
    refine Course.Turn.loop_induction (R := fun c acc z w b => ∀ r w', b = (.ok r, w') → ∃ s last,
      ReflTransGen (Folded e env p f) ⟨c, acc, z, w⟩ s ∧
        (e.semantics env).eval p s.context s.world = some (.ok last, w') ∧ OnDemand.Stops s.context last ∧
        r = foldResult s.committed s.acc s.context last) ?_ h r w' rfl
    rintro next hnext c acc z w b hb r w' rfl
    rw [body_pure, foldTurn_after] at hb
    obtain ⟨last, w₁, hlast, hafter⟩ := Course.bind_eq_ok hb
    cases hv : last.verdict with
    | failure rest message =>
      rw [foldAfter, hv] at hafter
      cases hafter
      exact ⟨_, last, .refl, hlast, by rw [OnDemand.Stops, hv]; trivial, rfl⟩
    | success rest v =>
      simp only [foldAfter, hv] at hafter
      by_cases hconsumed : rest.input.consumed = z.input.consumed
      · rw [if_pos hconsumed] at hafter
        cases hafter
        exact ⟨_, last, .refl, hlast, by rw [OnDemand.Stops, hv]; exact hconsumed, rfl⟩
      · rw [if_neg hconsumed] at hafter
        obtain ⟨acc', w₂, hacc, hrest⟩ := Course.bind_eq_ok hafter
        obtain ⟨s, last', hturns, hstop⟩ := hnext _ _ _ _ _ hrest r w' rfl
        exact ⟨s, last', .head (.turn hlast hv hconsumed hacc) hturns, hstop⟩
  · rintro ⟨s, last, hturns, hlast, hstop, rfl⟩
    -- the induction is on the turns, from the last one back
    have hsame : ∀ {s₀}, ReflTransGen (Folded e env p f) s₀ s →
        foldLoop e env p f s₀.committed s₀.acc s₀.context s₀.world =
          foldLoop e env p f s.committed s.acc s.context s.world := by
      intro s₀ hturns
      induction hturns using ReflTransGen.head_induction_on with
      | refl => rfl
      | head hturn _ ih => exact hturn.foldLoop_eq.trans ih
    exact (hsame hturns).trans (foldLoop_of_stops hlast hstop)

/-! ## The repetitions -/

/-- The loop of a repetition: a fold of the parser, of whose value something else may be made. -/
inductive Repeating (p : Parser) (init : Value) (f : Value → Value → Act Value) : Parser → Prop
  | fold : Repeating p init f (.repeatFold p init f)
  | made {q : Parser} (h : Repeating p init f q) (g : Value → Act Value) : Repeating p init f (.map q g)

/-- What `many` does with a match. -/
def collecting (acc v : Value) : Act Value := .pure (.keep v acc)

theorem repeating_many (p : Parser) : Repeating p (.kept []) collecting (.many p) := .made .fold _

theorem repeating_skipMany (p : Parser) : Repeating p .absent (fun _ _ => .pure .absent) (.skipMany p) := .fold

/-- After the first match, `many1` runs such a loop. -/
theorem repeating_many1 (p : Parser) : ∃ q : Value → Parser,
    Parser.many1 p = .bind (.headed "In a sequence" p) (fun x => .pure (q x)) ∧
    ∀ x, Repeating p (.kept []) collecting (q x) :=
  ⟨_, rfl, fun _ => (repeating_many p).made _⟩

theorem repeating_sepBy1 (p sep : Parser) : ∃ q : Value → Parser,
    Parser.sepBy1 p sep =
      .headed "When looking for a non-empty sequence with separators" (.bind p fun x => .pure (q x)) ∧
    ∀ x, Repeating (.seqRight sep p) (.kept []) collecting (q x) :=
  ⟨_, rfl, fun _ => (repeating_many _).made _⟩

theorem repeating_chainl1 (p op : Parser) (ds : Definitions) : ∃ q : Value → Parser,
    Parser.chainl1 p op ds = .bind p (fun x => .pure (q x)) ∧
    ∀ x, Repeating (.pair op p) x (fun acc link => Act.call ds "f" link.fst [acc, link.snd]) (q x) :=
  ⟨_, rfl, fun _ => .fold⟩

theorem repeating_chainr1 (p op : Parser) (ds : Definitions) : ∃ q : Value → Parser,
    Parser.chainr1 p op ds = .bind p (fun x => .pure (q x)) ∧
    ∀ x, Repeating (.pair op p) (.kept []) collecting (q x) :=
  ⟨_, rfl, fun _ => .made .fold _⟩

/-- Where a function is applied to what a parser gives, the context is that of the parser. -/
theorem success_of_map {q : Parser} {g : Value → Act Value} {z rest : Context} {w w' : World} {r : Outcome} {v : Value}
    (h : (e.semantics env).eval (.map q g) z w = some (.ok r, w')) (hv : r.verdict = .success rest v) :
    ∃ r₁ w₁ a, (e.semantics env).eval q z w = some (.ok r₁, w₁) ∧ r₁.verdict = .success rest a := by
  rw [eval_meaning rfl] at h
  obtain ⟨r₁, w₁, hr₁, h⟩ := Course.bind_eq_ok h
  refine ⟨r₁, w₁, ?_⟩
  match r₁ with
  | .plain (.success _ a) | .committed (.success _ a) =>
    obtain ⟨_, _, _, hpure⟩ := Course.bind_eq_ok h
    cases hpure
    cases hv
    exact ⟨a, hr₁, rfl⟩
  | .plain (.failure _ _) | .committed (.failure _ _) => cases h; cases hv

theorem Repeating.stops {init : Value} {q : Parser} (hq : Repeating p init f q) {z rest : Context} {w w' : World}
    {r : Outcome} {v : Value} (h : (e.semantics env).eval q z w = some (.ok r, w')) (hv : r.verdict = .success rest v) :
    ∃ s last w₁, ReflTransGen (Folded e env p f) ⟨false, init, z, w⟩ s ∧
      (e.semantics env).eval p s.context s.world = some (.ok last, w₁) ∧ OnDemand.Stops s.context last ∧
      rest = match last.verdict with
        | .success rest _ => rest
        | .failure _ _ => s.context := by
  induction hq generalizing w' r v with
  | fold =>
    obtain ⟨s, last, hturns, hlast, hstop, rfl⟩ := fold_stops.1 h
    exact ⟨s, last, w', hturns, hlast, hstop, rest_of_foldResult hv⟩
  | made _ g ih =>
    obtain ⟨r₁, w₁, a, hr₁, hv₁⟩ := success_of_map h hv
    exact ih hr₁ hv₁

/-- **Where a repetition stops.** The loop of a repetition goes through turns that each consumed a token, up to an
application of its parser that failed or consumed nothing. If that failed, the repetition has left the context to which
the parser was applied; if it succeeded, the repetition has left what that success left. -/
theorem repetition_stops {init : Value} {q : Parser} (hq : Repeating p init f q) {z rest : Context} {w w' : World}
    {v : Value} (h : Ends (fun n => e.parse env n q z) w (.ok (.success rest v)) w') :
    ∃ s last w₁, ReflTransGen (Folded e env p f) ⟨false, init, z, w⟩ s ∧
      (e.semantics env).eval p s.context s.world = some (.ok last, w₁) ∧ OnDemand.Stops s.context last ∧
      rest = match last.verdict with
        | .success rest _ => rest
        | .failure _ _ => s.context := by
  obtain ⟨r, lines, hr, hv⟩ := eval_of_ends h
  exact hq.stops hr hv

theorem repetition_stops_again : ∃ s last w₁,
    ReflTransGen
      (Folded (lazy true) ((lazy true).env (fun _ => .fail "") {}) (.pushBack [.text "x"]) fun _ _ => .pure .absent)
      ⟨false, .absent, ⟨.ofList [.text "a"], .nat 0⟩, {}⟩ s ∧
    (((lazy true).semantics ((lazy true).env (fun _ => .fail "") {})).eval (.pushBack [.text "x"]) s.context s.world =
      some (.ok last, w₁)) ∧
    (⟨.pushed (.text "x") [] (.ofList [.text "a"]) 0, .nat 0⟩ : Context) = match last.verdict with
      | .success rest _ => rest
      | .failure _ _ => s.context := by
  have hparse : Ends (fun n => (lazy true).parse ((lazy true).env (fun _ => .fail "") {}) n
      (.skipMany (.pushBack [.text "x"])) ⟨.ofList [.text "a"], .nat 0⟩) {}
      (.ok (.success ⟨.pushed (.text "x") [] (.ofList [.text "a"]) 0, .nat 0⟩ .absent)) {} := ⟨20, rfl⟩
  obtain ⟨s, last, w₁, hturns, hlast, -, hrest⟩ := repetition_stops (repeating_skipMany _) hparse
  exact ⟨s, last, w₁, hturns, hlast, hrest⟩

/-! ## Collecting against a list -/

/-- The turns of a fold that collects are the matches of its parser. -/
theorem repeats_of_folded {stateful : Bool} {s s' : FoldState} {last : Outcome} {w' : World}
    (hturns : ReflTransGen (Folded (lazy stateful) env p collecting) s s')
    (hlast : OnDemand.eval env p s'.context s'.world = some (.ok last, w')) (hstop : OnDemand.Stops s'.context last) :
    ∃ items, OnDemand.Repeats env p s.committed s.context s.world items (s'.committed || last.isCommitted) last w' ∧
      OnDemand.lastContext s.context items = s'.context := by
  induction hturns using ReflTransGen.head_induction_on with
  | refl => exact ⟨[], .stop hlast hstop, rfl⟩
  | head hturn _ ih =>
    obtain ⟨items, hrepeats, hcontext⟩ := ih
    cases hturn with
    | @turn c acc z w r w₁ z' v acc' w₂ hr hv hconsumed hacc =>
      rw [collecting, exec_pure] at hacc
      cases hacc
      exact ⟨(v, z') :: items, .item hr hv hconsumed hrepeats, hcontext⟩

/-- **`many` and the list part ways where a match consumed nothing.** The list ends after the last match that consumed a
token. So does `many` if a failure ended it; if a success ended it, `many` has left what that success left. -/
theorem many_stops {stateful : Bool} {z rest : Context} {w w' : World} {xs : Value}
    (h : Ends (fun n => (lazy stateful).parse env n (.many p) z) w.reserve (.ok (.success rest xs)) w') :
    ∃ items c last w₁ vs e, OnDemand.Repeats env p false z w.reserve items c last w₁ ∧
      OnDemand.Streamed env p z w vs e ∧ e.rest = OnDemand.lastContext z items ∧
      rest = match last.verdict with
        | .success rest _ => rest
        | .failure _ _ => OnDemand.lastContext z items := by
  obtain ⟨r, lines, hr, hv⟩ := eval_of_ends h
  obtain ⟨s, last, w₁, hturns, hlast, hstop, hrest⟩ := (repeating_many p).stops hr hv
  obtain ⟨items, hrepeats, hcontext⟩ := repeats_of_folded hturns hlast hstop
  obtain ⟨vs, w₂, hreads, -⟩ := hrepeats.reads_last w.reserved_reserve #[]
  have hstreamed := OnDemand.Reads.streamed (w.makeList_reserve ⟨p, z, false⟩) hreads
  exact ⟨items, _, last, w₁, vs, _, hrepeats, hstreamed, rfl, hcontext ▸ hrest⟩

/-- Where a match puts a state and consumes nothing, `many` keeps the state, in both engines; the list does not. -/
theorem many_keeps_put :
    (∃ w, Ends (fun n => (strict true).parse ((strict true).env (fun _ => .fail "") {}) n (.many (.put (.nat 1)))
      ⟨.ofList [.text "a"], .nat 0⟩) {} (.ok (.success ⟨.ofList [.text "a"], .nat 1⟩ (.array (.made 0) []))) w) ∧
    (∃ w, Ends (fun n => (lazy true).parse ((lazy true).env (fun _ => .fail "") {}) n (.many (.put (.nat 1)))
      ⟨.ofList [.text "a"], .nat 0⟩) {} (.ok (.success ⟨.ofList [.text "a"], .nat 1⟩ (.array (.made 0) []))) w) ∧
    (∃ w, Ends (fun n => (strict true).parse ((strict true).env (fun _ => .fail "") {}) n (.put (.nat 1))
      ⟨.ofList [.text "a"], .nat 0⟩) {} (.ok (.success ⟨.ofList [.text "a"], .nat 1⟩ .absent)) w) ∧
    ∃ vs e, OnDemand.Streamed ((lazy true).env (fun _ => .fail "") {}) (.put (.nat 1)) ⟨.ofList [.text "a"], .nat 0⟩ {}
      vs e ∧ e.rest.state = .nat 0 := by
  refine ⟨⟨_, 20, rfl⟩, ⟨_, 20, rfl⟩, ⟨_, 20, rfl⟩, ?_⟩
  have hput : OnDemand.eval ((lazy true).env (fun _ => .fail "") {}) (.put (.nat 1)) ⟨.ofList [.text "a"], .nat 0⟩
      (World.reserve {}) = some (.ok (.success ⟨.ofList [.text "a"], .nat 1⟩ .absent), World.reserve {}) :=
    congrFun (OnDemand.eval_meaning rfl _) _
  obtain ⟨vs, w₂, hreads, -⟩ := (OnDemand.Repeats.stop (c := false) hput rfl).reads_last (World.reserved_reserve {}) #[]
  exact ⟨vs, _, OnDemand.Reads.streamed (World.makeList_reserve {} _) hreads, rfl⟩

end Engine

end CommittedChoice
