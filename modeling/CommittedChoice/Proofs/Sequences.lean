import CommittedChoice.Proofs.Bounded

/-!
# Parsers one after the other

`sequence` counts up to the length of a list, `times` counts down from a number, and both keep the values of the parsers
that they run. Neither differs from the parsers bound one after the other. What `times` adds is the headline above a
message: the number that is left when a parser fails, which is a double, so it says how many matches are missing only as
far as integers are doubles.

- `Parser.inTurn`: parsers bound one after the other;
- `Engine.gather`: the same as a course, with a continuation for the values (`loop_eq_gather`);
- `Engine.Succession`: the matches of parsers one after the other, and the run that ends them;
- `Engine.sequence_ends`, `Engine.times_ends`: what the loops make of them;
- `Engine.times_in_turn`: all of it.
-/

namespace CommittedChoice

open Run (limit Ends)
open Strict (Outcome)

/-- The units and the breaks of a text, one character after the other. -/
theorem Text.units_eq (s : String) : units s = s.toList.foldl (fun n c => n + unitsOf c) 0 :=
  String.foldl_eq_foldl_toList

theorem Text.breaks_eq (s : String) : breaks s = s.toList.foldl (fun n c => if c = '\n' then n + 1 else n) 0 :=
  String.foldl_eq_foldl_toList

theorem Message.under_eq_ok {headline message text : String} {width : Nat}
    (hunits : underUnits headline width message ≤ Text.longest) (htext : underText headline width message = text) :
    under headline width message = .ok text := by
  rw [under, bounded, if_pos hunits, htext]

/-- The headline of `times`. -/
def Message.missing (left : String) : String := "When expecting exactly " ++ left ++ " more items"

namespace Parser

/-- The parsers bound one after the other, and then an array of `vs` and their values. -/
def inTurn : List Parser → List Value → Act Parser
  | [], vs => do return .pure (← Act.array vs)
  | p :: ps, vs => .pure (.bind p fun v => inTurn ps (vs ++ [v]))

/-- A parser under a headline that says how many matches are missing. -/
def missing (p : Parser) (left : Number) : Parser := headed (Message.missing left.text) p

/-- So many copies of a parser, each of them under the number that is left. -/
def countedDown (p : Parser) : Number → Nat → List Parser
  | _, 0 => []
  | left, k + 1 => p.missing left :: countedDown p (left.sub (.whole 1)) k

theorem length_countedDown (p : Parser) (left : Number) (k : Nat) : (p.countedDown left k).length = k := by
  induction k generalizing left with
  | zero => rfl
  | succ k ih => exact congrArg (· + 1) (ih _)

theorem getElem?_countedDown {p q : Parser} {left : Number} {k i : Nat} (h : (p.countedDown left k)[i]? = some q) :
    i < k ∧ q = p.missing (left.countdown i) := by
  induction k generalizing left i with
  | zero => cases h
  | succ k ih =>
    cases i with
    | zero => cases h; exact ⟨Nat.succ_pos k, rfl⟩
    | succ i =>
      obtain ⟨hi, hq⟩ := ih h
      exact ⟨Nat.succ_lt_succ hi, hq⟩

end Parser

namespace Number

/-- Natural numbers up to the bound are written with their digits. -/
theorem text_small {n : Nat} (h : n ≤ exactBound) : (Number.whole n).text = toString n := by
  rcases Nat.lt_or_eq_of_le h with h | rfl
  · rw [text, Int.natAbs_natCast, if_pos h, intText, if_neg (by omega), Int.natAbs_natCast, String.empty_append]
    rfl
  · decide +kernel

theorem ofNat_small {n : Nat} (h : n ≤ exactBound) : ofNat n = .whole n := by
  rcases Nat.lt_or_eq_of_le h with h | rfl
  · exact ofInt_of_small h
  · rfl

end Number

/-! ## Failed runs -/

/-- A failure: whether it is committed, where it is, and its message. -/
structure Miss where
  committed : Bool
  rest : Context
  message : String

/-- The result that is a failure. -/
def Miss.result (f : Miss) : Outcome := (Result.failure f.rest f.message).commitIf f.committed

/-- The failure with its message under a headline. -/
def Miss.under (f : Miss) (headline : String) (width : Nat) : Except Fault Miss :=
  (Message.under headline width f.message).map fun message => { f with message := message }

/-- A result is a match or a failure. -/
theorem match_or_miss (r : Outcome) : (∃ m : Engine.Match, m.result = r) ∨ ∃ f : Miss, f.result = r := by
  match r with
  | .plain (.success z v) => exact .inl ⟨⟨false, v, z⟩, rfl⟩
  | .committed (.success z v) => exact .inl ⟨⟨true, v, z⟩, rfl⟩
  | .plain (.failure z message) => exact .inr ⟨⟨false, z, message⟩, rfl⟩
  | .committed (.failure z message) => exact .inr ⟨⟨true, z, message⟩, rfl⟩

theorem Result.commitIf_commitIf {ζ α : Type} (b c : Bool) (r : Result ζ α) :
    (r.commitIf c).commitIf b = r.commitIf (b || c) := by
  cases b <;> cases c <;> rfl

namespace Miss

theorem result_verdict (f : Miss) : f.result.verdict = .failure f.rest f.message := Result.verdict_commitIf _ _

theorem result_ne_match (f : Miss) (m : Engine.Match) : f.result ≠ m.result := by
  intro h
  have hverdict := congrArg Result.verdict h
  rw [f.result_verdict, m.result_verdict] at hverdict
  cases hverdict

theorem adjust_result (f : Miss) (g : String → Course String) :
    f.result.adjust g = (fun message => result { f with message := message }) <$> g f.message := by
  obtain ⟨_ | _, z, message⟩ := f <;> exact (map_eq_pure_bind _ _).symm

end Miss

namespace Engine

variable {e : Engine} {env : Env} {p : Parser} {ps : List Parser}

theorem Match.adjust_result (m : Match) (g : String → Course String) : m.result.adjust g = pure m.result := by
  obtain ⟨_ | _, v, z⟩ := m <;> rfl

/-- A parser whose value is changed, and one that depends on the changed value. -/
theorem eval_bind_map (p : Parser) (f : Value → Value) (q : Value → Parser) (z : Context) :
    (e.semantics env).eval (.bind (.map p fun v => .pure (f v)) fun l => .pure (q l)) z =
      (e.semantics env).eval p z >>= fun r => r.bind fun z v => (e.semantics env).eval (q (f v)) z := by
  rw [eval_bind_pure, (e.compositional env).eval_map, bind_assoc]
  refine bind_congr fun r => ?_
  simp only [exec_pure]
  obtain (_ | _) | (_ | _) := r <;> rfl

/-! ## Loops that count -/

variable (e env) in
/-- Parsers one after the other, and what comes after them with the values so far. -/
noncomputable def gather (next : List Value → Context → Course Outcome) :
    List Parser → List Value → Context → Course Outcome
  | [], vs, z => next vs z
  | p :: ps, vs, z => do (← (e.semantics env).eval p z).bind fun z v => gather next ps (vs ++ [v]) z

/-- A loop whose state counts up goes through a list of parsers and collects their values. -/
theorem loop_eq_gather {step : Value → Act Parser} {state : Nat → List Value → Value}
    (hturn : ∀ i p vs, ps[i]? = some p →
      step (state i vs) = .pure (.map p fun v => .pure (.again (state (i + 1) (vs ++ [v]))))) (vs : List Value)
    (z : Context) : (e.semantics env).eval (.loop (state 0 vs) step) z =
      e.gather env (fun vs z => (e.semantics env).eval (.loop (state ps.length vs) step) z) ps vs z := by
  -- the induction is on the parsers, so the count starts anew after the first one
  induction ps generalizing state vs z with
  | nil => rfl
  | cons p ps ih =>
    rw [(e.compositional env).loop_step, hturn 0 p vs rfl, exec_pure, pure_bind, Parser.unfolding, eval_bind_map, gather]
    refine bind_congr fun r => congrArg r.bind (funext fun z => funext fun v => ?_)
    exact @ih (fun i => state (i + 1)) (fun i => hturn (i + 1)) (vs ++ [v]) z

/-- A loop that is over. -/
theorem loop_ended {step : Value → Act Parser} {s : Value} {vs : List Value} (h : step s = Parser.ended (.kept vs))
    (z : Context) : (e.semantics env).eval (.loop s step) z = finishing e env false vs z := by
  rw [eval_meaning rfl, Semantics.meaning, Semantics.loop, Course.Turn.loop_unfold, Semantics.body, h]
  exact ended_after _ false vs z

theorem gather_inTurn (ps : List Parser) (vs : List Value) (z : Context) :
    ((e.semantics env).exec (Parser.inTurn ps vs) >>= fun q => (e.semantics env).eval q z) =
      e.gather env (fun vs => finishing e env false vs.reverse) ps vs z := by
  have hS := e.compositional env
  induction ps generalizing vs z with
  | nil =>
    rw [Parser.inTurn, exec_bind, bind_assoc, gather, finishing, List.reverse_reverse]
    refine bind_congr fun v => ?_
    rw [show (pure (Parser.pure v) : Act Parser) = .pure _ from rfl, exec_pure, pure_bind, hS.eval_pure]
    rfl
  | cons p ps ih =>
    rw [Parser.inTurn, exec_pure, pure_bind, hS.eval_bind, gather]
    exact bind_congr fun r => congrArg r.bind (funext fun z => funext fun v => ih (vs ++ [v]) z)

/-! ## Successions -/

variable (e env) in
/-- The matches of parsers one after the other, and what the run came to that was no match, if there is one. -/
inductive Succession : List Parser → Context → World → List Match → Option (Except Fault Miss) → World → Prop
  | done (z : Context) (w : World) : Succession [] z w [] none w
  | ended {p : Parser} {ps : List Parser} {z : Context} {w w' : World} {x : Except Fault Miss}
      (hx : Ends (fun n => e.result env n p z) w (x.map Miss.result) w') : Succession (p :: ps) z w [] (some x) w'
  | next {p : Parser} {ps : List Parser} {z : Context} {w w₁ w' : World} {m : Match} {ms : List Match}
      {last : Option (Except Fault Miss)} (hm : Ends (fun n => e.result env n p z) w (.ok m.result) w₁)
      (hrest : Succession ps m.after w₁ ms last w') : Succession (p :: ps) z w (m :: ms) last w'

/-- A match comes before what the other parsers gather, and its commitment covers that. -/
theorem gather_match {next : List Value → Context → Course Outcome} {vs : List Value} {z : Context} {w w₁ : World}
    {m : Match} (hm : (e.semantics env).eval p z w = some (.ok m.result, w₁)) : e.gather env next (p :: ps) vs z w =
      (Result.commitIf m.committed <$> e.gather env next ps (vs ++ [m.value]) m.after) w₁ := by
  rw [gather, Course.bind_of_ok hm, m.bind_result]

namespace Succession

/-- Parsers that have matched and others after them. -/
theorem append {qs : List Parser} {z : Context} {w w₁ w₂ : World} {ms ms' : List Match}
    {last last' : Option (Except Fault Miss)} (h : Succession e env ps z w ms last w₁) (hlast : last = none)
    (h' : Succession e env qs (endOf z ms) w₁ ms' last' w₂) : Succession e env (ps ++ qs) z w (ms ++ ms') last' w₂ := by
  induction h with
  | done z w => exact h'
  | ended _ => cases hlast
  | next hm _ ih => exact .next hm (ih hlast h')

/-- All parsers have matched. -/
theorem gather_matched {z : Context} {w w₁ : World} {ms : List Match} {last : Option (Except Fault Miss)}
    (h : Succession e env ps z w ms last w₁) (hlast : last = none) (next : List Value → Context → Course Outcome)
    (vs : List Value) : e.gather env next ps vs z w =
      (Result.commitIf (ms.any Match.committed) <$> next (vs ++ ms.map Match.value) (endOf z ms)) w₁ := by
  induction h generalizing vs with
  | done z w =>
    rw [gather, List.map_nil, List.append_nil]
    exact (congrFun (id_map (next vs z)) w).symm
  | ended _ => cases hlast
  | @next _ _ _ _ _ _ m _ _ hm _ ih =>
    rw [gather_match (ends_result.1 hm), Course.map_congr_at _ (ih hlast _), Functor.map_map]
    simp only [Result.commitIf_commitIf, List.append_assoc]
    rfl

/-- A parser has not matched. -/
theorem gather_ended {z : Context} {w w₁ : World} {ms : List Match} {last : Option (Except Fault Miss)}
    {x : Except Fault Miss} (h : Succession e env ps z w ms last w₁) (hlast : last = some x)
    (next : List Value → Context → Course Outcome) (vs : List Value) : e.gather env next ps vs z w =
      some (x.map fun f => f.result.commitIf (ms.any Match.committed), w₁) := by
  induction h generalizing vs with
  | done z w => cases hlast
  | ended hx =>
    cases hlast
    rw [gather]
    cases x with
    | error fault => exact Course.bind_of_error (ends_result.1 hx)
    | ok f =>
      rw [Course.bind_of_ok (ends_result.1 hx), bind_failed f.result_verdict]
      rfl
  | next hm _ ih =>
    rw [gather_match (ends_result.1 hm), map_eq_pure_bind]
    cases x with
    | error fault => exact Course.bind_of_error (ih hlast _)
    | ok f =>
      refine (Course.bind_of_ok (ih hlast _)).trans ?_
      exact congrArg (fun r => some (Except.ok r, _)) (Result.commitIf_commitIf _ _ _)

/-- Where parsers one after the other end, they have matched up to a run that is no match. -/
theorem exists_of_gather {next : List Value → Context → Course Outcome} {vs : List Value} {z : Context} {w : World}
    {b : Except Fault Outcome × World} (h : e.gather env next ps vs z w = some b) :
    ∃ ms last w₁, Succession e env ps z w ms last w₁ := by
  induction ps generalizing vs z w b with
  | nil => exact ⟨[], none, w, .done z w⟩
  | cons p ps ih =>
    rw [gather] at h
    obtain ⟨r, w₁, hr, h⟩ | ⟨fault, w₁, hfault, -⟩ := Course.bind_eq_some h
    · obtain ⟨m, rfl⟩ | ⟨f, rfl⟩ := match_or_miss r
      · rw [m.bind_result, map_eq_pure_bind] at h
        have hrest : ∃ b, e.gather env next ps (vs ++ [m.value]) m.after w₁ = some b := by
          obtain ⟨r, w₂, hr, -⟩ | ⟨fault, w₂, hfault, -⟩ := Course.bind_eq_some h
          · exact ⟨_, hr⟩
          · exact ⟨_, hfault⟩
        obtain ⟨b, hb⟩ := hrest
        obtain ⟨ms, last, w₂, hms⟩ := ih hb
        exact ⟨m :: ms, last, w₂, .next (ends_result.2 hr) hms⟩
      · exact ⟨[], some (.ok f), w₁, .ended (ends_result.2 hr)⟩
    · exact ⟨[], some (.error fault), w₁, .ended (ends_result.2 hfault)⟩

end Succession

/-- What becomes of matches one after the other from `z` on, in the world after them: an array of their values if nothing
has ended them. -/
def gathered (z : Context) (ms : List Match) (last : Option (Except Fault Miss)) (w : World) :
    Except Fault Outcome × World :=
  match last with
  | none => (.ok ((Result.success (endOf z ms) (.array (.made w.made) (ms.map Match.value))).commitIf
      (ms.any Match.committed)), { w with made := w.made + 1 })
  | some x => (x.map fun f => f.result.commitIf (ms.any Match.committed), w)

theorem Succession.gather_finishing {z : Context} {w w₁ : World} {ms : List Match} {last : Option (Except Fault Miss)}
    (h : Succession e env ps z w ms last w₁) : e.gather env (fun vs => finishing e env false vs.reverse) ps [] z w =
      some (gathered z ms last w₁) := by
  cases last with
  | none =>
    rw [h.gather_matched rfl, map_eq_pure_bind, Course.bind_of_ok (finishing_eq _ _ _ _), List.reverse_reverse]
    rfl
  | some x => exact h.gather_ended rfl _ _

/-! ## Sequences -/

/-- The turn of `sequence`. -/
def sequenceTurn (ps : List Parser) (s : Value) : Act Parser :=
  let i := s.fst.integer.toNat
  match ps[i]? with
  | none => Parser.ended s.snd
  | some p => .pure (.map p fun v => .pure (.again (.both (.nat (i + 1)) (.keep v s.snd))))

/-- The state of `sequence` after so many parsers with these values. -/
def sequenceState (i : Nat) (vs : List Value) : Value := .both (.nat i) (.kept vs.reverse)

theorem sequenceTurn_eq (ps : List Parser) (i : Nat) (vs : List Value) : sequenceTurn ps (sequenceState i vs) =
    match ps[i]? with
    | none => Parser.ended (.kept vs.reverse)
    | some p => .pure (.map p fun v => .pure (.again (sequenceState (i + 1) (vs ++ [v])))) := by
  simp only [sequenceState, List.reverse_append]
  rfl

theorem eval_sequence (ps : List Parser) (z : Context) : (e.semantics env).eval (.sequence ps) z =
    e.gather env (fun vs => finishing e env false vs.reverse) ps [] z := by
  have hturn : ∀ i p vs, ps[i]? = some p → sequenceTurn ps (sequenceState i vs) =
      .pure (.map p fun v => .pure (.again (sequenceState (i + 1) (vs ++ [v])))) := by
    intro i p vs hp
    rw [sequenceTurn_eq, hp]
  refine (loop_eq_gather hturn [] z).trans ?_
  congr 1
  funext vs z
  exact loop_ended ((sequenceTurn_eq _ _ _).trans (by rw [List.getElem?_eq_none (Nat.le_refl _)])) z

/-- **A sequence is its parsers bound one after the other.** -/
theorem same_sequence (ps : List Parser) : e.Same env (.sequence ps) (.deferred (Parser.inTurn ps [])) := by
  refine same_iff.2 fun z => ?_
  rw [Parser.deferred, (e.compositional env).bind_pure_left, gather_inTurn, eval_sequence]

/-- **What becomes of a sequence.** -/
theorem sequence_ends {ps : List Parser} {z : Context} {w w' : World} {x : Except Fault Outcome} :
    Ends (fun n => e.result env n (.sequence ps) z) w x w' ↔
      ∃ ms last w₁, Succession e env ps z w ms last w₁ ∧ gathered z ms last w₁ = (x, w') := by
  rw [ends_result, eval_sequence]
  constructor
  · intro h
    obtain ⟨ms, last, w₁, hms⟩ := Succession.exists_of_gather h
    rw [hms.gather_finishing] at h
    exact ⟨ms, last, w₁, hms, Option.some.inj h⟩
  · rintro ⟨ms, last, w₁, hms, hx⟩
    rw [hms.gather_finishing, hx]

/-! ## Headlines -/

theorem exec_headline (headline message : String) :
    (e.semantics env).exec (.width fun width => .ofExcept (Message.under headline width message)) =
      Course.ofRun (Run.ofExcept (Message.under headline env.settings.indent message)) := by
  have hexec : ∀ (lists : Lists), Act.exec env lists (.width fun width => .ofExcept (Message.under headline width message)) =
      Run.ofExcept (Message.under headline env.settings.indent message) := by
    intro lists
    rw [Act.exec]
    cases Message.under headline env.settings.indent message <;> rfl
  unfold semantics
  cases e.onDemand with
  | true => exact Run.limit_of_forall fun n => hexec _
  | false => exact congrArg Course.ofRun (hexec _)

/-- Under a headline, a match is what it was, and a failure has its message there. -/
theorem eval_headed_match {headline : String} {z : Context} {w w₁ : World} {m : Match}
    (hm : (e.semantics env).eval p z w = some (.ok m.result, w₁)) :
    (e.semantics env).eval (.headed headline p) z w = some (.ok m.result, w₁) := by
  rw [Parser.headed, (e.compositional env).eval_reword, Course.bind_of_ok hm, m.adjust_result]
  rfl

theorem eval_headed_ended {headline : String} {z : Context} {w w₁ : World} {x : Except Fault Miss}
    (hx : (e.semantics env).eval p z w = some (x.map Miss.result, w₁)) : (e.semantics env).eval (.headed headline p) z w =
      some ((x.bind fun f => f.under headline env.settings.indent).map Miss.result, w₁) := by
  rw [Parser.headed, (e.compositional env).eval_reword]
  cases x with
  | error fault => exact Course.bind_of_error hx
  | ok f =>
    rw [Course.bind_of_ok (show _ = some (Except.ok f.result, w₁) from hx), f.adjust_result, exec_headline]
    simp only [Except.bind, Miss.under]
    cases Message.under headline env.settings.indent f.message <;> rfl

/-- What a parser under a headline ends in comes from what the parser ends in. -/
theorem headed_cases {headline : String} {z : Context} {w : World} {b : Except Fault Outcome × World}
    (h : (e.semantics env).eval (.headed headline p) z w = some b) :
    (∃ m w₁, (e.semantics env).eval p z w = some (.ok (Match.result m), w₁) ∧ b = (.ok m.result, w₁)) ∨
    ∃ x w₁, (e.semantics env).eval p z w = some (Except.map Miss.result x, w₁) ∧
      b = ((x.bind fun f => f.under headline env.settings.indent).map Miss.result, w₁) := by
  have hends : ∃ b, (e.semantics env).eval p z w = some b := by
    rw [Parser.headed, (e.compositional env).eval_reword] at h
    obtain ⟨r, w₁, hr, -⟩ | ⟨fault, w₁, hfault, -⟩ := Course.bind_eq_some h
    · exact ⟨_, hr⟩
    · exact ⟨_, hfault⟩
  obtain ⟨⟨fault | r, w₁⟩, hb⟩ := hends
  · exact .inr ⟨.error fault, w₁, hb, Option.some.inj (h.symm.trans (eval_headed_ended (x := .error fault) hb))⟩
  · obtain ⟨m, rfl⟩ | ⟨f, rfl⟩ := match_or_miss r
    · exact .inl ⟨m, w₁, hb, Option.some.inj (h.symm.trans (eval_headed_match hb))⟩
    · exact .inr ⟨.ok f, w₁, hb, Option.some.inj (h.symm.trans (eval_headed_ended (x := .ok f) hb))⟩

/-- What ended the matches, with its message under the number that was left. -/
def countedAs (env : Env) (left : String) (last : Except Fault Miss) : Except Fault Miss :=
  last.bind fun f => f.under (Message.missing left) env.settings.indent

theorem countedAs_ok {env : Env} {left text : String} {f : Miss}
    (h : Message.under (Message.missing left) env.settings.indent f.message = .ok text) :
    countedAs env left (.ok f) = .ok { f with message := text } :=
  congrArg (Except.map fun message => ({ f with message := message } : Miss)) h

namespace Succession

variable {z : Context} {w w₁ : World} {ms : List Match} {last : Option (Except Fault Miss)} {k : Nat}

theorem length_eq (h : Succession e env ps z w ms last w₁) :
    ms.length ≤ ps.length ∧ (last = none ↔ ms.length = ps.length) := by
  induction h with
  | done z w => exact ⟨Nat.le_refl _, iff_of_true rfl rfl⟩
  | ended _ => exact ⟨Nat.zero_le _, iff_of_false nofun (Nat.succ_ne_zero _).symm⟩
  | next _ _ ih => exact ⟨Nat.succ_le_succ ih.1, ih.2.trans Nat.succ_inj.symm⟩

/-- Parsers after the one that did not match are of no account. -/
theorem take {x : Except Fault Miss} (h : Succession e env ps z w ms last w₁) (hlast : last = some x)
    (hk : ms.length < k) : Succession e env (ps.take k) z w ms last w₁ := by
  induction h generalizing k with
  | done z w => cases hlast
  | ended hx =>
    obtain ⟨k, rfl⟩ := Nat.exists_eq_succ_of_ne_zero (Nat.ne_of_gt hk)
    exact .ended hx
  | next hm _ ih =>
    obtain ⟨k, rfl⟩ := Nat.exists_eq_succ_of_ne_zero (Nat.ne_zero_of_lt hk)
    exact .next hm (ih hlast (Nat.lt_of_succ_lt_succ hk))

/-- Copies of a parser under headlines match where the parser does. -/
theorem countedDown (left : Number) (h : Succession e env (.replicate k p) z w ms last w₁) :
    Succession e env (p.countedDown left k) z w ms (last.map (countedAs env (left.countdown ms.length).text)) w₁ := by
  induction k generalizing left z w ms with
  | zero => cases h; exact .done _ _
  | succ k ih =>
    cases h with
    | ended hx => exact .ended (ends_result.2 (eval_headed_ended (ends_result.1 hx)))
    | next hm hrest => exact .next (ends_result.2 (eval_headed_match (ends_result.1 hm))) (ih (left.sub (.whole 1)) hrest)

/-- Where copies under headlines match, so does the parser. -/
theorem of_countedDown {left : Number} (h : Succession e env (p.countedDown left k) z w ms last w₁) :
    ∃ last', Succession e env (.replicate k p) z w ms last' w₁ := by
  induction k generalizing left z w ms with
  | zero => cases h; exact ⟨none, .done _ _⟩
  | succ k ih =>
    cases h with
    | @ended _ _ _ _ _ x hx =>
      obtain ⟨m, w₂, -, hb⟩ | ⟨y, w₂, hy, hb⟩ := headed_cases (ends_result.1 hx)
      · cases x with
        | error fault => cases hb
        | ok f => exact absurd (Except.ok.inj (congrArg Prod.fst hb)) (f.result_ne_match m)
      · cases congrArg Prod.snd hb
        exact ⟨some y, .ended (ends_result.2 hy)⟩
    | @next _ _ _ _ _ _ m _ _ hm hrest =>
      obtain ⟨m', w₂, hm', hb⟩ | ⟨y, w₂, -, hb⟩ := headed_cases (ends_result.1 hm)
      · cases Match.result_injective (Except.ok.inj (congrArg Prod.fst hb))
        cases congrArg Prod.snd hb
        obtain ⟨last', hms⟩ := ih hrest
        exact ⟨last', .next (ends_result.2 hm') hms⟩
      · generalize (y.bind fun f => f.under _ _) = x at hb
        cases x with
        | error fault => cases hb
        | ok f => exact absurd (Except.ok.inj (congrArg Prod.fst hb)).symm (f.result_ne_match m)

end Succession

/-! ## Counting down -/

/-- The turn of `times`. -/
def timesTurn (p : Parser) (s : Value) : Act Parser :=
  match s.fst with
  | .number left =>
    if left.atMost (.whole 0) then Parser.ended s.snd
    else .pure (.map (p.missing left) fun v => .pure (.again (.both (.number (left.sub (.whole 1))) (.keep v s.snd))))
  | _ => Parser.ended s.snd

/-- The state of `times` after so many matches with these values. -/
def timesState (n : Number) (i : Nat) (vs : List Value) : Value := .both (.number (n.countdown i)) (.kept vs.reverse)

theorem timesTurn_eq (n : Number) (i : Nat) (vs : List Value) : timesTurn p (timesState n i vs) =
    if (n.countdown i).atMost (.whole 0) then Parser.ended (.kept vs.reverse)
    else .pure (.map (p.missing (n.countdown i)) fun v => .pure (.again (timesState n (i + 1) (vs ++ [v])))) := by
  simp only [timesState, List.reverse_append, ← Number.countdown_sub_one]
  rfl

/-- As long as something is left, `times` goes through copies of the parser under headlines. -/
theorem eval_times {n : Number} {k : Nat} (hleft : ∀ i < k, (n.countdown i).atMost (.whole 0) = false) (z : Context) :
    (e.semantics env).eval (.times n p) z = e.gather env
      (fun vs z => (e.semantics env).eval (.loop (timesState n k vs) (timesTurn p)) z) (p.countedDown n k) [] z := by
  have hturn : ∀ i q vs, (p.countedDown n k)[i]? = some q → timesTurn p (timesState n i vs) =
      .pure (.map q fun v => .pure (.again (timesState n (i + 1) (vs ++ [v])))) := by
    intro i q vs hq
    obtain ⟨hi, rfl⟩ := Parser.getElem?_countedDown hq
    rw [timesTurn_eq, if_neg (by rw [hleft i hi]; exact Bool.false_ne_true)]
  have hloop : (e.semantics env).eval (.loop (timesState n 0 []) (timesTurn p)) z = _ := loop_eq_gather hturn [] z
  rwa [Parser.length_countedDown] at hloop

/-- A number up to the bound is used up after as many matches. -/
theorem eval_times_small {n : Nat} (hn : n ≤ Number.exactBound) (z : Context) :
    (e.semantics env).eval (.times (.whole n) p) z = e.gather env (fun vs => finishing e env false vs.reverse)
      (p.countedDown (.whole n) n) [] z := by
  have hleft : ∀ i, i ≤ n → ((Number.whole n).countdown i).atMost (.whole 0) = decide (n - i = 0) := fun i hi => by
    rw [Number.countdown_small hn hi, Number.atMost_zero]
  rw [eval_times (k := n) fun i hi => (hleft i hi.le).trans (decide_eq_false (by omega))]
  congr 1
  funext vs z
  exact loop_ended ((timesTurn_eq _ _ _).trans (if_pos ((hleft n le_rfl).trans (decide_eq_true (by omega))))) z

/-- **What becomes of `times`,** for a number up to the bound. -/
theorem times_ends {n : Nat} (hn : n ≤ Number.exactBound) {z : Context} {w w' : World} {x : Except Fault Outcome} :
    Ends (fun k => e.result env k (.times (.ofNat n) p) z) w x w' ↔
      ∃ ms last w₁, Succession e env (.replicate n p) z w ms last w₁ ∧
        gathered z ms (last.map (countedAs env (toString (n - ms.length)))) w₁ = (x, w') := by
  rw [ends_result, Number.ofNat_small hn, eval_times_small hn]
  have hgathered : ∀ {ms last w₁}, Succession e env (.replicate n p) z w ms last w₁ →
      e.gather env (fun vs => finishing e env false vs.reverse) (p.countedDown (.whole n) n) [] z w =
        some (gathered z ms (last.map (countedAs env (toString (n - ms.length)))) w₁) := by
    intro ms last w₁ hms
    have hlength : ms.length ≤ n := hms.length_eq.1.trans_eq List.length_replicate
    rw [(hms.countedDown _).gather_finishing, Number.countdown_small hn hlength,
      Number.text_small ((Nat.sub_le _ _).trans hn)]
  constructor
  · intro h
    obtain ⟨ms, last, w₁, hms⟩ := Succession.exists_of_gather h
    obtain ⟨last, hms⟩ := hms.of_countedDown
    rw [hgathered hms] at h
    exact ⟨ms, last, w₁, hms, Option.some.inj h⟩
  · rintro ⟨ms, last, w₁, hms, hx⟩
    rw [hgathered hms, hx]

/-- A number above the bound lasts for fewer than `2 ^ 53` matches, and says what is left of it as a double. -/
theorem times_ends_large {n : Nat} (hn : Number.ofNat n = .whole n) {z : Context} {w w₁ : World} {ms : List Match}
    {x : Except Fault Miss} (h : Succession e env (.replicate n p) z w ms (some x) w₁)
    (hms : ms.length < Number.exactBound) : Ends (fun k => e.result env k (.times (.ofNat n) p) z) w
      ((countedAs env ((Number.ofNat n).countdown ms.length).text x).map fun f =>
        f.result.commitIf (ms.any Match.committed)) w₁ := by
  have htaken := h.take rfl hms
  rw [List.take_replicate] at htaken
  rw [ends_result, eval_times (k := min Number.exactBound n) fun i hi =>
    Number.countdown_pos hn (hi.trans_le (Nat.min_le_right _ _)) (hi.trans_le (Nat.min_le_left _ _))]
  exact (htaken.countedDown _).gather_ended rfl _ _

/-- **A counted repetition, a sequence of copies, and the copies bound one after the other.** The sequence is the parsers
bound one after the other. Both loops end where there are matches one after the other, `n` of them or fewer with a run
after them that is no match, and they make the same of them: an array of `n` values, or the failure, at the same place and
committed if one of the runs was. But `times` puts the message under how many matches are missing. That is exact up to
`2 ^ 53`; above it, as long as fewer matches than that were counted, the headline has what is left of the double. Both show
the tag of their result at once. -/
theorem times_in_turn (n : Nat) (p : Parser) (z : Context) (w : World) :
    e.Same env (.sequence (.replicate n p)) (.deferred (Parser.inTurn (.replicate n p) [])) ∧
    (∀ ms last w₁, Succession e env (.replicate n p) z w ms last w₁ →
      ms.length ≤ n ∧ (last = none ↔ ms.length = n) ∧
      (∀ x w', gathered z ms last w₁ = (x, w') →
        Ends (fun k => e.result env k (.sequence (.replicate n p)) z) w x w') ∧
      (n ≤ Number.exactBound → ∀ x w', gathered z ms (last.map (countedAs env (toString (n - ms.length)))) w₁ = (x, w') →
        Ends (fun k => e.result env k (.times (.ofNat n) p) z) w x w') ∧
      (Number.ofNat n = .whole n → ms.length < Number.exactBound → ∀ x w', last ≠ none →
        gathered z ms (last.map (countedAs env ((Number.ofNat n).countdown ms.length).text)) w₁ = (x, w') →
        Ends (fun k => e.result env k (.times (.ofNat n) p) z) w x w')) ∧
    (∀ x w', Ends (fun k => e.result env k (.sequence (.replicate n p)) z) w x w' ∨
        n ≤ Number.exactBound ∧ Ends (fun k => e.result env k (.times (.ofNat n) p) z) w x w' →
      ∃ ms last w₁, Succession e env (.replicate n p) z w ms last w₁) ∧
    ∀ q, q = .sequence (.replicate n p) ∨ q = .times (.ofNat n) p → ∀ r w',
      Ends (fun k => e.result env k q z) w (.ok r) w' → ∃ w₁, Ends (fun k => e.rawTag env k q z) w (.ok r.tag) w₁ := by
  refine ⟨same_sequence _, fun ms last w₁ hms => ?_, ?_, ?_⟩
  · have hlength := hms.length_eq
    rw [List.length_replicate] at hlength
    refine ⟨hlength.1, hlength.2, fun x w' hx => sequence_ends.2 ⟨ms, last, w₁, hms, hx⟩,
      fun hn x w' hx => (times_ends hn).2 ⟨ms, last, w₁, hms, hx⟩, fun hn hsmall x w' hlast hx => ?_⟩
    obtain ⟨y, rfl⟩ := Option.ne_none_iff_exists'.1 hlast
    cases hx
    exact times_ends_large hn hms hsmall
  · rintro x w' (h | ⟨hn, h⟩)
    · obtain ⟨ms, last, w₁, hms, -⟩ := sequence_ends.1 h
      exact ⟨ms, last, w₁, hms⟩
    · obtain ⟨ms, last, w₁, hms, -⟩ := (times_ends hn).1 h
      exact ⟨ms, last, w₁, hms⟩
  · rintro q (rfl | rfl) r w' h
    · exact ends_rawTag_of_outright (OnDemand.outright_loop _ _) (ends_result.1 h)
    · exact ends_rawTag_of_outright (OnDemand.outright_loop _ _) (ends_result.1 h)

theorem times_in_turn_second : Ends (fun k => (lazy true).result ((lazy true).env (fun _ => .fail "") {}) k
    (.times (.ofNat 2) .next) ⟨.ofText "a", .absent⟩) {}
      (.ok (.plain (.failure ⟨.chars [] 1, .absent⟩
        "When expecting exactly 1 more items:\n  unexpected end of input"))) {} := by
  have hms : Succession (lazy true) ((lazy true).env (fun _ => .fail "") {}) (.replicate 2 .next)
      ⟨.ofText "a", .absent⟩ {} [⟨false, .text "a", ⟨.chars [] 1, .absent⟩⟩]
      (some (.ok ⟨false, ⟨.chars [] 1, .absent⟩, Message.noTokenLeft⟩)) {} := .next ⟨3, rfl⟩ (.ended ⟨3, rfl⟩)
  have hunder : Message.under (Message.missing (toString (2 - 1))) 2 Message.noTokenLeft =
      .ok "When expecting exactly 1 more items:\n  unexpected end of input" :=
    Message.under_eq_ok (by simp only [Message.underUnits, Message.indentUnits, Text.units_eq, Text.breaks_eq]; decide +kernel)
      (by decide +kernel)
  refine ((times_in_turn 2 .next _ _).2.1 _ _ _ hms).2.2.2.1 (by decide) _ _ ?_
  have hcounted : countedAs ((lazy true).env (fun _ => .fail "") {}) (toString (2 - 1))
      (.ok ⟨false, ⟨.chars [] 1, .absent⟩, Message.noTokenLeft⟩) = .ok ⟨false, ⟨.chars [] 1, .absent⟩, _⟩ :=
    countedAs_ok hunder
  rw [Option.map_some, List.length_singleton, hcounted]
  rfl

/-- Above the bound, the number of missing matches may be no double. Of `2 ^ 53 + 2` matches, one less is missing after the
first one, and the headline says `2 ^ 53`. -/
theorem times_miscounts : ¬ ∀ (n : Nat) (p : Parser) (z : Context) (w w₁ : World) (ms : List Match) (x : Except Fault Miss),
    Number.ofNat n = .whole n →
    Succession (lazy true) ((lazy true).env (fun _ => .fail "") {}) (.replicate n p) z w ms (some x) w₁ →
    Ends (fun k => (lazy true).result ((lazy true).env (fun _ => .fail "") {}) k (.times (.ofNat n) p) z) w
      ((countedAs ((lazy true).env (fun _ => .fail "") {}) (toString (n - ms.length)) x).map fun f =>
        f.result.commitIf (ms.any Match.committed)) w₁ := by
  intro hclaim
  have hn : Number.ofNat 9007199254740994 = .whole (9007199254740994 : Nat) := rfl
  have hms : Succession (lazy true) ((lazy true).env (fun _ => .fail "") {}) (.replicate 9007199254740994 .next)
      ⟨.ofText "a", .absent⟩ {} [⟨false, .text "a", ⟨.chars [] 1, .absent⟩⟩]
      (some (.ok ⟨false, ⟨.chars [] 1, .absent⟩, Message.noTokenLeft⟩)) {} := by
    rw [show 9007199254740994 = 9007199254740992 + 1 + 1 from rfl, List.replicate_succ, List.replicate_succ]
    exact .next ⟨3, rfl⟩ (.ended ⟨3, rfl⟩)
  have hcounted : ∀ left, left = "9007199254740993" ∨ left = "9007199254740992" →
      countedAs ((lazy true).env (fun _ => .fail "") {}) left (.ok ⟨false, ⟨.chars [] 1, .absent⟩, Message.noTokenLeft⟩) =
        .ok ⟨false, ⟨.chars [] 1, .absent⟩, Message.underText (Message.missing left) 2 Message.noTokenLeft⟩ := by
    refine fun left hleft => countedAs_ok (Message.under_eq_ok ?_ rfl)
    simp only [Message.underUnits, Message.indentUnits, Text.units_eq, Text.breaks_eq]
    rcases hleft with rfl | rfl <;> decide +kernel
  have hclaimed := ends_result.1 (hclaim _ _ _ _ _ _ _ hn hms)
  rw [List.length_singleton, show toString (9007199254740994 - 1) = "9007199254740993" by decide +kernel,
    hcounted _ (.inl rfl)] at hclaimed
  have hgiven := ends_result.1 (times_ends_large hn hms (by decide +kernel))
  rw [List.length_singleton, show ((Number.ofNat 9007199254740994).countdown 1).text = "9007199254740992" by decide +kernel,
    hcounted _ (.inr rfl)] at hgiven
  injection hclaimed.symm.trans hgiven with hends
  injection hends with hresult
  injection hresult with hresult
  injection hresult with hverdict
  injection hverdict with _ hmessage
  exact absurd hmessage (by decide +kernel)

end Engine

end CommittedChoice
