import CommittedChoice.Proofs.Engines
import CommittedChoice.Proofs.OnDemand.Order

/-!
# Token accounting

However an engine gets to what is left of an input, by reading, going back, putting tokens back or failing early, the tokens
that are left and the position that is reported are in step.

- `Domain.run_within`, `Engine.eval_within`: no engine leaves a set of remainders that reading does not leave;
- `Remainder.Accounts`: what is left of an input against the whole of it;
- `accounts`: the set of the remainders of which that holds;
- `Engine.parse_accounts`: it holds of what is left after a parse.
-/

namespace CommittedChoice

open Run (limit Ends)
open Strict (Outcome)

/-- The context of a success or a failure. -/
def Verdict.rest {ζ α : Type} : Verdict ζ α → ζ
  | .success z _ => z
  | .failure z _ => z

/-! ## The strict engine -/

namespace Domain

variable {D : Domain} {env : Env} {w₀ : World}

theorem ensures_exec {α : Type} (act : Act α) : D.Ensures w₀ (act.exec env .none) fun _ _ => True :=
  .of_keeps (@Act.exec_related _ (congruence_keeps _) env .none .none α (fun _ => keeps_of_plain (.fault _))
    (fun _ => keeps_of_plain (.fault _)) act)

theorem ensures_exec_gives {act : Act Parser} (h : Parser.Gives D.Admits act) :
    D.Ensures w₀ (act.exec env .none) fun _ q => q.Throughout D.Admits :=
  fun w hw => ⟨(ensures_exec act w hw).1, fun _ _ hq => h.exec hq⟩

/-- The context of a result is in the set. -/
def Outcomes (D : Domain) (w : World) (r : Outcome) : Prop := D.Has w r.verdict.rest

theorem ensures_outcome {r : Outcome} (h : D.Outcomes w₀ r) : D.Ensures w₀ (pure r) D.Outcomes :=
  .pure fun _ hw => Has.mono hw.before h

section Layers

variable {apply : Parser → Context → Run Outcome} (happly : ∀ {w₀ p z}, p.Throughout D.Admits → D.Has w₀ z →
  D.Ensures w₀ (apply p z) D.Outcomes)

include happly

theorem strict_alternatives {z : Context} : ∀ {w₀ : World} (failures : List (String × String))
    {ps : List (String × Parser)}, Parser.Each D.Admits ps → D.Has w₀ z →
      D.Ensures w₀ (Strict.alternatives env apply z failures ps) D.Outcomes
  | w₀, failures, [], _, hz =>
    (Ensures.of_keeps (keeps_of_plain (.ofExcept _))).bind fun _ _ hw₁ _ => ensures_outcome (hz.mono hw₁.before)
  | w₀, failures, (label, p) :: rest, hps, hz => by
    rw [Parser.Each] at hps
    refine (happly hps.1 hz).bind fun w₁ r hw₁ hr => ?_
    rcases r with ⟨_ | ⟨_, message⟩⟩ | _
    · exact ensures_outcome hr
    · refine (Ensures.of_keeps (keeps_of_plain (.print _))).bind fun w₂ _ hw₂ _ => ?_
      exact strict_alternatives _ hps.2 (hz.mono (hw₁.trans hw₂).before)
    · exact ensures_outcome hr

theorem strict_turns {step : Value → Act Parser} (hstep : ∀ v, Parser.Gives D.Admits (step v)) :
    ∀ (n : Nat) {w₀ : World} (c : Bool) (state : Value) {z : Context}, D.Has w₀ z →
      D.Ensures w₀ (Strict.turns env apply step n c state z) D.Outcomes
  | 0, _, _, _, _, _ => .outOfFuel
  | n + 1, w₀, c, state, z, hz => by
    have hcommitIf : ∀ {w : World} {r : Outcome} (b : Bool), D.Outcomes w r → D.Outcomes w (r.commitIf b) :=
      fun b h => by cases b <;> exact h
    refine (ensures_exec_gives (hstep state)).bind fun w₁ p hw₁ hp => ?_
    refine (happly hp (hz.mono hw₁.before)).bind fun w₂ r _ hr => ?_
    unfold Outcomes at hr
    dsimp only
    cases hv : r.verdict with
    | failure z' message =>
      rw [hv] at hr
      exact ensures_outcome (hcommitIf _ (r := .failure z' message) hr)
    | success z' v =>
      rw [hv] at hr
      dsimp only
      cases v.toStep with
      | done value => exact ensures_outcome (hcommitIf _ (r := .success z' value) hr)
      | again state => exact strict_turns hstep n _ state hr

end Layers

/-- **The strict engine does not leave the set.** -/
theorem run_within (hgrammar : ∀ name, (env.grammar name).Throughout D.Admits) : ∀ (n : Nat) {w₀ : World} {p : Parser}
    {z : Context}, p.Throughout D.Admits → D.Has w₀ z → D.Ensures w₀ (Strict.run env n p z) D.Outcomes
  | 0, _, _, _, _, _ => .outOfFuel
  | n + 1, w₀, p, z, hp, hz => by
    have ih : ∀ {w₀ p z}, p.Throughout D.Admits → D.Has w₀ z → D.Ensures w₀ (Strict.run env n p z) D.Outcomes :=
      run_within hgrammar n
    cases p with
    | map p f =>
      rw [Parser.Throughout] at hp
      refine (ih hp.2 hz).bind fun w₁ r _ hr => ?_
      rcases r with ⟨_ | _⟩ | ⟨_ | _⟩
      case plain.success | committed.success =>
        exact (ensures_exec _).bind fun _ _ hw₂ _ => ensures_outcome (Has.mono hw₂.before hr)
      case plain.failure | committed.failure => exact ensures_outcome hr
    | bind p k =>
      rw [Parser.Throughout] at hp
      refine (ih hp.2.1 hz).bind fun w₁ r _ hr => ?_
      rcases r with ⟨⟨_, a⟩ | _⟩ | ⟨⟨_, a⟩ | _⟩
      case plain.success =>
        exact (ensures_exec_gives (hp.2.2 a)).bind fun _ _ hw₂ hq => ih hq (Has.mono hw₂.before hr)
      case committed.success =>
        exact ((ensures_exec_gives (hp.2.2 a)).bind fun _ _ hw₂ hq => ih hq (Has.mono hw₂.before hr)).bind
          fun _ r _ hr => ensures_outcome (r := r.commit) hr
      case plain.failure | committed.failure => exact ensures_outcome hr
    | orElse p q =>
      rw [Parser.Throughout] at hp
      refine (ih hp.2.1 hz).bind fun w₁ r hw₁ hr => ?_
      rcases r with ⟨_ | _⟩ | _
      · exact ensures_outcome hr
      · exact ih hp.2.2 (hz.mono hw₁.before)
      · exact ensures_outcome hr
    | loop init step =>
      rw [Parser.Throughout] at hp
      exact strict_turns ih hp.2 n false init hz
    | commit p =>
      rw [Parser.Throughout] at hp
      exact (ih hp.2 hz).bind fun _ r _ hr => ensures_outcome (r := r.commit) hr
    | reword p f =>
      rw [Parser.Throughout] at hp
      refine (ih hp.2 hz).bind fun w₁ r _ hr => ?_
      rcases r with ⟨_ | _⟩ | ⟨_ | _⟩
      case plain.failure | committed.failure =>
        exact (ensures_exec _).bind fun _ _ hw₂ _ => ensures_outcome (Has.mono hw₂.before hr)
      case plain.success | committed.success => exact ensures_outcome hr
    | choice ps =>
      rw [Parser.Throughout] at hp
      exact strict_alternatives ih [] hp.2 hz
    | restoring p =>
      rw [Parser.Throughout] at hp
      refine (ih hp.2 hz).bind fun w₁ r _ hr => ?_
      rcases r with ⟨_ | _⟩ | ⟨_ | _⟩ <;> exact ensures_outcome hr
    | next =>
      refine (ensures_next? hz).bind fun w₁ next hw₁ hnext => ?_
      rcases next with _ | ⟨t, rest⟩
      · exact ensures_outcome (hz.mono hw₁.before)
      · exact ensures_outcome (hnext t rest rfl)
    | eof =>
      refine (ensures_next? hz).bind fun w₁ next hw₁ _ => ?_
      rcases next with _ | ⟨t, rest⟩ <;> exact ensures_outcome (hz.mono hw₁.before)
    | satisfy test =>
      refine (ensures_next? hz).bind fun w₁ next hw₁ hnext => ?_
      rcases next with _ | ⟨t, rest⟩
      · exact ensures_outcome (hz.mono hw₁.before)
      · refine (ensures_exec (test t)).bind fun w₂ b hw₂ _ => ?_
        cases b with
        | true => exact ensures_outcome (Has.mono hw₂.before (hnext t rest rfl))
        | false =>
          refine (Ensures.of_keeps (keeps_of_plain (.ofExcept _))).bind fun w₃ _ hw₃ _ => ?_
          exact ensures_outcome (hz.mono ((hw₁.trans hw₂).trans hw₃).before)
    | pushBack ts =>
      rw [Parser.Throughout] at hp
      · exact ensures_outcome (hp ts rfl _ _ hz)
      all_goals intros; contradiction
    | rule name => exact ih (hgrammar name) hz
    | stream p => exact fun w _ => ⟨.refl w, fun _ _ h => by cases h⟩
    | _ => exact ensures_outcome hz

end Domain

/-! ## All engines -/

namespace Engine

variable {e : Engine} {env : Env}

/-- **A parse gives the verdict of the result.** -/
theorem limit_verdict_eval (p : Parser) (z : Context) :
    limit (fun n => e.verdict env n p z) = Result.verdict <$> (e.semantics env).eval p z := by
  unfold verdict semantics
  cases e.onDemand with
  | true => exact OnDemand.limit_verdict_eval p z
  | false =>
    rw [map_eq_pure_bind]
    exact Run.limit_bind_const (Strict.steady_run env p z) _

/-- A parse that gives a verdict has a result. -/
theorem eval_of_ends {p : Parser} {z : Context} {w w' : World} {v : Verdict Context Value}
    (h : Ends (fun n => e.parse env n p z) w (.ok v) w') :
    ∃ r lines, (e.semantics env).eval p z w = some (.ok r, { w' with console := lines }) ∧ r.verdict = v := by
  rw [← Run.limit_eq_some (steady_parse _ _ p z), limit_parse_eq, limit_verdict_eval, bind_map_left] at h
  obtain ⟨r, w₁, hr, htraced⟩ := Course.bind_eq_ok h
  obtain ⟨lines, hv⟩ := traced_eq env r.verdict w₁
  rw [hv] at htraced
  cases htraced
  exact ⟨r, w₁.console, hr, rfl⟩

/-- **No engine leaves a set that reading does not leave.** -/
theorem eval_within {D : Domain} (hgrammar : ∀ name, (env.grammar name).Throughout D.Admits) {p : Parser}
    (hp : p.Throughout D.Admits) {z : Context} {w w' : World} (hz : D.Has w z) {r : Outcome}
    (hr : (e.semantics env).eval p z w = some (.ok r, w')) : w.feed.Later w'.feed ∧ D.Has w' r.verdict.rest := by
  unfold semantics at hr
  cases he : e.onDemand with
  | true =>
    rw [he] at hr
    obtain ⟨r₁, w₁, hreveal, hread⟩ := Course.bind_eq_ok hr
    have hs : D.Suspends w (.apply p z) := by rw [Domain.Suspends]; exact ⟨hp, hz⟩
    obtain ⟨hbefore, hshows⟩ := Domain.reveal_within hgrammar hs hreveal
    obtain ⟨c, q | ⟨rest, message⟩⟩ := r₁
    · obtain ⟨z', hanchored, hz'⟩ := hshows
      rw [OnDemand.read_anchored hanchored] at hread
      obtain ⟨v, w₂, hv, hread⟩ := Course.bind_eq_ok hread
      have hbefore' := OnDemand.late_before hv
      cases hread
      refine ⟨(hbefore.trans hbefore').feed, ?_⟩
      cases c <;> exact hz'.mono hbefore'
    · cases hread
      refine ⟨hbefore.feed, ?_⟩
      cases c <;> exact hshows
  | false =>
    rw [he] at hr
    obtain ⟨n, hn⟩ := Strict.eval_eq_some.1 hr
    change Strict.run env n p z w = (.ok r, w') at hn
    obtain ⟨hkeeps, houtcome⟩ := Domain.run_within hgrammar n hp hz w (.refl w)
    rw [hn] at hkeeps
    exact ⟨hkeeps.before.feed, houtcome r w' hn⟩

end Engine

/-! ## Accounts -/

namespace Remainder

variable {ts : List Value} {pushes : Prop} {origin s s' : Remainder}

/-- What is left of an input against the whole of it: the position and the number of tokens that are left are in step, and
what was read stays read. Unless tokens were put back, some were dropped, and these were counted. -/
structure Accounts (ts : List Value) (pushes : Prop) (origin s : Remainder) : Prop where
  total : s.offset + (s.left ts).length = origin.offset + (origin.left ts).length
  consumed : origin.consumed ≤ s.consumed
  dropped : ¬ pushes → ∃ us, origin.left ts = us ++ s.left ts ∧ s.offset = origin.offset + us.length ∧
    s.consumed = origin.consumed + us.length

theorem Accounts.refl (s : Remainder) : Accounts ts pushes s s :=
  ⟨rfl, Nat.le_refl _, fun _ => ⟨[], rfl, (Int.add_zero _).symm, rfl⟩⟩

theorem Accounts.taken (h : Accounts ts pushes origin s) {feed : Feed} {t : Value} (ht : Taken ts feed s t s') :
    Accounts ts pushes origin s' where
  total := by
    have htotal := h.total
    rw [ht.left, List.length_cons] at htotal
    rw [ht.offset]
    push_cast at htotal
    omega
  consumed := by
    have hconsumed := h.consumed
    rw [ht.consumed]
    omega
  dropped hpushes := by
    obtain ⟨us, hleft, hoffset, hconsumed⟩ := h.dropped hpushes
    refine ⟨us ++ [t], ?_, ?_, ?_⟩
    · rw [hleft, ht.left, List.append_assoc, List.singleton_append]
    · rw [ht.offset, hoffset, List.length_append]
      push_cast
      rw [Int.add_assoc]
      rfl
    · rw [ht.consumed, hconsumed, List.length_append, Nat.add_assoc]
      rfl

theorem Accounts.push (h : Accounts ts pushes origin s) (hpushes : pushes) (us : List Value) :
    Accounts ts pushes origin (s.push us) where
  total := by
    have htotal := h.total
    rw [offset_push, left_push, List.length_append]
    push_cast
    omega
  consumed := by rw [consumed_push]; exact h.consumed
  dropped := fun h => absurd hpushes h

end Remainder

/-- The remainders of an input that are accounted for. -/
def accounts (ts : List Value) (pushes : Prop) (origin : Remainder) : Domain where
  holds feed s := s.Fits ts feed ∧ origin.Accounts ts pushes s
  later hlater h := ⟨h.1.later hlater, h.2⟩
  next h hnext := ⟨(h.1.taken hnext).fits, h.2.taken (h.1.taken hnext)⟩

/-- A parser does not get out of them, unless it puts tokens back and that is not accounted for. -/
theorem admits_accounts {ts : List Value} {pushes : Prop} {origin : Remainder} (p : Parser)
    (h : pushes ∨ p.isPushBack = false) : (accounts ts pushes origin).Admits p := by
  rintro us rfl feed s ⟨hfits, haccounts⟩
  rcases h with hpushes | h
  · exact ⟨hfits.push us, haccounts.push hpushes us⟩
  · cases h

namespace Engine

/-- **What is left after a parse is accounted for.** If the tokens that are left before it are finitely many, so are those
that are left after it, and their number and the reported position are in step; what was counted as read before still is.
A parse that puts no token back drops tokens from the front, and the position and the count go on by their number. -/
theorem parse_accounts {e : Engine} {env : Env} {p : Parser} {z : Context} {w w₁ w' : World} {us : List Value}
    {v : Verdict Context Value} (hz : z.input.WellFormed w.feed)
    (hus : Ends (fun n => Run.drain n z.input []) w (.ok us) w₁) (hv : Ends (fun n => e.parse env n p z) w (.ok v) w') :
    ∃ us' w₂, Ends (fun n => Run.drain n v.rest.input []) w' (.ok us') w₂ ∧
      v.rest.input.offset + us'.length = z.input.offset + us.length ∧
      z.input.consumed ≤ v.rest.input.consumed ∧
      (p.PushFree → (∀ name, (env.grammar name).PushFree) → ∃ dropped, us = dropped ++ us' ∧
        v.rest.input.offset = z.input.offset + dropped.length ∧
        v.rest.input.consumed = z.input.consumed + dropped.length) := by
  obtain ⟨n, hn⟩ := hus
  obtain ⟨ts, hfits, rfl⟩ := Run.exists_fits hz hn
  obtain ⟨r, lines, hr, rfl⟩ := eval_of_ends hv
  -- tokens may be put back, unless neither the parser nor the grammar does
  let pushes := ¬ (p.PushFree ∧ ∀ name, (env.grammar name).PushFree)
  have hthroughout : ∀ q : Parser, pushes ∨ q.PushFree → q.Throughout (accounts ts pushes z.input).Admits :=
    Parser.Throughout.weaken admits_accounts
  have hp : pushes ∨ p.PushFree := (Classical.em pushes).imp_right fun h => (not_not.1 h).1
  have hgrammar : ∀ name, pushes ∨ (env.grammar name).PushFree :=
    fun name => (Classical.em pushes).imp_right fun h => (not_not.1 h).2 name
  obtain ⟨-, hfits', haccounts⟩ := eval_within (fun name => hthroughout _ (hgrammar name)) (hthroughout p hp)
    ⟨hfits, .refl z.input⟩ hr
  obtain ⟨w₂, hdrain⟩ := Run.ends_drain (w := w') hfits' []
  refine ⟨_, w₂, hdrain, haccounts.total, haccounts.consumed, fun hp hg => ?_⟩
  exact haccounts.dropped (not_not.2 ⟨hp, hg⟩)

/-- A token and another one that are given back, and then one of them for good. -/
def retried : Parser := .orElse (.bind .next fun _ => .pure (.bind .next fun _ => .pure (.fail "no"))) (.commit .next)

theorem parse_accounts_retried : ∃ w' us' w₂,
    Ends (fun n => (lazy true).parse ((lazy true).env (fun _ => .fail "") {}) n retried ⟨.ofFeed, .absent⟩)
      { feed := .ofTokens #[.text "a", .text "b"] #[] [] } (.ok (.success ⟨.fed 1, .absent⟩ (.text "a"))) w' ∧
    Ends (fun n => Run.drain n (.fed 1) []) w' (.ok us') w₂ ∧ ∃ t, [.text "a", .text "b"] = [t] ++ us' := by
  have hus : Ends (fun n => Run.drain n .ofFeed []) { feed := .ofTokens #[.text "a", .text "b"] #[] [] }
    (.ok [.text "a", .text "b"]) _ := ⟨4, rfl⟩
  have hv : Ends (fun n => (lazy true).parse ((lazy true).env (fun _ => .fail "") {}) n retried ⟨.ofFeed, .absent⟩)
    { feed := .ofTokens #[.text "a", .text "b"] #[] [] } (.ok (.success ⟨.fed 1, .absent⟩ (.text "a"))) _ := ⟨20, rfl⟩
  obtain ⟨us', w₂, hdrain, -, -, hdropped⟩ := parse_accounts (Nat.zero_le _) hus hv
  have hp : retried.PushFree := by
    simp [retried, Parser.PushFree, Parser.Throughout, Parser.Gives, Parser.isPushBack]
  obtain ⟨dropped, happend, -, hconsumed⟩ := hdropped hp fun _ => by
    simp [env, Parser.PushFree, Parser.Throughout, Parser.isPushBack]
  obtain ⟨t, rfl⟩ : ∃ t, dropped = [t] := List.length_eq_one_iff.1 (by
    simpa [Verdict.rest, Remainder.consumed, Remainder.ofFeed] using hconsumed.symm)
  exact ⟨_, us', w₂, hv, hdrain, t, happend⟩

end Engine

end CommittedChoice
