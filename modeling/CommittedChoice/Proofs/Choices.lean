import CommittedChoice.Proofs.Printing
import CommittedChoice.Proofs.Until

/-!
# Choices

A choice can be made of `orElse`, one alternative after the other, or it can be a labelled one, which keeps the messages of
the alternatives that have failed. The alternative that decides is the same in both: the first one that does not fail plainly.
From the world in which that one is tried, either choice is the same as the alternative, whatever is asked; only what the
labelled one prints in between may differ.

- `OnDemand.eval_failure_iff`: a plain failure is one at once;
- `Engine.Tries`: the alternatives that fail plainly, and the one that decides;
- `Engine.GoesThrough`: courses that go through alternatives, and where they lead to;
- `Engine.choices_decided`: both choices, and choices of two lists.
-/

namespace CommittedChoice

open Run (limit Steady Ends)
open Strict (Outcome)

/-- No report is indented by more than a text can have. -/
theorem Message.choiceReport_overlong {width : Nat} {failures : List (String × String)} (hwidth : Text.longest < width)
    (hfailures : failures ≠ []) : choiceReport width failures = .error .tooLong := by
  have hempty : ¬ failures.isEmpty = true := fun h => hfailures (List.isEmpty_iff.1 h)
  have hlines : ∀ breaks units, Text.longest < indentUnits width breaks units := fun breaks units =>
    Nat.lt_of_lt_of_le hwidth (Nat.le_add_right_of_le (Nat.le_mul_of_pos_left width (Nat.succ_pos breaks)))
  rw [choiceReport, if_neg hempty, bounded, if_neg]
  have hlong := hlines (listedSize width failures).1 (listedSize width failures).2
  omega

namespace OnDemand

/-- What is read as a plain failure has been revealed as one. -/
theorem Revealed.eq_of_read_failure {env : Env} {r : Revealed} {rest : Context} {message : String} {w w' : World}
    (h : r.read env w = some (.ok (.plain (.failure rest message)), w')) : r = ⟨false, .failure rest message⟩ ∧ w' = w := by
  match r with
  | ⟨false, .failure _ _⟩ => cases h; exact ⟨rfl, rfl⟩
  | ⟨true, .failure _ _⟩ => cases h
  | ⟨c, .success p⟩ =>
    obtain ⟨z, w₁, -, h⟩ := Course.bind_eq_ok h
    obtain ⟨v, w₂, -, h⟩ := Course.bind_eq_ok h
    cases c <;> cases h

/-- **A plain failure is one at once.** -/
theorem eval_failure_iff {env : Env} {p : Parser} {z rest : Context} {message : String} {w w' : World} :
    eval env p z w = some (.ok (.plain (.failure rest message)), w') ↔
      answer env (.apply p z) w = some (.ok (.failure rest message), w') := by
  rw [eval, reveal_eq, bind_assoc]
  constructor
  · intro h
    obtain ⟨a, w₁, ha, h⟩ := Course.bind_eq_ok h
    obtain ⟨r, w₂, hr, h⟩ := Course.bind_eq_ok h
    obtain ⟨rfl, rfl⟩ := Revealed.eq_of_read_failure h
    -- any other answer reveals a success or a commitment
    cases a with
    | failure z message => cases hr; exact ha
    | committed inner =>
      obtain ⟨_ | r, -, hr⟩ := Course.map_eq_some.1 hr <;> cases hr
    | success q =>
      obtain ⟨_ | _ | _ | _, -, hr⟩ := Course.map_eq_some.1 hr <;> cases hr
  · intro h
    rw [Course.bind_of_ok h]
    rfl

end OnDemand

/-! ## Alternatives -/

namespace Engine

section Tries

variable (e : Engine) (env : Env) (z : Context)

/-- A parser fails plainly, with this message. -/
def FailsPlainly (p : Parser) (w : World) (message : String) (w' : World) : Prop :=
  ∃ rest, Ends (fun n => e.result env n p z) w (.ok (.plain (.failure rest message))) w'

/-- The alternatives of a choice are tried one after the other, all of them where the choice is, as long as they fail
plainly: the labels and the messages of those that do, the first one that does not, if there is one, and the world in which
that is tried or all have failed. `between` is what happens after a failure. -/
inductive Tries (between : String → String → World → World) : List (String × Parser) → World → List (String × String) →
    Option Parser → World → Prop
  | exhausted (w : World) : Tries between [] w [] none w
  | decided {label : String} {p : Parser} {ps : List (String × Parser)} {w : World}
      (hp : ∀ message w₁, ¬ e.FailsPlainly env z p w message w₁) : Tries between ((label, p) :: ps) w [] (some p) w
  | failed {label message : String} {p : Parser} {ps : List (String × Parser)} {w w₁ w' : World}
      {failures : List (String × String)} {last : Option Parser} (hp : e.FailsPlainly env z p w message w₁)
      (hps : Tries between ps (between label message w₁) failures last w') :
      Tries between ((label, p) :: ps) w ((label, message) :: failures) last w'

/-- Nothing happens after a failure. -/
def undisturbed (_ _ : String) (w : World) : World := w

/-- A failure is traced. -/
def tracing (label message : String) (w : World) : World := (env.trace (Message.alternativeFailed label message) w).2

end Tries

variable {e : Engine} {env : Env} {z : Context} {between : String → String → World → World}

theorem failsPlainly_iff {p : Parser} {w w' : World} {message : String} : e.FailsPlainly env z p w message w' ↔
    ∃ rest, (e.semantics env).eval p z w = some (.ok (.plain (.failure rest message)), w') := by
  simp only [FailsPlainly, ends_result]

theorem FailsPlainly.printed {p : Parser} {w w' : World} {message : String} (h : e.FailsPlainly env z p w message w')
    (lines : List Line) : ∃ lines', e.FailsPlainly env z p { w with console := lines } message { w' with console := lines' } := by
  obtain ⟨rest, h⟩ := h
  have hends := (Run.limit_eq_some (steady_result e env p z)).2 h
  obtain ⟨lines', hx⟩ := Course.exists_printed (hushed_result p z w lines).symm hends
  exact ⟨lines', rest, (Run.limit_eq_some (steady_result e env p z)).1 hx⟩

namespace Tries

variable {as : List (String × Parser)} {w w' : World} {failures : List (String × String)} {last : Option Parser}

variable (e env z between) in
/-- Trying the alternatives always comes to something. -/
theorem exists_tries (as : List (String × Parser)) (w : World) :
    ∃ failures last w', Tries e env z between as w failures last w' := by
  induction as generalizing w with
  | nil => exact ⟨[], none, w, .exhausted w⟩
  | cons a as ih =>
    obtain ⟨label, p⟩ := a
    by_cases hp : ∃ message w₁, e.FailsPlainly env z p w message w₁
    · obtain ⟨message, w₁, hp⟩ := hp
      obtain ⟨failures, last, w', h⟩ := ih (between label message w₁)
      exact ⟨_, last, w', .failed hp h⟩
    · exact ⟨[], some p, w, .decided fun message w₁ h => hp ⟨message, w₁, h⟩⟩

/-- The failures are those of the first alternatives, and the one after them decides. -/
theorem in_order (h : Tries e env z between as w failures last w') :
    failures.map Prod.fst = (as.take failures.length).map Prod.fst ∧ last = (as[failures.length]?).map Prod.snd := by
  induction h with
  | exhausted w => exact ⟨rfl, rfl⟩
  | decided hp => exact ⟨rfl, rfl⟩
  | @failed label _ _ _ _ _ _ _ _ _ _ ih => exact ⟨congrArg (label :: ·) ih.1, ih.2⟩

/-- Tracing the failures changes nothing but what is printed. -/
theorem traced (h : Tries e env z undisturbed as w failures last w') (lines : List Line) : ∃ lines',
    Tries e env z (tracing env) as { w with console := lines } failures last { w' with console := lines' } := by
  induction h generalizing lines with
  | exhausted w => exact ⟨lines, .exhausted _⟩
  | @decided _ _ _ w hp =>
    refine ⟨lines, .decided fun message w₁ h => ?_⟩
    obtain ⟨lines', h⟩ := h.printed w.console
    exact hp _ _ h
  | failed hp _ ih =>
    obtain ⟨lines₁, hp⟩ := hp.printed lines
    obtain ⟨lines', hps⟩ := ih _
    exact ⟨lines', .failed hp hps⟩

end Tries

/-! ## Asking -/

/-- A course that goes through alternatives, with the failures so far, the newest first: those that fail plainly are
passed, and the first one that does not is asked. -/
structure GoesThrough {β : Type} (e : Engine) (env : Env) (z : Context) (between : String → String → World → World)
    (ask : Parser → Course β) (stop : List (String × String) → Course β)
    (go : List (String × String) → List (String × Parser) → Course β) : Prop where
  exhausted : ∀ failures, go failures [] = stop failures.reverse
  failed : ∀ {failures label message p ps w w₁}, e.FailsPlainly env z p w message w₁ →
    go failures ((label, p) :: ps) w = go ((label, message) :: failures) ps (between label message w₁)
  decided : ∀ {failures label p ps w}, (∀ message w₁, ¬ e.FailsPlainly env z p w message w₁) →
    go failures ((label, p) :: ps) w = ask p w

namespace GoesThrough

variable {β γ : Type} {ask : Parser → Course β} {stop : List (String × String) → Course β}
  {go : List (String × String) → List (String × Parser) → Course β}

/-- **Where going through alternatives leads to.** -/
theorem eq_of_tries (h : GoesThrough e env z between ask stop go) {as : List (String × Parser)} {w w' : World}
    {failures : List (String × String)} {last : Option Parser} (htries : Tries e env z between as w failures last w')
    (before : List (String × String)) : go before as w = last.elim (stop (before.reverse ++ failures)) ask w' := by
  induction htries generalizing before with
  | exhausted w => exact (congrFun (h.exhausted before) w).trans (by rw [List.append_nil]; rfl)
  | decided hp => exact h.decided hp
  | failed hp _ ih =>
    rw [h.failed hp, ih, List.reverse_cons, List.append_assoc]
    rfl

theorem map (f : β → γ) (h : GoesThrough e env z between ask stop go) :
    GoesThrough e env z between (fun p => f <$> ask p) (fun failures => f <$> stop failures)
      (fun failures ps => f <$> go failures ps) where
  exhausted failures := congrArg (f <$> ·) (h.exhausted failures)
  failed hp := Course.map_congr_at f (h.failed hp)
  decided hp := Course.map_congr_at f (h.decided hp)

end GoesThrough

variable {β γ : Type}

/-- What is asked of `orElse` is asked of the second parser if the first one fails plainly, and of the first one if not. -/
structure Alternates (e : Engine) (env : Env) (z : Context) (ask : Parser → Course β) (failing : String → β) : Prop where
  fail : ∀ message, ask (.fail message) = pure (failing message)
  orElse_failed : ∀ {p q w message w₁}, e.FailsPlainly env z p w message w₁ → ask (.orElse p q) w = ask q w₁
  orElse_decided : ∀ {p q w}, (∀ message w₁, ¬ e.FailsPlainly env z p w message w₁) → ask (.orElse p q) w = ask p w

theorem alternates_eval : Alternates e env z (fun p => (e.semantics env).eval p z) (.failure z) where
  fail := (e.compositional env).eval_fail z
  orElse_failed hp := by
    obtain ⟨rest, hp⟩ := failsPlainly_iff.1 hp
    exact (congrFun ((e.compositional env).eval_orElse z _ _) _).trans (Course.bind_of_ok hp)
  orElse_decided {p q w} hp := by
    refine (congrFun ((e.compositional env).eval_orElse z p q) w).trans (Course.bind_eq_left fun r w₁ hr => ?_)
    match r with
    | .plain (.failure rest message) => exact absurd (failsPlainly_iff.2 ⟨rest, hr⟩) (hp message w₁)
    | .plain (.success _ _) | .committed _ => rfl

/-- **A labelled choice goes through its alternatives,** and traces those that fail. -/
theorem goesThrough_eval : GoesThrough e env z (tracing env) (fun p => (e.semantics env).eval p z)
    (fun failures => Result.failure z <$> Course.ofRun (Run.ofExcept (Message.choiceReport env.settings.indent failures)))
    ((e.semantics env).alternatives env z) where
  exhausted failures := (map_eq_pure_bind _ _).symm
  failed hp := by
    obtain ⟨rest, hp⟩ := failsPlainly_iff.1 hp
    exact Course.bind_of_ok hp
  decided {_ _ _ _ w} hp := by
    refine Course.bind_eq_left fun r w₁ hr => ?_
    match r with
    | .plain (.failure rest message) => exact absurd (failsPlainly_iff.2 ⟨rest, hr⟩) (hp message w₁)
    | .plain (.success _ _) | .committed _ => rfl

section OnDemand

open OnDemand

variable (h : e.onDemand = true)

include h

theorem failsPlainly_iff_answer {p : Parser} {w w' : World} {message : String} : e.FailsPlainly env z p w message w' ↔
    ∃ rest, answer env (.apply p z) w = some (.ok (.failure rest message), w') := by
  rw [failsPlainly_iff, semantics, if_pos h]
  exact exists_congr fun rest => eval_failure_iff

theorem alternates_answer : Alternates e env z (fun p => answer env (.apply p z)) (.failure z) where
  fail message := answer_apply_const (x := pure (.failure z message)) rfl fun _ => rfl
  orElse_failed {p q w _ w₁} hp := by
    obtain ⟨rest, hp⟩ := (failsPlainly_iff_answer h).1 hp
    show answer env (.apply (.orElse p q) z) w = _
    rw [answer_apply_framed rfl, answer_framed, Course.bind_of_ok hp, resume_orElse_failure]
  orElse_decided {p q w} hp := by
    show answer env (.apply (.orElse p q) z) w = _
    rw [answer_apply_framed rfl, answer_framed]
    refine Course.bind_eq_left fun a w₁ ha => ?_
    cases a with
    | failure rest message => exact absurd ((failsPlainly_iff_answer h).2 ⟨rest, ha⟩) (hp message w₁)
    | success q => rw [resume_orElse_success]; rfl
    | committed inner => rw [resume_orElse_committed]; rfl

theorem goesThrough_answer : GoesThrough e env z (tracing env) (fun p => answer env (.apply p z))
    (fun failures => Answer.failure z <$> Course.ofRun (Run.ofExcept (Message.choiceReport env.settings.indent failures)))
    (alternatives env z) where
  exhausted failures := (alternatives_nil failures).trans (map_eq_pure_bind _ _).symm
  failed hp := by
    obtain ⟨rest, hp⟩ := (failsPlainly_iff_answer h).1 hp
    rw [alternatives_cons, Course.bind_of_ok hp]
    rfl
  decided {_ _ _ _ w} hp := by
    rw [alternatives_cons]
    refine Course.bind_eq_left fun a w₁ ha => ?_
    cases a with
    | failure rest message => exact absurd ((failsPlainly_iff_answer h).2 ⟨rest, ha⟩) (hp message w₁)
    | success q => rfl
    | committed inner => rfl

end OnDemand

theorem Alternates.map {ask : Parser → Course β} {failing : String → β} (f : β → γ) (h : Alternates e env z ask failing) :
    Alternates e env z (fun p => f <$> ask p) fun message => f (failing message) where
  fail message := (congrArg (f <$> ·) (h.fail message)).trans (map_pure _ _)
  orElse_failed hp := Course.map_congr_at f (h.orElse_failed hp)
  orElse_decided hp := Course.map_congr_at f (h.orElse_decided hp)

theorem alternates_shown : Alternates e env z (fun p => e.shown env p z) fun _ => .failure := by
  unfold shown
  by_cases h : e.onDemand = true
  · simp only [if_pos h]
    exact (alternates_answer h).map OnDemand.Answer.tag
  · simp only [if_neg h]
    have heval := (@alternates_eval e env z).map Result.tag
    rwa [semantics, if_neg h] at heval

/-- What shows of a labelled choice at first goes through what shows of its alternatives. -/
theorem goesThrough_shown : ∃ go, go [] = (fun ps => e.shown env (.choice ps) z) ∧
    GoesThrough e env z (tracing env) (fun p => e.shown env p z)
      (fun failures => (fun _ => Tag.failure) <$>
        Course.ofRun (Run.ofExcept (Message.choiceReport env.settings.indent failures))) go := by
  unfold shown
  by_cases h : e.onDemand = true
  · have hanswer := (@goesThrough_answer e env z h).map OnDemand.Answer.tag
    simp only [Functor.map_map] at hanswer
    simp only [if_pos h]
    exact ⟨_, funext fun ps => congrArg (OnDemand.Answer.tag <$> ·) (OnDemand.answer_choice ps).symm, hanswer⟩
  · have heval := (@goesThrough_eval e env z).map Result.tag
    rw [semantics, if_neg h] at heval
    simp only [Functor.map_map] at heval
    simp only [if_neg h]
    exact ⟨fun failures ps => Result.tag <$> (Strict.semantics env).alternatives env z failures ps,
      funext fun ps => congrArg (Result.tag <$> ·) (Strict.eval_eq (.choice ps) z).symm, heval⟩

/-- Whether and where `orElse` fails plainly. -/
theorem failsPlainly_orElse {p q : Parser} {w w₁ : World} {message : String} (hp : e.FailsPlainly env z p w message w₁)
    {m : String} {w' : World} : e.FailsPlainly env z (.orElse p q) w m w' ↔ e.FailsPlainly env z q w₁ m w' := by
  rw [failsPlainly_iff, failsPlainly_iff, (@alternates_eval e env z).orElse_failed hp]

theorem not_failsPlainly_orElse {p q : Parser} {w : World} (hp : ∀ m w', ¬ e.FailsPlainly env z p w m w') (m : String)
    (w' : World) : ¬ e.FailsPlainly env z (.orElse p q) w m w' := by
  rw [failsPlainly_iff, (@alternates_eval e env z).orElse_decided hp, ← failsPlainly_iff]
  exact hp m w'

/-! ## Both choices -/

namespace Alternates

variable {ask : Parser → Course β} {failing : String → β} (h : Alternates e env z ask failing)

include h

/-- **A choice made of `orElse` goes through its alternatives.** -/
theorem goesThrough : GoesThrough e env z undisturbed ask (fun _ => pure (failing Message.nothingMatched))
    fun _ ps => ask (.anyOf (ps.map Prod.snd)) where
  exhausted _ := h.fail _
  failed hp := h.orElse_failed hp
  decided hp := h.orElse_decided hp

theorem orElse_congr (p : Parser) {q r : Parser} (hqr : ask q = ask r) : ask (.orElse p q) = ask (.orElse p r) := by
  funext w
  by_cases hp : ∃ message w₁, e.FailsPlainly env z p w message w₁
  · obtain ⟨message, w₁, hp⟩ := hp
    rw [h.orElse_failed hp, h.orElse_failed hp, hqr]
  · push Not at hp
    rw [h.orElse_decided hp, h.orElse_decided hp]

theorem orElse_assoc (p q r : Parser) : ask (.orElse (.orElse p q) r) = ask (.orElse p (.orElse q r)) := by
  funext w
  by_cases hp : ∃ message w₁, e.FailsPlainly env z p w message w₁
  · obtain ⟨message, w₁, hp⟩ := hp
    rw [h.orElse_failed hp]
    by_cases hq : ∃ message w₂, e.FailsPlainly env z q w₁ message w₂
    · obtain ⟨message', w₂, hq⟩ := hq
      rw [h.orElse_failed hq, h.orElse_failed ((failsPlainly_orElse hp).2 hq)]
    · push Not at hq
      rw [h.orElse_decided hq, h.orElse_decided fun m w' hm => hq m w' ((failsPlainly_orElse hp).1 hm), h.orElse_failed hp]
  · push Not at hp
    rw [h.orElse_decided hp, h.orElse_decided (not_failsPlainly_orElse hp), h.orElse_decided hp]

/-- **A choice of two lists is one after the other.** -/
theorem anyOf_append (ps qs : List Parser) : ask (.anyOf (ps ++ qs)) = ask (.orElse (.anyOf ps) (.anyOf qs)) := by
  induction ps with
  | nil =>
    funext w
    have hfail : e.FailsPlainly env z (.anyOf []) w Message.nothingMatched w :=
      failsPlainly_iff.2 ⟨z, congrFun (alternates_eval.fail _) w⟩
    exact (h.orElse_failed hfail).symm
  | cons p ps ih => exact (h.orElse_congr p ih).trans (h.orElse_assoc p _ _).symm

end Alternates

/-- **Both choices come to the same.** The alternatives are tried in order, each of them where the choice is, as long as they
fail plainly. The first one that does not decides: from the world in which it is tried, what either choice gives and what
shows of it at first is what the alternative gives and shows, so no other one is tried. If all fail plainly, so do the
choices, where they are, the labelled one with the report of the labels and the messages of all, which is a fault if it is
too long. The labelled one differs in nothing else but what is printed. And a choice of two lists of alternatives is one
choice or the other. -/
theorem choices_decided (as : List (String × Parser)) (z : Context) (w : World) :
    (∃ failures last w₁, Tries e env z undisturbed as w failures last w₁ ∧
      last = (as[failures.length]?).map Prod.snd ∧ failures.map Prod.fst = (as.take failures.length).map Prod.fst ∧
      match last with
      | some p =>
        (limit fun n => e.result env n (.anyOf (as.map Prod.snd)) z) w = (limit fun n => e.result env n p z) w₁ ∧
        (limit fun n => e.rawTag env n (.anyOf (as.map Prod.snd)) z) w = (limit fun n => e.rawTag env n p z) w₁ ∧
        (limit fun n => e.result env n (.choice as) z).hushed w = (limit fun n => e.result env n p z).hushed w₁ ∧
        (limit fun n => e.rawTag env n (.choice as) z).hushed w = (limit fun n => e.rawTag env n p z).hushed w₁
      | none =>
        (limit fun n => e.result env n (.anyOf (as.map Prod.snd)) z) w = some (.ok (.failure z Message.nothingMatched), w₁) ∧
        (limit fun n => e.rawTag env n (.anyOf (as.map Prod.snd)) z) w = some (.ok .failure, w₁) ∧
        (limit fun n => e.result env n (.choice as) z).hushed w =
          some ((Message.choiceReport env.settings.indent failures).map (.failure z), { w₁ with console := [] }) ∧
        (limit fun n => e.rawTag env n (.choice as) z).hushed w =
          some ((Message.choiceReport env.settings.indent failures).map fun _ => .failure, { w₁ with console := [] })) ∧
    ∀ ps qs, e.Same env (.anyOf (ps ++ qs)) (.orElse (.anyOf ps) (.anyOf qs)) ∧
      (limit fun n => e.rawTag env n (.anyOf (ps ++ qs)) z) =
        limit fun n => e.rawTag env n (.orElse (.anyOf ps) (.anyOf qs)) z := by
  constructor
  · obtain ⟨failures, last, w₁, htries⟩ := Tries.exists_tries e env z undisturbed as w
    obtain ⟨hlabels, hlast⟩ := htries.in_order
    refine ⟨failures, last, w₁, htries, hlast, hlabels, ?_⟩
    obtain ⟨lines, htraced⟩ := htries.traced w.console
    have hpresult := @hushed_result e env
    have hprawTag := @hushed_rawTag e env
    have hresult := alternates_eval.goesThrough.eq_of_tries htries []
    have htag := alternates_shown.goesThrough.eq_of_tries htries []
    have hchoice := goesThrough_eval.eq_of_tries htraced []
    obtain ⟨go, hgo, hshown⟩ := @goesThrough_shown e env z
    have hchoicetag := hshown.eq_of_tries htraced []
    rw [hgo] at hchoicetag
    simp only [limit_result, limit_rawTag] at hpresult hprawTag ⊢
    rw [eval_meaning (p := .choice as) rfl z]
    cases last with
    | some p =>
      exact ⟨hresult, htag, (Course.hushed_congr hchoice).trans (hpresult p z w₁ lines),
        (Course.hushed_congr hchoicetag).trans (hprawTag p z w₁ lines)⟩
    | none =>
      have hreported : ∀ {β : Type} (f : String → β) {x : Course β}, x { w with console := w.console } =
          (f <$> Course.ofRun (Run.ofExcept (Message.choiceReport env.settings.indent failures)))
            { w₁ with console := lines } →
          x.hushed w = some ((Message.choiceReport env.settings.indent failures).map f, { w₁ with console := [] }) :=
        fun f x hx => (Course.hushed_congr hx).trans (congrArg (Option.map _) (Course.map_ofExcept f _ _))
      exact ⟨hresult, htag, hreported _ hchoice, hreported _ hchoicetag⟩
  · intro ps qs
    exact ⟨same_iff.2 fun z => alternates_eval.anyOf_append ps qs, by
      rw [limit_rawTag, limit_rawTag, alternates_shown.anyOf_append ps qs]⟩

/-- A report that is no text is a fault of the labelled choice. -/
theorem choice_faulted {as : List (String × Parser)} {w w' : World} {failures : List (String × String)} {fault : Fault}
    (htries : Tries e env z (tracing env) as w failures none w')
    (hreport : Message.choiceReport env.settings.indent failures = .error fault) :
    Ends (fun n => e.result env n (.choice as) z) w (.error fault) w' := by
  have hreported := (goesThrough_eval.eq_of_tries htries []).trans (Course.map_ofExcept (Result.failure z) _ w')
  rw [List.reverse_nil, List.nil_append, hreport] at hreported
  rw [ends_result, eval_meaning rfl]
  exact hreported

/-- All alternatives may fail plainly without the labelled choice doing so, if its report is too long. -/
theorem choice_unreported :
    (∃ w, Tries (lazy true) ((lazy true).env (fun _ => .fail "") { indent := 600000000 }) ⟨.ofText "a", .absent⟩ undisturbed
      [("x", .fail "no")] {} [("x", "no")] none w) ∧
    ¬ ∃ r w, Ends (fun n => (lazy true).result ((lazy true).env (fun _ => .fail "") { indent := 600000000 }) n
      (.choice [("x", .fail "no")]) ⟨.ofText "a", .absent⟩) {} (.ok r) w := by
  refine ⟨⟨{}, .failed ⟨_, 3, rfl⟩ (.exhausted {})⟩, ?_⟩
  rintro ⟨r, w, h⟩
  have hreport : Message.choiceReport 600000000 [("x", "no")] = .error .tooLong :=
    Message.choiceReport_overlong (by simp only [Text.longest]; omega) (List.cons_ne_nil _ _)
  have htries : Tries (lazy true) ((lazy true).env (fun _ => .fail "") { indent := 600000000 }) ⟨.ofText "a", .absent⟩
      (tracing ((lazy true).env (fun _ => .fail "") { indent := 600000000 })) [("x", .fail "no")] {} [("x", "no")] none {} :=
    .failed ⟨_, 3, rfl⟩ (.exhausted {})
  have hfault := choice_faulted htries hreport
  cases (ends_result.1 h).symm.trans (ends_result.1 hfault)

end Engine

end CommittedChoice
