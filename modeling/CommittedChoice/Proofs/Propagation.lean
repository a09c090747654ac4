import CommittedChoice.Proofs.Engines

/-!
# Committed failures are never swallowed

Wherever a run applies a parser that gives a committed failure, the run is over: the whole term gives that failure. All
that still happens is that the enclosing rewordings are run on its message, the innermost first, and that an enclosing
`restoring` puts back its state.

- `Enclosing`: what can still change a failure on its way out;
- `Applies`: a run applies a parser somewhere inside its term, at a context and in a world, within enclosing parts;
- `Applies.result`: what the run comes to if that application gives a committed failure, by induction on the way to it;
- `Engine.committed_failure_passes`: so it is in each of the four engines.
-/

namespace CommittedChoice

open Run (Ends limit)
open Strict (Outcome)

/-! ## The way to an application -/

/-- A part of a term that can still change a failure. -/
inductive Enclosing where
  /-- Another message. -/
  | reword (f : String → Act String)
  /-- The state that was there before. -/
  | restoring (state : Value)

namespace Enclosing

/-- The message of a failure outside of the enclosing parts, the outermost of which stands first. -/
def reworded : List Enclosing → String → Act String
  | [], message => .pure message
  | .reword f :: parts, message => reworded parts message >>= f
  | .restoring _ :: parts, message => reworded parts message

/-- The state of a failure outside of the enclosing parts. -/
def stateAfter : List Enclosing → Value → Value
  | [], state => state
  | .reword _ :: parts, state => stateAfter parts state
  | .restoring saved :: _, _ => saved

/-- The context of a failure outside of the enclosing parts. Its input is never touched. -/
def leaving (parts : List Enclosing) (z : Context) : Context := { z with state := stateAfter parts z.state }

end Enclosing

/-- What a run has to do: a parser, turns of a loop, or alternatives of a labelled choice. -/
inductive Work where
  | parser (p : Parser)
  | turns (step : Value → Act Parser) (committed : Bool) (state : Value)
  | alternatives (failures : List (String × String)) (ps : List (String × Parser))

/-- What work comes to. -/
noncomputable def Semantics.result (S : Semantics) (env : Env) : Work → Context → Course Outcome
  | .parser p, z => S.eval p z
  | .turns step c s, z => S.loop step c s z
  | .alternatives failures ps, z => S.alternatives env z failures ps

/-- In the course of the work, `q` is applied at `z'` in the world `w'`. -/
inductive Applies (S : Semantics) (env : Env) (q : Parser) (z' : Context) (w' : World) :
    Work → Context → World → List Enclosing → Prop
  | here : Applies S env q z' w' (.parser q) z' w' []
  | map {p f z w parts} : Applies S env q z' w' (.parser p) z w parts →
      Applies S env q z' w' (.parser (.map p f)) z w parts
  | bind {p k z w parts} : Applies S env q z' w' (.parser p) z w parts →
      Applies S env q z' w' (.parser (.bind p k)) z w parts
  /-- The parser that follows a success. -/
  | bindNext {p k z w r w₁ z₁ v p₁ w₂ parts} : S.eval p z w = some (.ok r, w₁) → r.verdict = .success z₁ v →
      S.exec (k v) w₁ = some (.ok p₁, w₂) → Applies S env q z' w' (.parser p₁) z₁ w₂ parts →
      Applies S env q z' w' (.parser (.bind p k)) z w parts
  | orElse {p p₂ z w parts} : Applies S env q z' w' (.parser p) z w parts →
      Applies S env q z' w' (.parser (.orElse p p₂)) z w parts
  /-- The fallback after a plain failure. -/
  | orElseNext {p p₂ z w z₁ message w₁ parts} : S.eval p z w = some (.ok (.failure z₁ message), w₁) →
      Applies S env q z' w' (.parser p₂) z w₁ parts → Applies S env q z' w' (.parser (.orElse p p₂)) z w parts
  | loop {init step z w parts} : Applies S env q z' w' (.turns step false init) z w parts →
      Applies S env q z' w' (.parser (.loop init step)) z w parts
  | turn {step c s z w p w₁ parts} : S.exec (step s) w = some (.ok p, w₁) →
      Applies S env q z' w' (.parser p) z w₁ parts → Applies S env q z' w' (.turns step c s) z w parts
  /-- The turns after one that is not the last. -/
  | turnNext {step c s z w p w₁ r w₂ z₂ v s' parts} : S.exec (step s) w = some (.ok p, w₁) →
      S.eval p z w₁ = some (.ok r, w₂) → r.verdict = .success z₂ v → v.toStep = .again s' →
      Applies S env q z' w' (.turns step (c || r.isCommitted) s') z₂ w₂ parts →
      Applies S env q z' w' (.turns step c s) z w parts
  | commit {p z w parts} : Applies S env q z' w' (.parser p) z w parts →
      Applies S env q z' w' (.parser (.commit p)) z w parts
  | reword {p f z w parts} : Applies S env q z' w' (.parser p) z w parts →
      Applies S env q z' w' (.parser (.reword p f)) z w (.reword f :: parts)
  | restoring {p z w parts} : Applies S env q z' w' (.parser p) z w parts →
      Applies S env q z' w' (.parser (.restoring p)) z w (.restoring z.state :: parts)
  | choice {ps z w parts} : Applies S env q z' w' (.alternatives [] ps) z w parts →
      Applies S env q z' w' (.parser (.choice ps)) z w parts
  | alternative {failures label p ps z w parts} : Applies S env q z' w' (.parser p) z w parts →
      Applies S env q z' w' (.alternatives failures ((label, p) :: ps)) z w parts
  /-- The alternatives after one that failed plainly. -/
  | alternativeNext {failures label p ps z w z₁ message w₁ w₂ parts} :
      S.eval p z w = some (.ok (.failure z₁ message), w₁) →
      Course.ofRun (env.trace ("alternative \"" ++ label ++ "\" failed: " ++ message)) w₁ = some (.ok (), w₂) →
      Applies S env q z' w' (.alternatives ((label, message) :: failures) ps) z w₂ parts →
      Applies S env q z' w' (.alternatives failures ((label, p) :: ps)) z w parts
  | rule {name z w parts} : Applies S env q z' w' (.parser (env.grammar name)) z w parts →
      Applies S env q z' w' (.parser (.rule name)) z w parts

/-! ## The way out -/

section Strict

variable {env : Env} {q : Parser} {z' : Context} {w' : World}

variable (env) in
/-- A committed failure whose message is still to be found. -/
noncomputable def fatal (message : Act String) (z : Context) : Course Outcome :=
  (Strict.semantics env).exec message >>= fun m => pure (.committed (.failure z m))

/-- What leaves a committed failure alone does nothing at all after one. -/
theorem fatal_passes {x : Course Outcome} {f : Outcome → Course Outcome} {message : Act String} {z : Context}
    {w w₁ : World} (hx : x w = fatal env message z w₁)
    (hf : ∀ m, f (.committed (.failure z m)) = pure (.committed (.failure z m))) :
    (x >>= f) w = fatal env message z w₁ := by
  have hfatal : fatal env message z >>= f = fatal env message z := by
    rw [fatal, bind_assoc]
    refine bind_congr fun m => ?_
    rw [pure_bind, hf]
  rw [Course.bind_apply, hx, ← Course.bind_apply, hfatal]

theorem fatal_reword (message : Act String) (f : String → Act String) (z : Context) :
    (fatal env message z >>= fun r => r.adjust fun m => (Strict.semantics env).exec (f m)) =
      fatal env (message >>= f) z := by
  have hexec : (Strict.semantics env).exec (message >>= f) =
      (Strict.semantics env).exec message >>= fun m => (Strict.semantics env).exec (f m) := by
    show Course.ofRun ((message >>= f).exec env .none) = _
    rw [Act.exec_bind, Course.ofRun_bind]
    rfl
  rw [fatal, fatal, hexec, bind_assoc, bind_assoc]
  exact bind_congr fun m => pure_bind _ _

/-- **A committed failure passes through everything around it.** -/
theorem Applies.result {work : Work} {z : Context} {w : World} {parts : List Enclosing}
    (h : Applies (Strict.semantics env) env q z' w' work z w parts) {z₁ : Context} {m : String} {w₁ : World}
    (hq : Strict.eval env q z' w' = some (.ok (.committed (.failure z₁ m)), w₁)) :
    (Strict.semantics env).result env work z w =
      fatal env (Enclosing.reworded parts m) (Enclosing.leaving parts z₁) w₁ := by
  induction h with
  | here => exact hq
  | map _ ih =>
    refine (congrFun (Strict.eval_eq _ _) _).trans ?_
    exact fatal_passes ih fun _ => rfl
  | bind _ ih =>
    refine (congrFun (Strict.eval_eq _ _) _).trans ?_
    exact fatal_passes ih fun _ => rfl
  | @bindNext p k z w r w₂ z₂ v p₁ w₃ parts hp hv hk _ ih =>
    refine (congrFun (Strict.eval_eq _ _) _).trans ?_
    have hnext : ((Strict.semantics env).exec (k v) >>= fun p => Strict.eval env p z₂) w₂ =
        fatal env (Enclosing.reworded parts m) (Enclosing.leaving parts z₁) w₁ := (Course.bind_of_ok hk).trans ih
    refine (Course.bind_of_ok hp).trans ?_
    match r, hv with
    | .plain _, rfl => exact hnext
    | .committed _, rfl => exact fatal_passes hnext fun _ => rfl
  | orElse _ ih =>
    refine (congrFun (Strict.eval_eq _ _) _).trans ?_
    exact fatal_passes ih fun _ => rfl
  | orElseNext hp _ ih =>
    refine (congrFun (Strict.eval_eq _ _) _).trans ?_
    exact (Course.bind_of_ok hp).trans ih
  | loop _ ih => exact (congrFun (Strict.eval_eq _ _) _).trans ih
  | @turn step c s z w p w₂ parts hs _ ih =>
    rw [Semantics.result, Semantics.loop, Course.Turn.loop_unfold, Semantics.body, bind_assoc, Course.bind_of_ok hs]
    refine fatal_passes ih fun message => ?_
    simp only [Semantics.turn_after, Result.verdict, Result.isCommitted, Bool.or_true]
    rfl
  | @turnNext step c s z w p w₂ r w₃ z₃ v s' parts hs hp hv hstep _ ih =>
    rw [Semantics.result, Semantics.loop, Course.Turn.loop_unfold, Semantics.body, bind_assoc, Course.bind_of_ok hs]
    refine (Course.bind_of_ok hp).trans ?_
    simp only [Semantics.turn_after, hv, hstep]
    exact ih
  | commit _ ih =>
    refine (congrFun (Strict.eval_eq _ _) _).trans ?_
    exact fatal_passes ih fun _ => rfl
  | @reword p f z w parts _ ih =>
    refine (congrFun (Strict.eval_eq _ _) _).trans ?_
    show (Strict.eval env p z >>= fun r => r.adjust fun m => (Strict.semantics env).exec (f m)) w = _
    rw [Course.bind_apply, show Strict.eval env p z w = _ from ih, ← Course.bind_apply, fatal_reword]
    rfl
  | @restoring p z w parts _ ih =>
    refine (congrFun (Strict.eval_eq _ _) _).trans ?_
    show (Strict.eval env p z >>= fun r => pure (r.onFailureRest fun rest => { rest with state := z.state })) w = _
    rw [Course.bind_apply, show Strict.eval env p z w = _ from ih, ← Course.bind_apply, fatal, bind_assoc]
    rfl
  | choice _ ih => exact (congrFun (Strict.eval_eq _ _) _).trans ih
  | alternative _ ih => exact fatal_passes ih fun _ => rfl
  | alternativeNext hp htrace _ ih =>
    refine (Course.bind_of_ok hp).trans ?_
    exact (Course.bind_of_ok htrace).trans ih
  | rule _ ih => exact (congrFun (Strict.eval_eq _ _) _).trans ih

end Strict

/-! ## Properties of what is left to do -/

/-- A property holds throughout everything that is to be done. -/
def Work.Throughout (P : Parser → Prop) : Work → Prop
  | .parser p => p.Throughout P
  | .turns step _ _ => ∀ v, Parser.Gives P (step v)
  | .alternatives _ ps => Parser.Each P ps

/-- Without lists, a run on demand applies a parser where a strict run does. -/
theorem Applies.strict {env : Env} (hg : ∀ name, (env.grammar name).StreamFree) {q : Parser} {z' : Context} {w' : World}
    {work : Work} {z : Context} {w : World} {parts : List Enclosing}
    (h : Applies (OnDemand.semantics env) env q z' w' work z w parts)
    (hwork : work.Throughout fun p => p.isStream = false) (hw : w.lists = #[]) :
    Applies (Strict.semantics env) env q z' w' work z w parts ∧ q.StreamFree ∧ w'.lists = #[] := by
  have heval : ∀ {p : Parser} {z : Context} {w w₁ : World} {r : Outcome}, p.StreamFree → w.lists = #[] →
      (OnDemand.semantics env).eval p z w = some (.ok r, w₁) → w₁.lists = #[] ∧ Strict.eval env p z w = some (.ok r, w₁) :=
    fun hp hw hr => Course.follows_pure_iff.1 (OnDemand.eval_strict hg hp _) _ _ hw hr
  have hexec : ∀ {act : Act Parser} {w w₁ : World} {p : Parser}, Parser.GivesStreamFree act → w.lists = #[] →
      (OnDemand.semantics env).exec act w = some (.ok p, w₁) →
      p.StreamFree ∧ w₁.lists = #[] ∧ (Strict.semantics env).exec act w = some (.ok p, w₁) := by
    intro act w w₁ p hact hw hp
    obtain ⟨hw₁, hp⟩ := Course.follows_pure_iff.1 (OnDemand.exec_strict_follows act) w _ hw hp
    exact ⟨hact.exec (Course.ofRun_eq_some.1 hp), hw₁, hp⟩
  induction h with
  | here => exact ⟨.here, hwork, hw⟩
  | map _ ih => exact (ih hwork.2 hw).imp_left .map
  | bind _ ih => exact (ih hwork.2.1 hw).imp_left .bind
  | bindNext hp hv hk _ ih =>
    obtain ⟨hw₁, hp⟩ := heval hwork.2.1 hw hp
    obtain ⟨hfree, hw₂, hk⟩ := hexec (hwork.2.2 _) hw₁ hk
    exact (ih hfree hw₂).imp_left (.bindNext hp hv hk)
  | orElse _ ih => exact (ih hwork.2.1 hw).imp_left .orElse
  | orElseNext hp _ ih =>
    obtain ⟨hw₁, hp⟩ := heval hwork.2.1 hw hp
    exact (ih hwork.2.2 hw₁).imp_left (.orElseNext hp)
  | loop _ ih => exact (ih hwork.2 hw).imp_left .loop
  | turn hs _ ih =>
    obtain ⟨hfree, hw₁, hs⟩ := hexec (hwork _) hw hs
    exact (ih hfree hw₁).imp_left (.turn hs)
  | turnNext hs hp hv hstep _ ih =>
    obtain ⟨hfree, hw₁, hs⟩ := hexec (hwork _) hw hs
    obtain ⟨hw₂, hp⟩ := heval hfree hw₁ hp
    exact (ih hwork hw₂).imp_left (.turnNext hs hp hv hstep)
  | commit _ ih => exact (ih hwork.2 hw).imp_left .commit
  | reword _ ih => exact (ih hwork.2 hw).imp_left .reword
  | restoring _ ih => exact (ih hwork.2 hw).imp_left .restoring
  | choice _ ih => exact (ih hwork.2 hw).imp_left .choice
  | alternative _ ih => exact (ih hwork.1 hw).imp_left .alternative
  | alternativeNext hp htrace _ ih =>
    obtain ⟨hw₁, hp⟩ := heval hwork.1 hw hp
    obtain ⟨hw₂, -⟩ := OnDemand.listFree_follows (.print _) _ _ hw₁ htrace
    exact (ih hwork.2 hw₂).imp_left (.alternativeNext hp htrace)
  | rule _ ih => exact (ih (hg _) hw).imp_left .rule

/-- Where no callback throws, no enclosing rewording does. -/
theorem Applies.answers {env : Env} (hg : ∀ name, (env.grammar name).NonThrowing) {q : Parser} {z' : Context} {w' : World}
    {work : Work} {z : Context} {w : World} {parts : List Enclosing}
    (h : Applies (Strict.semantics env) env q z' w' work z w parts) (hwork : work.Throughout Parser.callbacksAnswer)
    (m : String) : (Enclosing.reworded parts m).Answers := by
  have hexec : ∀ {act : Act Parser} {w w₁ : World} {p : Parser}, Parser.Gives Parser.callbacksAnswer act →
      (Strict.semantics env).exec act w = some (.ok p, w₁) → p.NonThrowing :=
    fun hact hp => hact.exec (Course.ofRun_eq_some.1 hp)
  induction h with
  | here => exact fun _ w => ⟨m, w, rfl⟩
  | map _ ih => exact ih hwork.2
  | bind _ ih => exact ih hwork.2.1
  | bindNext _ _ hk _ ih => exact ih (hexec (hwork.2.2 _) hk)
  | orElse _ ih => exact ih hwork.2.1
  | orElseNext _ _ ih => exact ih hwork.2.2
  | loop _ ih => exact ih hwork.2
  | turn hs _ ih => exact ih (hexec (hwork _) hs)
  | turnNext _ _ _ _ _ ih => exact ih hwork
  | commit _ ih => exact ih hwork.2
  | reword _ ih =>
    intro env w
    obtain ⟨m₁, w₁, h₁⟩ := ih hwork.2 env w
    obtain ⟨m₂, w₂, h₂⟩ := hwork.1 m₁ env w₁
    refine ⟨m₂, w₂, ?_⟩
    rw [Enclosing.reworded, Act.exec_bind]
    show Run.bind _ _ w = _
    unfold Run.bind
    rw [h₁]
    exact h₂
  | restoring _ ih => exact ih hwork.2
  | choice _ ih => exact ih hwork.2
  | alternative _ ih => exact ih hwork.1
  | alternativeNext _ _ _ ih => exact ih hwork.2
  | rule _ ih => exact ih (hg _)

/-- Callbacks read no tokens. -/
theorem Act.feed_exec_none {α : Type} (act : Act α) (env : Env) (w : World) :
    (act.exec env .none w).2.feed = w.feed := by
  induction act generalizing w with
  | pure a => rfl
  | throw e => rfl
  | note id next ih => exact ih _
  | width k ih => exact ih _ w
  | count mark k ih => exact ih _ _
  | fresh k ih => exact ih _ _
  | node i k ih => rfl
  | walk i k ih => rfl

namespace Engine

variable (e : Engine) {env : Env} (hg : ∀ name, (env.grammar name).StreamFree) {p : Parser} (hp : p.StreamFree)
  (z : Context) {w : World} (hw : w.lists = #[])

include hg hp hw in
/-- **A committed failure is never swallowed.** Say that a run of `p` applies `q` somewhere, which gives a committed
failure. Then all that still happens is that the messages are reworded by what encloses `q`. If they are, `p` gives a
committed failure with that message and the same input, no token is read, and only an enclosing `restoring` changes the
state. Rewordings that never throw are an example, but any that do not throw at this message will do. -/
theorem committed_failure_passes {q : Parser} {z' z₁ : Context} {w' w₁ : World} {parts : List Enclosing} {m₁ : String}
    (happlies : Applies (e.semantics env) env q z' w' (.parser p) z w parts)
    (hq : (e.semantics env).eval q z' w' = some (.ok (.committed (.failure z₁ m₁)), w₁)) :
    (∀ m₂ w₂, (Enclosing.reworded parts m₁).exec env .none w₁ = (.ok m₂, w₂) →
      (e.semantics env).eval p z w =
        some (.ok (.committed (.failure { z₁ with state := Enclosing.stateAfter parts z₁.state } m₂)), w₂) ∧
      Ends (fun n => e.verdict env n p z) w
        (.ok (.failure { z₁ with state := Enclosing.stateAfter parts z₁.state } m₂)) w₂ ∧
      (∃ w₃, Ends (fun n => e.rawTag env n p z) w (.ok .committed) w₃) ∧
      w₂.feed = w₁.feed) ∧
    (p.NonThrowing → (∀ name, (env.grammar name).NonThrowing) →
      ∃ m₂ w₂, (Enclosing.reworded parts m₁).exec env .none w₁ = (.ok m₂, w₂)) := by
  have hstrict : Applies (Strict.semantics env) env q z' w' (.parser p) z w parts ∧
      Strict.eval env q z' w' = some (.ok (.committed (.failure z₁ m₁)), w₁) := by
    cases he : e.onDemand with
    | false =>
      rw [semantics, he] at happlies hq
      exact ⟨happlies, hq⟩
    | true =>
      have hsemantics : e.semantics env = OnDemand.semantics env := by
        rw [semantics, he]
        rfl
      rw [hsemantics] at happlies
      obtain ⟨hstrict, hfree, hw'⟩ := happlies.strict hg hp hw
      rw [semantics_eval e hg hfree z' hw'] at hq
      exact ⟨hstrict, hq⟩
  obtain ⟨happlies, hq⟩ := hstrict
  refine ⟨fun m₂ w₂ hm => ?_, fun hcalls hgcalls => happlies.answers hgcalls hcalls m₁ _ w₁⟩
  have hresult : Strict.eval env p z w =
      some (.ok (.committed (.failure (Enclosing.leaving parts z₁) m₂)), w₂) := by
    refine (happlies.result hq).trans ?_
    exact Course.bind_of_ok (Course.ofRun_eq_some (a := .ok m₂) |>.2 hm)
  refine ⟨(semantics_eval e hg hp z hw).trans hresult, ?_, ends_rawTag e hg hp z hw hresult, ?_⟩
  · rw [← Run.limit_eq_some (e.steady_verdict _ p z), e.limit_verdict hg hp z hw, map_eq_pure_bind,
      Course.bind_of_ok hresult]
    rfl
  · have hfeed := (Enclosing.reworded parts m₁).feed_exec_none env w₁
    rw [hm] at hfeed
    exact hfeed

/-- A committed failure after a change of state, with a fallback, within a rewording and a restored state. -/
def abandoned : Parser :=
  .restoring (.reword (.bind (.put (.text "new")) fun _ => .pure (.orElse (.commit (.fail "no")) .get))
    fun m => .pure (m ++ "!"))

theorem committed_failure_passes_abandoned :
    Ends (fun n => (lazy true).verdict ((lazy true).env (fun _ => .eof) {}) n abandoned
      ⟨.ofList [.text "a"], .text "old"⟩) {} (.ok (.failure ⟨.ofList [.text "a"], .text "old"⟩ "no!")) {} := by
  have hg : ∀ name, (((lazy true).env (fun _ => .eof) {}).grammar name).StreamFree := fun _ => rfl
  have hp : abandoned.StreamFree := by
    simp [abandoned, Parser.StreamFree, Parser.Throughout, Parser.Gives, Parser.isStream]
  have heval : ∀ {p : Parser} {z : Context} {r : Strict.Outcome}, p.StreamFree →
      Ends (fun n => Strict.run ((lazy true).env (fun _ => .eof) {}) n p z) {} (.ok r) {} →
      ((lazy true).semantics ((lazy true).env (fun _ => .eof) {})).eval p z {} = some (.ok r, {}) :=
    fun hp hr => (semantics_eval (lazy true) hg hp _ rfl).trans (Strict.eval_eq_some.2 hr)
  have hput := heval (p := .put (.text "new")) (z := ⟨.ofList [.text "a"], .text "old"⟩)
    (r := .success ⟨.ofList [.text "a"], .text "new"⟩ .absent) rfl ⟨1, rfl⟩
  have hfail := heval (p := .commit (.fail "no")) (z := ⟨.ofList [.text "a"], .text "new"⟩)
    (r := .committed (.failure ⟨.ofList [.text "a"], .text "new"⟩ "no")) ⟨rfl, rfl⟩ ⟨2, rfl⟩
  have happlies : Applies ((lazy true).semantics ((lazy true).env (fun _ => .eof) {})) ((lazy true).env (fun _ => .eof) {})
      (.commit (.fail "no")) ⟨.ofList [.text "a"], .text "new"⟩ {} (.parser abandoned)
      ⟨.ofList [.text "a"], .text "old"⟩ {} [.restoring (.text "old"), .reword fun m => .pure (m ++ "!")] :=
    .restoring (.reword (.bindNext hput rfl (congrFun (OnDemand.exec_pure _) _) (.orElse .here)))
  exact ((committed_failure_passes (lazy true) hg hp _ rfl happlies hfail).1 "no!" {} rfl).2.1

end Engine

end CommittedChoice
