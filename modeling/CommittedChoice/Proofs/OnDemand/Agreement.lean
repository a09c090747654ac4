import CommittedChoice.Proofs.OnDemand.Evaluation
import CommittedChoice.Proofs.OnDemand.Session
import CommittedChoice.Proofs.OnDemand.Strictly

/-!
# Agreement of the two engines

Where no list is made, the on-demand engine and the strict one give the same results, in the same worlds.

- `reveal_strict`, `eval_strict`: what is revealed keeps the strict meaning, so a result on demand is a strict result;
- `strict_eval`: a strict result is a result on demand. Both engines have the same equation, and the strict one is the
  least to have it;
- `eval_eq_strict`, `verdict_eq_strict`: the two together.
-/

namespace CommittedChoice

open Run (limit)
open Strict (Outcome)

namespace Course.Follows

variable {α β γ : Type} {x : Course α} {G : α → Prop} {y : Course α}

/-- Two courses that go on in step. -/
theorem andThen {f : α → Course β} {g : α → Course β} {G' : β → Prop} (h : x.Follows G Pure.pure y)
    (hf : ∀ a, G a → (f a).Follows G' Pure.pure (g a)) : (x >>= f).Follows G' Pure.pure (y >>= g) := by
  refine (h.extend g).bind fun a ha => ?_
  rw [pure_bind]
  exact hf a ha

/-- Only worlds without lists matter. -/
theorem of_eqOn {K : α → Course β} {y y' : Course β} (h : x.Follows G K y) (hy : ∀ w, w.lists = #[] → y' w = y w) :
    x.Follows G K y' := by
  intro w b hw hb
  rw [hy w hw]
  exact h w b hw hb

/-- What follows an answer matters only for such answers as there can be. -/
theorem bind_eqOn {K : α → Course β} {y : Course β} (h : x.Follows G K y) {f g : α → Course γ}
    (hfg : ∀ a, G a → f a = g a) {w : World} (hw : w.lists = #[]) : (x >>= f) w = (x >>= g) w := by
  rw [Course.bind_apply, Course.bind_apply]
  rcases hx : x w with _ | ⟨e | a, w'⟩
  · rfl
  · rfl
  · obtain ⟨-, hG, -⟩ := h w _ hw hx
    exact congrFun (hfg a hG) w'

end Course.Follows

/-- A course follows another one if that ends in the same way. -/
theorem Course.follows_pure_iff {α : Type} {x y : Course α} : x.Follows (fun _ => True) pure y ↔
    ∀ w b, w.lists = #[] → x w = some b → b.2.lists = #[] ∧ y w = some b := by
  constructor
  · rintro h w ⟨e | a, w'⟩ hw hb
    · exact h w _ hw hb
    · exact ⟨(h w _ hw hb).1, (h w _ hw hb).2.2⟩
  · rintro h w ⟨e | a, w'⟩ hw hb
    · exact h w _ hw hb
    · exact ⟨(h w _ hw hb).1, trivial, (h w _ hw hb).2⟩

/-- Two courses that follow each other. -/
theorem Course.eqOn_of_follows {α : Type} {x y : Course α} (h : x.Follows (fun _ => True) pure y)
    (h' : y.Follows (fun _ => True) pure x) {w : World} (hw : w.lists = #[]) : x w = y w := by
  rw [Course.follows_pure_iff] at h h'
  cases hx : x w with
  | some b => exact (h w b hw hx).2.symm
  | none =>
    cases hy : y w with
    | none => rfl
    | some b => rw [(h' w b hw hy).2] at hx; cases hx


/-! ## Tags -/

/-- What shows of a result or an answer at first sight. -/
inductive Tag where
  | success
  | failure
  | committed
deriving DecidableEq

/-- The tag of a result. -/
def Result.tag {ζ α : Type} : Result ζ α → Tag
  | .plain (.success _ _) => .success
  | .plain (.failure _ _) => .failure
  | .committed _ => .committed

namespace OnDemand

variable {env : Env}

/-- The tag of an answer. -/
def Answer.tag : Answer → Tag
  | .success _ => .success
  | .failure _ _ => .failure
  | .committed _ => .committed

/-! ## A result on demand is a strict result -/

/-- A success knows where it ends. -/
def Revealed.Prompt (r : Revealed) : Prop := r.settled.toAnswer.StreamFree

variable (env) in
/-- What becomes of what is revealed. -/
noncomputable def Revealed.strict (r : Revealed) : Course Outcome :=
  Result.commitIf r.committed <$> r.settled.toAnswer.strict env

theorem Revealed.strict_commit (r : Revealed) : r.commit.strict env = Result.commit <$> r.strict env := by
  rw [Revealed.strict, Revealed.strict, ← comp_map]
  obtain ⟨_ | _, _⟩ := r <;> rfl

theorem Revealed.read_prompt (c : Bool) (z : Context) (l : Late Value) :
    (⟨c, .success { rest := .known z, value := l }⟩ : Revealed).read env =
      late env l >>= fun v => pure ((Result.success z v).commitIf c) := by
  simp only [Revealed.read, late_known, pure_bind]

theorem late_follows {α β : Type} (l : Late α) (K : α → Course β) :
    (late env l).Follows (fun _ => True) K (l.strict env >>= K) :=
  .sup (steady_late env l).monotone fun n => late_strict n l K

theorem exec_strict_follows {α : Type} (act : Act α) :
    (exec env act).Follows (fun _ => True) pure ((Strict.semantics env).exec act) := by
  refine .sup (steady_exec env act).monotone fun n => ?_
  rw [← bind_pure ((Strict.semantics env).exec act)]
  exact exec_strict n act pure

section Soundness

variable (hg : ∀ name, (env.grammar name).StreamFree)

include hg

theorem answer_follows {s : Suspended} (hs : s.StreamFree) :
    (answer env s).Follows Answer.StreamFree (Answer.strict env) (s.strict env) :=
  .sup (steady_answer env s).monotone fun n => answer_strict hg n s hs

/-- What is revealed keeps the strict meaning. -/
theorem reveal_strict {s : Suspended} (hs : s.StreamFree) :
    (reveal env s).Follows Revealed.Prompt (Revealed.strict env) (s.strict env) := by
  refine .sup (monotone_revealUpTo s) fun k => ?_
  induction k generalizing s with
  | zero => exact .never
  | succ k ih =>
    refine (answer_follows hg hs).bind fun a ha => ?_
    cases a with
    | failure z message => exact .pure trivial (id_map _).symm
    | success p =>
      obtain ⟨z, l, rfl⟩ := ha
      rw [revealing, finish_of_none rfl, map_pure]
      exact .pure ⟨z, l, rfl⟩ (id_map _).symm
    | committed inner =>
      rw [Answer.StreamFree] at ha
      rw [revealing, Answer.strict, map_eq_pure_bind, map_eq_pure_bind]
      refine ((ih ha).extend _).bind fun r hr => .pure hr ?_
      rw [Revealed.strict_commit, map_eq_pure_bind]

theorem eval_strict {p : Parser} (hp : p.StreamFree) (z : Context) :
    (eval env p z).Follows (fun _ => True) pure (Strict.eval env p z) := by
  refine (reveal_strict hg (s := .apply p z) hp).bind fun r hr => ?_
  obtain ⟨c, p | ⟨z, message⟩⟩ := r
  · obtain ⟨z, l, rfl⟩ := hr
    rw [Revealed.read_prompt, Revealed.strict, Settled.toAnswer, Answer.strict_prompt, map_bind]
    exact (late_follows l _).bind fun v _ => .pure trivial (map_pure _ _)
  · exact .pure trivial (map_pure _ _)

end Soundness

/-! ## A strict result is a result on demand -/

/-- A callback finds no lists to read in either engine. -/
theorem exec_follows {α : Type} (act : Act α) :
    ((Strict.semantics env).exec act).Follows (fun _ => True) pure (exec env act) := by
  have hexec : ∀ w, w.lists = #[] → (means env 1).exec act w = act.exec env .none w := by
    unfold Means.exec
    induction act with
    | pure a => exact fun _ _ => rfl
    | throw e => exact fun _ _ => rfl
    | note id next ih => exact fun w hw => ih _ hw
    | width k ih => exact fun w hw => ih _ w hw
    | count mark k ih => exact fun w hw => ih _ _ hw
    | fresh k ih => exact fun w hw => ih _ _ hw
    | node i k ih =>
      intro w hw
      rw [Act.exec_node, Act.exec_node]
      show Run.bind (node env 1 i) _ w = _
      unfold Run.bind
      rw [node_missing 0 hw]
      rfl
    | walk i k ih =>
      intro w hw
      rw [Act.exec_walk, Act.exec_walk]
      show Run.bind (Run.bind (node env 1 i) _) _ w = _
      unfold Run.bind
      rw [node_missing 0 hw]
      rfl
  rintro w ⟨x, w'⟩ hw hb
  have hends : exec env act w = some (x, w') := by
    refine Course.le_sup (steady_exec env act).monotone 1 w _ (Course.ofRun_eq_some.2 ?_)
    exact (hexec w hw).trans (Course.ofRun_eq_some.1 hb)
  have hfree : (act.exec env .none).ListFree := act.listFree_exec_none
  have hlists := hfree.lists_eq w
  rw [Course.ofRun_eq_some.1 hb] at hlists
  refine ⟨hlists.trans hw, ?_⟩
  cases x with
  | ok a => exact ⟨trivial, hends⟩
  | error e => exact hends

/-- The parser that a callback gives. -/
theorem exec_parser_follows {act : Act Parser} (h : Parser.GivesStreamFree act) :
    ((Strict.semantics env).exec act).Follows Parser.StreamFree pure (exec env act) :=
  (exec_follows act).and_of fun _ _ _ hq => h.exec (Course.ofRun_eq_some.1 hq)

theorem listFree_follows {α : Type} {x : Run α} (h : x.ListFree) :
    (Course.ofRun x).Follows (fun _ => True) pure (Course.ofRun x) := by
  have hx := Course.Follows.listFree h (pure : α → Course α)
  rwa [bind_pure] at hx

section Completeness

variable {ev : Parser → Context → Course Outcome}
  (hev : ∀ {p : Parser}, p.StreamFree → ∀ z, (ev p z).Follows (fun _ => True) pure (eval env p z))

include hev

theorem alternatives_follows (z : Context) : ∀ (failures : List (String × String)) {ps : List (String × Parser)},
    Parser.Each (fun q => q.isStream = false) ps →
    ((Semantics.mk (Strict.semantics env).exec ev).alternatives env z failures ps).Follows (fun _ => True) pure
      ((semantics env).alternatives env z failures ps)
  | failures, [], _ => by
    unfold Semantics.alternatives
    exact (listFree_follows (.ofExcept _)).andThen fun _ _ => .pure trivial rfl
  | failures, (label, p) :: rest, hps => by
    rw [Parser.Each] at hps
    unfold Semantics.alternatives
    refine (hev hps.1 z).andThen fun r _ => ?_
    rcases r with ⟨_ | ⟨_, message⟩⟩ | _
    · exact .pure trivial rfl
    · exact (listFree_follows (.print _)).andThen fun _ _ => alternatives_follows z _ hps.2
    · exact .pure trivial rfl

omit hev in
/-- What a turn reveals leads on as its result does. -/
theorem read_revealTurn (f : Bool → Value → Context → Course Revealed) (c : Bool) {r : Revealed} (hr : r.Prompt) :
    (revealTurn env).after f c r >>= Revealed.read env =
      r.read env >>= Semantics.turn.after (fun c s z => f c s z >>= Revealed.read env) c := by
  obtain ⟨d, p | ⟨z, message⟩⟩ := r
  · obtain ⟨z, l, rfl⟩ := hr
    rw [Revealed.read_prompt]
    simp only [revealTurn, bind_assoc, pure_bind]
    refine bind_congr fun v => ?_
    rw [Semantics.turn_after_success]
    cases v.toStep with
    | done value => rw [pure_bind, Revealed.read_prompt, late_known, pure_bind]
    | again state =>
      dsimp only
      rw [late_known, pure_bind]
  · simp only [revealTurn, Revealed.read, pure_bind]
    cases d <;> rfl

theorem loop_follows (hg : ∀ name, (env.grammar name).StreamFree) {step : Value → Act Parser}
    (hstep : ∀ v, Parser.GivesStreamFree (step v)) (c : Bool) (s : Value) (z : Context) :
    ((Semantics.mk (Strict.semantics env).exec ev).loop step c s z).Follows (fun _ => True) pure
      (revealLoop env step c s z >>= Revealed.read env) := by
  refine .sup (Course.Turn.monotone_rounds c s z) fun k => ?_
  induction k generalizing c s z with
  | zero => exact .never
  | succ k ih =>
    rw [revealLoop, Course.Turn.loop_unfold, bind_assoc, revealBody, bind_assoc, Course.Turn.rounds, Semantics.body,
      bind_assoc]
    refine (exec_parser_follows (hstep s)).andThen fun q hq => ?_
    have hturn : ∀ w, w.lists = #[] → (reveal env (.apply q z) >>= fun r =>
        (revealTurn env).after (revealLoop env step) c r >>= Revealed.read env) w =
        (eval env q z >>= Semantics.turn.after (fun c s z => revealLoop env step c s z >>= Revealed.read env) c) w := by
      intro w hw
      rw [eval, bind_assoc]
      exact (reveal_strict hg (s := .apply q z) hq).bind_eqOn (fun r hr => read_revealTurn _ c hr) hw
    refine Course.Follows.of_eqOn ?_ hturn
    refine (hev hq z).andThen fun r _ => ?_
    dsimp only [Semantics.turn]
    cases r.verdict with
    | failure z message => exact .pure trivial rfl
    | success z v =>
      dsimp only
      cases v.toStep with
      | done value => exact .pure trivial rfl
      | again state => exact ih _ _ _

/-- One layer of a term. -/
theorem meaning_follows (hg : ∀ name, (env.grammar name).StreamFree) {p : Parser} (hp : p.StreamFree) (z : Context) :
    ((Semantics.mk (Strict.semantics env).exec ev).meaning env p z).Follows (fun _ => True) pure (eval env p z) := by
  have hstream : p.isStream = false := by
    rw [Parser.StreamFree] at hp
    cases p <;> first | rfl | (rw [Parser.Throughout] at hp; exact hp.1)
  by_cases hloop : ∀ init step, p ≠ .loop init step
  swap
  · push Not at hloop
    obtain ⟨init, step, rfl⟩ := hloop
    rw [Parser.StreamFree, Parser.Throughout] at hp
    rw [eval, reveal_loop]
    exact loop_follows hev hg hp.2 false init z
  rw [eval_eq hloop hstream]
  rw [Parser.StreamFree] at hp
  cases p with
  | loop init step => exact absurd rfl (hloop init step)
  | stream p => cases hstream
  | map p f =>
    rw [Parser.Throughout] at hp
    refine (hev hp.2 z).andThen fun r _ => ?_
    rcases r with ⟨_ | _⟩ | ⟨_ | _⟩
    case plain.success | committed.success => exact (exec_follows _).andThen fun _ _ => .pure trivial rfl
    case plain.failure | committed.failure => exact .pure trivial rfl
  | bind p k =>
    rw [Parser.Throughout] at hp
    refine (hev hp.2.1 z).andThen fun r _ => ?_
    rcases r with ⟨⟨z, a⟩ | _⟩ | ⟨⟨z, a⟩ | _⟩
    case plain.success => exact (exec_parser_follows (hp.2.2 a)).andThen fun q hq => hev hq z
    case committed.success =>
      exact ((exec_parser_follows (hp.2.2 a)).andThen fun q hq => hev hq z).andThen fun _ _ => .pure trivial rfl
    case plain.failure | committed.failure => exact .pure trivial rfl
  | orElse p q =>
    rw [Parser.Throughout] at hp
    refine (hev hp.2.1 z).andThen fun r _ => ?_
    rcases r with ⟨_ | _⟩ | _
    · exact .pure trivial rfl
    · exact hev hp.2.2 z
    · exact .pure trivial rfl
  | commit p =>
    rw [Parser.Throughout] at hp
    exact (hev hp.2 z).andThen fun _ _ => .pure trivial rfl
  | reword p f =>
    rw [Parser.Throughout] at hp
    refine (hev hp.2 z).andThen fun r _ => ?_
    rcases r with ⟨_ | _⟩ | ⟨_ | _⟩
    case plain.failure | committed.failure => exact (exec_follows _).andThen fun _ _ => .pure trivial rfl
    case plain.success | committed.success => exact .pure trivial rfl
  | choice ps =>
    rw [Parser.Throughout] at hp
    exact alternatives_follows hev z [] hp.2
  | restoring p =>
    rw [Parser.Throughout] at hp
    exact (hev hp.2 z).andThen fun _ _ => .pure trivial rfl
  | rule name => exact hev (hg name) z
  | next =>
    refine (listFree_follows (.next? _)).andThen fun answer _ => ?_
    rcases answer with _ | ⟨t, rest⟩ <;> exact .pure trivial rfl
  | eof =>
    refine (listFree_follows (.next? _)).andThen fun answer _ => ?_
    rcases answer with _ | ⟨t, rest⟩ <;> exact .pure trivial rfl
  | satisfy test =>
    refine (listFree_follows (.next? _)).andThen fun answer _ => ?_
    rcases answer with _ | ⟨t, rest⟩
    · exact .pure trivial rfl
    · refine (exec_follows _).andThen fun b _ => ?_
      cases b with
      | true => exact .pure trivial rfl
      | false => exact (listFree_follows (.ofExcept _)).andThen fun _ _ => .pure trivial rfl
  | _ => exact .pure trivial rfl

end Completeness

section Agreement

variable (hg : ∀ name, (env.grammar name).StreamFree) {p : Parser} (hp : p.StreamFree) (z : Context)

include hg hp

theorem strict_eval : (Strict.eval env p z).Follows (fun _ => True) pure (eval env p z) := by
  rw [Course.follows_pure_iff]
  intro w b hw hb
  refine Strict.eval_induction (R := fun p z w b => p.StreamFree → w.lists = #[] → b.2.lists = #[] ∧
    eval env p z w = some b) (fun ev hev p z w b hb hp hw => ?_) hb hp hw
  have hparts : ∀ {p : Parser}, p.StreamFree → ∀ z, (ev p z).Follows (fun _ => True) pure (eval env p z) :=
    fun hp z => Course.follows_pure_iff.2 fun w b hw hb => hev _ z w b hb hp hw
  exact Course.follows_pure_iff.1 (meaning_follows hparts hg hp z) w b hw hb

/-- **Where no list is made, both engines give the same results.** -/
theorem eval_eq_strict {w : World} (hw : w.lists = #[]) : eval env p z w = Strict.eval env p z w :=
  Course.eqOn_of_follows (eval_strict hg hp z) (strict_eval hg hp z) hw

/-- **Where no list is made, a parse on demand is a strict parse.** -/
theorem verdict_eq_strict {w : World} (hw : w.lists = #[]) :
    limit (fun n => (means env n).verdict n p z) w = (Result.verdict <$> Strict.eval env p z) w := by
  have hread : ∀ r : Revealed, r.Prompt → readAll env r.settled = Result.verdict <$> r.read env := by
    intro r hr
    have hverdict : ∀ (c : Bool) (o : Outcome), (o.commitIf c).verdict = o.verdict := by
      intro c o
      cases c <;> rfl
    obtain ⟨c, q | ⟨z, message⟩⟩ := r
    · obtain ⟨z, l, rfl⟩ := hr
      rw [Revealed.read_prompt, map_bind]
      simp only [readAll, late_known, pure_bind, map_pure, hverdict, ite_self]
      rfl
    · simp only [readAll, Revealed.read, map_pure, hverdict]
      rfl
  calc limit (fun n => (means env n).verdict n p z) w
      = (reveal env (.apply p z) >>= fun r => readAll env r.settled) w := by rw [limit_verdict]
    _ = (reveal env (.apply p z) >>= fun r => Result.verdict <$> r.read env) w :=
        (reveal_strict hg (s := .apply p z) hp).bind_eqOn hread hw
    _ = (Result.verdict <$> eval env p z) w := by rw [eval, map_bind]
    _ = (Result.verdict <$> Strict.eval env p z) w := by
        rw [map_eq_pure_bind, map_eq_pure_bind, Course.bind_apply, Course.bind_apply, eval_eq_strict hg hp z hw]

/-- What the parser says at first, before anything is asked of it, shows the tag of the strict result. -/
theorem answer_tag {w w' : World} (hw : w.lists = #[]) {r : Outcome} (hr : Strict.eval env p z w = some (.ok r, w')) :
    ∃ a w'', answer env (.apply p z) w = some (.ok a, w'') ∧ a.tag = r.tag := by
  rw [← eval_eq_strict hg hp z hw, eval, reveal_eq, bind_assoc] at hr
  obtain ⟨a, w₁, ha, hread⟩ := Course.bind_eq_ok hr
  refine ⟨a, w₁, ha, ?_⟩
  obtain ⟨-, hfree, -⟩ := answer_follows hg (s := .apply p z) hp w _ hw ha
  obtain ⟨v, w₂, hv, hr⟩ := Course.bind_eq_ok hread
  cases a with
  | failure z message =>
    cases hv
    cases hr
    rfl
  | success q =>
    obtain ⟨z, l, rfl⟩ := hfree
    rw [revealing, finish_of_none rfl, map_pure] at hv
    cases hv
    rw [Promise.revealed, Promise.disclosed, Revealed.read_prompt] at hr
    obtain ⟨v, w₃, -, hr⟩ := Course.bind_eq_ok hr
    cases hr
    rfl
  | committed inner =>
    rw [revealing, map_eq_pure_bind] at hv
    obtain ⟨t, w₃, -, hv⟩ := Course.bind_eq_ok hv
    cases hv
    rw [Revealed.read_commit, map_eq_pure_bind] at hr
    obtain ⟨o, w₄, -, hr⟩ := Course.bind_eq_ok hr
    cases hr
    rfl

end Agreement

end OnDemand

end CommittedChoice
