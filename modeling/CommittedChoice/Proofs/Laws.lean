import CommittedChoice.Proofs.Engines
import CommittedChoice.Proofs.OnDemand.Algebra
import CommittedChoice.Proofs.OnDemand.Order

/-!
# Laws

The equations that hold between the primitives, in every engine and for every kind of result. What is compared is all that
a parser gives: its tag once that is revealed, the value or the message, what is left of the input, the state, and what
happens on the way. On demand this is what shows when everything has been asked for; before that, `bind` has done work
that `map` still has to do.

- `Result.bind_bind`, `Result.map_map`, ...: the same equations for results, in any monad;
- `Semantics.Compositional`: where a term means what its parts do, the equations go over from results to terms;
- `Engine.result`, `Engine.Same`: what an engine gives, and terms that give the same;
- `Engine.laws`: the equations of the engines.
-/

namespace CommittedChoice

open Run (limit Steady)
open Strict (Outcome)

/-! ## Results -/

namespace Result

variable {m : Type → Type} [Monad m] [LawfulMonad m] {ζ α β γ : Type}

theorem bind_success (r : Result ζ α) : (r.bind fun z a => (pure (success z a) : m (Result ζ α))) = pure r := by
  obtain (_ | _) | (_ | _) := r <;> simp [bind, commit, success, failure, verdict]

theorem bind_bind (r : Result ζ α) (k : ζ → α → m (Result ζ β)) (h : ζ → β → m (Result ζ γ)) :
    (r.bind k >>= fun s => s.bind h) = r.bind fun z a => k z a >>= fun s => s.bind h := by
  match r with
  | .plain (.success z a) => rfl
  | .plain (.failure z e) | .committed (.failure z e) => simp [bind, failure]
  | .committed (.success z a) =>
    -- the commitment before covers both continuations
    calc (k z a >>= fun s => pure s.commit) >>= (fun s => s.bind h)
        = k z a >>= fun s => commit <$> s.bind h := by simp only [bind_assoc, pure_bind, bind_commit]
      _ = (k z a >>= fun s => s.bind h) >>= fun t => pure t.commit := by simp only [map_eq_pure_bind, bind_assoc]

theorem map_eq_bind (r : Result ζ α) (f : α → m β) : r.map f = r.bind fun z a => success z <$> f a := by
  match r with
  | .plain (.success z a) => exact (map_eq_pure_bind _ _).symm
  | .plain (.failure z e) | .committed (.failure z e) => rfl
  | .committed (.success z a) => simp [map, bind, success, commit, verdict]

theorem map_map (r : Result ζ α) (f : α → m β) (g : β → m γ) :
    (r.map f >>= fun s => s.map g) = r.map fun a => f a >>= g := by
  obtain (_ | _) | (_ | _) := r <;> simp [map, success, failure]

theorem adjust_adjust (r : Result ζ α) (f g : String → m String) :
    (r.adjust f >>= fun s => s.adjust g) = r.adjust fun message => f message >>= g := by
  obtain (_ | _) | (_ | _) := r <;> simp [adjust, failure]

end Result

/-! ## Terms -/

namespace Semantics

theorem orElse_orElse (r : Outcome) (second third : Course Outcome) :
    (orElse r second >>= fun s => orElse s third) = orElse r (second >>= fun s => orElse s third) := by
  obtain (_ | _) | (_ | _) := r <;> rfl

/-- Callbacks are run in sequence, and a term without a list means what its parts do. -/
structure Compositional (S : Semantics) (env : Env) : Prop where
  exec_pure : ∀ {α : Type} (a : α), S.exec (.pure a) = pure a
  exec_bind : ∀ {α β : Type} (act : Act α) (k : α → Act β),
    S.exec (act.bind k) = S.exec act >>= fun a => S.exec (k a)
  eval_meaning : ∀ {p : Parser}, p.isStream = false → ∀ z, S.eval p z = S.meaning env p z

namespace Compositional

variable {S : Semantics} {env : Env} (hS : S.Compositional env) (z : Context)

include hS

/-! ### One equation for each primitive -/

theorem eval_pure (v : Value) : S.eval (.pure v) z = pure (.success z v) := hS.eval_meaning rfl z

theorem eval_fail (message : String) : S.eval (.fail message) z = pure (.failure z message) := hS.eval_meaning rfl z

theorem eval_map (p : Parser) (f : Value → Act Value) :
    S.eval (.map p f) z = S.eval p z >>= fun r => r.map fun v => S.exec (f v) := hS.eval_meaning rfl z

theorem eval_bind (p : Parser) (k : Value → Act Parser) :
    S.eval (.bind p k) z = S.eval p z >>= fun r => r.bind fun z v => S.exec (k v) >>= fun q => S.eval q z :=
  hS.eval_meaning rfl z

theorem eval_orElse (p q : Parser) : S.eval (.orElse p q) z = S.eval p z >>= fun r => orElse r (S.eval q z) :=
  hS.eval_meaning rfl z

theorem eval_commit (p : Parser) : S.eval (.commit p) z = Result.commit <$> S.eval p z :=
  (hS.eval_meaning rfl z).trans (map_eq_pure_bind _ _).symm

theorem eval_reword (p : Parser) (f : String → Act String) :
    S.eval (.reword p f) z = S.eval p z >>= fun r => r.adjust fun message => S.exec (f message) := hS.eval_meaning rfl z

/-! ### Sequencing -/

theorem bind_pure_left (a : Value) (k : Value → Act Parser) :
    S.eval (.bind (.pure a) k) z = S.exec (k a) >>= fun q => S.eval q z := by
  rw [hS.eval_bind, hS.eval_pure, pure_bind]
  rfl

theorem bind_pure_right (p : Parser) : S.eval (.bind p fun a => .pure (.pure a)) z = S.eval p z := by
  simp only [hS.eval_bind, hS.exec_pure, pure_bind, hS.eval_pure, Result.bind_success, bind_pure]

theorem bind_bind (p : Parser) (k h : Value → Act Parser) :
    S.eval (.bind (.bind p k) h) z = S.eval (.bind p fun a => (k a).bind fun q => .pure (.bind q h)) z := by
  simp only [hS.eval_bind, hS.exec_bind, hS.exec_pure, bind_assoc, pure_bind, Result.bind_bind]

/-! ### Functions of the value -/

theorem map_eq_bind (p : Parser) (f : Value → Act Value) :
    S.eval (.map p f) z = S.eval (.bind p fun a => (f a).bind fun b => .pure (.pure b)) z := by
  simp only [hS.eval_map, hS.eval_bind, hS.exec_bind, hS.exec_pure, bind_assoc, pure_bind, hS.eval_pure,
    Result.map_eq_bind, map_eq_pure_bind]

theorem map_map (p : Parser) (f g : Value → Act Value) :
    S.eval (.map (.map p f) g) z = S.eval (.map p fun a => (f a).bind g) z := by
  simp only [hS.eval_map, hS.exec_bind, bind_assoc, Result.map_map]

/-! ### Choices -/

theorem orElse_assoc (p q r : Parser) :
    S.eval (.orElse (.orElse p q) r) z = S.eval (.orElse p (.orElse q r)) z := by
  simp only [hS.eval_orElse, bind_assoc, orElse_orElse]

theorem fail_orElse (message : String) (q : Parser) : S.eval (.orElse (.fail message) q) z = S.eval q z := by
  rw [hS.eval_orElse, hS.eval_fail, pure_bind]
  rfl

/-! ### Commitments -/

theorem commit_commit (p : Parser) : S.eval (.commit (.commit p)) z = S.eval (.commit p) z := by
  simp only [hS.eval_commit, Functor.map_map, Result.commit_commit]

theorem commit_orElse (p q : Parser) : S.eval (.orElse (.commit p) q) z = S.eval (.commit p) z := by
  rw [hS.eval_orElse, hS.eval_commit, bind_map_left, map_eq_pure_bind]
  rfl

theorem commit_bind (p : Parser) (k : Value → Act Parser) :
    S.eval (.bind (.commit p) k) z = S.eval (.commit (.bind p k)) z := by
  simp only [hS.eval_bind, hS.eval_commit, bind_map_left, Result.bind_commit, map_bind]

/-! ### Messages -/

theorem reword_reword (p : Parser) (f g : String → Act String) :
    S.eval (.reword (.reword p f) g) z = S.eval (.reword p fun message => (f message).bind g) z := by
  simp only [hS.eval_reword, hS.exec_bind, bind_assoc, Result.adjust_adjust]

theorem reword_commit (p : Parser) (f : String → Act String) :
    S.eval (.reword (.commit p) f) z = S.eval (.commit (.reword p f)) z := by
  simp only [hS.eval_reword, hS.eval_commit, bind_map_left, Result.adjust_commit, map_bind]

end Compositional

end Semantics

/-! ## Engines -/

theorem Strict.compositional (env : Env) : (Strict.semantics env).Compositional env where
  exec_pure _ := rfl
  exec_bind act k := by
    show Course.ofRun ((act >>= k).exec env .none) = _
    rw [Act.exec_bind, Course.ofRun_bind]
    rfl
  eval_meaning _ z := Strict.eval_eq _ z

theorem OnDemand.compositional (env : Env) : (OnDemand.semantics env).Compositional env where
  exec_pure := OnDemand.exec_pure
  exec_bind := OnDemand.exec_bind
  eval_meaning := OnDemand.eval_meaning

namespace Engine

variable (e : Engine) (env : Env)

/-- What a callback does. -/
def exec {α : Type} (fuel : Nat) (act : Act α) : Run α :=
  if e.onDemand then (OnDemand.means env fuel).exec act else act.exec env .none

/-- Everything that a parser gives. On demand, its finish is disclosed first, then its parts are asked for. -/
def result (fuel : Nat) (p : Parser) (z : Context) : Run Outcome :=
  if e.onDemand then (OnDemand.means env fuel).result fuel (.apply p z) else Strict.run env fuel p z

theorem compositional : (e.semantics env).Compositional env := by
  unfold semantics
  cases e.onDemand with
  | true => exact OnDemand.compositional env
  | false => exact Strict.compositional env

theorem limit_result (p : Parser) (z : Context) :
    (limit fun n => e.result env n p z) = (e.semantics env).eval p z := by
  unfold result semantics
  cases e.onDemand with
  | true => exact OnDemand.result_eq _
  | false => rfl

/-- A callback and then a parser that depends on it. -/
theorem limit_exec_result (act : Act Parser) (z : Context) :
    (limit fun n => e.exec env n act >>= fun q => e.result env n q z) =
      (e.semantics env).exec act >>= fun q => (e.semantics env).eval q z := by
  simp only [← limit_result]
  unfold exec result semantics
  cases e.onDemand with
  | true => exact Run.limit_bind (OnDemand.steady_exec env act) fun q => OnDemand.steady_result _
  | false => exact Run.limit_const_bind (act.exec env .none) fun q => Strict.steady_run env q z

/-- Parsers that give the same wherever they are applied: the result of one is that of the other, in the same world. -/
def Same (p q : Parser) : Prop := ∀ z, (limit fun n => e.result env n p z) = limit fun n => e.result env n q z

variable {e env} in
theorem same_iff {p q : Parser} : e.Same env p q ↔ ∀ z, (e.semantics env).eval p z = (e.semantics env).eval q z := by
  simp only [Same, limit_result]

/-- A parse gives the verdict of the result. -/
theorem limit_verdict_semantics (p : Parser) (z : Context) :
    (limit fun n => e.verdict env n p z) = Result.verdict <$> (e.semantics env).eval p z := by
  unfold verdict semantics
  cases e.onDemand with
  | true => exact OnDemand.limit_verdict_eval p z
  | false => exact (Run.limit_bind_const (Strict.steady_run env p z) _).trans (map_eq_pure_bind _ _).symm

variable {e env} in
/-- Parsers that give the same parse alike. -/
theorem Same.limit_parse {p q : Parser} (h : e.Same env p q) (z : Context) :
    (limit fun n => e.parse env n p z) = limit fun n => e.parse env n q z := by
  rw [limit_parse_eq, limit_parse_eq, limit_verdict_semantics, limit_verdict_semantics, same_iff.1 h z]

/-- **The laws of the primitives.** They hold in every engine, for all parsers and functions, whatever the result is: a
success or a failure, plain or committed, and on demand also what a list turns out to end in. -/
theorem laws (p q r : Parser) (k h : Value → Act Parser) (f g : Value → Act Value) (φ ψ : String → Act String)
    (a : Value) (message : String) :
    (∀ z, (limit fun n => e.result env n (.bind (.pure a) k) z) =
      limit fun n => e.exec env n (k a) >>= fun q => e.result env n q z) ∧
    e.Same env (.bind p fun a => .pure (.pure a)) p ∧
    e.Same env (.bind (.bind p k) h) (.bind p fun a => do return .bind (← k a) h) ∧
    e.Same env (.map p f) (.bind p fun a => do return .pure (← f a)) ∧
    e.Same env (.map (.map p f) g) (.map p fun a => do g (← f a)) ∧
    e.Same env (.orElse (.orElse p q) r) (.orElse p (.orElse q r)) ∧
    e.Same env (.orElse (.fail message) q) q ∧
    e.Same env (.commit (.commit p)) (.commit p) ∧
    e.Same env (.orElse (.commit p) q) (.commit p) ∧
    e.Same env (.bind (.commit p) k) (.commit (.bind p k)) ∧
    e.Same env (.reword (.reword p φ) ψ) (.reword p fun message => do ψ (← φ message)) ∧
    e.Same env (.reword (.commit p) φ) (.commit (.reword p φ)) := by
  have hS := e.compositional env
  simp only [same_iff]
  refine ⟨fun z => ?_, fun z => hS.bind_pure_right z p, fun z => hS.bind_bind z p k h, fun z => hS.map_eq_bind z p f,
    fun z => hS.map_map z p f g, fun z => hS.orElse_assoc z p q r, fun z => hS.fail_orElse z message q,
    fun z => hS.commit_commit z p, fun z => hS.commit_orElse z p q, fun z => hS.commit_bind z p k,
    fun z => hS.reword_reword z p φ ψ, fun z => hS.reword_commit z p φ⟩
  rw [limit_result, limit_exec_result, hS.bind_pure_left]

/-- A second alternative after a commitment is never tried. -/
example (n : Nat) : (strict true).result ((strict true).env (fun name => .rule name) {}) (n + 3)
    (.orElse (.commit (.fail "no")) .next) ⟨.ofList [.text "a"], .absent⟩ {} =
      (.ok (.committed (.failure ⟨.ofList [.text "a"], .absent⟩ "no")), {}) := rfl

end Engine

end CommittedChoice
