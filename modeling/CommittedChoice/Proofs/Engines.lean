import CommittedChoice.Engine
import CommittedChoice.Proofs.OnDemand.Agreement

/-!
# The four engines

The engines differ in how they run a parser and in the name under which they print. Where no list is made, neither shows
in what a parse gives.

- `Run.Alike`: runs that do the same but for what they print;
- `Strict.related_alike`: the name under which an engine prints is no matter to anything else;
- `Engine.limit_verdict`, `Engine.limit_parse`: what a parse gives in each of the engines, in terms of the strict result;
- `Engine.parse_alike`: the strict and the on-demand engine of a kind parse alike.
-/

namespace CommittedChoice

open Run (limit Steady Ends)
open Strict (Outcome)

/-! ## Printing -/

namespace Run

variable {α β : Type}

/-- Wherever the first run ends, the second does the same, but for what was and is printed. -/
def Alike (x y : Run α) : Prop :=
  ∀ w lines, (x w).1 = .error .outOfFuel ∨
    ∃ lines', y { w with console := lines } = ((x w).1, { (x w).2 with console := lines' })

theorem Alike.bind {x y : Run α} {f g : α → Run β} (h : Alike x y) (hf : ∀ a, Alike (f a) (g a)) :
    Alike (x >>= f) (y >>= g) := by
  intro w lines
  show (Run.bind x f w).1 = _ ∨ ∃ lines', Run.bind y g _ = ((Run.bind x f w).1, { (Run.bind x f w).2 with console := lines' })
  unfold Run.bind
  rcases h w lines with hx | ⟨lines', hx⟩
  · left
    rcases hr : x w with ⟨e | a, w'⟩
    · rw [hr] at hx; cases hx; rfl
    · rw [hr] at hx; cases hx
  · rw [hx]
    rcases x w with ⟨e | a, w'⟩
    · exact .inr ⟨lines', rfl⟩
    · exact hf a w' lines'

theorem Alike.of_keeps {x : Run α} (h : ∀ w lines, x { w with console := lines } = ((x w).1, { (x w).2 with console := lines })) :
    Alike x x := fun w lines => .inr ⟨lines, h w lines⟩

theorem Alike.print (lines lines' : List Line) : Alike (print lines) (print lines') := fun _ _ => .inr ⟨_, rfl⟩

/-- Runs that are alike end alike. -/
theorem Alike.ends {f g : Nat → Run α} (h : ∀ n, Alike (f n) (g n)) {w w' : World} {x : Except Fault α}
    (hf : Ends f w x w') : ∃ lines, Ends g w x { w' with console := lines } := by
  obtain ⟨n, hn⟩ := hf
  rcases h n w w.console with hx | ⟨lines, hx⟩
  · rw [hn] at hx
    cases x <;> cases hx
  · rw [hn] at hx
    exact ⟨lines, n, hx⟩

end Run

theorem Act.exec_alike {env env' : Env} (h : env.settings = env'.settings) {α : Type} (act : Act α) :
    Run.Alike (act.exec env .none) (act.exec env' .none) := by
  rw [← act.exec_congr h]
  induction act with
  | pure a => exact .of_keeps fun _ _ => rfl
  | throw e => exact .of_keeps fun _ _ => rfl
  | note id next ih => exact fun w lines => ih _ lines
  | width k ih => exact ih _
  | count mark k ih => exact fun w lines => ih _ _ lines
  | fresh k ih => exact fun w lines => ih _ _ lines
  | node i k ih => exact .of_keeps fun _ _ => rfl
  | walk i k ih => exact .of_keeps fun _ _ => rfl

/-- The name under which an engine prints is no matter to anything else. -/
theorem Strict.related_alike {env env' : Env} (hg : env.grammar = env'.grammar) (hs : env.settings = env'.settings) :
    Related Run.Alike env env' where
  grammar := hg
  indent := congrArg _ hs
  bind := .bind
  outOfFuel := fun _ _ _ => .inl rfl
  ofExcept := fun _ => .of_keeps fun _ _ => rfl
  exec := Act.exec_alike hs
  next? := fun _ => .of_keeps fun _ _ => rfl
  trace := fun _ => .print _ _

/-- What was printed does not change what is left to read. -/
theorem Run.drain_keeps : ∀ (fuel : Nat) (s : Remainder) (done : List Value) (w : World) (lines : List Line),
    (drain fuel s done { w with console := lines }).1 = (drain fuel s done w).1
  | 0, _, _, _, _ => rfl
  | fuel + 1, s, done, w, lines => by
    show (Run.bind (next? s) _ _).1 = (Run.bind (next? s) _ w).1
    unfold Run.bind
    rw [show next? s { w with console := lines } = ((next? s w).1, { (next? s w).2 with console := lines }) from rfl]
    rcases next? s w with ⟨e | _ | ⟨t, rest⟩, w'⟩
    · rfl
    · rfl
    · exact drain_keeps fuel rest (t :: done) w' lines

/-- Worlds in which nothing differs but what was printed, so that every remainder has the same tokens in both. -/
def World.Alike (w w' : World) : Prop :=
  (∃ lines, w' = { w with console := lines }) ∧ ∀ fuel s, (Run.drain fuel s [] w').1 = (Run.drain fuel s [] w).1

theorem World.Alike.printed (w : World) (lines : List Line) : w.Alike { w with console := lines } :=
  ⟨⟨lines, rfl⟩, fun fuel s => Run.drain_keeps fuel s [] w lines⟩

namespace Engine

/-! ## What a parse gives -/

variable (e : Engine) (env : Env)

/-- Prints a failure. -/
def traced (v : Verdict Context Value) : Run (Verdict Context Value) :=
  match v with
  | .failure rest message => do
    env.trace ("parse failed at token " ++ Number.intText rest.input.offset ++ ": " ++ message)
    pure (.failure rest message)
  | .success rest v => pure (.success rest v)

theorem parse_eq (fuel : Nat) (p : Parser) (z : Context) : e.parse env fuel p z = e.verdict env fuel p z >>= traced env := by
  unfold parse traced
  refine bind_congr fun v => ?_
  cases v <;> rfl

theorem steady_verdict (p : Parser) (z : Context) : Steady fun n => e.verdict env n p z := by
  unfold verdict
  cases e.onDemand with
  | true => exact OnDemand.steady_verdict p z
  | false => exact .bind (Strict.steady_run env p z) fun _ => .const _

theorem steady_parse (p : Parser) (z : Context) : Steady fun n => e.parse env n p z := by
  simp only [parse_eq]
  exact .bind (e.steady_verdict env p z) fun _ => .const _

/-- Printing a failure changes nothing else. -/
theorem traced_eq (v : Verdict Context Value) (w : World) :
    ∃ lines, Course.ofRun (traced env v) w = some (.ok v, { w with console := lines }) := by
  cases v with
  | success rest v => exact ⟨w.console, rfl⟩
  | failure rest message => exact ⟨_, rfl⟩

theorem limit_parse_eq (p : Parser) (z : Context) :
    limit (fun n => e.parse env n p z) = limit (fun n => e.verdict env n p z) >>= fun v => Course.ofRun (traced env v) := by
  simp only [parse_eq]
  exact Run.limit_bind_const (e.steady_verdict env p z) _

section StreamFree

variable {env} (hg : ∀ name, (env.grammar name).StreamFree) {p : Parser} (hp : p.StreamFree) (z : Context) {w : World}
  (hw : w.lists = #[])

include hg hp hw

/-- Every engine gives the verdict of the strict result. -/
theorem limit_verdict : limit (fun n => e.verdict env n p z) w = (Result.verdict <$> Strict.eval env p z) w := by
  unfold verdict
  cases e.onDemand with
  | true => exact OnDemand.verdict_eq_strict hg hp z hw
  | false =>
    refine congrFun ?_ w
    rw [map_eq_pure_bind]
    exact Run.limit_bind_const (Strict.steady_run env p z) _

/-- Every engine parses by the strict result. -/
theorem limit_parse :
    limit (fun n => e.parse env n p z) w = (Strict.eval env p z >>= fun r => Course.ofRun (traced env r.verdict)) w := by
  rw [limit_parse_eq, Course.bind_congr_left (e.limit_verdict hg hp z hw), bind_map_left]

/-- A parse succeeds as the strict result does. -/
theorem ends_success_iff {rest : Context} {v : Value} {w' : World} :
    Ends (fun n => e.parse env n p z) w (.ok (.success rest v)) w' ↔
      ∃ r, Strict.eval env p z w = some (.ok r, w') ∧ r.verdict = .success rest v := by
  rw [← Run.limit_eq_some (e.steady_parse env p z), e.limit_parse hg hp z hw]
  constructor
  · intro h
    obtain ⟨r, w₁, hr, htraced⟩ := Course.bind_eq_ok h
    refine ⟨r, ?_⟩
    cases hv : r.verdict with
    | success rest' v' =>
      rw [hv] at htraced
      cases htraced
      exact ⟨hr, rfl⟩
    | failure rest' message =>
      rw [hv, traced, Course.ofRun_bind] at htraced
      obtain ⟨_, _, _, hfailure⟩ := Course.bind_eq_ok htraced
      cases hfailure
  · rintro ⟨r, hr, hv⟩
    rw [Course.bind_of_ok hr, hv]
    rfl

end StreamFree

/-! ## What shows at first -/

/-- The tag of what a parser gives before anything is asked of it. -/
def rawTag (fuel : Nat) (p : Parser) (z : Context) : Run Tag :=
  if e.onDemand then do return (← (OnDemand.means env fuel).answer (.apply p z)).tag
  else do return (← Strict.run env fuel p z).tag

/-- The engine as a semantics. -/
noncomputable def semantics : Semantics := if e.onDemand then OnDemand.semantics env else Strict.semantics env

section StreamFree

variable {env} (hg : ∀ name, (env.grammar name).StreamFree) {p : Parser} (hp : p.StreamFree) (z : Context) {w : World}
  (hw : w.lists = #[])

include hg hp hw

theorem semantics_eval : (e.semantics env).eval p z w = Strict.eval env p z w := by
  unfold semantics
  cases e.onDemand with
  | true => exact OnDemand.eval_eq_strict hg hp z hw
  | false => rfl

/-- Every engine shows the tag of the strict result. -/
theorem ends_rawTag {r : Outcome} {w' : World} (hr : Strict.eval env p z w = some (.ok r, w')) :
    ∃ w'', Ends (fun n => e.rawTag env n p z) w (.ok r.tag) w'' := by
  unfold rawTag
  cases e.onDemand with
  | true =>
    obtain ⟨a, w'', ha, htag⟩ := OnDemand.answer_tag hg hp z hw hr
    exact ⟨w'', Run.ends_map.2 ⟨a, (Run.limit_eq_some (OnDemand.steady_answer env _)).1 ha, htag⟩⟩
  | false => exact ⟨w', Run.ends_map.2 ⟨r, Strict.eval_eq_some.1 hr, rfl⟩⟩

end StreamFree

/-! ## Agreement -/

/-- The engine that runs parsers strictly, with or without a state. -/
def strict (stateful : Bool) : Engine := ⟨false, stateful⟩

/-- The engine that runs parsers on demand, with or without a state. -/
def lazy (stateful : Bool) : Engine := ⟨true, stateful⟩

section Agreement

variable {grammar : Grammar} (hg : ∀ name, (grammar name).StreamFree) (settings : Settings) (stateful : Bool)
  {p : Parser} (hp : p.StreamFree) (z : Context) {w : World} (hw : w.lists = #[])

/-- A strict parse is the same under the name of any engine. -/
theorem ends_parse_scope (e e' : Engine) {x : Except Fault (Verdict Context Value)} {w' : World}
    (h : Ends (fun n => (strict stateful).parse (e.env grammar settings) n p z) w x w') :
    ∃ lines, Ends (fun n => (strict stateful).parse (e'.env grammar settings) n p z) w x { w' with console := lines } := by
  have hrelated : Strict.Related Run.Alike (e.env grammar settings) (e'.env grammar settings) :=
    Strict.related_alike rfl rfl
  refine Run.Alike.ends (fun n => ?_) h
  simp only [parse_eq]
  refine hrelated.bind (hrelated.bind (hrelated.run (Nat.le_refl n) p z) fun r => hrelated.pure _) fun v => ?_
  cases v with
  | success rest v => exact hrelated.pure _
  | failure rest message => exact hrelated.bind (hrelated.trace _) fun _ => hrelated.pure _

include hg hp hw

/-- Under one name, the strict engine and the one on demand parse alike. -/
theorem ends_parse_iff (e : Engine) {x : Except Fault (Verdict Context Value)} {w' : World} :
    Ends (fun n => (strict stateful).parse (e.env grammar settings) n p z) w x w' ↔
      Ends (fun n => (lazy stateful).parse (e.env grammar settings) n p z) w x w' := by
  rw [← Run.limit_eq_some (steady_parse _ _ p z), ← Run.limit_eq_some (steady_parse _ _ p z), limit_parse _ hg hp z hw,
    limit_parse _ hg hp z hw]

/-- **The two engines of a kind parse alike.** Whatever a parse without lists ends in for one of them, a verdict or a
fault, it ends in for the other, in a world that differs only in what was printed, so that the same tokens are left. What
the parser gives before anything is asked of it shows the same tag. -/
theorem parse_alike :
    (∀ x w', Ends (fun n => (strict stateful).parse ((strict stateful).env grammar settings) n p z) w x w' →
      ∃ w'', Ends (fun n => (lazy stateful).parse ((lazy stateful).env grammar settings) n p z) w x w'' ∧
        w'.Alike w'') ∧
    (∀ x w', Ends (fun n => (lazy stateful).parse ((lazy stateful).env grammar settings) n p z) w x w' →
      ∃ w'', Ends (fun n => (strict stateful).parse ((strict stateful).env grammar settings) n p z) w x w'' ∧
        w'.Alike w'') ∧
    ∀ t w', Ends (fun n => (strict stateful).rawTag ((strict stateful).env grammar settings) n p z) w (.ok t) w' →
      ∃ w'', Ends (fun n => (lazy stateful).rawTag ((lazy stateful).env grammar settings) n p z) w (.ok t) w'' := by
  refine ⟨fun x w' h => ?_, fun x w' h => ?_, fun t w' h => ?_⟩
  · obtain ⟨lines, h⟩ := ends_parse_scope settings stateful z _ (lazy stateful) h
    exact ⟨_, (ends_parse_iff hg settings stateful hp z hw _).1 h, .printed w' lines⟩
  · obtain ⟨lines, h⟩ := ends_parse_scope settings stateful z _ (strict stateful)
      ((ends_parse_iff hg settings stateful hp z hw _).2 h)
    exact ⟨_, h, .printed w' lines⟩
  · have hrelated : Strict.Related Run.Alike ((strict stateful).env grammar settings)
        ((lazy stateful).env grammar settings) := Strict.related_alike rfl rfl
    obtain ⟨r, hr, rfl⟩ := Run.ends_map.1 h
    obtain ⟨lines, hr⟩ := Run.Alike.ends (fun n => hrelated.run (Nat.le_refl n) p z) hr
    exact ends_rawTag _ hg hp z hw (Strict.eval_eq_some.2 hr)

end Agreement

/-- Any number of tokens, by recursion, and then a state that no choice may take back. -/
def tokens : Grammar := fun _ =>
  .orElse (.bind .next fun _ => .pure (.rule "tokens")) (.commit (.put (.text "end")))

theorem streamFree_tokens (name : String) : (tokens name).StreamFree := by
  simp [tokens, Parser.StreamFree, Parser.Throughout, Parser.Gives, Parser.isStream]

theorem parse_alike_tokens : ∃ w, Ends (fun n => (lazy true).parse ((lazy true).env tokens {}) n (.rule "tokens")
    ⟨.ofList [.text "a", .text "b"], .absent⟩) {} (.ok (.success ⟨.tokens [] 2, .text "end"⟩ .absent)) w := by
  have hp : (Parser.rule "tokens").StreamFree := by simp [Parser.StreamFree, Parser.Throughout, Parser.isStream]
  have hstrict : Ends (fun n => (strict true).parse ((strict true).env tokens {}) n (.rule "tokens")
    ⟨.ofList [.text "a", .text "b"], .absent⟩) {} (.ok (.success ⟨.tokens [] 2, .text "end"⟩ .absent)) {} := ⟨12, rfl⟩
  obtain ⟨w, h, -⟩ := (parse_alike streamFree_tokens {} true hp _ rfl).1 _ _ hstrict
  exact ⟨w, h⟩

end Engine

end CommittedChoice
