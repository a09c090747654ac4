import CommittedChoice.Proofs.Engines

/-!
# Before the first commitment

The part of a run before it first enters the body of a commitment is a run of its own: that of the term in which every
such body stops at once.

- `Parser.barred`: the term with a barrier in place of the body of each commitment, those in parsers given by callbacks
  included;
- `Run.Opens x y`: `y` does what `x` does, or stops somewhere on the way of `x`. So does the strict run of a barred term
  (`Strict.run_opens`), whatever the fuel;
- `Run.InStep`: two runs that do the same and whose answers are related. On demand, a term and its barred form answer in
  step (`OnDemand.answer_barred`), for no body of a commitment is entered before it is asked for;
- `OnDemand.answer_opening`, `OnDemand.opening_answers`: so an answer on demand reads as much of the source as the strict
  run of the barred term.
-/

namespace CommittedChoice

open Run (Ends)
open Strict (Outcome)

/-! ## Barriers -/

/-- The fault of a run that is about to enter the body of a commitment. -/
def Fault.entered : Fault := .raised "the body of a commitment is entered"

namespace Parser

/-- Stops at once. -/
def barrier : Parser := .bind (.pure .absent) fun _ => .throw .entered

mutual

/-- The parser with a barrier in place of the body of each commitment. -/
def barred : Parser → Parser
  | .map p f => .map (barred p) f
  | .bind p k => .bind (barred p) fun v => barredAct (k v)
  | .orElse p q => .orElse (barred p) (barred q)
  | .loop init step => .loop init fun s => barredAct (step s)
  | .commit _ => .commit barrier
  | .reword p f => .reword (barred p) f
  | .choice ps => .choice (barredEach ps)
  | .restoring p => .restoring (barred p)
  | .stream p => .stream (barred p)
  | p => p

/-- The callback, whose parser is given with barriers. -/
def barredAct : Act Parser → Act Parser
  | .pure p => .pure (barred p)
  | .throw e => .throw e
  | .note id act => .note id (barredAct act)
  | .width k => .width fun w => barredAct (k w)
  | .count mark k => .count mark fun c => barredAct (k c)
  | .fresh k => .fresh fun id => barredAct (k id)
  | .node n k => .node n fun x => barredAct (k x)
  | .walk n k => .walk n fun xs e => barredAct (k xs e)

/-- Labelled alternatives with barriers. -/
def barredEach : List (String × Parser) → List (String × Parser)
  | [] => []
  | (label, p) :: ps => (label, barred p) :: barredEach ps

end

example (p : Parser) : barred (.bind .next fun _ => .pure (.commit p)) = .bind .next fun _ => .pure (.commit barrier) := rfl

mutual

/-- No list is made by a term with barriers. -/
theorem streamFree_barred : ∀ (p : Parser), p.StreamFree → p.barred.StreamFree
  | .map p _, hp => ⟨rfl, streamFree_barred p hp.2⟩
  | .bind p k, hp => ⟨rfl, streamFree_barred p hp.2.1, fun v => givesStreamFree_barred (k v) (hp.2.2 v)⟩
  | .orElse p q, hp => ⟨rfl, streamFree_barred p hp.2.1, streamFree_barred q hp.2.2⟩
  | .loop _ step, hp => ⟨rfl, fun v => givesStreamFree_barred (step v) (hp.2 v)⟩
  | .commit _, _ => ⟨rfl, rfl, rfl, fun _ => trivial⟩
  | .reword p _, hp => ⟨rfl, streamFree_barred p hp.2⟩
  | .choice ps, hp => ⟨rfl, each_barred ps hp.2⟩
  | .restoring p, hp => ⟨rfl, streamFree_barred p hp.2⟩
  | .stream _, hp => by cases hp.1
  | .pure _, _ | .fail _, _ | .next, _ | .eof, _ | .satisfy _, _ | .pushBack _, _ | .position, _ | .get, _ | .put _, _
  | .rule _, _ => rfl

theorem givesStreamFree_barred : ∀ (act : Act Parser), GivesStreamFree act → GivesStreamFree (barredAct act)
  | .pure p, h => streamFree_barred p h
  | .throw _, _ => trivial
  | .note _ act, h => givesStreamFree_barred act h
  | .width k, h => fun w => givesStreamFree_barred (k w) (h w)
  | .count _ k, h => fun c => givesStreamFree_barred (k c) (h c)
  | .fresh k, h => fun id => givesStreamFree_barred (k id) (h id)
  | .node _ k, h => fun x => givesStreamFree_barred (k x) (h x)
  | .walk _ k, h => fun xs e => givesStreamFree_barred (k xs e) (h xs e)

theorem each_barred : ∀ (ps : List (String × Parser)), Each (fun q => q.isStream = false) ps →
    Each (fun q => q.isStream = false) (barredEach ps)
  | [], _ => trivial
  | (_, p) :: ps, h => ⟨streamFree_barred p h.1, each_barred ps h.2⟩

end

theorem StreamFree.barred {p : Parser} (hp : p.StreamFree) : p.barred.StreamFree := streamFree_barred p hp

/-- The parser that a callback gives with barriers. -/
theorem exec_barredAct (env : Env) (lists : Lists) (act : Act Parser) :
    (barredAct act).exec env lists = act.exec env lists >>= fun p => Pure.pure p.barred := by
  induction act with
  | pure p => rfl
  | throw e => rfl
  | note id act ih => rw [barredAct, Act.exec_note, Act.exec_note, ih, bind_assoc]
  | width k ih => exact ih _
  | count mark k ih => rw [barredAct, Act.exec_count, Act.exec_count, bind_assoc]; exact bind_congr ih
  | fresh k ih => rw [barredAct, Act.exec_fresh, Act.exec_fresh, bind_assoc]; exact bind_congr ih
  | node i k ih => rw [barredAct, Act.exec_node, Act.exec_node, bind_assoc]; exact bind_congr ih
  | walk i k ih => rw [barredAct, Act.exec_walk, Act.exec_walk, bind_assoc]; exact bind_congr fun x => ih x.1 x.2

end Parser

/-- The same with barriers in the grammar. -/
def Env.barred (env : Env) : Env := { env with grammar := fun name => (env.grammar name).barred }

/-! ## Stopping on the way -/

namespace Run

variable {α β : Type}

/-- The end of a run and the end of one that does the same but for what it prints, or that has stopped at a barrier or for
want of fuel. All that one has done by then the other has done as well. -/
inductive Opened : Except Halt α × World → Except Halt α × World → Prop
  | same {r : Except Halt α} {w : World} (lines : List Line) : Opened (r, w) (r, { w with console := lines })
  | stopped {b : Except Halt α × World} {h : Halt} {w' : World} : h = .fault .entered ∨ h = .outOfFuel →
      w'.journal <:+ b.2.journal → w'.feed.Later b.2.feed → Opened b (.error h, w')

/-- `y` does what `x` does, or stops on its way. -/
structure Opens (x y : Run α) : Prop where
  plain : x.Plain
  opened : ∀ w lines, Opened (x w) (y { w with console := lines })

namespace Opens

theorem of_keeps {x : Run α} (hplain : x.Plain)
    (h : ∀ w lines, x { w with console := lines } = ((x w).1, { (x w).2 with console := lines })) : Opens x x :=
  ⟨hplain, fun w lines => h w lines ▸ .same lines⟩

theorem pure (a : α) : Opens (pure a) (Pure.pure a) := of_keeps (.pure a) fun _ _ => rfl

theorem outOfFuel : Opens (halt .outOfFuel : Run α) (halt .outOfFuel) :=
  of_keeps (.halt .outOfFuel) fun _ _ => rfl

theorem ofExcept (x : Except Fault α) : Opens (ofExcept x) (Run.ofExcept x) := of_keeps (.ofExcept x) fun _ _ => rfl

theorem next? (s : Remainder) : Opens (next? s) (Run.next? s) := of_keeps (.next? s) fun _ _ => rfl

theorem print (lines lines' : List Line) : Opens (print lines) (Run.print lines') :=
  ⟨.print lines, fun _ _ => .same _⟩

/-- A run that stops at once. -/
theorem stop {x y : Run α} (hx : x.Plain) (hy : ∀ w, ∃ h, (h = .fault .entered ∨ h = .outOfFuel) ∧ y w = (.error h, w)) :
    Opens x y := by
  refine ⟨hx, fun w lines => ?_⟩
  obtain ⟨h, hh, hy⟩ := hy { w with console := lines }
  rw [hy]
  exact .stopped hh (hx.journal w) (hx.feed w)

theorem bind {x y : Run α} {f g : α → Run β} (h : Opens x y) (hf : ∀ a, Opens (f a) (g a)) : Opens (x >>= f) (y >>= g) := by
  refine ⟨h.plain.bind fun a => (hf a).plain, fun w lines => ?_⟩
  show Opened (Run.bind x f w) (Run.bind y g _)
  have hw := h.opened w lines
  unfold Run.bind
  generalize x w = b at hw ⊢
  generalize y { w with console := lines } = b' at hw ⊢
  cases hw with
  | @same r w₁ lines' =>
    cases r with
    | error e => exact .same lines'
    | ok a => exact (hf a).opened w₁ lines'
  | stopped he hjournal hfeed =>
    -- what `f` does comes after the first part, so it is added to what that has done
    obtain ⟨_ | a, w₁⟩ := b
    · exact .stopped he hjournal hfeed
    · exact .stopped he (hjournal.trans ((hf a).plain.journal w₁)) (hfeed.trans ((hf a).plain.feed w₁))

end Opens

end Run

theorem Act.opens_exec {env env' : Env} (hs : env'.settings = env.settings) {α : Type} (act : Act α) :
    Run.Opens (act.exec env .none) (act.exec env' .none) := by
  rw [act.exec_congr hs]
  induction act with
  | pure a => exact .pure a
  | throw e => exact .ofExcept (.error e)
  | note id next ih => rw [exec_note]; exact .bind (.of_keeps (.note id) fun _ _ => rfl) fun _ => ih
  | width k ih => exact ih _
  | count mark k ih => rw [exec_count]; exact .bind (.of_keeps (.count mark) fun _ _ => rfl) ih
  | fresh k ih => rw [exec_fresh]; exact .bind (.of_keeps .identity fun _ _ => rfl) ih
  | node i k ih => exact .ofExcept (.error _)
  | walk i k ih => exact .ofExcept (.error _)

namespace Strict

variable {env env' : Env}

/-- A strict run only adds to what was read and noted. -/
theorem plain_run (n : Nat) (p : Parser) (z : Context) : (run env n p z).Plain := by
  have hrelated : Related (fun {α} (x _ : Run α) => x.Plain) env env :=
    { grammar := rfl, indent := rfl, bind := .bind, ofExcept := .ofExcept, next? := .next?
      outOfFuel := fun _ => Run.Opens.outOfFuel.plain
      exec := fun act => (act.opens_exec rfl).plain
      trace := fun _ => .print _ }
  exact hrelated.run (Nat.le_refl n) p z

/-- A barrier stops the run, if it has fuel to get there. -/
theorem run_barrier (n : Nat) (z : Context) (w : World) :
    ∃ h, (h = .fault .entered ∨ h = .outOfFuel) ∧ run env n .barrier z w = (.error h, w) :=
  match n with
  | 0 | 1 => ⟨.outOfFuel, .inr rfl, rfl⟩
  | _ + 2 => ⟨.fault .entered, .inl rfl, rfl⟩

section Layers

variable (hs : env'.settings = env.settings)

include hs

/-- The parser that a callback gives, and what it is used for. -/
theorem opens_exec_bind {α : Type} (act : Act Parser) {f g : Parser → Run α} (h : ∀ q, Run.Opens (f q) (g q.barred)) :
    Run.Opens (act.exec env .none >>= f) ((Parser.barredAct act).exec env' .none >>= g) := by
  rw [Parser.exec_barredAct, bind_assoc]
  refine (act.opens_exec hs).bind fun q => ?_
  rw [pure_bind]
  exact h q

variable {apply apply' : Parser → Context → Run Outcome} (happly : ∀ p z, Run.Opens (apply p z) (apply' p.barred z))

include happly

theorem alternatives_opens (z : Context) : ∀ (failures : List (String × String)) (ps : List (String × Parser)),
    Run.Opens (alternatives env apply z failures ps) (alternatives env' apply' z failures (Parser.barredEach ps))
  | failures, [] => by
    rw [Parser.barredEach]
    unfold alternatives
    rw [hs]
    exact (Run.Opens.ofExcept _).bind fun _ => .pure _
  | failures, (label, p) :: rest => by
    rw [Parser.barredEach]
    unfold alternatives
    refine (happly p z).bind fun r => ?_
    rcases r with ⟨_ | ⟨_, message⟩⟩ | _
    · exact .pure _
    · exact (Run.Opens.print _ _).bind fun _ => alternatives_opens z _ rest
    · exact .pure _

theorem turns_opens (step : Value → Act Parser) : ∀ (n : Nat) (committed : Bool) (state : Value) (z : Context),
    Run.Opens (turns env apply step n committed state z)
      (turns env' apply' (fun s => Parser.barredAct (step s)) n committed state z)
  | 0, _, _, _ => .outOfFuel
  | n + 1, _, _, z => opens_exec_bind hs _ fun q => (happly q z).bind fun r => by
    dsimp only
    cases r.verdict with
    | failure z message => exact .pure _
    | success z v =>
      dsimp only
      cases v.toStep with
      | done value => exact .pure _
      | again state => exact turns_opens step n _ _ _

end Layers

/-- **The strict run of a barred term is the beginning of the run of the term.** -/
theorem run_opens (hg : env'.grammar = env.barred.grammar) (hs : env'.settings = env.settings) :
    ∀ (n : Nat) (p : Parser) (z : Context), Run.Opens (run env n p z) (run env' n p.barred z)
  | 0, _, _ => .outOfFuel
  | n + 1, p, z => by
    have ih := run_opens hg hs n
    cases p with
    | commit p =>
      refine .stop (plain_run (n + 1) (.commit p) z) fun w => ?_
      have hbarrier : ∃ h, (h = .fault .entered ∨ h = .outOfFuel) ∧ run env' n .barrier z w = (.error h, w) :=
        run_barrier n z w
      obtain ⟨h, hh, hstop⟩ := hbarrier
      refine ⟨h, hh, ?_⟩
      show Run.bind (run env' n .barrier z) _ w = _
      unfold Run.bind
      rw [hstop]
    | map p f =>
      refine (ih p z).bind fun r => ?_
      match r with
      | .plain (.success z a) | .committed (.success z a) => exact ((f a).opens_exec hs).bind fun _ => .pure _
      | .plain (.failure _ _) | .committed (.failure _ _) => exact .pure _
    | bind p k =>
      refine (ih p z).bind fun r => ?_
      match r with
      | .plain (.success z a) => exact opens_exec_bind hs _ fun q => ih q z
      | .committed (.success z a) => exact (opens_exec_bind hs _ fun q => ih q z).bind fun _ => .pure _
      | .plain (.failure _ _) | .committed (.failure _ _) => exact .pure _
    | orElse p q =>
      refine (ih p z).bind fun r => ?_
      match r with
      | .plain (.failure _ _) => exact ih q z
      | .plain (.success _ _) | .committed _ => exact .pure _
    | loop init step => exact turns_opens hs ih step n false init z
    | reword p f =>
      refine (ih p z).bind fun r => ?_
      match r with
      | .plain (.failure z e) | .committed (.failure z e) => exact ((f e).opens_exec hs).bind fun _ => .pure _
      | .plain (.success _ _) | .committed (.success _ _) => exact .pure _
    | choice ps => exact alternatives_opens hs ih z [] ps
    | restoring p => exact (ih p z).bind fun _ => .pure _
    | rule name =>
      show Run.Opens (run env n (env.grammar name) z) (run env' n (env'.grammar name) z)
      rw [hg]
      exact ih _ z
    | next =>
      refine (Run.Opens.next? _).bind fun answer => ?_
      match answer with
      | none => exact .pure _
      | some (t, rest) => exact .pure _
    | eof =>
      refine (Run.Opens.next? _).bind fun answer => ?_
      match answer with
      | none => exact .pure _
      | some (t, rest) => exact .pure _
    | satisfy test =>
      refine (Run.Opens.next? _).bind fun answer => ?_
      match answer with
      | none => exact .pure _
      | some (t, rest) =>
        refine ((test t).opens_exec hs).bind fun b => ?_
        cases b with
        | true => exact .pure _
        | false => exact (Run.Opens.ofExcept _).bind fun _ => .pure _
    | stream p => exact .ofExcept (.error _)
    | _ => exact .pure _

end Strict

/-! ## Answers in step -/

namespace Run

variable {α β γ δ : Type} {A : α → β → Prop}

/-- The ends of two runs in the same world without lists, both halted for the same reason or with answers that `A`
relates. -/
inductive Same (A : α → β → Prop) : Except Halt α × World → Except Halt β × World → Prop
  | ok {a : α} {b : β} {w : World} : A a b → w.lists = #[] → Same A (.ok a, w) (.ok b, w)
  | error {h : Halt} {w : World} : w.lists = #[] → Same A (.error h, w) (.error h, w)

/-- Two runs that end so wherever no list was made. -/
def InStep (A : α → β → Prop) (x : Run α) (y : Run β) : Prop := ∀ w, w.lists = #[] → Same A (x w) (y w)

namespace InStep

theorem pure {a : α} {b : β} (h : A a b) : InStep A (pure a) (Pure.pure b) := fun _ hw => .ok h hw

theorem halt (h : Halt) : InStep A (halt h) (Run.halt h) := fun _ hw => .error hw

theorem listFree {x : Run α} (h : x.ListFree) : InStep (· = ·) x x := by
  intro w hw
  have hlists : (x w).2.lists = #[] := (h.lists_eq w).trans hw
  rcases hx : x w with ⟨_ | a, w'⟩ <;> rw [hx] at hlists
  · exact .error hlists
  · exact .ok rfl hlists

theorem bind {B : γ → δ → Prop} {x : Run α} {y : Run β} {f : α → Run γ} {g : β → Run δ} (h : InStep A x y)
    (hf : ∀ a b, A a b → InStep B (f a) (g b)) : InStep B (x >>= f) (y >>= g) := by
  intro w hw
  show Same B (Run.bind x f w) (Run.bind y g w)
  have hxy := h w hw
  unfold Run.bind
  generalize x w = b at hxy ⊢
  generalize y w = b' at hxy ⊢
  cases hxy with
  | ok hab hlists => exact hf _ _ hab _ hlists
  | error hlists => exact .error hlists

/-- The same when both give the same answer. -/
theorem bind_eq {B : γ → δ → Prop} {x y : Run α} {f : α → Run γ} {g : α → Run δ} (h : InStep (· = ·) x y)
    (hf : ∀ a, InStep B (f a) (g a)) : InStep B (x >>= f) (y >>= g) :=
  h.bind fun a _ hab => hab ▸ hf a

/-- Something that holds of every answer of the first run. -/
theorem and_of {P : α → Prop} {x : Run α} {y : Run β} (h : InStep A x y) (hP : ∀ w a w', x w = (.ok a, w') → P a) :
    InStep (fun a b => P a ∧ A a b) x y := by
  intro w hw
  have hxy := h w hw
  have hx := hP w
  generalize x w = b at hxy hx ⊢
  generalize y w = b' at hxy ⊢
  cases hxy with
  | ok hab hlists => exact .ok ⟨hx _ _ rfl, hab⟩ hlists
  | error hlists => exact .error hlists

theorem symm {x : Run α} {y : Run β} (h : InStep A x y) : InStep (fun b a => A a b) y x := by
  intro w hw
  have hxy := h w hw
  generalize x w = b at hxy ⊢
  generalize y w = b' at hxy ⊢
  cases hxy with
  | ok hab hlists => exact .ok hab hlists
  | error hlists => exact .error hlists

/-- Runs in step end in step. -/
theorem ends {f : Nat → Run α} {g : Nat → Run β} (h : ∀ n, InStep A (f n) (g n)) {w w' : World} (hw : w.lists = #[])
    {x : Except Fault α} (hf : Ends f w x w') : ∃ y, Ends g w y w' ∧
      match x with
      | .ok a => ∃ b, y = .ok b ∧ A a b
      | .error e => y = .error e := by
  obtain ⟨n, hn⟩ := hf
  have hxy := h n w hw
  rw [hn] at hxy
  generalize hg : g n w = b' at hxy
  cases x with
  | error e =>
    cases hxy with
    | error hlists => exact ⟨.error e, ⟨n, hg⟩, rfl⟩
  | ok a =>
    cases hxy with
    | ok hab hlists => exact ⟨.ok _, ⟨n, hg⟩, _, rfl, hab⟩

end InStep

end Run

namespace OnDemand

open Run (InStep)

variable {env : Env}

section Callbacks

variable (n : Nat)

/-- Without lists there is no node to read, whatever the grammar. -/
theorem node_inStep {A : Node → Node → Prop} (i : Nat) : InStep A (node env n i) (node env.barred n i) := by
  intro w hw
  cases n with
  | zero => exact .error hw
  | succ n =>
    rw [node_missing n hw i, node_missing n hw i]
    exact .error hw

theorem walk_inStep {A : List Value × ListEnd → List Value × ListEnd → Prop} (i : Nat) :
    InStep A ((means env n).lists.walk i) ((means env.barred n).lists.walk i) := by
  show InStep A (walk (node env n) n i []) (walk (node env.barred n) n i [])
  cases n with
  | zero => exact .halt _
  | succ n => exact (node_inStep (A := fun _ _ => False) (n + 1) i).bind fun _ _ h => h.elim

theorem exec_inStep {α : Type} (act : Act α) :
    InStep (· = ·) ((means env n).exec act) ((means env.barred n).exec act) := by
  show InStep _ (act.exec env (means env n).lists) (act.exec env.barred (means env.barred n).lists)
  have hsettings : env.settings = env.barred.settings := rfl
  rw [act.exec_congr hsettings]
  induction act with
  | pure a => exact .pure rfl
  | throw e => exact .halt _
  | note id next ih => rw [Act.exec_note, Act.exec_note]; exact .bind_eq (.listFree fun _ _ => rfl) fun _ => ih
  | width k ih => exact ih _
  | count mark k ih => rw [Act.exec_count, Act.exec_count]; exact .bind_eq (.listFree fun _ _ => rfl) ih
  | fresh k ih => rw [Act.exec_fresh, Act.exec_fresh]; exact .bind_eq (.listFree fun _ _ => rfl) ih
  | node i k ih => rw [Act.exec_node, Act.exec_node]; exact (node_inStep n i).bind_eq ih
  | walk i k ih => rw [Act.exec_walk, Act.exec_walk]; exact (walk_inStep n i).bind_eq fun x => ih x.1 x.2

/-- The parser that a callback gives. -/
theorem exec_parser_inStep {act : Act Parser} (h : Parser.GivesStreamFree act) :
    InStep (fun q q' => q.StreamFree ∧ q' = q.barred) ((means env n).exec act)
      ((means env.barred n).exec (Parser.barredAct act)) := by
  have hsame : InStep (· = ·) ((means env n).exec act) ((means env.barred n).exec act) := exec_inStep n act
  have hexec := hsame.and_of (P := Parser.StreamFree) fun _ _ _ hq => h.exec hq
  rw [← bind_pure ((means env n).exec act), Means.exec, Means.exec, Parser.exec_barredAct]
  refine hexec.bind fun q q' hq => .pure ⟨hq.1, ?_⟩
  rw [hq.2]

theorem late_inStep {α : Type} (l : Late α) : InStep (· = ·) ((means env n).late l) ((means env.barred n).late l) := by
  induction l with
  | known a => exact .pure rfl
  | later act => rw [Means.late_later, Means.late_later]; exact exec_inStep n act
  | mapped l f ih => rw [Means.late_mapped, Means.late_mapped]; exact ih.bind_eq fun a => exec_inStep n (f a)

end Callbacks

/-! ## The barred term on demand -/

variable (env) in
/-- Answers of a term and of the barred term. Where they are committed, the second one is to a parser that stops. -/
inductive Answer.Barred : Answer → Answer → Prop
  | success (z : Context) (l : Late Value) : Barred (.success { rest := .known z, value := l })
      (.success { rest := .known z, value := l })
  | failure (z : Context) (message : String) : Barred (.failure z message) (.failure z message)
  | committed (inner : Suspended) {inner' : Suspended} : inner'.strict env.barred = Course.fault .entered →
      Barred (.committed inner) (.committed inner')

/-- What is done with a parser that stops is not done. -/
theorem Answer.Barred.framed {inner inner' : Suspended} (h : inner'.strict env.barred = Course.fault .entered)
    (f f' : Frame) : Barred env (.committed (.framed inner f)) (.committed (.framed inner' f')) := by
  refine .committed _ ?_
  rw [Suspended.strict, h]
  rfl

theorem strict_barrier (z : Context) : Strict.eval env .barrier z = Course.fault .entered := by
  rw [Parser.barrier, Strict.eval_eq, Semantics.meaning]
  show Strict.eval env (.pure .absent) z >>= _ = _
  rw [Strict.eval_eq]
  rfl

section Demands

variable (env) in
/-- Turns that lead to such answers, or go on from the same state. -/
inductive TurnBarred : Means.Turn → Means.Turn → Prop
  | finished {a a' : Answer} : a.Barred env a' → TurnBarred (.finished a) (.finished a')
  | again (state : Value) (z : Context) : TurnBarred (.again state z) (.again state z)

variable {n : Nat}

/-- A turn before any has committed. -/
theorem turnAnswer_inStep (k : Nat) (step step' : Value → Act Parser) {a a' : Answer} (ha : a.Barred env a') :
    InStep (TurnBarred env) ((means env n).turnAnswer k step false a) ((means env.barred n).turnAnswer k step' false a') := by
  cases ha with
  | failure z message => exact .pure (.finished (.failure z message))
  | committed inner hstop => exact .pure (.finished (.framed hstop _ _))
  | success z l =>
    refine (late_inStep n l).bind_eq fun v => ?_
    dsimp only
    cases v.toStep with
    | done value => exact .pure (.finished (.success z (.known value)))
    | again state => exact .pure (.again state z)

variable (ih : ∀ {p : Parser}, p.StreamFree → ∀ z,
  InStep (Answer.Barred env) ((means env n).answer (.apply p z)) ((means env.barred n).answer (.apply p.barred z)))

include ih

theorem turns_inStep {step : Value → Act Parser} (hstep : ∀ v, Parser.GivesStreamFree (step v)) : ∀ (k : Nat) (s : Value)
    (z : Context), InStep (Answer.Barred env) ((means env n).turns step false k s z)
      ((means env.barred n).turns (fun s => Parser.barredAct (step s)) false k s z)
  | 0, _, _ => .halt _
  | k + 1, s, z => by
    rw [Means.turns_succ, Means.turns_succ]
    refine (exec_parser_inStep n (hstep s)).bind fun q q' hq => ?_
    rw [hq.2]
    refine (ih hq.1 z).bind fun a a' ha => ?_
    refine (turnAnswer_inStep k _ _ ha).bind fun t t' ht => ?_
    cases ht with
    | finished ha => exact .pure ha
    | again s z => exact turns_inStep hstep k s z

theorem alternatives_inStep (z : Context) : ∀ (failures : List (String × String)) {ps : List (String × Parser)},
    Parser.Each (fun q => q.isStream = false) ps →
    InStep (Answer.Barred env) ((means env n).alternatives z failures ps)
      ((means env.barred n).alternatives z failures (Parser.barredEach ps))
  | failures, [], _ => by
    rw [Parser.barredEach]
    unfold Means.alternatives
    exact .bind_eq (.listFree (.ofExcept _)) fun m => .pure (.failure z m)
  | failures, (label, p) :: rest, hps => by
    rw [Parser.Each] at hps
    rw [Parser.barredEach]
    unfold Means.alternatives
    refine (ih hps.1 z).bind fun a a' ha => ?_
    cases ha with
    | failure z' message => exact .bind_eq (.listFree (.print _)) fun _ => alternatives_inStep z _ hps.2
    | success z' l => exact .pure (.success z' l)
    | committed inner hstop => exact .pure (.committed inner hstop)

/-- What the frame of a parser makes of an answer. -/
theorem resumption_inStep {p q : Parser} {z : Context} {f : Frame} (h : frame? z p = some (q, f)) (hp : p.StreamFree) :
    ∃ f', frame? z p.barred = some (q.barred, f') ∧ q.StreamFree ∧ ∀ k a a', a.Barred env a' →
      InStep (Answer.Barred env) ((means env n).resumption k f a) ((means env.barred n).resumption k f' a') := by
  rw [Parser.StreamFree] at hp
  cases p with
  | map p g =>
    rw [Parser.Throughout] at hp
    cases h
    refine ⟨.map g, rfl, hp.2, fun k a a' ha => ?_⟩
    cases ha with
    | success z l => exact .pure (.success z (.mapped l g))
    | failure z message => exact .pure (.failure z message)
    | committed inner hstop => exact .pure (.framed hstop _ _)
  | bind p g =>
    rw [Parser.Throughout] at hp
    cases h
    refine ⟨.bind fun v => Parser.barredAct (g v), rfl, hp.2.1, fun k a a' ha => ?_⟩
    cases ha with
    | success z l =>
      rw [Means.resumption_bind_success, Means.resumption_bind_success]
      show InStep _ ((means env n).late l >>= fun v => (means env n).exec (g v) >>= fun q =>
        (means env n).answer (.apply q z)) ((means env.barred n).late l >>= fun v =>
          (means env.barred n).exec (Parser.barredAct (g v)) >>= fun q => (means env.barred n).answer (.apply q z))
      refine (late_inStep n l).bind_eq fun v => ?_
      refine (exec_parser_inStep n (hp.2.2 v)).bind fun q q' hq => ?_
      rw [hq.2]
      exact ih hq.1 z
    | failure z message => exact .pure (.failure z message)
    | committed inner hstop => exact .pure (.framed hstop _ _)
  | orElse p q =>
    rw [Parser.Throughout] at hp
    cases h
    refine ⟨.orElse q.barred z, rfl, hp.2.1, fun k a a' ha => ?_⟩
    cases ha with
    | success z l => exact .pure (.success z l)
    | failure z' message => exact ih hp.2.2 z
    | committed inner hstop => exact .pure (.committed inner hstop)
  | reword p g =>
    rw [Parser.Throughout] at hp
    cases h
    refine ⟨.reword g, rfl, hp.2, fun k a a' ha => ?_⟩
    cases ha with
    | success z l => exact .pure (.success z l)
    | failure z message =>
      rw [Means.resumption_reword_failure, Means.resumption_reword_failure]
      exact (exec_inStep n _).bind_eq fun m => .pure (.failure z m)
    | committed inner hstop => exact .pure (.framed hstop _ _)
  | restoring p =>
    rw [Parser.Throughout] at hp
    cases h
    refine ⟨.restoring z.state, rfl, hp.2, fun k a a' ha => ?_⟩
    cases ha with
    | success z l => exact .pure (.success z l)
    | failure z' message => exact .pure (.failure _ message)
    | committed inner hstop => exact .pure (.framed hstop _ _)
  | _ => cases h

omit ih in
theorem known_inStep (z : Context) (v : Value) : InStep (Answer.Barred env) (pure (.known z v)) (pure (.known z v)) :=
  .pure (.success z (.known v))

/-- A parser that is not made of frames. -/
theorem primitive_inStep (hg : ∀ name, (env.grammar name).StreamFree) (k : Nat) {p : Parser} (hp : p.StreamFree)
    (z : Context) (hframe : frame? z p = none) :
    InStep (Answer.Barred env) ((means env n).primitive k p z) ((means env.barred n).primitive k p.barred z) := by
  cases p with
  | map | bind | orElse | reword | restoring => cases hframe
  | loop init step =>
    rw [Parser.StreamFree, Parser.Throughout] at hp
    exact turns_inStep ih hp.2 k init z
  | choice ps =>
    rw [Parser.StreamFree, Parser.Throughout] at hp
    exact alternatives_inStep ih z [] hp.2
  | commit p => exact .pure (.committed _ (strict_barrier z))
  | rule name => exact ih (hg name) z
  | stream p =>
    rw [Parser.StreamFree, Parser.Throughout] at hp
    cases hp.1
  | next =>
    refine InStep.bind_eq (.listFree (.next? _)) fun answer => ?_
    rcases answer with _ | ⟨t, rest⟩
    · exact .pure (.failure z _)
    · exact known_inStep _ t
  | eof =>
    refine InStep.bind_eq (.listFree (.next? _)) fun answer => ?_
    rcases answer with _ | ⟨t, rest⟩
    · exact known_inStep _ _
    · exact .pure (.failure z _)
  | satisfy test =>
    refine InStep.bind_eq (.listFree (.next? _)) fun answer => ?_
    rcases answer with _ | ⟨t, rest⟩
    · exact .pure (.failure z _)
    · refine (exec_inStep n _).bind_eq fun b => ?_
      cases b with
      | true => exact known_inStep _ t
      | false => exact .bind_eq (.listFree (.ofExcept _)) fun m => .pure (.failure z m)
  | fail message => exact .pure (.failure z message)
  | pure v => exact known_inStep _ _
  | pushBack ts => exact known_inStep _ _
  | position => exact known_inStep _ _
  | get => exact known_inStep _ _
  | put state => exact known_inStep _ _

end Demands

/-- **On demand, a term and the barred term answer in step.** -/
theorem answer_barred (hg : ∀ name, (env.grammar name).StreamFree) (n : Nat) {p : Parser} (hp : p.StreamFree) (z : Context) :
    InStep (Answer.Barred env) ((means env n).answer (.apply p z)) ((means env.barred n).answer (.apply p.barred z)) := by
  -- a frame takes a unit of fuel of its own
  induction n using Nat.strongRec generalizing p z with
  | ind n ih =>
    cases n with
    | zero => exact .halt _
    | succ n =>
      rw [means_answer_apply, means_answer_apply]
      cases hframe : frame? z p with
      | none =>
        have hbarred : frame? z p.barred = none := by cases p <;> first | rfl | cases hframe
        rw [hbarred]
        exact primitive_inStep (fun hp z => ih n (Nat.lt_succ_self n) hp z) hg n hp z hframe
      | some qf =>
        obtain ⟨f', hbarred, hq, hf⟩ := resumption_inStep (n := n - 1) (ih (n - 1) (by omega)) hframe hp
        rw [hbarred]
        cases n with
        | zero => exact .halt _
        | succ n =>
          dsimp only
          rw [means_answer_framed, means_answer_framed]
          exact (ih n (by omega) hq z).bind (hf n)

/-! ## What is read for an answer -/

/-- A callback that finds no lists ends, and does not read. -/
theorem exec_none_ends {α : Type} (act : Act α) (w : World) :
    ∃ x w', Course.ofRun (act.exec env .none) w = some (x, w') ∧ w'.feed = w.feed := by
  induction act generalizing w with
  | pure a => exact ⟨_, w, rfl, rfl⟩
  | throw e => exact ⟨_, w, rfl, rfl⟩
  | note id next ih => exact ih _
  | width k ih => exact ih _ w
  | count mark k ih => exact ih _ _
  | fresh k ih => exact ih _ _
  | node i k ih => exact ⟨_, w, rfl, rfl⟩
  | walk i k ih => exact ⟨_, w, rfl, rfl⟩

/-- Something late ends, and does not read. -/
theorem late_ends {α : Type} (l : Late α) (w : World) :
    ∃ x w', l.strict env w = some (x, w') ∧ w'.feed = w.feed ∧ w.journal <:+ w'.journal := by
  have hexec : ∀ {β : Type} (act : Act β) (w : World), ∃ x w', (Strict.semantics env).exec act w = some (x, w') ∧
      w'.feed = w.feed ∧ w.journal <:+ w'.journal := by
    intro β act w
    obtain ⟨x, w', hx, hfeed⟩ : ∃ x w', Course.ofRun (act.exec env .none) w = some (x, w') ∧ w'.feed = w.feed :=
      exec_none_ends act w
    have hopens : Run.Opens (act.exec env .none) (act.exec env .none) := act.opens_exec rfl
    have hjournal := hopens.plain.journal w
    rw [Course.ofRun_eq_some.1 hx] at hjournal
    exact ⟨x, w', hx, hfeed, hjournal⟩
  induction l with
  | known a => exact ⟨_, w, rfl, rfl, List.suffix_refl _⟩
  | later act => exact hexec act w
  | mapped l f ih =>
    obtain ⟨x, w₁, hl, hfeed, hjournal⟩ := ih
    cases x with
    | error e => exact ⟨_, w₁, Course.bind_of_error hl, hfeed, hjournal⟩
    | ok a =>
      obtain ⟨y, w₂, hy, hfeed', hjournal'⟩ := hexec (f a) w₁
      exact ⟨y, w₂, (Course.bind_of_ok hl).trans hy, hfeed'.trans hfeed, hjournal.trans hjournal'⟩

/-- What is settled ends, and does not read. -/
theorem Settled.strict_ends {t : Settled} (ht : t.toAnswer.StreamFree) (w : World) :
    ∃ x w', t.toAnswer.strict env w = some (x, w') ∧ w'.feed = w.feed ∧ w.journal <:+ w'.journal := by
  cases t with
  | failure z message => exact ⟨_, w, rfl, rfl, List.suffix_refl _⟩
  | success p =>
    obtain ⟨z, l, rfl⟩ := ht
    rw [Settled.toAnswer, Answer.strict_prompt]
    obtain ⟨x, w', hl, hkept⟩ : ∃ x w', l.strict env w = some (x, w') ∧ w'.feed = w.feed ∧ w.journal <:+ w'.journal :=
      late_ends l w
    cases x with
    | error e => exact ⟨_, w', Course.bind_of_error hl, hkept⟩
    | ok v => exact ⟨_, w', Course.bind_of_ok hl, hkept⟩

section Opening

variable (hg : ∀ name, (env.grammar name).StreamFree) {p : Parser} (hp : p.StreamFree) (z : Context) {w : World}
  (hw : w.lists = #[])

include hg hp hw

/-- **An answer reads as much of the source as the strict run of the barred term.** It is committed where that is stopped. -/
theorem answer_opening {x : Except Fault Answer} {w' : World} (h : answer env (.apply p z) w = some (x, w')) :
    (∃ y w₁, Strict.eval env.barred p.barred z w = some (y, w₁) ∧ w₁.feed = w'.feed) ∧
      ∀ inner, x = .ok (.committed inner) → Strict.eval env.barred p.barred z w = some (.error .entered, w') := by
  have hg' : ∀ name, (env.barred.grammar name).StreamFree := fun name => (hg name).barred
  obtain ⟨x', hx', hrelated⟩ := InStep.ends (fun n => answer_barred hg n hp z) hw
    ((Run.limit_eq_some (steady_answer env _)).1 h)
  have hfollows := answer_follows hg' (s := .apply p.barred z) hp.barred w _ hw
    ((Run.limit_eq_some (steady_answer env.barred _)).2 hx')
  cases x with
  | error e =>
    cases hrelated
    exact ⟨⟨_, w', hfollows.2, rfl⟩, fun inner hinner => by cases hinner⟩
  | ok a =>
    obtain ⟨a', rfl, ha⟩ := hrelated
    obtain ⟨-, hfree, heval⟩ := hfollows
    rw [Suspended.strict] at heval
    cases ha with
    | committed inner hstop =>
      rw [Answer.strict, hstop] at heval
      exact ⟨⟨_, w', heval, rfl⟩, fun _ _ => heval⟩
    | success z l =>
      obtain ⟨y, w₁, hy, hfeed, -⟩ := Settled.strict_ends (t := .success { rest := .known z, value := l }) hfree w'
      exact ⟨⟨y, w₁, heval.trans hy, hfeed⟩, fun inner hinner => by cases hinner⟩
    | failure z message => exact ⟨⟨_, w', heval, rfl⟩, fun inner hinner => by cases hinner⟩

/-- Where the strict run of the barred term ends, the term answers. -/
theorem opening_answers {y : Except Fault Outcome} {w₁ : World} (h : Strict.eval env.barred p.barred z w = some (y, w₁)) :
    ∃ x w', answer env (.apply p z) w = some (x, w') := by
  have hg' : ∀ name, (env.barred.grammar name).StreamFree := fun name => (hg name).barred
  -- the barred term has a result on demand, and so it has an answer
  have hx' : ∃ x' w', answer env.barred (.apply p.barred z) w = some (x', w') := by
    rw [← eval_eq_strict hg' hp.barred z hw, eval, reveal_eq, bind_assoc] at h
    rcases Course.bind_eq_some h with ⟨a, w', ha, -⟩ | ⟨e, w', ha, -⟩
    · exact ⟨_, w', ha⟩
    · exact ⟨_, w', ha⟩
  obtain ⟨x', w', hx'⟩ := hx'
  obtain ⟨x, hx, -⟩ := InStep.ends (fun n => (answer_barred hg n hp z).symm) hw
    ((Run.limit_eq_some (steady_answer env.barred _)).1 hx')
  exact ⟨x, w', (Run.limit_eq_some (steady_answer env _)).2 hx⟩

end Opening

end OnDemand

end CommittedChoice
