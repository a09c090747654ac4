import CommittedChoice.Proofs.OnDemand.Wording
import CommittedChoice.Proofs.Pulling

/-!
# Settings show in messages only

The settings are read in the middle of many failures: a choice indents the messages of its alternatives, a function of
messages may ask for the width, and failures are traced. None of it comes back into what a parser does.

- `Parser.Unconfigured`: terms whose callbacks, functions of messages apart, do not depend on the settings;
- `Wording.Results`: outcomes that differ in their messages only, with one lemma for each operation on outcomes;
- `Strict.run_worded`, `Engine.parse_worded`, `Engine.rawTag_worded`: runs of all engines under settings that differ;
- `Reader.steps_worded`: readers of items under settings that differ;
- `Engine.configuration_in_messages`: with enough fuel.
-/

namespace CommittedChoice

open Run (Ends)
open Strict (Outcome)
open OnDemand

/-- Callbacks do the same whatever the settings and the messages are; functions of messages may ask for the width, and what
they answer may depend on it. -/
def Parser.Unconfigured (p : Parser) : Prop := Wording.free.Parsers p p

/-- Items that wait in lists are such terms. -/
def World.Unconfigured (w : World) : Prop := Wording.free.Worlds w w

namespace Wording

variable (W : Wording)

/-- Results that are alike. -/
inductive Results : Outcome → Outcome → Prop
  | plain {v v'} : W.Verdicts v v' → Results (.plain v) (.plain v')
  | committed {v v'} : W.Verdicts v v' → Results (.committed v) (.committed v')

/-- Ends of runs that are alike. -/
inductive Outcomes {α : Type} (A : α → α → Prop) : Except Fault α → Except Fault α → Prop
  | ok {a b} : A a b → Outcomes A (.ok a) (.ok b)
  | error {e e'} : W.Faults e e' → Outcomes A (.error e) (.error e')

/-- Wherever the first runs end, the second ones end alike. Where the runs are loose, this is so if no message gets too
long in either. -/
def EndAlike {α : Type} (A : α → α → Prop) (f f' : Nat → Run α) (w w' : World) : Prop :=
  ∀ x w₁, Ends f w x w₁ → (W.loose → x ≠ .error .tooLong) → ∃ x' w₁', Ends f' w' x' w₁' ∧
    ((W.loose → x' ≠ .error .tooLong) → W.Outcomes A x x' ∧ W.Worlds w₁ w₁')

variable {W}

theorem Runs.endAlike {α : Type} {A : α → α → Prop} {f f' : Nat → Run α} (h : ∀ n, W.Runs A (f n) (f' n)) {w w' : World}
    (hw : W.Worlds w w') : W.EndAlike A f f' w w' := by
  rintro x w₁ ⟨n, hn⟩ hx
  have hends := h n w w' hw
  rw [hn] at hends
  generalize hr : f' n w' = r at hends
  have hlong : ∀ w₁', r = (.error (.fault .tooLong), w₁') → W.loose → ∃ x' w₁', Ends f' w' x' w₁' ∧
      ((W.loose → x' ≠ .error .tooLong) → W.Outcomes A x x' ∧ W.Worlds w₁ w₁') := fun w₁' hr' hloose =>
    ⟨.error .tooLong, w₁', ⟨n, hr.trans hr'⟩, fun h => absurd rfl (h hloose)⟩
  cases x with
  | ok a =>
    cases hends with
    | @ok _ b _ w₁' hab hw₁ => exact ⟨.ok b, w₁', ⟨n, hr⟩, fun _ => ⟨.ok hab, hw₁⟩⟩
    | overlong_right hloose _ w₁' => exact hlong w₁' rfl hloose
  | error e =>
    cases hends with
    | @fault _ e' _ w₁' he hw₁ => exact ⟨.error e', w₁', ⟨n, hr⟩, fun _ => ⟨.error he, hw₁⟩⟩
    | overlong_left hloose => exact absurd rfl (hx hloose)
    | overlong_right hloose _ w₁' => exact hlong w₁' rfl hloose

end Wording

/-! ## Results -/

namespace Wording.Results

variable {W : Wording} {r r' : Outcome}

theorem verdict (h : W.Results r r') : W.Verdicts r.verdict r'.verdict := by cases h <;> assumption

theorem isCommitted (h : W.Results r r') : r.isCommitted = r'.isCommitted := by cases h <;> rfl

theorem commit (h : W.Results r r') : W.Results r.commit r'.commit := .committed h.verdict

theorem commitIf (h : W.Results r r') (b : Bool) : W.Results (r.commitIf b) (r'.commitIf b) := by
  cases b with
  | true => exact h.commit
  | false => exact h

theorem onFailureRest (h : W.Results r r') (f : Context → Context) :
    W.Results (r.onFailureRest f) (r'.onFailureRest f) := by
  cases h with
  | plain hv =>
    cases hv with
    | success z v => exact .plain (.success z v)
    | failure z hm => exact .plain (.failure _ hm)
  | committed hv =>
    cases hv with
    | success z v => exact .committed (.success z v)
    | failure z hm => exact .committed (.failure _ hm)

/-- Going on after a success. -/
theorem bind (h : W.Results r r') {k k' : Context → Value → Run Outcome}
    (hk : ∀ z v, W.Runs W.Results (k z v) (k' z v)) : W.Runs W.Results (r.bind k) (r'.bind k') := by
  cases h with
  | plain hv =>
    cases hv with
    | success z v => exact hk z v
    | failure z hm => exact .pure (.plain (.failure z hm))
  | committed hv =>
    cases hv with
    | success z v => exact (hk z v).bind fun _ _ h => .pure h.commit
    | failure z hm => exact .pure (.committed (.failure z hm))

/-- A function of the value. -/
theorem map (h : W.Results r r') {f f' : Value → Run Value} (hf : ∀ v, W.Runs (· = ·) (f v) (f' v)) :
    W.Runs W.Results (r.map f) (r'.map f') := by
  cases h with
  | plain hv =>
    cases hv with
    | success z v => exact (hf v).bind fun _ _ hb => hb ▸ .pure (.plain (.success z _))
    | failure z hm => exact .pure (.plain (.failure z hm))
  | committed hv =>
    cases hv with
    | success z v => exact (hf v).bind fun _ _ hb => hb ▸ .pure (.committed (.success z _))
    | failure z hm => exact .pure (.committed (.failure z hm))

/-- A function of the message. -/
theorem adjust (h : W.Results r r') {f f' : String → Run String}
    (hf : ∀ m m', W.messages m m' → W.Runs W.messages (f m) (f' m')) :
    W.Runs W.Results (r.adjust f) (r'.adjust f') := by
  cases h with
  | plain hv =>
    cases hv with
    | success z v => exact .pure (.plain (.success z v))
    | failure z hm => exact (hf _ _ hm).bind fun _ _ hm' => .pure (.plain (.failure z hm'))
  | committed hv =>
    cases hv with
    | success z v => exact .pure (.committed (.success z v))
    | failure z hm => exact (hf _ _ hm).bind fun _ _ hm' => .pure (.committed (.failure z hm'))

end Wording.Results

/-- What depends on a token that is read in both runs. -/
theorem Wording.Runs.reading {W : Wording} {α : Type} {A : α → α → Prop} (s : Remainder)
    {k k' : Option (Value × Remainder) → Run α} (hk : ∀ answer, W.Runs A (k answer) (k' answer)) :
    W.Runs A (Run.next? s >>= k) (Run.next? s >>= k') :=
  (Wording.Runs.next? s).bind fun answer _ ha => ha ▸ hk answer

/-! ## The strict engine -/

namespace Strict

variable {W : Wording}

section Parts

variable {env env' : Env} {apply apply' : Parser → Context → Run Outcome}
  (happly : ∀ {p p'} (z : Context), W.Parsers p p' → W.Runs W.Results (apply p z) (apply' p' z))

include happly

theorem alternatives_worded (hwidth : W.widths env.settings.indent env'.settings.indent) (z : Context)
    {fs gs : List (String × String)} (hfs : List.Forall₂ (fun f g => f.1 = g.1 ∧ W.messages f.2 g.2) fs gs)
    {ps ps' : List (String × Parser)} (hps : List.Forall₂ (fun a b => a.1 = b.1 ∧ W.Parsers a.2 b.2) ps ps') :
    W.Runs W.Results (alternatives env apply z fs ps) (alternatives env' apply' z gs ps') := by
  induction hps generalizing fs gs with
  | nil => exact (Wording.Runs.report hwidth (List.rel_reverse hfs)).bind fun _ _ hm => .pure (.plain (.failure z hm))
  | @cons a b ps ps' hab _ ih =>
    obtain ⟨label, p⟩ := a
    obtain ⟨_, p'⟩ := b
    obtain ⟨rfl, hp⟩ := hab
    refine (happly z hp).bind fun r r' hr => ?_
    cases hr with
    | committed hv => exact .pure (.committed hv)
    | plain hv =>
      cases hv with
      | success z v => exact .pure (.plain (.success z v))
      | failure _ hm => exact (Wording.Runs.print _ _).bind fun _ _ _ => ih (.cons ⟨rfl, hm⟩ hfs)

theorem turns_worded {step step' : Value → Act Parser} (hstep : ∀ v, W.Runs W.Parsers ((step v).exec env .none)
    ((step' v).exec env' .none)) : ∀ (n : Nat) (committed : Bool) (state : Value) (z : Context),
      W.Runs W.Results (turns env apply step n committed state z) (turns env' apply' step' n committed state z)
  | 0, _, _, _ => .outOfFuel
  | n + 1, committed, state, z => by
    refine (hstep state).bind fun p p' hp => (happly z hp).bind fun r r' hr => ?_
    have hverdict := hr.verdict
    rw [hr.isCommitted]
    generalize r.verdict = v at hverdict ⊢
    generalize r'.verdict = v' at hverdict ⊢
    cases hverdict with
    | failure z hm => exact .pure (Wording.Results.commitIf (.plain (.failure z hm)) _)
    | success z v =>
      dsimp only
      cases v.toStep with
      | done value => exact .pure (Wording.Results.commitIf (.plain (.success z value)) _)
      | again state => exact turns_worded hstep n _ state z

end Parts

section Run

variable {env env' : Env} (hg : ∀ name, W.Parsers (env.grammar name) (env'.grammar name))
  (hwidth : W.widths env.settings.indent env'.settings.indent)

include hwidth in
/-- What a callback does where there are no lists. -/
theorem exec_worded {α : Type} {A : α → α → Prop} {act act' : Act α} (h : W.Acts A act act') :
    W.Runs A (act.exec env .none) (act'.exec env' .none) :=
  h.runs hwidth (fun _ => .fault (.same _)) fun _ => .fault (.same _)

include hwidth in
/-- What a test makes of a token. -/
theorem tested_worded (z : Context) {t : Value} {rest : Remainder} {test test' : Act Bool}
    (h : W.Acts (· = ·) test test') :
    W.Runs W.Results
      (test.exec env .none >>= fun b => if b then pure (.success { z with input := rest } t)
        else Run.ofExcept (Message.unexpected t) >>= fun m => pure (.failure z m))
      (test'.exec env' .none >>= fun b => if b then pure (.success { z with input := rest } t)
        else Run.ofExcept (Message.unexpected t) >>= fun m => pure (.failure z m)) := by
  refine (exec_worded hwidth h).bind fun b _ hb => ?_
  subst hb
  cases b with
  | true => exact .pure (.plain (.success _ _))
  | false => exact (Wording.Runs.unexpected t).bind fun _ _ hm => .pure (.plain (.failure z (hm ▸ W.refl _)))

include hg hwidth

/-- **The strict engine does the same under both settings.** -/
theorem run_worded : ∀ (n : Nat) {p p' : Parser} (z : Context), W.Parsers p p' →
    W.Runs W.Results (run env n p z) (run env' n p' z)
  | 0, _, _, _, _ => .outOfFuel
  | n + 1, p, p', z, hp => by
    have happly : ∀ {p p' : Parser} (z : Context), W.Parsers p p' → W.Runs W.Results (run env n p z) (run env' n p' z) :=
      fun z hp => run_worded n z hp
    cases hp with
    | pure v => exact .pure (.plain (.success z v))
    | fail hm => exact .pure (.plain (.failure z hm))
    | map hp hf => exact (happly z hp).bind fun _ _ hr => hr.map fun v => exec_worded hwidth (hf v)
    | bind S hp hk hS =>
      exact (happly z hp).bind fun _ _ hr => hr.bind fun z v =>
        (exec_worded hwidth (hk v)).bind fun q q' hq => happly z (hS q q' hq)
    | orElse hp hq =>
      refine (happly z hp).bind fun r r' hr => ?_
      cases hr with
      | committed hv => exact .pure (.committed hv)
      | plain hv =>
        cases hv with
        | success z v => exact .pure (.plain (.success z v))
        | failure _ _ => exact happly z hq
    | loop init S hstep hS =>
      exact turns_worded happly (fun v => (exec_worded hwidth (hstep v)).mono hS) n false init z
    | commit hp => exact (happly z hp).bind fun _ _ hr => .pure hr.commit
    | reword hp hf => exact (happly z hp).bind fun _ _ hr => hr.adjust fun m m' hm => exec_worded hwidth (hf m m' hm)
    | choice S hps hS => exact alternatives_worded happly hwidth z .nil (hps.imp fun a b hab => ⟨hab.1, hS _ _ hab.2⟩)
    | next =>
      refine Wording.Runs.reading z.input fun answer => ?_
      cases answer with
      | none => exact .pure (.plain (.failure z (W.refl _)))
      | some x => exact .pure (.plain (.success _ _))
    | eof =>
      refine Wording.Runs.reading z.input fun answer => ?_
      cases answer with
      | none => exact .pure (.plain (.success _ _))
      | some x => exact .pure (.plain (.failure z (W.refl _)))
    | satisfy htest =>
      refine Wording.Runs.reading z.input fun answer => ?_
      cases answer with
      | none => exact .pure (.plain (.failure z (W.refl _)))
      | some x => exact tested_worded hwidth z (htest x.1)
    | pushBack ts => exact .pure (.plain (.success _ _))
    | position => exact .pure (.plain (.success _ _))
    | get => exact .pure (.plain (.success _ _))
    | put state => exact .pure (.plain (.success _ _))
    | restoring hp => exact (happly z hp).bind fun _ _ hr => .pure (hr.onFailureRest _)
    | stream _ => exact .fault (.same _)
    | rule name => exact happly z (hg name)

end Run

end Strict

/-! ## Readers -/

namespace OnDemand.Reader

variable {W : Wording}

variable (W) in
/-- Readers that stand at the same place. -/
inductive Worded : Reader → Reader → Prop
  | unstarted {p p'} (z) : W.Parsers p p' → Worded (.unstarted p z) (.unstarted p' z)
  | at (i) : Worded (.at i) (.at i)
  | finished : Worded .finished .finished

/-- A text got too long in one of the steps. -/
def Overlong (xs : List (Except Fault Reading)) : Prop := .error .tooLong ∈ xs

variable (W) in
/-- How the steps of two readers end. -/
inductive Ended : Except Halt (List (Except Fault Reading)) × World → Except Halt (List (Except Fault Reading)) × World → Prop
  | ok {xs xs' w w'} : List.Forall₂ (W.Outcomes (· = ·)) xs xs' → W.Worlds w w' → Ended (.ok xs, w) (.ok xs', w')
  | outOfFuel (w w') : Ended (.error .outOfFuel, w) (.error .outOfFuel, w')
  | overlong_left (h : W.loose) {xs} (w) : Overlong xs → (r : _) → Ended (.ok xs, w) r
  | overlong_right (h : W.loose) {xs} (w) : Overlong xs → (r : _) → Ended r (.ok xs, w)

variable {m m' : Means}

/-- One step more, before which both readers got the same. -/
theorem Ended.cons {x x' : Except Fault Reading} (hx : W.Outcomes (· = ·) x x') {y y' : Run (List (Except Fault Reading))}
    {w w' : World} (h : Ended W (y w) (y' w')) :
    Ended W ((y >>= fun xs => pure (x :: xs)) w) ((y' >>= fun xs => pure (x' :: xs)) w') := by
  show Ended W (Run.bind y _ w) (Run.bind y' _ w')
  unfold Run.bind
  generalize y w = r at h ⊢
  generalize y' w' = r' at h ⊢
  cases h with
  | ok hxs hw => exact .ok (.cons hx hxs) hw
  | outOfFuel w w' => exact .outOfFuel w w'
  | overlong_left hloose w hxs r => exact .overlong_left hloose w (List.mem_cons_of_mem x hxs) _
  | overlong_right hloose w hxs r => exact .overlong_right hloose w (List.mem_cons_of_mem x' hxs) _

/-- A finished reader gets nothing more. -/
theorem steps_finished (m : Means) : ∀ k, steps m k .finished = pure (List.replicate k (.ok .over))
  | 0 => rfl
  | k + 1 => by
    show (steps m k .finished >>= fun xs => pure (Except.ok Reading.over :: xs)) = _
    rw [steps_finished m k]
    rfl

theorem steps_at (m : Means) (k i : Nat) (w : World) : steps m (k + 1) (.at i) w =
    match m.lists.node i w with
    | (.ok x, w) => (steps m k (ofNode (.ok x)).2 >>= fun xs => pure ((ofNode (.ok x)).1 :: xs)) w
    | (.error (.fault e), w) => (.ok (.error e :: List.replicate k (.ok .over)), w)
    | (.error .outOfFuel, w) => (.error .outOfFuel, w) := by
  show (step m (.at i) >>= fun xs => steps m k xs.2 >>= fun ys => pure (xs.1 :: ys)) w = _
  rw [step_at, bind_assoc]
  show Run.bind (m.lists.node i).attempt _ w = _
  unfold Run.bind Run.attempt
  rcases m.lists.node i w with ⟨(e | _) | x, w'⟩
  · show (steps m k .finished >>= fun xs => pure (Except.error e :: xs)) w' = _
    rw [steps_finished]
    rfl
  · rfl
  · rfl

/-- **Readers get the same under both settings.** -/
theorem steps_worded (h : m.Worded W m') : ∀ (k : Nat) {s s' : Reader}, Worded W s s' → ∀ {w w' : World}, W.Worlds w w' →
    Ended W (steps m k s w) (steps m' k s' w')
  | 0, _, _, _, _, _, hw => .ok .nil hw
  | k + 1, s, s', hs, w, w', hw => by
    have hat : ∀ i {w w' : World}, W.Worlds w w' → Ended W (steps m (k + 1) (.at i) w) (steps m' (k + 1) (.at i) w') := by
      intro i w w' hw
      rw [steps_at, steps_at]
      have hnode := h.node i w w' hw
      generalize m.lists.node i w = r at hnode ⊢
      generalize m'.lists.node i w' = r' at hnode ⊢
      cases hnode with
      | outOfFuel w₁ w₁' => exact .outOfFuel w₁ w₁'
      | overlong_left hloose w₁ r => exact .overlong_left hloose w₁ List.mem_cons_self _
      | overlong_right hloose r w₁ => exact .overlong_right hloose w₁ List.mem_cons_self _
      | fault he hw₁ => exact .ok (.cons (.error he) (List.forall₂_same.2 fun _ hx => by
          rw [List.eq_of_mem_replicate hx]; exact .ok rfl)) hw₁
      | ok hx hw₁ =>
        cases hx with
        | item v next => exact (steps_worded h k (.at next) hw₁).cons (.ok rfl)
        | @ended e e' he =>
          refine (steps_worded h k .finished hw₁).cons ?_
          have hfault := he.fault?
          have hrest := he.rest
          show W.Outcomes _ (e.reading (Reading.leftover e.rest)) (e'.reading (Reading.leftover e'.rest))
          unfold ListEnd.reading
          generalize e.fault? = x at hfault ⊢
          generalize e'.fault? = x' at hfault ⊢
          cases hfault with
          | none => exact .ok (congrArg _ hrest)
          | some hf => exact .error hf
    cases hs with
    | finished => exact (steps_worded h k .finished hw).cons (.ok rfl)
    | «at» i => exact hat i hw
    | @unstarted p p' z hp =>
      have hu : W.Waits ⟨p, z, false⟩ ⟨p', z, false⟩ := ⟨hp, rfl, rfl⟩
      have hmade : ∀ (m : Means) (p : Parser) (w : World), steps m (k + 1) (.unstarted p z) w =
          steps m (k + 1) (.at (nodeNumber w.lists.size 0)) (Means.makeList ⟨p, z, false⟩ w).2 := fun _ _ _ => rfl
      rw [hmade, hmade, ← hw.size]
      exact hat _ (hw.makeList hu)

end OnDemand.Reader

/-! ## The engines -/

/-- Wherever the first runs end, the second ones do the same, but for what was and is printed. -/
def Run.EndButPrinted {α : Type} (f f' : Nat → Run α) (w : World) : Prop :=
  ∀ x w₁, Ends f w x w₁ → ∃ lines, Ends f' w x { w₁ with console := lines }

namespace Engine

variable {W : Wording} (e : Engine) {env env' : Env} (hg : ∀ name, W.Parsers (env.grammar name) (env'.grammar name))
  (hwidth : W.widths env.settings.indent env'.settings.indent) (hstateful : env.stateful = env'.stateful)

include hg hwidth hstateful

theorem parse_worded (n : Nat) {p p' : Parser} (hp : W.Parsers p p') (z : Context) :
    W.Runs W.Verdicts (e.parse env n p z) (e.parse env' n p' z) := by
  have hverdict : W.Runs W.Verdicts (e.verdict env n p z) (e.verdict env' n p' z) := by
    unfold verdict
    cases e.onDemand with
    | true => exact means_worded_verdict hg hwidth hstateful n hp z
    | false =>
      refine (Strict.run_worded hg hwidth n z hp).bind fun r r' hr => .pure ?_
      cases hr with
      | plain hv => exact hv
      | committed hv => exact hv
  rw [parse_eq, parse_eq]
  refine hverdict.bind fun v v' hv => ?_
  cases hv with
  | success z v => exact .pure (.success z v)
  | failure z hm => exact (Wording.Runs.print _ _).bind fun _ _ _ => .pure (.failure z hm)

theorem parseAll_worded (n : Nat) {p p' : Parser} (hp : W.Parsers p p') (z : Context) :
    W.Runs (· = ·) (e.parseAll env n p z) (e.parseAll env' n p' z) := by
  refine (e.parse_worded hg hwidth hstateful n hp z).bind fun v v' hv => ?_
  cases hv with
  | failure z hm => exact .fault (.parse _ hm)
  | success z v =>
    refine (Wording.Runs.next? z.input).bind fun answer _ ha => ?_
    subst ha
    cases answer with
    | none => exact .pure rfl
    | some x => exact .fault (.same _)

theorem rawTag_worded (n : Nat) {p p' : Parser} (hp : W.Parsers p p') (z : Context) :
    W.Runs (· = ·) (e.rawTag env n p z) (e.rawTag env' n p' z) := by
  unfold rawTag
  cases e.onDemand with
  | true =>
    refine ((means_worded hg hwidth hstateful n).answer (.apply z hp)).bind fun a a' ha => .pure ?_
    cases ha <;> rfl
  | false =>
    refine (Strict.run_worded hg hwidth n z hp).bind fun r r' hr => .pure ?_
    cases hr with
    | committed hv => rfl
    | plain hv => cases hv <;> rfl

end Engine

variable (W : Wording) in
/-- Whatever a parser is asked for ends alike in two runs: a parse, one of the whole input, what shows at first, and the
first items of a list of it, which a reader asks for one after the other. -/
structure Engine.AskedAlike (e : Engine) (env env' : Env) (p : Parser) (z : Context) (w : World) : Prop where
  parse : W.EndAlike W.Verdicts (fun n => e.parse env n p z) (fun n => e.parse env' n p z) w w
  parseAll : W.EndAlike (· = ·) (fun n => e.parseAll env n p z) (fun n => e.parseAll env' n p z) w w
  rawTag : W.EndAlike (· = ·) (fun n => e.rawTag env n p z) (fun n => e.rawTag env' n p z) w w
  items : ∀ k xs w₁, Ends (fun n => Reader.steps (means env n) k (.unstarted p z)) w (.ok xs) w₁ →
    (W.loose → ¬ Reader.Overlong xs) →
    ∃ xs' w₁', Ends (fun n => Reader.steps (means env' n) k (.unstarted p z)) w (.ok xs') w₁' ∧
      ((W.loose → ¬ Reader.Overlong xs') → List.Forall₂ (W.Outcomes (· = ·)) xs xs' ∧ W.Worlds w₁ w₁')

namespace Engine

theorem askedAlike {W : Wording} (e : Engine) {env env' : Env}
    (hg : ∀ name, W.Parsers (env.grammar name) (env'.grammar name))
    (hwidth : W.widths env.settings.indent env'.settings.indent) (hstateful : env.stateful = env'.stateful) {p : Parser}
    (hp : W.Parsers p p) (z : Context) {w : World} (hw : W.Worlds w w) : e.AskedAlike W env env' p z w where
  parse := Wording.Runs.endAlike (fun n => e.parse_worded hg hwidth hstateful n hp z) hw
  parseAll := Wording.Runs.endAlike (fun n => e.parseAll_worded hg hwidth hstateful n hp z) hw
  rawTag := Wording.Runs.endAlike (fun n => e.rawTag_worded hg hwidth hstateful n hp z) hw
  items := by
    rintro k xs w₁ ⟨n, hn⟩ hxs
    have hends := Reader.steps_worded (means_worded hg hwidth hstateful n) k (.unstarted z hp) hw
    rw [show Reader.steps (means env n) k (.unstarted p z) w = (.ok xs, w₁) from hn] at hends
    generalize hr : Reader.steps (means env' n) k (.unstarted p z) w = r at hends
    cases hends with
    | @ok _ xs' _ w₁' hsame hw₁ => exact ⟨xs', w₁', ⟨n, hr⟩, fun _ => ⟨hsame, hw₁⟩⟩
    | overlong_left hloose _ hlong => exact absurd hlong (hxs hloose)
    | @overlong_right hloose xs' w₁' hlong => exact ⟨xs', w₁', ⟨n, hr⟩, fun h => absurd hlong (h hloose)⟩

end Engine

/-! ## With enough fuel -/

namespace Wording

theorem strict_faults_eq {e e' : Fault} (h : strict.Faults e e') : e = e' := by
  cases h with
  | same e => rfl
  | parse offset hm => cases hm; rfl

theorem strict_outcomes_eq {α : Type} {A : α → α → Prop} (hA : ∀ a b, A a b → a = b) {x x' : Except Fault α}
    (h : strict.Outcomes A x x') : x = x' := by
  cases h with
  | ok hab => rw [hA _ _ hab]
  | error he => rw [strict_faults_eq he]

theorem strict_verdicts_eq {v v' : Verdict Context Value} (h : strict.Verdicts v v') : v = v' := by
  cases h with
  | success z v => rfl
  | failure z hm => cases hm; rfl

theorem EndAlike.endButPrinted {α : Type} {A : α → α → Prop} (hA : ∀ a b, A a b → a = b) {f f' : Nat → Run α} {w : World}
    (h : strict.EndAlike A f f' w w) : Run.EndButPrinted f f' w := by
  intro x w₁ hx
  obtain ⟨x', w₁', hx', hsame⟩ := h x w₁ hx False.elim
  obtain ⟨hout, hw₁⟩ := hsame False.elim
  cases strict_outcomes_eq hA hout
  exact ⟨w₁'.console, strict_worlds_eq hw₁ ▸ hx'⟩

end Wording

namespace Engine

/-- **Settings show in messages only.** Under any two settings, terms whose callbacks do not depend on them, functions of
messages apart, end alike: in the same verdict but for the message of a failure, or in the same fault, with the same tag and
the same items, after the same calls of the source and with the same lists. Where no text gets too long, that is. Under
settings that indent alike, all terms end in the same, be it a message, and only what is printed may differ. -/
theorem configuration_in_messages (e : Engine) (g : Grammar) (p : Parser) (z : Context) (w : World) (s s' : Settings) :
    ((∀ name, (g name).Unconfigured) → p.Unconfigured → w.Unconfigured →
      e.AskedAlike .free (e.env g s) (e.env g s') p z w) ∧
    (s.indent = s'.indent →
      Run.EndButPrinted (fun n => e.parse (e.env g s) n p z) (fun n => e.parse (e.env g s') n p z) w ∧
      Run.EndButPrinted (fun n => e.parseAll (e.env g s) n p z) (fun n => e.parseAll (e.env g s') n p z) w ∧
      Run.EndButPrinted (fun n => e.rawTag (e.env g s) n p z) (fun n => e.rawTag (e.env g s') n p z) w ∧
      ∀ k xs w₁, Ends (fun n => Reader.steps (means (e.env g s) n) k (.unstarted p z)) w (.ok xs) w₁ → ∃ lines,
        Ends (fun n => Reader.steps (means (e.env g s') n) k (.unstarted p z)) w (.ok xs) { w₁ with console := lines }) := by
  constructor
  · intro hg hp hw
    have hrules : ∀ name, Wording.free.Parsers ((e.env g s).grammar name) ((e.env g s').grammar name) := hg
    exact e.askedAlike hrules trivial rfl hp z hw
  · intro hindent
    have hrules : ∀ name, Wording.strict.Parsers ((e.env g s).grammar name) ((e.env g s').grammar name) :=
      fun name => Wording.strict_parsers_refl (g name)
    have hasked : e.AskedAlike .strict (e.env g s) (e.env g s') p z w :=
      e.askedAlike hrules hindent rfl (Wording.strict_parsers_refl p) z (Wording.strict_worlds_refl w)
    refine ⟨hasked.parse.endButPrinted fun _ _ => Wording.strict_verdicts_eq, hasked.parseAll.endButPrinted fun _ _ => id,
      hasked.rawTag.endButPrinted fun _ _ => id, fun k xs w₁ hxs => ?_⟩
    obtain ⟨xs', w₁', hxs', hsame⟩ := hasked.items k xs w₁ hxs False.elim
    obtain ⟨hout, hw₁⟩ := hsame False.elim
    have heq := hout.imp fun _ _ => Wording.strict_outcomes_eq fun _ _ => id
    rw [List.forall₂_eq_eq_eq] at heq
    cases heq
    exact ⟨w₁'.console, Wording.strict_worlds_eq hw₁ ▸ hxs'⟩

/-- The end of the input, or a failure whose message is indented. -/
def endOrIndented : Parser := .orElse .eof (.reword (.fail "more") fun m => .width fun w => .pure (Message.blanks w ++ m))

/-- Its messages at two widths. All else is the same at both, and the first message does not depend on the traces. -/
theorem configuration_in_messages_endOrIndented :
    ((lazy false).AskedAlike .free ((lazy false).env (fun _ => .fail "") {}) ((lazy false).env (fun _ => .fail "") { indent := 3 })
      endOrIndented ⟨.ofText "b", .absent⟩ {}) ∧
    (∃ w₁, Ends (fun n => (lazy false).parse ((lazy false).env (fun _ => .fail "") {}) n endOrIndented ⟨.ofText "b", .absent⟩) {}
      (.ok (.failure ⟨.ofText "b", .absent⟩ (Message.blanks 2 ++ "more"))) w₁) ∧
    (∃ w₁, Ends (fun n => (lazy false).parse ((lazy false).env (fun _ => .fail "") { indent := 3 }) n endOrIndented
      ⟨.ofText "b", .absent⟩) {} (.ok (.failure ⟨.ofText "b", .absent⟩ (Message.blanks 3 ++ "more"))) w₁) ∧
    ∃ w₁, Ends (fun n => (lazy false).parse ((lazy false).env (fun _ => .fail "") { trace := true, log := .debug }) n endOrIndented
      ⟨.ofText "b", .absent⟩) {} (.ok (.failure ⟨.ofText "b", .absent⟩ (Message.blanks 2 ++ "more"))) w₁ := by
  have hunconfigured : endOrIndented.Unconfigured := .orElse .eof (.reword (.fail trivial) fun m m' _ => .width fun w w' _ =>
    .pure trivial)
  have hrules : ∀ name : String, Parser.Unconfigured ((fun _ => .fail "" : Grammar) name) := fun _ => .fail trivial
  have hworld : World.Unconfigured {} := ⟨rfl, rfl, rfl, rfl, rfl, fun _ _ => .none⟩
  have hparse : Ends (fun n => (lazy false).parse ((lazy false).env (fun _ => .fail "") {}) n endOrIndented
      ⟨.ofText "b", .absent⟩) {} (.ok (.failure ⟨.ofText "b", .absent⟩ (Message.blanks 2 ++ "more")))
      ((lazy false).parse ((lazy false).env (fun _ => .fail "") {}) 6 endOrIndented ⟨.ofText "b", .absent⟩ {}).2 :=
    ⟨6, Prod.ext rfl rfl⟩
  obtain ⟨hfree, -⟩ := configuration_in_messages (lazy false) (fun _ => .fail "") endOrIndented ⟨.ofText "b", .absent⟩ {} {}
    { indent := 3 }
  obtain ⟨-, hstrict⟩ := configuration_in_messages (lazy false) (fun _ => .fail "") endOrIndented ⟨.ofText "b", .absent⟩ {} {}
    { trace := true, log := .debug }
  obtain ⟨lines, htraced⟩ := (hstrict rfl).1 _ _ hparse
  exact ⟨hfree hrules hunconfigured hworld, ⟨_, hparse⟩, ⟨((lazy false).parse ((lazy false).env (fun _ => .fail "")
    { indent := 3 }) 6 endOrIndented ⟨.ofText "b", .absent⟩ {}).2, 6, Prod.ext rfl rfl⟩, ⟨_, htraced⟩⟩

end Engine

end CommittedChoice
