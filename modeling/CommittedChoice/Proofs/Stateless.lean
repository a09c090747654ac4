import CommittedChoice.Proofs.Accounting
import CommittedChoice.Proofs.Pairing

/-!
# A parse does not look at its state

A term that puts states, changes them and takes them back, but never asks for one, parses as if there were no state.

- `Parser.Forgets`: a term and what is left of it when there is no state. The identities that the functions on states give
  out are missing in the second term, so the two are compared up to a pairing of identities;
- `Likeness.forgetting`: the runs of two such terms side by side, in either order;
- `Strict.state_of_stateFree`: a term without any of the operations on states leaves the state as it is;
- `Engine.parse_stateless`: both for parses, in the engines with a state and those without.
-/

namespace CommittedChoice

open Run (Ends)
open Strict (Outcome)

/-! ## Terms without their state -/

/-- The callback answers in every world, and counts nothing on the way. -/
def Act.AnswersUncounted {α : Type} (act : Act α) : Prop :=
  ∀ env w, ∃ a w', act.exec env .none w = (.ok a, w') ∧ w'.marks = w.marks

namespace Parser

/-- The second term is the first one without its state: nothing is put, changed or taken back. The state may be changed by
any function that answers. Otherwise both are the same up to a pairing of identities: from values that are alike their
callbacks come to parsers that are in this relation again. -/
inductive Forgets : Pairing → Parser → Parser → Prop
  | pure {ρ v v'} (hv : v.Alike ρ v') : Forgets ρ (.pure v) (.pure v')
  | fail {ρ} (message : String) : Forgets ρ (.fail message) (.fail message)
  | map {ρ p q f g} (hp : Forgets ρ p q)
      (hf : ∀ σ, ρ ≤ σ → ∀ a b, a.Alike σ b → (f a).Alike Value.Alike σ (g b)) : Forgets ρ (.map p f) (.map q g)
  | bind {ρ p q k l} (S : Pairing → Parser → Parser → Prop) (hp : Forgets ρ p q)
      (hk : ∀ σ, ρ ≤ σ → ∀ a b, a.Alike σ b → (k a).Alike S σ (l b)) (hS : ∀ σ p q, S σ p q → Forgets σ p q) :
      Forgets ρ (.bind p k) (.bind q l)
  | orElse {ρ p q p' q'} (hp : Forgets ρ p p') (hq : Forgets ρ q q') : Forgets ρ (.orElse p q) (.orElse p' q')
  | loop {ρ s s' step step'} (S : Pairing → Parser → Parser → Prop) (hs : s.Alike ρ s')
      (hstep : ∀ σ, ρ ≤ σ → ∀ a b, a.Alike σ b → (step a).Alike S σ (step' b))
      (hS : ∀ σ p q, S σ p q → Forgets σ p q) : Forgets ρ (.loop s step) (.loop s' step')
  | commit {ρ p q} (hp : Forgets ρ p q) : Forgets ρ (.commit p) (.commit q)
  | reword {ρ p q f g} (hp : Forgets ρ p q)
      (hf : ∀ σ, ρ ≤ σ → ∀ message, (f message).Alike (fun _ => (· = ·)) σ (g message)) :
      Forgets ρ (.reword p f) (.reword q g)
  | choice {ρ ps qs} (S : Parser → Parser → Prop) (hps : List.Forall₂ (fun a b => a.1 = b.1 ∧ S a.2 b.2) ps qs)
      (hS : ∀ p q, S p q → Forgets ρ p q) : Forgets ρ (.choice ps) (.choice qs)
  | next {ρ} : Forgets ρ .next .next
  | eof {ρ} : Forgets ρ .eof .eof
  | satisfy {ρ test test'}
      (htest : ∀ σ, ρ ≤ σ → ∀ t t', t.Alike σ t' → (test t).Alike (fun _ => (· = ·)) σ (test' t')) :
      Forgets ρ (.satisfy test) (.satisfy test')
  | pushBack {ρ ts ts'} (hts : List.Forall₂ (Value.Alike ρ) ts ts') : Forgets ρ (.pushBack ts) (.pushBack ts')
  | position {ρ} : Forgets ρ .position .position
  | rule {ρ} (name : String) : Forgets ρ (.rule name) (.rule name)
  | put {ρ} (s : Value) : Forgets ρ (.put s) (.pure .absent)
  | modify {ρ f} (hf : ∀ s, (f s).AnswersUncounted) : Forgets ρ (.modify f) (.pure .absent)
  | restoring {ρ p q} (hp : Forgets ρ p q) : Forgets ρ (.restoring p) q

namespace Forgets

variable {ρ σ : Pairing} {p q p' q' : Parser}

theorem mono (hρσ : ρ ≤ σ) (h : Forgets ρ p q) : Forgets σ p q := by
  induction h with
  | pure hv => exact .pure (hv.mono hρσ)
  | fail message => exact .fail message
  | map _ hf ih => exact .map (ih hρσ) fun τ hτ => hf τ (le_trans hρσ hτ)
  | bind S _ hk hS ih => exact .bind S (ih hρσ) (fun τ hτ => hk τ (le_trans hρσ hτ)) hS
  | orElse _ _ ihp ihq => exact .orElse (ihp hρσ) (ihq hρσ)
  | loop S hs hstep hS => exact .loop S (hs.mono hρσ) (fun τ hτ => hstep τ (le_trans hρσ hτ)) hS
  | commit _ ih => exact .commit (ih hρσ)
  | reword _ hf ih => exact .reword (ih hρσ) fun τ hτ => hf τ (le_trans hρσ hτ)
  | choice S hps _ ih => exact .choice S hps fun p q hpq => ih p q hpq hρσ
  | next => exact .next
  | eof => exact .eof
  | satisfy htest => exact .satisfy fun τ hτ => htest τ (le_trans hρσ hτ)
  | pushBack hts => exact .pushBack (Value.Alike.mono_all hρσ hts)
  | position => exact .position
  | rule name => exact .rule name
  | put s => exact .put s
  | modify hf => exact .modify hf
  | restoring _ ih => exact .restoring (ih hρσ)

theorem seqRight (hp : Forgets ρ p p') (hq : Forgets ρ q q') : Forgets ρ (.seqRight p q) (.seqRight p' q') :=
  .bind Forgets hp (fun _ hσ _ _ _ => hq.mono hσ) fun _ _ _ h => h

/-- A fold compares positions, which are the same with and without a state. -/
theorem repeatFold (hp : Forgets ρ p q) {init init' : Value} (hinit : init.Alike ρ init')
    {f g : Value → Value → Act Value} (hf : ∀ σ, ρ ≤ σ → ∀ acc acc', acc.Alike σ acc' → ∀ a a', a.Alike σ a' →
      (f acc a).Alike Value.Alike σ (g acc' a')) : Forgets ρ (.repeatFold p init f) (.repeatFold q init' g) := by
  refine .loop Forgets hinit (fun σ hσ acc acc' hacc => ?_) fun _ _ _ h => h
  refine .orElse (.bind Forgets .position (fun τ hτ before before' hbefore => ?_) fun _ _ _ h => h) (.pure (.done hacc))
  have hρτ : ρ ≤ τ := le_trans hσ hτ
  refine Forgets.bind Forgets (hp.mono hρτ) (fun υ hυ a a' ha => ?_) fun _ _ _ h => h
  refine .map .position fun φ hφ after after' hafter => ?_
  have hρφ : ρ ≤ φ := le_trans hρτ (le_trans hυ hφ)
  have hacc' : acc.Alike φ acc' := hacc.mono (le_trans hτ (le_trans hυ hφ))
  rw [hafter.same (hbefore.mono (le_trans hυ hφ))]
  by_cases hsame : after'.same before'
  · rw [if_pos hsame, if_pos hsame]
    exact .done hacc'
  · rw [if_neg hsame, if_neg hsame]
    exact (hf φ hρφ acc acc' hacc' a a' (ha.mono hφ)).bind fun ψ _ b b' hb => .again hb

theorem many (hp : Forgets ρ p q) : Forgets ρ (.many p) (.many q) := by
  refine .map (hp.repeatFold (.array .constant .nil) fun σ _ acc acc' hacc a a' ha => ?_) fun σ _ acc acc' hacc => ?_
  · exact Value.Alike.array .constant (.cons ha hacc.items)
  · exact Act.Alike.array (List.rel_reverse hacc.items)

end Forgets

end Parser

/-! ## Side by side -/

/-- A callback does not read, and takes no identity back. -/
theorem Act.exec_grows {α : Type} (env : Env) (act : Act α) (w : World) :
    (act.exec env .none w).2.feed = w.feed ∧ w.made ≤ (act.exec env .none w).2.made := by
  induction act generalizing w with
  | pure a => exact ⟨rfl, Nat.le_refl _⟩
  | throw e => exact ⟨rfl, Nat.le_refl _⟩
  | note id act ih => exact ih { w with journal := .noted id :: w.journal }
  | width k ih => exact ih _ w
  | count mark k ih => exact ih _ (w.addCount mark)
  | fresh k ih =>
    obtain ⟨hfeed, hmade⟩ := ih (.made w.made) { w with made := w.made + 1 }
    exact ⟨hfeed, Nat.le_of_succ_le hmade⟩
  | node i k ih => exact ⟨rfl, Nat.le_refl _⟩
  | walk i k ih => exact ⟨rfl, Nat.le_refl _⟩

/-- Changing the state is a call of the function. -/
theorem Strict.eval_modify (env : Env) (f : Value → Act Value) (z : Context) :
    eval env (.modify f) z =
      Course.ofRun ((f z.state).exec env .none) >>= fun s => pure (.success { z with state := s } .absent) := by
  have hget : eval env .get z = pure (.success z z.state) := eval_eq _ z
  have hput : ∀ s, eval env (.put s) z = pure (.success { z with state := s } .absent) := fun s => eval_eq _ z
  rw [Parser.modify, eval_eq, Semantics.meaning]
  show eval env .get z >>= _ = _
  rw [hget, pure_bind]
  show Course.ofRun ((f z.state >>= fun s => Act.pure (.put s)).exec env .none) >>= (fun q => eval env q z) = _
  rw [Act.exec_bind, Course.ofRun_bind, bind_assoc]
  exact bind_congr hput

namespace Likeness

/-- Two runs on one input, up to a pairing of identities. Their states are unrelated. -/
def forgetting (env env' : Env) : Likeness where
  first := env
  second := env'
  Stage := Pairing
  preorder := inferInstance
  worlds ρ w w' := w.Paired ρ w'
  inputs := Remainder.Alike
  states _ _ := True
  values := Value.Alike
  inputs_mono hρσ h := h.mono hρσ
  values_mono hρσ h := h.mono hρσ

variable {env env' : Env} (hindent : env.settings.indent = env'.settings.indent)

/-- What reading comes to in both runs. -/
theorem next?_paired {ρ : Pairing} {s s' : Remainder} (hs : s.Alike ρ s') {w w' : World} (hw : w.Paired ρ w') :
    ∃ x x' w₁ w₁', Run.next? s w = (x.mapError .fault, w₁) ∧ Run.next? s' w' = (x'.mapError .fault, w₁') ∧
      w₁.Paired ρ w₁' ∧ AnswersAlike (Remainder.Taking (Value.Alike ρ) (Remainder.Alike ρ)) x x' := by
  obtain ⟨x, x', feed, hnext, hnext', hfixed, halike⟩ := hs.next? hw.tokens
  rw [hw.feed] at hnext'
  obtain ⟨journal, hrun⟩ := Run.next?_of hnext
  obtain ⟨journal', hrun'⟩ := Run.next?_of hnext'
  exact ⟨x, x', _, _, hrun, hrun', ⟨rfl, hfixed, hw.marks, hw.below⟩, halike⟩

theorem together_next? {ρ : Pairing} {s s' : Remainder} (hs : s.Alike ρ s') :
    (forgetting env env').Together ρ (fun σ => Remainder.Taking (Value.Alike σ) (Remainder.Alike σ))
      (Course.ofRun (Run.next? s)) (Course.ofRun (Run.next? s')) := by
  intro w w' hw
  obtain ⟨x, x', w₁, w₁', hnext, hnext', hpaired, halike⟩ := next?_paired hs hw
  exact ⟨ρ, le_rfl, x, x', w₁, w₁', Course.ofRun_eq_some.2 hnext, Course.ofRun_eq_some.2 hnext', hpaired, halike⟩

include hindent

theorem lawful_forgetting : (forgetting env env').Lawful where
  indent := hindent
  print _ _ h := ⟨h.feed, h.tokens, h.marks, h.below⟩
  push h hts := h.push hts
  toStep h := h.toStep
  unexpected h := h.unexpected
  next? h := (together_next? h).alongside

theorem lawful_forgetting_flip : (forgetting env env').flip.Lawful where
  indent := hindent.symm
  print _ _ h := ⟨h.feed, h.tokens, h.marks, h.below⟩
  push h hts := h.push hts.flip
  toStep h := h.toStep.flip
  unexpected h := h.unexpected.symm
  next? h := (together_next? h).alongside_flip.weaken fun _ _ _ _ htaking => htaking.flip

section Acts

variable {α β : Type} {R : Pairing → α → β → Prop} {act : Act α} {act' : Act β} {ρ : Pairing}

theorem together_acts (h : act.Alike R ρ act') :
    (forgetting env env').Together ρ R (Course.ofRun (act.exec env .none)) (Course.ofRun (act'.exec env' .none)) := by
  intro w w' hw
  obtain ⟨σ, hσ, x, x', w₁, w₁', hexec, hexec', hpaired, halike⟩ := h.exec hindent hw
  exact ⟨σ, hσ, x, x', w₁, w₁', Course.ofRun_eq_some.2 hexec, Course.ofRun_eq_some.2 hexec', hpaired, halike⟩

theorem acts_forgetting (h : act.Alike R ρ act') : (forgetting env env').Acts ρ R act act' :=
  (together_acts hindent h).alongside

theorem acts_forgetting_flip (h : act.Alike R ρ act') :
    (forgetting env env').flip.Acts ρ (fun σ b a => R σ a b) act' act :=
  (together_acts hindent h).alongside_flip

end Acts

omit hindent

/-- Changing the state leaves the worlds paired. -/
theorem paired_of_modify (env : Env) {ρ : Pairing} {w w' : World} (hw : w.Paired ρ w') {act : Act Value}
    (hact : act.AnswersUncounted) :
    ∃ s w₁, act.exec env .none w = (.ok s, w₁) ∧ w₁.Paired ρ w' := by
  obtain ⟨s, w₁, hexec, hmarks⟩ := hact env w
  obtain ⟨hfeed, hmade⟩ := act.exec_grows env w
  rw [hexec] at hfeed hmade
  refine ⟨s, w₁, hexec, hfeed.trans hw.feed, ?_, hmarks.trans hw.marks, fun m n hmn => ?_⟩
  · rw [show w₁.feed = w.feed from hfeed]
    exact hw.tokens
  · exact ⟨Nat.lt_of_lt_of_le (hw.below m n hmn).1 hmade, (hw.below m n hmn).2⟩

variable {n : Nat} {ρ : Pairing}

theorem together_modify {f : Value → Act Value} (hf : ∀ s, (f s).AnswersUncounted) {z z' : Context}
    (hz : (forgetting env env').Contexts ρ z z') :
    (forgetting env env').Together ρ (fun σ => Result.Alike ((forgetting env env').Contexts σ) (Value.Alike σ))
      (Strict.eval env (.modify f) z) (Strict.eval env' (.pure .absent) z') := by
  rw [Strict.eval_modify, Strict.eval_eq]
  intro w w' hw
  obtain ⟨s, w₁, hexec, hpaired⟩ := paired_of_modify env hw (hf z.state)
  refine ⟨ρ, le_rfl, _, _, w₁, w', Course.bind_of_ok (Course.ofRun_eq_some (a := .ok s).2 hexec), rfl, hpaired, .ok ?_⟩
  exact .plain (.success ⟨hz.input, trivial⟩ .absent)

theorem parsers_modify {f : Value → Act Value} (hf : ∀ s, (f s).AnswersUncounted) :
    (forgetting env env').Parsers n Value.Alike ρ (.modify f) (.pure .absent) :=
  fun _ _ z _ hz => .of_le (Strict.run_le_eval n _ z) (together_modify hf hz).alongside

theorem parsers_modify_flip {f : Value → Act Value} (hf : ∀ s, (f s).AnswersUncounted) :
    (forgetting env env').flip.Parsers n (forgetting env env').flip.values ρ (.pure .absent) (.modify f) := by
  intro σ _ z z' hz
  have hz' : (forgetting env env').Contexts σ z' z := ⟨hz.input, trivial⟩
  refine .of_le (Strict.run_le_eval n _ z) ((together_modify hf hz').alongside_flip.weaken fun τ _ r' r hr => ?_)
  exact hr.flip.imp (fun _ _ hz => ⟨hz.input, trivial⟩) fun _ _ h => h

/-! ### Terms -/

include hindent in
/-- **A term and what is left of it without its state run side by side,** whichever comes first. The induction is on the
fuel, for the rules of the grammar, and on the relation between the terms. -/
theorem parsers_forgetting {ρ₀ : Pairing} (hg : ∀ name, (env.grammar name).Forgets ρ₀ (env'.grammar name)) (hρ : ρ₀ ≤ ρ)
    {p q : Parser} (hpq : p.Forgets ρ q) :
    (forgetting env env').Parsers n Value.Alike ρ p q ∧
      (forgetting env env').flip.Parsers n (forgetting env env').flip.values ρ q p := by
  induction n using Nat.strong_induction_on generalizing p q ρ with
  | _ n ihn =>
    have hlawful := lawful_forgetting hindent
    have hflip := lawful_forgetting_flip hindent
    induction hpq with
    | pure hv => exact ⟨.pure fun _ hσ => hv.mono hσ, .pure fun _ hσ => hv.mono hσ⟩
    | fail message => exact ⟨.fail message, .fail message⟩
    | map _ hf ih =>
      obtain ⟨ih, ih'⟩ := ih hρ
      exact ⟨.map ih fun σ hσ a b hab => acts_forgetting hindent (hf σ hσ a b hab),
        .map ih' fun σ hσ a b hab => acts_forgetting_flip hindent (hf σ hσ b a hab)⟩
    | @bind ρ p q k l S _ hk hS ih ihS =>
      obtain ⟨ih, ih'⟩ := ih hρ
      refine ⟨.bind ih fun σ hσ a b hab => ?_, .bind ih' fun σ hσ a b hab => ?_⟩
      · refine (acts_forgetting hindent (hk σ hσ a b hab)).weaken fun τ hτ q q' hq => ?_
        exact (ihS τ q q' hq (le_trans hρ (le_trans hσ hτ))).1
      · refine (acts_forgetting_flip hindent (hk σ hσ b a hab)).weaken fun τ hτ q q' hq => ?_
        exact (ihS τ q' q hq (le_trans hρ (le_trans hσ hτ))).2
    | orElse _ _ ihp ihq => exact ⟨.orElse (ihp hρ).1 (ihq hρ).1, .orElse (ihp hρ).2 (ihq hρ).2⟩
    | @loop ρ s s' step step' S hs hstep hS ihS =>
      refine ⟨hlawful.loop hs fun σ hσ a b hab => ?_, hflip.loop hs fun σ hσ a b hab => ?_⟩
      · refine (acts_forgetting hindent (hstep σ hσ a b hab)).weaken fun τ hτ q q' hq => ?_
        exact (ihS τ q q' hq (le_trans hρ (le_trans hσ hτ))).1
      · refine (acts_forgetting_flip hindent (hstep σ hσ b a hab)).weaken fun τ hτ q q' hq => ?_
        exact (ihS τ q' q hq (le_trans hρ (le_trans hσ hτ))).2
    | commit _ ih => exact ⟨.commit (ih hρ).1, .commit (ih hρ).2⟩
    | reword _ hf ih =>
      obtain ⟨ih, ih'⟩ := ih hρ
      refine ⟨.reword ih fun σ hσ m => acts_forgetting hindent (hf σ hσ m), .reword ih' fun σ hσ m => ?_⟩
      exact (acts_forgetting_flip hindent (hf σ hσ m)).weaken fun _ _ _ _ h => h.symm
    | choice S hps hS ihS =>
      refine ⟨hlawful.choice (hps.imp fun a b hab => ⟨hab.1, (ihS _ _ hab.2 hρ).1⟩), hflip.choice ?_⟩
      exact (hps.imp fun a b hab => ⟨hab.1.symm, (ihS _ _ hab.2 hρ).2⟩).flip
    | next => exact ⟨hlawful.next, hflip.next⟩
    | eof => exact ⟨hlawful.eof fun _ _ => .absent, hflip.eof fun _ _ => .absent⟩
    | satisfy htest =>
      refine ⟨hlawful.satisfy fun σ hσ t t' ht => acts_forgetting hindent (htest σ hσ t t' ht),
        hflip.satisfy fun σ hσ t t' ht => ?_⟩
      exact (acts_forgetting_flip hindent (htest σ hσ t' t ht)).weaken fun _ _ _ _ h => h.symm
    | pushBack hts =>
      exact ⟨hlawful.pushBack hts fun _ _ => .absent, hflip.pushBack hts.flip fun _ _ => .absent⟩
    | position =>
      refine ⟨.position fun σ hσ s s' hs => ?_, .position fun σ hσ s s' hs => ?_⟩
      · rw [Remainder.Alike.consumed hs]
        exact .number _
      · rw [Remainder.Alike.consumed hs]
        exact .number _
    | rule name =>
      exact ⟨.rule name fun m hm => (ihn m hm le_rfl (hg name)).1.later hρ,
        .rule name fun m hm => (ihn m hm le_rfl (hg name)).2.later hρ⟩
    | put s =>
      exact ⟨.put_left (fun _ _ => trivial) s fun _ _ => .absent, .put_right (fun _ _ => trivial) s fun _ _ => .absent⟩
    | modify hf => exact ⟨parsers_modify hf, parsers_modify_flip hf⟩
    | restoring _ ih =>
      exact ⟨.restoring_left (fun _ _ => trivial) (ih hρ).1, .restoring_right (fun _ _ => trivial) (ih hρ).2⟩

end Likeness

/-! ## Terms that leave the state alone -/

namespace Parser

/-- Whether a parser has to do with the state. -/
def isStateful : Parser → Bool
  | .get | .put _ | .restoring _ => true
  | _ => false

/-- Nothing has to do with the state anywhere in the parser. -/
def StateFree (p : Parser) : Prop := p.Throughout fun q => q.isStateful = false

end Parser

/-- Every result reports this state. -/
def Course.Reports (s : Value) (x : Course Outcome) : Prop :=
  ∀ w r w', x w = some (.ok r, w') → r.verdict.rest.state = s

namespace Course.Reports

variable {s : Value} {x : Course Outcome}

theorem pure {r : Outcome} (h : r.verdict.rest.state = s) : Reports s (Pure.pure r) := by
  rintro w _ w' ⟨⟩
  exact h

theorem bind {f : Outcome → Course Outcome} (h : Reports s x) (hf : ∀ r, r.verdict.rest.state = s → Reports s (f r)) :
    Reports s (x >>= f) := by
  intro w r w' hr
  obtain ⟨r₁, w₁, hx, hr₁⟩ := Course.bind_eq_ok hr
  exact hf r₁ (h w r₁ w₁ hx) w₁ r w' hr₁

/-- Something that is done first. -/
theorem after {α : Type} {a : Course α} {f : α → Course Outcome} (h : ∀ v, Reports s (f v)) : Reports s (a >>= f) := by
  intro w r w' hr
  obtain ⟨v, w₁, -, hv⟩ := Course.bind_eq_ok hr
  exact h v w₁ r w' hv

/-- A callback that gives a parser. -/
theorem given {env : Env} {act : Act Parser} {P : Parser → Prop} (hact : Parser.Gives P act) {f : Parser → Course Outcome}
    (h : ∀ q, q.Throughout P → Reports s (f q)) : Reports s (Course.ofRun (act.exec env .none) >>= f) := by
  intro w r w' hr
  obtain ⟨q, w₁, hq, hr⟩ := Course.bind_eq_ok hr
  exact h q (hact.exec (Course.ofRun_eq_some.1 hq)) w₁ r w' hr

theorem sup {f : Nat → Course Outcome} (hf : Monotone f) (h : ∀ n, Reports s (f n)) : Reports s (Course.sup f) := by
  intro w r w' hr
  obtain ⟨n, hn⟩ := (Course.sup_eq_some hf).1 hr
  exact h n w r w' hn

end Course.Reports

namespace Strict

variable {env : Env}

section Layers

variable {ev : Parser → Context → Course Outcome} (hev : ∀ p z, p.StateFree → (ev p z).Reports z.state)

include hev

theorem reports_alternatives (z : Context) : ∀ (failures : List (String × String)) {ps : List (String × Parser)},
    Parser.Each (fun q => q.isStateful = false) ps →
      ((Semantics.mk (semantics env).exec ev).alternatives env z failures ps).Reports z.state
  | _, [], _ => .after fun _ => .pure rfl
  | failures, (label, p) :: rest, hps => by
    rw [Parser.Each] at hps
    refine (hev p z hps.1).bind fun r hr => ?_
    rcases r with ⟨_ | ⟨_, message⟩⟩ | _
    · exact .pure hr
    · exact .after fun _ => reports_alternatives z _ hps.2
    · exact .pure hr

theorem reports_loop {step : Value → Act Parser} (hstep : ∀ s, Parser.Gives (fun q => q.isStateful = false) (step s))
    (c : Bool) (s : Value) (z : Context) :
    ((Semantics.mk (semantics env).exec ev).loop step c s z).Reports z.state := by
  have hcommitIf : ∀ (b : Bool) (r : Outcome), (r.commitIf b).verdict = r.verdict := fun b r => by cases b <;> rfl
  refine .sup (Course.Turn.monotone_rounds c s z) fun k => ?_
  induction k generalizing c s z with
  | zero => rintro w r w' ⟨⟩
  | succ k ih =>
    rw [Course.Turn.rounds, Semantics.body, bind_assoc]
    refine .given (hstep s) fun q hq => (hev q z hq).bind fun r hr => ?_
    rw [Semantics.turn_after]
    cases hv : r.verdict with
    | failure z' message =>
      rw [hv] at hr
      exact .pure ((congrArg (fun v => v.rest.state) (hcommitIf _ _)).trans hr)
    | success z' v =>
      rw [hv] at hr
      dsimp only
      cases v.toStep with
      | done value => exact .pure ((congrArg (fun v => v.rest.state) (hcommitIf _ _)).trans hr)
      | again state =>
        have hnext := ih (c || r.isCommitted) state z'
        rwa [show z'.state = z.state from hr] at hnext

/-- One layer of a term. -/
theorem reports_meaning (hg : ∀ name, (env.grammar name).StateFree) {p : Parser} (hp : p.StateFree) (z : Context) :
    ((Semantics.mk (semantics env).exec ev).meaning env p z).Reports z.state := by
  cases p with
  | pure v => exact .pure rfl
  | fail message => exact .pure rfl
  | map p f =>
    refine (hev p z hp.2).bind fun r hr => ?_
    match r, hr with
    | .plain (.success z' a), hr => exact .after fun b => .pure hr
    | .committed (.success z' a), hr => exact .after fun b => .pure hr
    | .plain (.failure z' m), hr => exact .pure hr
    | .committed (.failure z' m), hr => exact .pure hr
  | bind p k =>
    refine (hev p z hp.2.1).bind fun r hr => ?_
    have hnext : ∀ z' a, z'.state = z.state →
        (Course.ofRun ((k a).exec env .none) >>= fun q => ev q z').Reports z.state := by
      intro z' a hz'
      refine .given (hp.2.2 a) fun q hq => ?_
      rw [← hz']
      exact hev q z' hq
    match r, hr with
    | .plain (.success z' a), hr => exact hnext z' a hr
    | .committed (.success z' a), hr => exact (hnext z' a hr).bind fun _ hr => .pure hr
    | .plain (.failure z' m), hr => exact .pure hr
    | .committed (.failure z' m), hr => exact .pure hr
  | orElse p q =>
    refine (hev p z hp.2.1).bind fun r hr => ?_
    match r, hr with
    | .plain (.failure _ _), _ => exact hev q z hp.2.2
    | .plain (.success _ _), hr => exact .pure hr
    | .committed _, hr => exact .pure hr
  | loop init step => exact reports_loop hev hp.2 false init z
  | commit p => exact (hev p z hp.2).bind fun _ hr => .pure hr
  | reword p f =>
    refine (hev p z hp.2).bind fun r hr => ?_
    match r, hr with
    | .plain (.success z' a), hr => exact .pure hr
    | .committed (.success z' a), hr => exact .pure hr
    | .plain (.failure z' m), hr => exact .after fun m => .pure hr
    | .committed (.failure z' m), hr => exact .after fun m => .pure hr
  | choice ps => exact reports_alternatives hev z [] hp.2
  | next =>
    refine .after fun answer => ?_
    match answer with
    | none => exact .pure rfl
    | some (t, rest) => exact .pure rfl
  | eof =>
    refine .after fun answer => ?_
    match answer with
    | none => exact .pure rfl
    | some (t, rest) => exact .pure rfl
  | satisfy test =>
    refine .after fun answer => ?_
    match answer with
    | none => exact .pure rfl
    | some (t, rest) =>
      refine .after fun b => ?_
      cases b with
      | true => exact .pure rfl
      | false => exact .after fun _ => .pure rfl
  | pushBack ts => exact .pure rfl
  | position => exact .pure rfl
  | get => cases hp
  | put s => cases hp
  | restoring p => cases hp.1
  | stream p => rintro w r w' ⟨⟩
  | rule name => exact hev (env.grammar name) z (hg name)

end Layers

/-- **A term without operations on the state leaves it as it is.** -/
theorem state_of_stateFree (hg : ∀ name, (env.grammar name).StateFree) {p : Parser} (hp : p.StateFree) {z : Context}
    {w w' : World} {r : Outcome} (hr : eval env p z w = some (.ok r, w')) : r.verdict.rest.state = z.state := by
  refine eval_induction (R := fun p z _ b => p.StateFree → ∀ r, b.1 = .ok r → r.verdict.rest.state = z.state) ?_ hr hp r rfl
  rintro ev hev p z w ⟨_, w'⟩ hb hp r rfl
  exact reports_meaning (fun p z hp w r w' hr => hev p z w _ hr hp r rfl) hg hp z w r w' hb

end Strict

/-! ## Parses -/

/-- Contexts of one feed with remainders that are the same up to a pairing: the same tokens are left, at the same place.
Nothing is said about their states. -/
structure Context.SamePlace (ρ : Pairing) (w w' : World) (z z' : Context) : Prop where
  feed : w.feed = w'.feed
  input : z.input.Alike ρ z'.input
  offset : z.input.offset = z'.input.offset
  consumed : z.input.consumed = z'.input.consumed
  tokens : ∀ us w₁, Ends (fun n => Run.drain n z.input []) w (.ok us) w₁ →
    ∃ us' w₁', Ends (fun n => Run.drain n z'.input []) w' (.ok us') w₁' ∧ List.Forall₂ (Value.Alike ρ) us us'

/-- Reading remainders that are alike to their end. -/
theorem Remainder.Alike.drain {ρ : Pairing} {n : Nat} {s s' : Remainder} (hs : s.Alike ρ s') {w w' : World}
    (hw : w.Paired ρ w') {done done' : List Value} (hdone : List.Forall₂ (Value.Alike ρ) done done') {us : List Value}
    {w₁ : World} (h : Run.drain n s done w = (.ok us, w₁)) :
    ∃ us' w₁', Run.drain n s' done' w' = (.ok us', w₁') ∧ List.Forall₂ (Value.Alike ρ) us us' := by
  induction n generalizing s s' w w' done done' with
  | zero => cases h
  | succ n ih =>
    obtain ⟨x, x', w₂, w₂', hnext, hnext', hw₂, halike⟩ := Likeness.next?_paired hs hw
    cases halike with
    | fault e =>
      change Run.bind (Run.next? s) _ w = _ at h
      unfold Run.bind at h
      rw [hnext] at h
      cases h
    | ok htaking =>
      cases htaking with
      | none =>
        rw [Run.drain_none hnext] at h
        cases h
        exact ⟨_, w₂', Run.drain_none hnext', List.rel_reverse hdone⟩
      | some ht hrest =>
        rw [Run.drain_some hnext] at h
        rw [Run.drain_some hnext']
        exact ih hrest hw₂ (.cons ht hdone) h

theorem Remainder.Alike.samePlace {ρ : Pairing} {z z' : Context} (h : z.input.Alike ρ z'.input) {w w' : World}
    (hw : w.Paired ρ w') : Context.SamePlace ρ w w' z z' where
  feed := hw.feed
  input := h
  offset := h.offset
  consumed := h.consumed
  tokens := by
    rintro us w₁ ⟨n, hn⟩
    obtain ⟨us', w₁', hn', hus⟩ := h.drain hw .nil hn
    exact ⟨us', w₁', ⟨n, hn'⟩, hus⟩

namespace Engine

/-- The engine of the same kind without a state. -/
def stateless (e : Engine) : Engine := ⟨e.onDemand, false⟩

/-- What a term without operations on the state leaves as it is. -/
theorem state_of_stateFree {e : Engine} {env : Env} (hg : ∀ name, (env.grammar name).StreamFree)
    (hgfree : ∀ name, (env.grammar name).StateFree) {p : Parser} (hp : p.StreamFree) (hfree : p.StateFree) {z : Context}
    {w w' : World} (hlists : w.lists = #[]) {v : Verdict Context Value}
    (h : Ends (fun n => e.parse env n p z) w (.ok v) w') : v.rest.state = z.state := by
  obtain ⟨r, lines, hr, rfl⟩ := eval_of_ends h
  rw [semantics_eval e hg hp z hlists] at hr
  exact Strict.state_of_stateFree hgfree hfree hr

/-- **A parse does not look at its state.** If a term only puts states, changes them by functions that answer and takes them
back when it fails, then it ends as the term without these operations does in the engine without a state, whatever the
states at first: in one fault, or with one tag and the same value or message up to the identities that were given out
meanwhile, at the same place in the same tokens. Wherever a term without any operation on states ends, the state is the one
from which it began. -/
theorem parse_stateless (e : Engine) {grammar grammar₀ : Grammar} (hg : ∀ name, (grammar name).StreamFree)
    (hg₀ : ∀ name, (grammar₀ name).StreamFree) (settings : Settings) {p p₀ : Parser} (hp : p.StreamFree)
    (hp₀ : p₀.StreamFree) {w : World} (hlists : w.lists = #[])
    (hgforgets : ∀ name, (grammar name).Forgets (.upTo w.made) (grammar₀ name)) (hforgets : p.Forgets (.upTo w.made) p₀)
    (hfeed : w.feed.Fixed (.upTo w.made)) {s : Remainder} (hs : s.Alike (.upTo w.made) s) (state state₀ : Value) :
    EndsAlike e e.stateless (e.env grammar settings) (e.stateless.env grammar₀ settings) p p₀ ⟨s, state⟩ ⟨s, state₀⟩ w w
      (fun w₁ w₁' v v' => ∃ ρ, .upTo w.made ≤ ρ ∧ v.Alike (Context.SamePlace ρ w₁ w₁') (Value.Alike ρ) v') ∧
    EndsAlike e.stateless e (e.stateless.env grammar₀ settings) (e.env grammar settings) p₀ p ⟨s, state₀⟩ ⟨s, state⟩ w w
      (fun w₁' w₁ v' v => ∃ ρ, .upTo w.made ≤ ρ ∧ v.Alike (Context.SamePlace ρ w₁ w₁') (Value.Alike ρ) v') ∧
    ((∀ name, (grammar name).StateFree) → p.StateFree → ∀ v w₁,
      Ends (fun n => e.parse (e.env grammar settings) n p ⟨s, state⟩) w (.ok v) w₁ → v.rest.state = state) := by
  have hw : w.Paired (.upTo w.made) w := by
    refine ⟨rfl, hfeed, rfl, ?_⟩
    rintro m _ ⟨rfl, hm⟩
    exact ⟨hm, hm⟩
  let L := Likeness.forgetting (e.env grammar settings) (e.stateless.env grammar₀ settings)
  have hz : L.Contexts (.upTo w.made) ⟨s, state⟩ ⟨s, state₀⟩ := ⟨hs, trivial⟩
  have hz' : L.flip.Contexts (.upTo w.made) ⟨s, state₀⟩ ⟨s, state⟩ := ⟨hs, trivial⟩
  have hindent : (e.env grammar settings).settings.indent = (e.stateless.env grammar₀ settings).settings.indent := rfl
  have hparsers : ∀ n, L.Parsers n Value.Alike (.upTo w.made) p p₀ ∧ L.flip.Parsers n L.flip.values (.upTo w.made) p₀ p :=
    fun n => Likeness.parsers_forgetting hindent hgforgets le_rfl hforgets
  refine ⟨?_, ?_, fun hgfree hfree v w₁ h => state_of_stateFree hg hgfree hp hfree hlists h⟩
  · have heval := Likeness.Parsers.eval (fun n => (hparsers n).1) hz
    have hlawful : L.Lawful := Likeness.lawful_forgetting hindent
    refine (hlawful.endsAlike hw heval hg hp hlists hg₀ hp₀ hlists e e.stateless).imp fun w₁ w₁' v v' hv => ?_
    obtain ⟨ρ, hρ, hpaired, halike⟩ := hv
    exact ⟨ρ, hρ, halike.imp (fun z z' hz => hz.input.samePlace hpaired) fun _ _ h => h⟩
  · have heval := Likeness.Parsers.eval (fun n => (hparsers n).2) hz'
    have hlawful : L.flip.Lawful := Likeness.lawful_forgetting_flip hindent
    refine (hlawful.endsAlike hw heval hg₀ hp₀ hlists hg hp hlists e.stateless e).imp fun w₁' w₁ v' v hv => ?_
    obtain ⟨ρ, hρ, hpaired, halike⟩ := hv
    exact ⟨ρ, hρ, halike.flip.imp (fun z z' hz => hz.input.samePlace hpaired) fun _ _ h => h⟩

/-- All tokens, with a new state before each of them. -/
def renewing : Parser := .many (.seqRight (.modify fun s => .array [s]) .next)

theorem streamFree_renewing : renewing.StreamFree := by
  simp [renewing, Parser.many, Parser.repeatFold, Parser.seqRight, Parser.modify, Parser.StreamFree, Parser.Throughout,
    Parser.Gives, Parser.isStream, Act.array]
  exact fun _ _ => rfl

theorem forgets_renewing {ρ : Pairing} : renewing.Forgets ρ (.many (.seqRight (.pure .absent) .next)) :=
  .many (.seqRight (.modify fun s _ w => ⟨.array (.made w.made) [s], _, rfl, rfl⟩) .next)

/-- A run with new states gives out more identities, and otherwise the same as one without. -/
theorem parse_stateless_renewing :
    (∃ rest id w', Ends (fun n => (lazy true).stateless.parse ((lazy true).stateless.env (fun _ => .fail "") {}) n
      (.many (.seqRight (.pure .absent) .next)) ⟨.ofList [.text "a"], .absent⟩) {}
      (.ok (.success rest (.array id [.text "a"]))) w' ∧ rest.input.offset = 1) ∧
    ∃ rest v w', Ends (fun n => (lazy true).parse ((lazy true).env (fun _ => .fail "") {}) n (.many .next)
      ⟨.ofList [.text "a"], .text "s"⟩) {} (.ok (.success rest v)) w' ∧ rest.state = .text "s" := by
  have hg : ∀ name, ((fun _ => .fail "" : Grammar) name).StreamFree := fun _ => rfl
  have hgforgets : ∀ name, ((fun _ => .fail "" : Grammar) name).Forgets (.upTo 0) (.fail "") := fun _ => .fail ""
  have hfeed : Feed.empty.Fixed (.upTo 0) := ⟨fun t ht => absurd ht (Array.not_mem_empty t), fun k t ht => by cases ht⟩
  have hs : (Remainder.ofList [.text "a"]).Alike (.upTo 0) (.ofList [.text "a"]) :=
    .tokens (.cons (.text "a") .nil) 0
  refine ⟨?_, ?_⟩
  · have hp₀ : (Parser.many (.seqRight (.pure .absent) .next)).StreamFree := by
      simp [Parser.many, Parser.repeatFold, Parser.seqRight, Parser.StreamFree, Parser.Throughout, Parser.Gives,
        Parser.isStream]
    have hends : Ends (fun n => (lazy true).parse ((lazy true).env (fun _ => .fail "") {}) n renewing
        ⟨.ofList [.text "a"], .absent⟩) {}
        (.ok (.success ⟨.tokens [] 1, .array (.made 0) [.absent]⟩ (.array (.made 2) [.text "a"]))) { made := 3 } := ⟨14, rfl⟩
    obtain ⟨x', w', hends', halike, -⟩ := (parse_stateless (lazy true) hg hg {} streamFree_renewing hp₀ rfl hgforgets
      forgets_renewing hfeed hs .absent .absent).1 _ _ hends
    cases halike with
    | ok hverdict =>
      obtain ⟨ρ, -, hverdict⟩ := hverdict
      cases hverdict with
      | success hplace hv =>
        cases hv with
        | array _ hitems =>
          obtain _ | ⟨hitem, ⟨⟩⟩ := hitems
          cases hitem
          exact ⟨_, _, w', hends', hplace.offset.symm⟩
  · have hp : (Parser.many .next).StreamFree := by
      simp [Parser.many, Parser.repeatFold, Parser.StreamFree, Parser.Throughout, Parser.Gives, Parser.isStream]
    have hfree : (Parser.many .next).StateFree := by
      simp [Parser.many, Parser.repeatFold, Parser.StateFree, Parser.Throughout, Parser.Gives, Parser.isStateful]
    have hends : Ends (fun n => (lazy true).parse ((lazy true).env (fun _ => .fail "") {}) n (.many .next)
        ⟨.ofList [.text "a"], .text "s"⟩) {}
        (.ok (.success ⟨.tokens [] 1, .text "s"⟩ (.array (.made 0) [.text "a"]))) { made := 1 } := ⟨14, rfl⟩
    have hstate := (parse_stateless (lazy true) hg hg {} hp hp rfl hgforgets (.many .next) hfeed hs (.text "s") .absent).2.2
      (fun _ => rfl) hfree _ _ hends
    exact ⟨_, _, _, hends, hstate⟩

end Engine

end CommittedChoice
