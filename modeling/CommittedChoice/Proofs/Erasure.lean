import CommittedChoice.Proofs.Engines

/-!
# Commitments only prune

A commitment takes alternatives away and does nothing else: a parse that succeeds also succeeds, with the same value and
the same rest, when every commitment is removed from its term.

- `Parser.erase`: the term without its commitments, those in parsers given by callbacks included;
- `Course.Prunes x y`: wherever `x` ends in a result that is no committed failure, `y` ends in the same result
  uncommitted. A committed failure is the only result that may end differently, and no term makes another result of it;
- `Strict.eval_prunes`: a term prunes what its erasure does, by induction on the fuel;
- `Engine.parse_erase`: so does a parse in each of the four engines.
-/

namespace CommittedChoice

open Run (Ends)
open Strict (Outcome)

namespace Parser

/-! ## Removing commitments -/

mutual

/-- The parser without its commitments. -/
def erase : Parser → Parser
  | .map p f => .map (erase p) f
  | .bind p k => .bind (erase p) fun v => eraseAct (k v)
  | .orElse p q => .orElse (erase p) (erase q)
  | .loop init step => .loop init fun s => eraseAct (step s)
  | .commit p => erase p
  | .reword p f => .reword (erase p) f
  | .choice ps => .choice (eraseEach ps)
  | .restoring p => .restoring (erase p)
  | .stream p => .stream (erase p)
  | p => p

/-- The callback, whose parser is given without its commitments. -/
def eraseAct : Act Parser → Act Parser
  | .pure p => .pure (erase p)
  | .throw e => .throw e
  | .note id act => .note id (eraseAct act)
  | .width k => .width fun w => eraseAct (k w)
  | .count mark k => .count mark fun c => eraseAct (k c)
  | .fresh k => .fresh fun id => eraseAct (k id)
  | .node n k => .node n fun x => eraseAct (k x)
  | .walk n k => .walk n fun xs e => eraseAct (k xs e)

/-- Labelled alternatives without their commitments. -/
def eraseEach : List (String × Parser) → List (String × Parser)
  | [] => []
  | (label, p) :: ps => (label, erase p) :: eraseEach ps

end

example (message : String) : erase (abort message) = .fail message := rfl

example (opening closing p : Parser) : erase (between opening closing p) =
    seqRight (headed "Missing opening bracket" opening.erase)
      (seqLeft p.erase (headed "Missing closing bracket" closing.erase)) := rfl

/-- Whether a parser is a commitment. -/
def isCommit : Parser → Bool
  | .commit _ => true
  | _ => false

variable {P Q : Parser → Prop}

mutual

/-- What holds throughout a term gives what holds throughout its erasure, if it does at every place of its own. -/
theorem Throughout.erase (h : ∀ p, p.isCommit = false → Q p → P (erase p)) :
    ∀ (p : Parser), p.Throughout Q → (p.erase).Throughout P
  | .map p f, hp => ⟨h (.map p f) rfl hp.1, Throughout.erase h p hp.2⟩
  | .bind p k, hp => ⟨h (.bind p k) rfl hp.1, Throughout.erase h p hp.2.1, fun v => Gives.erase h (k v) (hp.2.2 v)⟩
  | .orElse p q, hp => ⟨h (.orElse p q) rfl hp.1, Throughout.erase h p hp.2.1, Throughout.erase h q hp.2.2⟩
  | .loop init step, hp => ⟨h (.loop init step) rfl hp.1, fun v => Gives.erase h (step v) (hp.2 v)⟩
  | .commit p, hp => Throughout.erase h p hp.2
  | .reword p f, hp => ⟨h (.reword p f) rfl hp.1, Throughout.erase h p hp.2⟩
  | .choice ps, hp => ⟨h (.choice ps) rfl hp.1, Each.erase h ps hp.2⟩
  | .restoring p, hp => ⟨h (.restoring p) rfl hp.1, Throughout.erase h p hp.2⟩
  | .stream p, hp => ⟨h (.stream p) rfl hp.1, Throughout.erase h p hp.2⟩
  | .pure v, hp => h (.pure v) rfl hp
  | .fail message, hp => h (.fail message) rfl hp
  | .next, hp => h .next rfl hp
  | .eof, hp => h .eof rfl hp
  | .satisfy test, hp => h (.satisfy test) rfl hp
  | .pushBack ts, hp => h (.pushBack ts) rfl hp
  | .position, hp => h .position rfl hp
  | .get, hp => h .get rfl hp
  | .put state, hp => h (.put state) rfl hp
  | .rule name, hp => h (.rule name) rfl hp

theorem Gives.erase (h : ∀ p, p.isCommit = false → Q p → P (erase p)) :
    ∀ (act : Act Parser), Gives Q act → Gives P (eraseAct act)
  | .pure p, hact => Throughout.erase h p hact
  | .throw _, _ => trivial
  | .note _ act, hact => Gives.erase h act hact
  | .width k, hact => fun w => Gives.erase h (k w) (hact w)
  | .count _ k, hact => fun c => Gives.erase h (k c) (hact c)
  | .fresh k, hact => fun id => Gives.erase h (k id) (hact id)
  | .node _ k, hact => fun x => Gives.erase h (k x) (hact x)
  | .walk _ k, hact => fun xs e => Gives.erase h (k xs e) (hact xs e)

theorem Each.erase (h : ∀ p, p.isCommit = false → Q p → P (erase p)) :
    ∀ (ps : List (String × Parser)), Each Q ps → Each P (eraseEach ps)
  | [], _ => trivial
  | (_, p) :: ps, hps => ⟨Throughout.erase h p hps.1, Each.erase h ps hps.2⟩

end

/-- No list is made by an erased term. -/
theorem StreamFree.erase {p : Parser} (hp : p.StreamFree) : p.erase.StreamFree := by
  refine Throughout.erase (fun p hcommit hstream => ?_) p hp
  cases p with
  | commit p => cases hcommit
  | stream p => cases hstream
  | _ => rfl

/-- No commitment is left in an erased term. -/
theorem StreamFree.erase_commitFree {p : Parser} (hp : p.StreamFree) :
    p.erase.Throughout fun q => q.isCommit = false := by
  refine Throughout.erase (fun p hcommit _ => ?_) p hp
  cases p with
  | commit p => cases hcommit
  | _ => rfl

/-- The parser that an erased callback gives. -/
theorem exec_eraseAct (env : Env) (lists : Lists) (act : Act Parser) :
    (eraseAct act).exec env lists = erase <$> act.exec env lists := by
  rw [map_eq_pure_bind]
  induction act with
  | pure p => rfl
  | throw e => rfl
  | note id act ih => rw [eraseAct, Act.exec_note, Act.exec_note, ih, bind_assoc]
  | width k ih => exact ih _
  | count mark k ih => rw [eraseAct, Act.exec_count, Act.exec_count, bind_assoc]; exact bind_congr ih
  | fresh k ih => rw [eraseAct, Act.exec_fresh, Act.exec_fresh, bind_assoc]; exact bind_congr ih
  | node i k ih => rw [eraseAct, Act.exec_node, Act.exec_node, bind_assoc]; exact bind_congr ih
  | walk i k ih => rw [eraseAct, Act.exec_walk, Act.exec_walk, bind_assoc]; exact bind_congr fun x => ih x.1 x.2

end Parser

/-! ## Pruning -/

/-- Wherever `x` ends in a result that is no committed failure, `y` ends in that result uncommitted. -/
def Course.Prunes (x y : Course Outcome) : Prop :=
  ∀ w r w', x w = some (.ok r, w') → r.isFatal = false → y w = some (.ok r.uncommitted, w')

namespace Course.Prunes

variable {x y : Course Outcome}

theorem pure (r : Outcome) : Prunes (Pure.pure r) (Pure.pure r.uncommitted) := by
  rintro w r w' ⟨⟩ -
  rfl

/-- What a loop makes of its last turn. -/
theorem commitIf (v : Verdict Context Value) (b : Bool) :
    Prunes (Pure.pure ((Result.plain v).commitIf b)) (Pure.pure (.plain v)) := by
  cases b with
  | false => exact pure (.plain v)
  | true => exact pure (.committed v)

/-- Going on after a result. A committed failure must stay one. -/
theorem bind {f g : Outcome → Course Outcome} (h : Prunes x y) (hf : ∀ r, r.isFatal = false → Prunes (f r) (g r.uncommitted))
    (hfatal : ∀ z message w r w', f (.committed (.failure z message)) w = some (.ok r, w') → r.isFatal = true) :
    Prunes (x >>= f) (y >>= g) := by
  intro w r w' hr hnot
  obtain ⟨r₁, w₁, hx, hr₁⟩ := Course.bind_eq_ok hr
  have hnot₁ : r₁.isFatal = false := by
    match r₁ with
    | .plain (.success _ _) | .plain (.failure _ _) | .committed (.success _ _) => rfl
    | .committed (.failure z message) => rw [hfatal z message w₁ r w' hr₁] at hnot; cases hnot
  rw [Course.bind_of_ok (h w r₁ w₁ hx hnot₁)]
  exact hf r₁ hnot₁ w₁ r w' hr₁ hnot

/-- Something that both do first. -/
theorem after {α : Type} (a : Course α) {f g : α → Course Outcome} (h : ∀ v, Prunes (f v) (g v)) :
    Prunes (a >>= f) (a >>= g) := by
  intro w r w' hr hnot
  obtain ⟨v, w₁, ha, hv⟩ := Course.bind_eq_ok hr
  rw [Course.bind_of_ok ha]
  exact h v w₁ r w' hv hnot

/-- A commitment prunes what it is a commitment to. -/
theorem commit (h : Prunes x y) : Prunes (x >>= fun r => Pure.pure r.commit) y := by
  intro w r w' hr hnot
  obtain ⟨r₁, w₁, hx, hr₁⟩ := Course.bind_eq_ok hr
  cases hr₁
  refine h w r₁ w' hx ?_
  match r₁ with
  | .plain (.success _ _) | .plain (.failure _ _) | .committed (.success _ _) => rfl
  | .committed (.failure _ _) => cases hnot

theorem sup {f : Nat → Course Outcome} (hf : Monotone f) (h : ∀ n, Prunes (f n) y) : Prunes (Course.sup f) y := by
  intro w r w' hr hnot
  obtain ⟨n, hn⟩ := (Course.sup_eq_some hf).1 hr
  exact h n w r w' hn hnot

end Course.Prunes

namespace Strict

variable {env : Env}

variable (env) in
/-- The same with a grammar without commitments. -/
def erased : Env := { env with grammar := fun name => (env.grammar name).erase }

theorem exec_erased {α : Type} (act : Act α) : (semantics (erased env)).exec act = (semantics env).exec act := by
  have hsettings : (erased env).settings = env.settings := rfl
  exact congrArg Course.ofRun (act.exec_congr hsettings)

/-- The parser that an erased callback gives, and what it is used for. -/
theorem exec_eraseAct {α : Type} (act : Act Parser) (f : Parser → Course α) :
    (semantics (erased env)).exec (Parser.eraseAct act) >>= f = (semantics env).exec act >>= fun q => f q.erase := by
  rw [exec_erased]
  show Course.ofRun ((Parser.eraseAct act).exec env .none) >>= f = Course.ofRun (act.exec env .none) >>= _
  rw [Parser.exec_eraseAct, map_eq_pure_bind, Course.ofRun_bind, bind_assoc]
  rfl

section Layers

variable {ev : Parser → Context → Course Outcome} (hev : ∀ p z, (ev p z).Prunes (eval (erased env) p.erase z))

include hev

theorem alternatives_prunes (z : Context) : ∀ (failures : List (String × String)) (ps : List (String × Parser)),
    ((Semantics.mk (semantics env).exec ev).alternatives env z failures ps).Prunes
      ((semantics (erased env)).alternatives (erased env) z failures (Parser.eraseEach ps))
  | failures, [] => .after _ fun message => .pure (.failure z message)
  | failures, (label, p) :: rest => by
    refine (hev p z).bind (fun r hr => ?_) fun z message w r w' hr => by cases hr; rfl
    match r with
    | .plain (.failure z' message) => exact .after _ fun _ => alternatives_prunes z _ rest
    | .plain (.success z' v) => exact .pure (.success z' v)
    | .committed (.success z' v) => exact .pure (.committed (.success z' v))

/-- The flag of a loop counts only for a failure, and then the loop is not as it would be without it. -/
theorem loop_prunes (step : Value → Act Parser) (c : Bool) (s : Value) (z : Context) :
    ((Semantics.mk (semantics env).exec ev).loop step c s z).Prunes
      ((semantics (erased env)).loop (fun s => Parser.eraseAct (step s)) false s z) := by
  refine .sup (Course.Turn.monotone_rounds c s z) fun k => ?_
  induction k generalizing c s z with
  | zero => intro w r w' hr; cases hr
  | succ k ih =>
    rw [Semantics.loop, Course.Turn.loop_unfold, Course.Turn.rounds, Semantics.body, Semantics.body, bind_assoc, bind_assoc,
      exec_eraseAct]
    refine .after _ fun q => (hev q z).bind (fun r _ => ?_) fun z message w r w' hr => ?_
    · simp only [Semantics.turn_after, Result.verdict_uncommitted, Result.isCommitted_uncommitted, Bool.or_false]
      cases r.verdict with
      | failure z message => exact .commitIf (.failure z message) _
      | success z v =>
        dsimp only
        cases v.toStep with
        | done value => exact .commitIf (.success z value) _
        | again state => exact ih _ state z
    · have hturn : Semantics.turn.after (Semantics.turn.rounds ((Semantics.mk (semantics env).exec ev).body step) k) c
          (.committed (.failure z message)) = pure (.committed (.failure z message)) := by
        simp only [Semantics.turn_after, Result.verdict, Result.isCommitted, Bool.or_true]
        rfl
      rw [hturn] at hr
      cases hr
      rfl

/-- One layer of a term. -/
theorem meaning_prunes (p : Parser) (z : Context) :
    ((Semantics.mk (semantics env).exec ev).meaning env p z).Prunes
      ((semantics (erased env)).meaning (erased env) p.erase z) := by
  cases p with
  | map p f =>
    refine (hev p z).bind (fun r hr => ?_) fun z message w r w' hr => by cases hr; rfl
    simp only [exec_erased]
    match r with
    | .plain (.success z a) => exact .after _ fun b => .pure (.success z b)
    | .committed (.success z a) => exact .after _ fun b => .pure (.committed (.success z b))
    | .plain (.failure z m) => exact .pure (.failure z m)
  | bind p k =>
    refine (hev p z).bind (fun r hr => ?_) fun z message w r w' hr => by cases hr; rfl
    simp only [exec_eraseAct]
    match r with
    | .plain (.success z a) => exact .after _ fun q => hev q z
    | .committed (.success z a) => exact .commit (.after _ fun q => hev q z)
    | .plain (.failure z m) => exact .pure (.failure z m)
  | orElse p q =>
    refine (hev p z).bind (fun r hr => ?_) fun z message w r w' hr => by cases hr; rfl
    match r with
    | .plain (.failure z' m) => exact hev q z
    | .plain (.success z' v) => exact .pure (.success z' v)
    | .committed (.success z' v) => exact .pure (.committed (.success z' v))
  | loop init step => exact loop_prunes hev step false init z
  | commit p =>
    have hp := (hev p z).commit
    rw [eval_eq] at hp
    exact hp
  | reword p f =>
    refine (hev p z).bind (fun r hr => ?_) fun z message w r w' hr => ?_
    · simp only [exec_erased]
      match r with
      | .plain (.success z a) => exact .pure (.success z a)
      | .committed (.success z a) => exact .pure (.committed (.success z a))
      | .plain (.failure z m) => exact .after _ fun m => .pure (.failure z m)
    · obtain ⟨m, w₁, -, hr⟩ := Course.bind_eq_ok hr
      cases hr
      rfl
  | choice ps => exact alternatives_prunes hev z [] ps
  | restoring p =>
    refine (hev p z).bind (fun r hr => ?_) fun z message w r w' hr => by cases hr; rfl
    match r with
    | .plain (.success z' v) => exact .pure (.success z' v)
    | .committed (.success z' v) => exact .pure (.committed (.success z' v))
    | .plain (.failure z' m) => exact .pure (.failure { z' with state := z.state } m)
  | rule name => exact hev (env.grammar name) z
  | next =>
    refine .after _ fun answer => ?_
    match answer with
    | none => exact .pure (.failure z _)
    | some (t, rest) => exact .pure (.success _ t)
  | eof =>
    refine .after _ fun answer => ?_
    match answer with
    | none => exact .pure (.success z _)
    | some (t, rest) => exact .pure (.failure z _)
  | satisfy test =>
    refine .after _ fun answer => ?_
    match answer with
    | none => exact .pure (.failure z _)
    | some (t, rest) =>
      dsimp only
      rw [exec_erased]
      refine .after _ fun b => ?_
      cases b with
      | true => exact .pure (.success _ t)
      | false => exact .after _ fun m => .pure (.failure z m)
  | stream p => rintro w r w' ⟨⟩
  | fail message => exact .pure (.failure z message)
  | pure v => exact .pure (.success z v)
  | pushBack ts => exact .pure (.success _ _)
  | position => exact .pure (.success _ _)
  | get => exact .pure (.success _ _)
  | put state => exact .pure (.success _ _)

end Layers

/-- **A term prunes what its erasure does.** -/
theorem eval_prunes (p : Parser) (z : Context) : (eval env p z).Prunes (eval (erased env) p.erase z) := by
  intro w r w' hr
  refine eval_induction (R := fun p z w b => ∀ r, b.1 = .ok r → r.isFatal = false →
    eval (erased env) p.erase z w = some (.ok r.uncommitted, b.2)) ?_ hr r rfl
  rintro ev hev p z w ⟨x, w'⟩ hb r rfl hnot
  rw [eval_eq]
  exact meaning_prunes (fun p z w r w' hr => hev p z w _ hr r rfl) p z w r w' hb hnot

end Strict

namespace Engine

/-- **Commitments only prune.** Where a parse in any of the engines succeeds, so does the parse of the term without its
commitments, with the same value, the same rest and the same state. -/
theorem parse_erase (e : Engine) {grammar : Grammar} (hg : ∀ name, (grammar name).StreamFree) (settings : Settings)
    {p : Parser} (hp : p.StreamFree) (z : Context) {w w' : World} (hw : w.lists = #[]) {rest : Context} {v : Value}
    (h : Ends (fun n => e.parse (e.env grammar settings) n p z) w (.ok (.success rest v)) w') :
    Ends (fun n => e.parse (e.env (fun name => (grammar name).erase) settings) n p.erase z) w (.ok (.success rest v)) w' := by
  rw [ends_success_iff e hg hp z hw] at h
  rw [ends_success_iff e (fun name => (hg name).erase) hp.erase z hw]
  obtain ⟨r, hr, hv⟩ := h
  refine ⟨r.uncommitted, Strict.eval_prunes p z w r w' hr ?_, hv⟩
  match r with
  | .plain (.success _ _) | .plain (.failure _ _) | .committed (.success _ _) => rfl
  | .committed (.failure _ _) => cases hv

/-- A token in brackets is parsed on demand without its commitment as it is with it. -/
theorem parse_erase_between : Ends (fun n => (lazy true).parse ((lazy true).env (fun _ => Parser.erase .eof) {}) n
    (Parser.between .next .next .next).erase ⟨.ofList [.text "[", .text "a", .text "]"], .absent⟩) {}
    (.ok (.success ⟨.tokens [] 3, .absent⟩ (.text "a"))) {} := by
  have hp : (Parser.between .next .next .next).StreamFree := by
    simp [Parser.between, Parser.seqRight, Parser.seqLeft, Parser.headed, Parser.StreamFree, Parser.Throughout,
      Parser.Gives, Parser.isStream]
  have hends : Ends (fun n => (lazy true).parse ((lazy true).env (fun _ => .eof) {}) n (Parser.between .next .next .next)
      ⟨.ofList [.text "[", .text "a", .text "]"], .absent⟩) {} (.ok (.success ⟨.tokens [] 3, .absent⟩ (.text "a"))) {} :=
    ⟨20, rfl⟩
  have hg : ∀ name, ((fun _ => .eof : Grammar) name).StreamFree := fun _ => rfl
  exact parse_erase (lazy true) hg {} hp _ rfl hends

end Engine

end CommittedChoice
