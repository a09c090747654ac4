import CommittedChoice.Proofs.Likeness
import CommittedChoice.Proofs.Walking

/-!
# A parse depends on the tokens

Two inputs with the same tokens can be built in different ways: from a list, a text or a feed, with tokens that were read
and put back. A parser that asks for no position cannot tell them apart: it gives the same value or message and the same
state, it leaves the same tokens, and it has come the same way from where it began. Repetitions do ask for positions, but
they only compare two of the same run.

- `Parser.PositionFree`: a term in which only repetitions ask for positions;
- `Remainder.Moved`: remainders with the same tokens, as far from where two runs began;
- `Likeness.relocation`: runs on such remainders side by side;
- `Engine.parse_relocated`: parses on inputs with the same tokens are the same, in every engine.
-/

namespace CommittedChoice

open Run (Ends)
open Strict (Outcome)

/-- An answer that the callback gives in some world, without looking at lists. -/
def Act.CanAnswer {α : Type} (act : Act α) (a : α) : Prop := ∃ env w w', act.exec env .none w = (.ok a, w')

/-- Only repetitions ask for positions, in the term and in the parsers that its callbacks give. -/
inductive Parser.PositionFree : Parser → Prop
  | pure (v : Value) : PositionFree (.pure v)
  | fail (message : String) : PositionFree (.fail message)
  | map {p} (hp : PositionFree p) (f : Value → Act Value) : PositionFree (.map p f)
  | bind {p k} (hp : PositionFree p) (hk : ∀ v q, (k v).CanAnswer q → PositionFree q) : PositionFree (.bind p k)
  | orElse {p q} (hp : PositionFree p) (hq : PositionFree q) : PositionFree (.orElse p q)
  | loop (init : Value) {step} (hstep : ∀ s q, (step s).CanAnswer q → PositionFree q) : PositionFree (.loop init step)
  | commit {p} (hp : PositionFree p) : PositionFree (.commit p)
  | reword {p} (hp : PositionFree p) (f : String → Act String) : PositionFree (.reword p f)
  | choice {ps} (hps : ∀ a ∈ ps, PositionFree a.2) : PositionFree (.choice ps)
  | next : PositionFree .next
  | eof : PositionFree .eof
  | satisfy (test : Value → Act Bool) : PositionFree (.satisfy test)
  | pushBack (ts : List Value) : PositionFree (.pushBack ts)
  | get : PositionFree .get
  | put (s : Value) : PositionFree (.put s)
  | restoring {p} (hp : PositionFree p) : PositionFree (.restoring p)
  | rule (name : String) : PositionFree (.rule name)
  | repeatFold {p} (hp : PositionFree p) (init : Value) (f : Value → Value → Act Value) : PositionFree (.repeatFold p init f)
  | manyUntil {p terminator} (hp : PositionFree p) (ht : PositionFree terminator) : PositionFree (.manyUntil p terminator)

theorem Parser.PositionFree.many {p : Parser} (hp : PositionFree p) : PositionFree (.many p) :=
  .map (.repeatFold hp _ _) _

/-! ## The same tokens elsewhere -/

/-- Worlds in which callbacks do the same. -/
structure World.SameForCallbacks (w w' : World) : Prop where
  marks : w.marks = w'.marks
  made : w.made = w'.made

/-- What a callback does depends on what it has counted and made. -/
theorem Act.exec_same {α : Type} (env : Env) (act : Act α) {w w' : World} (h : w.SameForCallbacks w') :
    ∃ (x : Except Fault α) (w₁ w₁' : World), act.exec env .none w = (x.mapError .fault, w₁) ∧
      act.exec env .none w' = (x.mapError .fault, w₁') ∧ w₁.SameForCallbacks w₁' ∧
        w₁.feed = w.feed ∧ w₁'.feed = w'.feed := by
  induction act generalizing w w' with
  | pure a => exact ⟨.ok a, w, w', rfl, rfl, h, rfl, rfl⟩
  | throw e => exact ⟨.error e, w, w', rfl, rfl, h, rfl, rfl⟩
  | note id next ih =>
    have hnoted : World.SameForCallbacks { w with journal := .noted id :: w.journal }
        { w' with journal := .noted id :: w'.journal } := ⟨h.marks, h.made⟩
    exact ih hnoted
  | width k ih => exact ih _ h
  | count mark k ih =>
    have hcount : w.countOf mark = w'.countOf mark := by rw [World.countOf, World.countOf, h.marks]
    have hcounted : (w.addCount mark).SameForCallbacks (w'.addCount mark) := by
      refine ⟨?_, h.made⟩
      rw [World.addCount, World.addCount, hcount, h.marks]
    obtain ⟨x, w₁, w₁', hw, hw', hsame⟩ := ih (w.countOf mark) hcounted
    rw [hcount] at hw'
    exact ⟨x, w₁, w₁', hw, hw', hsame⟩
  | fresh k ih =>
    have hmade : World.SameForCallbacks { w with made := w.made + 1 } { w' with made := w'.made + 1 } :=
      ⟨h.marks, congrArg (· + 1) h.made⟩
    obtain ⟨x, w₁, w₁', hw, hw', hsame⟩ := ih (.made w.made) hmade
    rw [h.made] at hw'
    exact ⟨x, w₁, w₁', hw, hw', hsame⟩
  | node i k ih => exact ⟨.error _, w, w', rfl, rfl, h, rfl, rfl⟩
  | walk i k ih => exact ⟨.error _, w, w', rfl, rfl, h, rfl, rfl⟩

/-- Remainders of two feeds with the same tokens, which have come the same way from `a` and `a'`. -/
structure Remainder.Moved (a a' : Remainder) (ts ts' : List Value) (feed feed' : Feed) (s s' : Remainder) : Prop where
  fits : s.Fits ts feed
  fits' : s'.Fits ts' feed'
  left : s.left ts = s'.left ts'
  offset : s.offset - a.offset = s'.offset - a'.offset
  consumed : (s.consumed : Int) - a.consumed = s'.consumed - a'.consumed

namespace Remainder.Moved

variable {a a' s s' : Remainder} {ts ts' : List Value} {feed feed' : Feed}

theorem later (h : Moved a a' ts ts' feed feed' s s') {feed₁ feed₁' : Feed} (hl : feed.Later feed₁)
    (hl' : feed'.Later feed₁') : Moved a a' ts ts' feed₁ feed₁' s s' :=
  ⟨h.fits.later hl, h.fits'.later hl', h.left, h.offset, h.consumed⟩

theorem push (h : Moved a a' ts ts' feed feed' s s') (us : List Value) :
    Moved a a' ts ts' feed feed' (s.push us) (s'.push us) where
  fits := h.fits.push us
  fits' := h.fits'.push us
  left := by rw [left_push, left_push, h.left]
  offset := by
    have := h.offset
    rw [offset_push, offset_push]
    omega
  consumed := by
    rw [consumed_push, consumed_push]
    exact h.consumed

/-- Both have a token, which is the same one, or neither has. -/
theorem next? (h : Moved a a' ts ts' feed feed' s s') : ∃ feed₁ feed₁', feed.Later feed₁ ∧ feed'.Later feed₁' ∧
    (s.next? feed = (.ok none, feed₁) ∧ s'.next? feed' = (.ok none, feed₁') ∨
      ∃ t r r', s.next? feed = (.ok (some (t, r)), feed₁) ∧ s'.next? feed' = (.ok (some (t, r')), feed₁') ∧
        Moved a a' ts ts' feed₁ feed₁' r r') := by
  obtain ⟨feed₁, hl, hnext⟩ := h.fits.next?
  obtain ⟨feed₁', hl', hnext'⟩ := h.fits'.next?
  refine ⟨feed₁, feed₁', hl, hl', ?_⟩
  have hleft := h.left
  rcases hnext with ⟨hnone, hempty⟩ | ⟨t, r, hsome, htaken⟩
  · rcases hnext' with ⟨hnone', -⟩ | ⟨t', r', -, htaken'⟩
    · exact .inl ⟨hnone, hnone'⟩
    · rw [hempty, htaken'.left] at hleft
      cases hleft
  · rcases hnext' with ⟨-, hempty'⟩ | ⟨t', r', hsome', htaken'⟩
    · rw [hempty', htaken.left] at hleft
      cases hleft
    · rw [htaken.left, htaken'.left] at hleft
      obtain ⟨rfl, hrest⟩ := List.cons.inj hleft
      refine .inr ⟨t, r, r', hsome, hsome', htaken.fits, htaken'.fits, hrest, ?_, ?_⟩
      · rw [htaken.offset, htaken'.offset]
        have := h.offset
        omega
      · rw [htaken.consumed, htaken'.consumed]
        have := h.consumed
        omega

end Remainder.Moved

/-! ## Runs elsewhere -/

namespace Likeness

/-- Two runs of one engine on inputs with the same tokens. The stage is what the feeds have given. -/
def relocation (env : Env) (a a' : Remainder) (ts ts' : List Value) : Likeness where
  first := env
  second := env
  Stage := Feed × Feed
  preorder :=
    { le := fun i j => i.1.Later j.1 ∧ i.2.Later j.2
      le_refl := fun _ => ⟨.refl, .refl⟩
      le_trans := fun _ _ _ h₁ h₂ => ⟨h₁.1.trans h₂.1, h₁.2.trans h₂.2⟩ }
  worlds i w w' := w.SameForCallbacks w' ∧ w.feed = i.1 ∧ w'.feed = i.2
  inputs i s s' := Remainder.Moved a a' ts ts' i.1 i.2 s s'
  states := (· = ·)
  values _ := (· = ·)
  inputs_mono hij h := h.later hij.1 hij.2
  values_mono _ h := h

variable {env : Env} {a a' : Remainder} {ts ts' : List Value}

theorem lawful_relocation : (relocation env a a' ts ts').Lawful where
  indent := rfl
  print _ _ h := ⟨⟨h.1.marks, h.1.made⟩, h.2⟩
  push h hts := by
    obtain rfl : _ = _ := List.forall₂_eq_eq_eq ▸ hts
    exact h.push _
  toStep := by
    rintro _ v _ rfl
    cases v.toStep with
    | again s => exact .again rfl
    | done v => exact .done rfl
  unexpected := by
    rintro _ t _ rfl
    rfl
  next? := by
    intro i s s' hs
    refine Together.alongside ?_
    rintro w w' ⟨hsame, hfeed, hfeed'⟩
    obtain ⟨feed₁, feed₁', hl, hl', hnext⟩ := hs.next?
    rw [← hfeed, ← hfeed'] at hnext
    rcases hnext with ⟨hnone, hnone'⟩ | ⟨t, r, r', hsome, hsome', hmoved⟩
    · obtain ⟨journal, hrun⟩ := Run.next?_of hnone
      obtain ⟨journal', hrun'⟩ := Run.next?_of hnone'
      exact ⟨(feed₁, feed₁'), ⟨hl, hl'⟩, .ok none, .ok none, _, _, Course.ofRun_eq_some.2 hrun,
        Course.ofRun_eq_some.2 hrun', ⟨⟨hsame.marks, hsame.made⟩, rfl, rfl⟩, .ok .none⟩
    · obtain ⟨journal, hrun⟩ := Run.next?_of hsome
      obtain ⟨journal', hrun'⟩ := Run.next?_of hsome'
      exact ⟨(feed₁, feed₁'), ⟨hl, hl'⟩, .ok (some (t, r)), .ok (some (t, r')), _, _, Course.ofRun_eq_some.2 hrun,
        Course.ofRun_eq_some.2 hrun', ⟨⟨hsame.marks, hsame.made⟩, rfl, rfl⟩, .ok (.some rfl hmoved)⟩

/-- A callback does the same in both runs. -/
theorem acts_relocation {α : Type} {i : Feed × Feed} (act : Act α) :
    (relocation env a a' ts ts').Acts i (fun _ x y => x = y ∧ act.CanAnswer x) act act := by
  refine Together.alongside ?_
  rintro w w' ⟨hsame, hfeed, hfeed'⟩
  obtain ⟨x, w₁, w₁', hexec, hexec', hsame₁, hfeed₁, hfeed₁'⟩ := act.exec_same env hsame
  have hworlds : (relocation env a a' ts ts').worlds i w₁ w₁' :=
    ⟨hsame₁, hfeed₁.trans hfeed, hfeed₁'.trans hfeed'⟩
  refine ⟨i, le_rfl, x, x, w₁, w₁', Course.ofRun_eq_some.2 hexec, Course.ofRun_eq_some.2 hexec', hworlds, ?_⟩
  cases x with
  | ok x => exact .ok ⟨rfl, env, w, w₁, hexec⟩
  | error e => exact .fault e

/-- The values of a callback are the same in both runs. -/
theorem acts_relocation_eq {α : Type} {i : Feed × Feed} (act : Act α) :
    (relocation env a a' ts ts').Acts i (fun _ => (· = ·)) act act :=
  (acts_relocation act).weaken fun _ _ _ _ h => h.1

/-! ### Repetitions -/

/-- Positions that are as far from where the two runs began. -/
def Standing (a a' : Remainder) (v v' : Value) : Prop :=
  ∃ k k' : Nat, v = .nat k ∧ v' = .nat k' ∧ (k : Int) - a.consumed = k' - a'.consumed

/-- Comparing two such positions comes to the same in both runs. -/
theorem Standing.same {before before' after after' : Value} (hb : Standing a a' before before')
    (ha : Standing a a' after after') : after.same before = after'.same before' := by
  obtain ⟨k, k', rfl, rfl, hk⟩ := hb
  obtain ⟨l, l', rfl, rfl, hl⟩ := ha
  have hiff : l = k ↔ l' = k' := by omega
  rw [Value.same_nat, Value.same_nat, Bool.eq_iff_iff, beq_iff_eq, beq_iff_eq, hiff]

variable {n : Nat} {i : Feed × Feed} {p : Parser}

theorem parsers_position :
    (relocation env a a' ts ts').Parsers n (fun _ => Standing a a') i .position .position :=
  .position fun _ _ _ _ hs => ⟨_, _, rfl, rfl, hs.consumed⟩

/-- A turn of a fold compares two positions. -/
theorem parsers_foldTurn (hp : (relocation env a a' ts ts').Parsers n (fun _ => (· = ·)) i p p)
    (f : Value → Value → Act Value) (acc : Value) :
    (relocation env a a' ts ts').Parsers n (fun _ => (· = ·)) i (Engine.foldTurn p f acc) (Engine.foldTurn p f acc) := by
  refine .orElse (.bind parsers_position fun j hij before before' hbefore => .pure ?_) (.pure fun _ _ => rfl)
  refine .bind (hp.later hij) fun k _ v v' hv => .pure ?_
  subst hv
  refine .map parsers_position fun l _ after after' hafter => ?_
  rw [hbefore.same hafter]
  exact acts_relocation_eq _

/-- So does a turn of a repetition up to a terminator. -/
theorem parsers_untilTurn {terminator : Parser} (hp : (relocation env a a' ts ts').Parsers n (fun _ => (· = ·)) i p p)
    (ht : (relocation env a a' ts ts').Parsers n (fun _ => (· = ·)) i terminator terminator) (acc : Value) :
    (relocation env a a' ts ts').Parsers n (fun _ => (· = ·)) i (Engine.untilTurn p terminator acc)
      (Engine.untilTurn p terminator acc) := by
  refine lawful_relocation.choice (.cons ⟨rfl, ?_⟩ (.cons ⟨rfl, .map ht fun _ _ _ _ _ => acts_relocation_eq _⟩ .nil))
  refine .bind parsers_position fun j hij before before' hbefore => .pure ?_
  refine .bind (hp.later hij) fun k _ v v' hv => .pure ?_
  subst hv
  refine .bind parsers_position fun l _ after after' hafter => .pure ?_
  rw [hbefore.same hafter]
  by_cases hsame : after'.same before'
  · rw [if_pos hsame]
    exact .fail _
  · rw [if_neg hsame]
    exact .pure fun _ _ => rfl

/-! ### Terms -/

/-- **A term in which only repetitions ask for positions runs the same way elsewhere.** The induction is on the fuel, for the
rules of the grammar, and on the term. -/
theorem parsers_relocation (hg : ∀ name, (env.grammar name).PositionFree) (hp : p.PositionFree) :
    (relocation env a a' ts ts').Parsers n (fun _ => (· = ·)) i p p := by
  induction n using Nat.strong_induction_on generalizing p i with
  | _ n ihn =>
    have hactParser : ∀ {act : Act Parser} {j}, (∀ q, act.CanAnswer q → ∀ j,
        (relocation env a a' ts ts').Parsers n (fun _ => (· = ·)) j q q) →
        (relocation env a a' ts ts').Acts j ((relocation env a a' ts ts').Parsers n fun _ => (· = ·)) act act := by
      intro act j hact
      refine (acts_relocation act).weaken fun k _ q q' hq => ?_
      obtain ⟨rfl, hanswer⟩ := hq
      exact hact q hanswer k
    induction hp generalizing i with
    | pure v => exact .pure fun _ _ => rfl
    | fail message => exact .fail message
    | map hp f ih => exact .map ih fun _ _ _ _ hv => hv ▸ acts_relocation_eq _
    | bind hp hk ih ihk => exact .bind ih fun _ _ v _ hv => hv ▸ hactParser fun q hq _ => ihk v q hq
    | orElse hp hq ihp ihq => exact .orElse ihp ihq
    | loop init hstep ih => exact lawful_relocation.loop rfl fun _ _ s _ hs => hs ▸ hactParser fun q hq _ => ih s q hq
    | commit hp ih => exact .commit ih
    | reword hp f ih => exact .reword ih fun _ _ _ => acts_relocation_eq _
    | @choice ps hps ih =>
      refine lawful_relocation.choice (List.forall₂_same.2 fun x hx => ⟨rfl, ih x hx⟩)
    | next => exact lawful_relocation.next
    | eof => exact lawful_relocation.eof fun _ _ => rfl
    | satisfy test => exact lawful_relocation.satisfy fun _ _ _ _ ht => ht ▸ acts_relocation_eq _
    | pushBack us => exact lawful_relocation.pushBack (List.forall₂_same.2 fun _ _ => rfl) fun _ _ => rfl
    | get => exact .get fun _ _ _ _ hs => hs
    | put s => exact .put rfl fun _ _ => rfl
    | restoring hp ih => exact .restoring ih
    | rule name => exact .rule name fun m hm => ihn m hm (hg name)
    | repeatFold hp init f ih =>
      rw [Engine.repeatFold_eq]
      exact lawful_relocation.loop rfl fun _ _ s _ hs => hs ▸ Acts.pure (parsers_foldTurn ih f s)
    | manyUntil hp ht ihp iht =>
      rw [Engine.manyUntil_eq]
      exact lawful_relocation.loop rfl fun _ _ s _ hs => hs ▸ Acts.pure (parsers_untilTurn ihp iht s)

end Likeness

/-! ## Parses elsewhere -/

/-- Contexts with the same state and the same tokens, which have come the same way from `a` and `a'`. -/
structure Context.SameWay (a a' : Remainder) (w w' : World) (z z' : Context) : Prop where
  state : z.state = z'.state
  tokens : ∃ us, z.input.Finite w us ∧ z'.input.Finite w' us
  offset : z.input.offset - a.offset = z'.input.offset - a'.offset
  consumed : (z.input.consumed : Int) - a.consumed = z'.input.consumed - a'.consumed

theorem Remainder.Finite.push {s : Remainder} {w : World} {us : List Value} (h : s.Finite w us) (ts : List Value) :
    (s.push ts).Finite w (ts ++ us) := by
  obtain ⟨us', hfits, rfl⟩ := h.fits
  rw [← Remainder.left_push]
  exact (hfits.push ts).finite

theorem Remainder.finite_ofList (ts : List Value) (w : World) : (Remainder.ofList ts).Finite w ts := by
  have hfits : (Remainder.ofList ts).Fits [] w.feed := trivial
  exact hfits.finite

/-- A parser after tokens were put back is the parser on the remainder with these tokens. -/
theorem Strict.eval_seqRight_pushBack (env : Env) (ts : List Value) (p : Parser) (z : Context) :
    eval env (.seqRight (.pushBack ts) p) z = eval env p { z with input := z.input.push ts } := by
  have hpush : eval env (.pushBack ts) z = pure (.success { z with input := z.input.push ts } .absent) := eval_eq _ z
  rw [Parser.seqRight, eval_eq, Semantics.meaning]
  show eval env (.pushBack ts) z >>= _ = _
  rw [hpush, pure_bind]
  rfl

namespace Engine

variable {e : Engine} {env : Env}

/-- Parses by the results of one term on two inputs with the same tokens. -/
theorem endsAlike_of_finite (hg : ∀ name, (env.grammar name).StreamFree)
    (hgpos : ∀ name, (env.grammar name).PositionFree) {p : Parser} (hpos : p.PositionFree) {s s' : Remainder}
    {us : List Value} {w w' : World} (hs : s.Finite w us) (hs' : s'.Finite w' us) (hw : w.SameForCallbacks w')
    (hlists : w.lists = #[]) (hlists' : w'.lists = #[]) (state : Value) {q q' : Parser} {y y' : Context}
    (hq : q.StreamFree) (hq' : q'.StreamFree) (hy : Strict.eval env q y = Strict.eval env p ⟨s, state⟩)
    (hy' : Strict.eval env q' y' = Strict.eval env p ⟨s', state⟩) :
    EndsAlike e e env env q q' y y' w w' fun w₁ w₁' => Verdict.Alike (Context.SameWay s s' w₁ w₁') (· = ·) := by
  obtain ⟨ts, hfits, rfl⟩ := hs.fits
  obtain ⟨ts', hfits', hleft⟩ := hs'.fits
  let L := Likeness.relocation env s s' ts ts'
  have hz : L.Contexts (w.feed, w'.feed) ⟨s, state⟩ ⟨s', state⟩ := by
    refine ⟨⟨hfits, hfits', hleft, ?_, ?_⟩, rfl⟩
    · rw [Int.sub_self, Int.sub_self]
    · rw [Int.sub_self, Int.sub_self]
  have hworlds : L.worlds (w.feed, w'.feed) w w' := ⟨hw, rfl, rfl⟩
  have heval : L.Alongside (w.feed, w'.feed) (fun j => Result.Alike (L.Contexts j) (L.values j)) (Strict.eval L.first q y)
      (Strict.eval L.second q' y') := by
    rw [show Strict.eval L.first q y = _ from hy, show Strict.eval L.second q' y' = _ from hy']
    exact Likeness.Parsers.eval (fun n => Likeness.parsers_relocation hgpos hpos) hz
  have hlawful : L.Lawful := Likeness.lawful_relocation
  refine (hlawful.endsAlike hworlds heval hg hq hlists hg hq' hlists' e e).imp fun w₁ w₁' v v' hv => ?_
  obtain ⟨j, -, hworlds₁, halike⟩ := hv
  refine halike.imp (fun z z' hz => ?_) fun _ _ h => h
  have hmoved := hz.input
  have htokens : z.input.Finite w₁ (z.input.left ts) := by
    refine Remainder.Fits.finite ?_
    rw [hworlds₁.2.1]
    exact hmoved.fits
  have htokens' : z'.input.Finite w₁' (z'.input.left ts') := by
    refine Remainder.Fits.finite ?_
    rw [hworlds₁.2.2]
    exact hmoved.fits'
  exact ⟨hz.state, ⟨_, htokens, hmoved.left ▸ htokens'⟩, hmoved.offset, hmoved.consumed⟩

/-- **A parse depends on the tokens alone.** On two inputs with the same finite sequence of tokens, however they were built,
the parses of a term in which only repetitions ask for positions end alike: in one fault, or with one tag and the same value
or message, with the same state and the same tokens left, and as far from where they began. In particular, a parse after
tokens were put back is the parse of a fresh list of these tokens and those that were left. -/
theorem parse_relocated (e : Engine) {grammar : Grammar} (hg : ∀ name, (grammar name).StreamFree)
    (hgpos : ∀ name, (grammar name).PositionFree) (settings : Settings) {p : Parser} (hp : p.StreamFree)
    (hpos : p.PositionFree) (state : Value) {w w' : World} (hw : w.SameForCallbacks w') (hlists : w.lists = #[])
    (hlists' : w'.lists = #[]) :
    (∀ s s' us, s.Finite w us → s'.Finite w' us →
      EndsAlike e e (e.env grammar settings) (e.env grammar settings) p p ⟨s, state⟩ ⟨s', state⟩ w w'
        fun w₁ w₁' => Verdict.Alike (Context.SameWay s s' w₁ w₁') (· = ·)) ∧
    ∀ ts s us, s.Finite w us →
      EndsAlike e e (e.env grammar settings) (e.env grammar settings) (.seqRight (.pushBack ts) p) p ⟨s, state⟩
        ⟨.ofList (ts ++ us), state⟩ w w'
        (fun w₁ w₁' => Verdict.Alike (Context.SameWay (s.push ts) (.ofList (ts ++ us)) w₁ w₁') (· = ·)) ∧
      EndsAlike e e (e.env grammar settings) (e.env grammar settings) p (.seqRight (.pushBack ts) p)
        ⟨.ofList (ts ++ us), state⟩ ⟨s, state⟩ w' w
        fun w₁' w₁ => Verdict.Alike (Context.SameWay (.ofList (ts ++ us)) (s.push ts) w₁' w₁) (· = ·) := by
  have hw' : w'.SameForCallbacks w := ⟨hw.marks.symm, hw.made.symm⟩
  refine ⟨fun s s' us hs hs' => ?_, fun ts s us hs => ⟨?_, ?_⟩⟩
  · exact endsAlike_of_finite hg hgpos hpos hs hs' hw hlists hlists' state hp hp rfl rfl
  · have hpushed : (Parser.seqRight (.pushBack ts) p).StreamFree := ⟨rfl, rfl, fun _ => hp⟩
    exact endsAlike_of_finite hg hgpos hpos (hs.push ts) (Remainder.finite_ofList _ w') hw hlists hlists' state hpushed hp
      (Strict.eval_seqRight_pushBack _ ts p _) rfl
  · have hpushed : (Parser.seqRight (.pushBack ts) p).StreamFree := ⟨rfl, rfl, fun _ => hp⟩
    exact endsAlike_of_finite hg hgpos hpos (Remainder.finite_ofList _ w') (hs.push ts) hw' hlists' hlists state hp hpushed
      rfl (Strict.eval_seqRight_pushBack _ ts p _)

/-- A token that was read and put back, and the same token in a feed. -/
theorem parse_relocated_feed : ∃ rest w', Ends (fun n => (lazy true).parse ((lazy true).env (fun _ => .fail "") {}) n
    (.many .next) ⟨.ofFeed, .absent⟩) { feed := .ofTokens #[.text "a"] #[] [] }
    (.ok (.success rest (.array (.made 0) [.text "a"]))) w' ∧ rest.input.offset = 1 ∧ rest.input.consumed = 1 := by
  have hp : (Parser.many .next).StreamFree := by
    simp [Parser.many, Parser.repeatFold, Parser.StreamFree, Parser.Throughout, Parser.Gives, Parser.isStream]
  have hs : (Remainder.pushed (.text "a") [] (.tokens [] 1) 1).Finite {} [.text "a"] :=
    ⟨⟨trivial, Nat.le_refl 1⟩, _, 3, rfl⟩
  have hs' : Remainder.ofFeed.Finite { feed := .ofTokens #[.text "a"] #[] [] } [.text "a"] := ⟨Nat.zero_le _, _, 3, rfl⟩
  have hends : Ends (fun n => (lazy true).parse ((lazy true).env (fun _ => .fail "") {}) n (.many .next)
      ⟨.pushed (.text "a") [] (.tokens [] 1) 1, .absent⟩) {}
      (.ok (.success ⟨.shifted (.tokens [] 1) 1, .absent⟩ (.array (.made 0) [.text "a"]))) { made := 1 } := ⟨30, rfl⟩
  have hg : ∀ name, ((fun _ => .fail "" : Grammar) name).StreamFree := fun _ => rfl
  have hgpos : ∀ name, ((fun _ => .fail "" : Grammar) name).PositionFree := fun _ => .fail ""
  have hw : World.SameForCallbacks {} { feed := .ofTokens #[.text "a"] #[] [] } := ⟨rfl, rfl⟩
  obtain ⟨x', w', hends', halike, -⟩ :=
    (parse_relocated (lazy true) hg hgpos {} hp (.many .next) .absent hw rfl rfl).1 _ _ _ hs hs' _ _ hends
  cases halike with
  | ok hverdict =>
    cases hverdict with
    | @success _ rest _ _ hway hv =>
      subst hv
      refine ⟨rest, w', hends', ?_, ?_⟩
      · exact (hway.offset.trans (Int.sub_zero _)).symm
      · have hconsumed : (2 : Int) - 1 = rest.input.consumed - 0 := hway.consumed
        omega

end Engine

end CommittedChoice
