import CommittedChoice.Proofs.Engines
import Mathlib.Data.List.Forall2

/-!
# Two runs side by side

Two terms, or one term in two places, are run next to each other. What the runs read, produce and leave need not be the
same but only alike, and what is alike may depend on how far the runs have come.

- `Likeness`: the stages of two runs, and what is alike at a stage;
- `Likeness.Alongside`: wherever the first of two computations ends, the second one ends alike at that stage or a later one;
- `Likeness.Together`: both of them end, and alike, so that the order of the runs is no matter;
- `Likeness.Parsers n`: the same for two parsers in contexts that are alike, the first one with fuel `n`. There is one lemma
  for each way to build a parser (`Lawful.map`, `Lawful.bind`, ...), so that a relation between terms is taken to their runs
  by induction on the relation, with an induction on the fuel around it for the rules of the grammar;
- `Engine.EndsAlike`: wherever the first of two parses ends, the second one ends alike, and both show one tag.
-/

namespace CommittedChoice

open Run (Ends)
open Strict (Outcome)

variable {α β γ δ ζ ζ' : Type}

/-- Answers that are alike, or one fault. -/
inductive AnswersAlike (R : α → β → Prop) : Except Fault α → Except Fault β → Prop
  | ok {a b} (h : R a b) : AnswersAlike R (.ok a) (.ok b)
  | fault (e : Fault) : AnswersAlike R (.error e) (.error e)

theorem AnswersAlike.imp {R S : α → β → Prop} (h : ∀ a b, R a b → S a b) {x : Except Fault α} {y : Except Fault β}
    (hxy : AnswersAlike R x y) : AnswersAlike S x y := by
  cases hxy with
  | ok hab => exact .ok (h _ _ hab)
  | fault e => exact .fault e

theorem AnswersAlike.flip {R : α → β → Prop} {x : Except Fault α} {y : Except Fault β} (h : AnswersAlike R x y) :
    AnswersAlike (fun b a => R a b) y x := by
  cases h with
  | ok h => exact .ok h
  | fault e => exact .fault e

/-- Two successes with values that are alike, or two failures with one message. -/
inductive Verdict.Alike (C : ζ → ζ' → Prop) (V : α → β → Prop) : Verdict ζ α → Verdict ζ' β → Prop
  | success {z z' v v'} (hz : C z z') (hv : V v v') : Alike C V (.success z v) (.success z' v')
  | failure {z z'} (hz : C z z') (message : String) : Alike C V (.failure z message) (.failure z' message)

theorem Verdict.Alike.imp {C C' : ζ → ζ' → Prop} {V V' : α → β → Prop} (hC : ∀ z z', C z z' → C' z z')
    (hV : ∀ v v', V v v' → V' v v') {v : Verdict ζ α} {v' : Verdict ζ' β} (h : v.Alike C V v') : v.Alike C' V' v' := by
  cases h with
  | success hz hv => exact .success (hC _ _ hz) (hV _ _ hv)
  | failure hz message => exact .failure (hC _ _ hz) message

theorem Verdict.Alike.flip {C : ζ → ζ' → Prop} {V : α → β → Prop} {v : Verdict ζ α} {v' : Verdict ζ' β}
    (h : v.Alike C V v') : v'.Alike (fun z' z => C z z') (fun a' a => V a a') v := by
  cases h with
  | success hz hv => exact .success hz hv
  | failure hz message => exact .failure (C := fun z' z => C z z') hz message

/-- Verdicts that are alike, both plain or both committed. -/
inductive Result.Alike (C : ζ → ζ' → Prop) (V : α → β → Prop) : Result ζ α → Result ζ' β → Prop
  | plain {v v'} (h : v.Alike C V v') : Alike C V (.plain v) (.plain v')
  | committed {v v'} (h : v.Alike C V v') : Alike C V (.committed v) (.committed v')

namespace Result.Alike

variable {C : ζ → ζ' → Prop} {V : α → β → Prop} {r : Result ζ α} {r' : Result ζ' β}

theorem verdict (h : r.Alike C V r') : r.verdict.Alike C V r'.verdict := by cases h <;> assumption

theorem imp {C' : ζ → ζ' → Prop} {V' : α → β → Prop} (hC : ∀ z z', C z z' → C' z z') (hV : ∀ v v', V v v' → V' v v')
    (h : r.Alike C V r') : r.Alike C' V' r' := by
  cases h with
  | plain h => exact .plain (h.imp hC hV)
  | committed h => exact .committed (h.imp hC hV)

theorem flip (h : r.Alike C V r') : r'.Alike (fun z' z => C z z') (fun a' a => V a a') r := by
  cases h with
  | plain h => exact .plain h.flip
  | committed h => exact .committed h.flip

theorem isCommitted (h : r.Alike C V r') : r'.isCommitted = r.isCommitted := by cases h <;> rfl

theorem tag (h : r.Alike C V r') : r'.tag = r.tag := by
  cases h with
  | plain h => cases h <;> rfl
  | committed h => rfl

theorem commit (h : r.Alike C V r') : r.commit.Alike C V r'.commit := .committed h.verdict

theorem commitIf (h : r.Alike C V r') (b : Bool) : (r.commitIf b).Alike C V (r'.commitIf b) := by
  cases b with
  | false => exact h
  | true => exact h.commit

end Result.Alike

/-- Two turns that go round again, or two that stop, with states or values that are alike. -/
inductive Step.Alike (R : α → β → Prop) : Step α → Step β → Prop
  | again {s s'} (h : R s s') : Alike R (.again s) (.again s')
  | done {v v'} (h : R v v') : Alike R (.done v) (.done v')

theorem Step.Alike.flip {R : α → β → Prop} {s : Step α} {t : Step β} (h : s.Alike R t) :
    t.Alike (fun b a => R a b) s := by
  cases h with
  | again h => exact .again h
  | done h => exact .done h

/-- A token and what is left after it, or the end of the input. -/
inductive Remainder.Taking (V : Value → Value → Prop) (I : Remainder → Remainder → Prop) :
    Option (Value × Remainder) → Option (Value × Remainder) → Prop
  | none : Taking V I .none .none
  | some {t t' s s'} (ht : V t t') (hs : I s s') : Taking V I (.some (t, s)) (.some (t', s'))

theorem Remainder.Taking.flip {V : Value → Value → Prop} {I : Remainder → Remainder → Prop}
    {x y : Option (Value × Remainder)} (h : Taking V I x y) : Taking (fun v v' => V v' v) (fun s s' => I s' s) y x := by
  cases h with
  | none => exact .none
  | some ht hs => exact .some ht hs

/-! ## What is alike -/

/-- The stages of two runs, and what is alike at a stage. Remainders and values that were alike stay so. -/
structure Likeness where
  /-- What the first run knows. -/
  first : Env
  /-- What the second run knows. -/
  second : Env
  Stage : Type
  preorder : Preorder Stage
  worlds : Stage → World → World → Prop
  inputs : Stage → Remainder → Remainder → Prop
  states : Value → Value → Prop
  values : Stage → Value → Value → Prop
  inputs_mono : ∀ {i j s s'}, i ≤ j → inputs i s s' → inputs j s s'
  values_mono : ∀ {i j v v'}, i ≤ j → values i v v' → values j v v'

attribute [instance] Likeness.preorder

namespace Likeness

variable (L : Likeness)

/-- The same two runs in the other order. -/
def flip : Likeness where
  first := L.second
  second := L.first
  Stage := L.Stage
  preorder := L.preorder
  worlds i w w' := L.worlds i w' w
  inputs i s s' := L.inputs i s' s
  states s s' := L.states s' s
  values i v v' := L.values i v' v
  inputs_mono := L.inputs_mono
  values_mono := L.values_mono

/-- Contexts that are alike. -/
structure Contexts (i : L.Stage) (z z' : Context) : Prop where
  input : L.inputs i z.input z'.input
  state : L.states z.state z'.state

variable {L} in
theorem Contexts.mono {i j : L.Stage} (hij : i ≤ j) {z z' : Context} (h : L.Contexts i z z') : L.Contexts j z z' :=
  ⟨L.inputs_mono hij h.input, h.state⟩

/-- Wherever `x` ends, `y` ends alike, at the stage `i` or a later one. -/
def Alongside (i : L.Stage) (R : L.Stage → α → β → Prop) (x : Course α) (y : Course β) : Prop :=
  ∀ w w', L.worlds i w w' → ∀ a w₁, x w = some (a, w₁) →
    ∃ j, i ≤ j ∧ ∃ b w₁', y w' = some (b, w₁') ∧ L.worlds j w₁ w₁' ∧ AnswersAlike (R j) a b

/-- The same for what two callbacks do. -/
def Acts (i : L.Stage) (R : L.Stage → α → β → Prop) (act : Act α) (act' : Act β) : Prop :=
  L.Alongside i R (Course.ofRun (act.exec L.first .none)) (Course.ofRun (act'.exec L.second .none))

/-- The same for two parsers from a stage on, the first one with fuel `n`, in contexts that are alike. -/
def Parsers (n : Nat) (V : L.Stage → Value → Value → Prop) (i : L.Stage) (p q : Parser) : Prop :=
  ∀ j, i ≤ j → ∀ z z', L.Contexts j z z' →
    L.Alongside j (fun k => Result.Alike (L.Contexts k) (V k)) (Course.ofRun (Strict.run L.first n p z))
      (Strict.eval L.second q z')

/-! ### Going on -/

namespace Alongside

variable {L} {i : L.Stage} {R : L.Stage → α → β → Prop} {S : L.Stage → γ → δ → Prop} {x : Course α} {y : Course β}

theorem never : L.Alongside i R Course.never y := fun _ _ _ _ _ h => by cases h

theorem pure {a : α} {b : β} (h : R i a b) : L.Alongside i R (Pure.pure a) (Pure.pure b) := by
  rintro w w' hw _ _ ⟨⟩
  exact ⟨i, le_rfl, _, w', rfl, hw, .ok h⟩

theorem fault (e : Fault) : L.Alongside i R (Course.fault e) (Course.fault e) := by
  rintro w w' hw _ _ ⟨⟩
  exact ⟨i, le_rfl, _, w', rfl, hw, .fault e⟩

theorem bind {f : α → Course γ} {g : β → Course δ} (h : L.Alongside i R x y)
    (hf : ∀ j, i ≤ j → ∀ a b, R j a b → L.Alongside j S (f a) (g b)) : L.Alongside i S (x >>= f) (y >>= g) := by
  intro w w' hw c w₁ hc
  rcases Course.bind_eq_some hc with ⟨a, w₂, hx, hfa⟩ | ⟨e, w₂, hx, hce⟩
  · obtain ⟨j, hij, _, w₂', hy, hw₂, hab⟩ := h w w' hw _ _ hx
    cases hab with
    | ok hab =>
      obtain ⟨k, hjk, d, w₁', hg, hw₁, hcd⟩ := hf j hij a _ hab w₂ w₂' hw₂ _ _ hfa
      exact ⟨k, le_trans hij hjk, d, w₁', (Course.bind_of_ok hy).trans hg, hw₁, hcd⟩
  · obtain ⟨j, hij, _, w₂', hy, hw₂, he⟩ := h w w' hw _ _ hx
    cases hce
    cases he
    exact ⟨j, hij, _, w₂', Course.bind_of_error hy, hw₂, .fault e⟩

theorem weaken {S : L.Stage → α → β → Prop} (h : L.Alongside i R x y) (hR : ∀ j, i ≤ j → ∀ a b, R j a b → S j a b) :
    L.Alongside i S x y := by
  intro w w' hw a w₁ ha
  obtain ⟨j, hij, b, w₁', hy, hw₁, hab⟩ := h w w' hw a w₁ ha
  exact ⟨j, hij, b, w₁', hy, hw₁, hab.imp (hR j hij)⟩

/-- Something that the first run does to its answer alone. -/
theorem map_left {S : L.Stage → γ → β → Prop} {f : α → γ} (h : L.Alongside i R x y)
    (hf : ∀ j, i ≤ j → ∀ a b, R j a b → S j (f a) b) : L.Alongside i S (x >>= fun a => Pure.pure (f a)) y := by
  rw [← bind_pure y]
  exact h.bind fun j hij a b hab => .pure (hf j hij a b hab)

/-- Something that the second run does to its answer alone. -/
theorem map_right {S : L.Stage → α → δ → Prop} {g : β → δ} (h : L.Alongside i R x y)
    (hg : ∀ j, i ≤ j → ∀ a b, R j a b → S j a (g b)) : L.Alongside i S x (y >>= fun b => Pure.pure (g b)) := by
  rw [← bind_pure x]
  exact h.bind fun j hij a b hab => .pure (hg j hij a b hab)

theorem of_le {x' : Course α} (hx : x' ≤ x) (h : L.Alongside i R x y) : L.Alongside i R x' y :=
  fun w w' hw a w₁ ha => h w w' hw a w₁ (hx w _ ha)

theorem sup {f : Nat → Course α} (hf : Monotone f) (h : ∀ n, L.Alongside i R (f n) y) :
    L.Alongside i R (Course.sup f) y := by
  intro w w' hw a w₁ ha
  obtain ⟨n, hn⟩ := (Course.sup_eq_some hf).1 ha
  exact h n w w' hw a w₁ hn

end Alongside

/-- From worlds that are alike both `x` and `y` end, and alike, at the stage `i` or a later one. -/
def Together (i : L.Stage) (R : L.Stage → α → β → Prop) (x : Course α) (y : Course β) : Prop :=
  ∀ w w', L.worlds i w w' → ∃ j, i ≤ j ∧ ∃ a b w₁ w₁', x w = some (a, w₁) ∧ y w' = some (b, w₁') ∧
    L.worlds j w₁ w₁' ∧ AnswersAlike (R j) a b

namespace Together

variable {L} {i : L.Stage} {R : L.Stage → α → β → Prop} {x : Course α} {y : Course β}

theorem alongside (h : L.Together i R x y) : L.Alongside i R x y := by
  intro w w' hw a w₁ ha
  obtain ⟨j, hij, _, b, _, w₁', hx, hy, hw₁, hab⟩ := h w w' hw
  cases ha.symm.trans hx
  exact ⟨j, hij, b, w₁', hy, hw₁, hab⟩

/-- So the order of the runs is no matter. -/
theorem alongside_flip (h : L.Together i R x y) : L.flip.Alongside i (fun j b a => R j a b) y x := by
  intro w' w hw b w₁' hb
  obtain ⟨j, hij, a, _, w₁, _, hx, hy, hw₁, hab⟩ := h w w' hw
  cases hb.symm.trans hy
  exact ⟨j, hij, a, w₁, hx, hw₁, hab.flip⟩

end Together

/-! ### What the runs do besides running parsers -/

/-- What reading, printing and the wording of failures keep alike. -/
structure Lawful : Prop where
  indent : L.first.settings.indent = L.second.settings.indent
  print : ∀ {i w w'} (lines lines' : List Line), L.worlds i w w' →
    L.worlds i { w with console := lines } { w' with console := lines' }
  next? : ∀ {i s s'}, L.inputs i s s' →
    L.Alongside i (fun j => Remainder.Taking (L.values j) (L.inputs j)) (Course.ofRun (Run.next? s))
      (Course.ofRun (Run.next? s'))
  push : ∀ {i s s' ts ts'}, L.inputs i s s' → List.Forall₂ (L.values i) ts ts' → L.inputs i (s.push ts) (s'.push ts')
  toStep : ∀ {i v v'}, L.values i v v' → Step.Alike (L.values i) v.toStep v'.toStep
  unexpected : ∀ {i t t'}, L.values i t t' → Message.unexpected t = Message.unexpected t'

variable {L} {n m : Nat} {i : L.Stage} {U V : L.Stage → Value → Value → Prop} {p p' q q' : Parser}

theorem values_mono_all {j : L.Stage} (hij : i ≤ j) {vs vs' : List Value} (h : List.Forall₂ (L.values i) vs vs') :
    List.Forall₂ (L.values j) vs vs' := h.imp fun _ _ => L.values_mono hij

theorem Alongside.ofExcept {R : L.Stage → α → α → Prop} (x : Except Fault α) (hR : ∀ a, R i a a) :
    L.Alongside i R (Course.ofRun (Run.ofExcept x)) (Course.ofRun (Run.ofExcept x)) := by
  cases x with
  | ok a => exact .pure (hR a)
  | error e => exact .fault e

theorem Acts.pure {R : L.Stage → α → β → Prop} {a : α} {b : β} (h : R i a b) : L.Acts i R (.pure a) (.pure b) :=
  Alongside.pure h

namespace Parsers

/-- With less fuel, the first parser ends nowhere else. -/
theorem of_le (hmn : m ≤ n) (h : L.Parsers n V i p q) : L.Parsers m V i p q := fun j hij z z' hz =>
  (h j hij z z' hz).of_le ((Strict.related_le L.first).run hmn p z).ofRun

theorem later {j : L.Stage} (hij : i ≤ j) (h : L.Parsers n V i p q) : L.Parsers n V j p q :=
  fun k hjk => h k (le_trans hij hjk)

/-- What two parsers mean, for parts that have less fuel. -/
theorem of_meaning (h : ∀ m, m < n → ∀ j, i ≤ j → ∀ z z', L.Contexts j z z' →
    L.Alongside j (fun k => Result.Alike (L.Contexts k) (V k)) ((Strict.upTo L.first m).meaning L.first p z)
      ((Strict.semantics L.second).meaning L.second q z')) : L.Parsers n V i p q := by
  intro j hij z z' hz
  cases n with
  | zero => exact .never
  | succ n =>
    rw [Strict.eval_eq]
    exact (h n (Nat.lt_succ_self n) j hij z z' hz).of_le (Strict.run_succ_le n p z)

/-- With any fuel, and so without regard to fuel. -/
theorem eval (h : ∀ n, L.Parsers n V i p q) {z z' : Context} (hz : L.Contexts i z z') :
    L.Alongside i (fun k => Result.Alike (L.Contexts k) (V k)) (Strict.eval L.first p z) (Strict.eval L.second q z') :=
  .sup (Strict.steady_run L.first p z).monotone fun n => h n i le_rfl z z' hz

section Unrelated

variable (hstates : ∀ s s', L.states s s')

include hstates

/-- If states are unrelated, restoring one changes nothing. -/
theorem restoring_left (hp : L.Parsers n V i p q) : L.Parsers n V i (.restoring p) q := by
  refine .of_meaning fun m hm j hij z z' hz => ?_
  rw [← Strict.eval_eq]
  refine (hp.of_le hm.le j hij z z' hz).map_left fun k _ r r' hr => ?_
  match hr with
  | .plain (.success hrest hv) => exact .plain (.success hrest hv)
  | .committed (.success hrest hv) => exact .committed (.success hrest hv)
  | .plain (.failure hrest message) => exact .plain (.failure ⟨hrest.input, hstates _ _⟩ message)
  | .committed (.failure hrest message) => exact .committed (.failure ⟨hrest.input, hstates _ _⟩ message)

theorem restoring_right (hp : L.Parsers n V i p q) : L.Parsers n V i p (.restoring q) := by
  intro j hij z z' hz
  rw [Strict.eval_eq]
  refine (hp j hij z z' hz).map_right fun k _ r r' hr => ?_
  match hr with
  | .plain (.success hrest hv) => exact .plain (.success hrest hv)
  | .committed (.success hrest hv) => exact .committed (.success hrest hv)
  | .plain (.failure hrest message) => exact .plain (.failure ⟨hrest.input, hstates _ _⟩ message)
  | .committed (.failure hrest message) => exact .committed (.failure ⟨hrest.input, hstates _ _⟩ message)

/-- Neither does putting one. -/
theorem put_left (s : Value) (hV : ∀ j, i ≤ j → V j .absent .absent) : L.Parsers n V i (.put s) (.pure .absent) :=
  .of_meaning fun _ _ j hij _ _ hz => .pure (.plain (.success ⟨hz.input, hstates _ _⟩ (hV j hij)))

theorem put_right (s : Value) (hV : ∀ j, i ≤ j → V j .absent .absent) : L.Parsers n V i (.pure .absent) (.put s) :=
  .of_meaning fun _ _ j hij _ _ hz => .pure (.plain (.success ⟨hz.input, hstates _ _⟩ (hV j hij)))

end Unrelated

end Parsers

namespace Lawful

variable (h : L.Lawful)

include h

theorem trace (message message' : String) :
    L.Alongside i (fun _ _ _ => True) (Course.ofRun (L.first.trace message)) (Course.ofRun (L.second.trace message')) := by
  rintro w w' hw _ _ ⟨⟩
  exact ⟨i, le_rfl, _, _, rfl, h.print _ _ hw, .ok trivial⟩

end Lawful

/-! ### One lemma for each way to build a parser -/

namespace Parsers

theorem pure {v v' : Value} (hv : ∀ j, i ≤ j → V j v v') : L.Parsers n V i (.pure v) (.pure v') :=
  .of_meaning fun _ _ j hij _ _ hz => .pure (.plain (.success hz (hv j hij)))

theorem fail (message : String) : L.Parsers n V i (.fail message) (.fail message) :=
  .of_meaning fun _ _ _ _ _ _ hz => .pure (.plain (.failure hz message))

theorem map {f g : Value → Act Value} (hp : L.Parsers n U i p q)
    (hf : ∀ j, i ≤ j → ∀ a b, U j a b → L.Acts j V (f a) (g b)) : L.Parsers n V i (.map p f) (.map q g) := by
  refine .of_meaning fun m hm j hij z z' hz => ?_
  refine (hp.of_le hm.le j hij z z' hz).bind fun k hjk r r' hr => ?_
  have hact : ∀ {a b}, U k a b → L.Acts k V (f a) (g b) := hf k (le_trans hij hjk) _ _
  match hr with
  | .plain (.success hz hv) =>
    refine (hact hv).bind fun l hkl _ _ hab => ?_
    exact .pure (.plain (.success (hz.mono hkl) hab))
  | .committed (.success hz hv) =>
    refine (hact hv).bind fun l hkl _ _ hab => ?_
    exact .pure (.committed (.success (hz.mono hkl) hab))
  | .plain (.failure hz message) => exact .pure (.plain (.failure hz message))
  | .committed (.failure hz message) => exact .pure (.committed (.failure hz message))

theorem bind {k k' : Value → Act Parser} (hp : L.Parsers n U i p q)
    (hk : ∀ j, i ≤ j → ∀ a b, U j a b → L.Acts j (L.Parsers n V) (k a) (k' b)) :
    L.Parsers n V i (.bind p k) (.bind q k') := by
  refine .of_meaning fun m hm j hij z z' hz => ?_
  refine (hp.of_le hm.le j hij z z' hz).bind fun l hjl r r' hr => ?_
  -- what comes after a success, committed or not
  have hnext : ∀ {z z' a b}, L.Contexts l z z' → U l a b →
      L.Alongside l (fun k => Result.Alike (L.Contexts k) (V k))
        ((Strict.upTo L.first m).exec (k a) >>= fun q => (Strict.upTo L.first m).eval q z)
        ((Strict.semantics L.second).exec (k' b) >>= fun q => (Strict.semantics L.second).eval q z') := by
    intro z z' a b hz hab
    refine (hk l (le_trans hij hjl) a b hab).bind fun o hlo p p' hp => ?_
    exact hp.of_le hm.le o le_rfl z z' (hz.mono hlo)
  match hr with
  | .plain (.success hz hv) => exact hnext hz hv
  | .committed (.success hz hv) => exact (hnext hz hv).bind fun _ _ _ _ hab => .pure hab.commit
  | .plain (.failure hz message) => exact .pure (.plain (.failure hz message))
  | .committed (.failure hz message) => exact .pure (.committed (.failure hz message))

theorem orElse (hp : L.Parsers n V i p p') (hq : L.Parsers n V i q q') :
    L.Parsers n V i (.orElse p q) (.orElse p' q') := by
  refine .of_meaning fun m hm j hij z z' hz => ?_
  refine (hp.of_le hm.le j hij z z' hz).bind fun k hjk r r' hr => ?_
  match hr with
  | .plain (.failure _ _) => exact hq.of_le hm.le k (le_trans hij hjk) z z' (hz.mono hjk)
  | .plain (.success hz hv) => exact .pure (.plain (.success hz hv))
  | .committed hv => exact .pure (.committed hv)

theorem commit (hp : L.Parsers n V i p q) : L.Parsers n V i (.commit p) (.commit q) :=
  .of_meaning fun _ hm j hij z z' hz =>
    (hp.of_le hm.le j hij z z' hz).bind fun _ _ _ _ hr => .pure hr.commit

theorem reword {f g : String → Act String} (hp : L.Parsers n V i p q)
    (hf : ∀ j, i ≤ j → ∀ message, L.Acts j (fun _ => (· = ·)) (f message) (g message)) :
    L.Parsers n V i (.reword p f) (.reword q g) := by
  refine .of_meaning fun m hm j hij z z' hz => ?_
  refine (hp.of_le hm.le j hij z z' hz).bind fun k hjk r r' hr => ?_
  match hr with
  | .plain (.success hz hv) => exact .pure (.plain (.success hz hv))
  | .committed (.success hz hv) => exact .pure (.committed (.success hz hv))
  | .plain (.failure hz message) =>
    refine (hf k (le_trans hij hjk) message).bind fun l hkl m m' hm => ?_
    subst hm
    exact .pure (.plain (.failure (hz.mono hkl) m))
  | .committed (.failure hz message) =>
    refine (hf k (le_trans hij hjk) message).bind fun l hkl m m' hm => ?_
    subst hm
    exact .pure (.committed (.failure (hz.mono hkl) m))

theorem restoring (hp : L.Parsers n V i p q) : L.Parsers n V i (.restoring p) (.restoring q) := by
  refine .of_meaning fun m hm j hij z z' hz => ?_
  refine (hp.of_le hm.le j hij z z' hz).bind fun k hjk r r' hr => ?_
  match hr with
  | .plain (.success hrest hv) => exact .pure (.plain (.success hrest hv))
  | .committed (.success hrest hv) => exact .pure (.committed (.success hrest hv))
  | .plain (.failure hrest message) => exact .pure (.plain (.failure ⟨hrest.input, hz.state⟩ message))
  | .committed (.failure hrest message) => exact .pure (.committed (.failure ⟨hrest.input, hz.state⟩ message))

/-- A rule, with one unit of fuel less for the parser it names. -/
theorem rule (name : String) (hrule : ∀ m, m < n → L.Parsers m V i (L.first.grammar name) (L.second.grammar name)) :
    L.Parsers n V i (.rule name) (.rule name) :=
  .of_meaning fun m hm j hij z z' hz => hrule m hm j hij z z' hz

theorem position (hV : ∀ j, i ≤ j → ∀ s s', L.inputs j s s' → V j (.nat s.consumed) (.nat s'.consumed)) :
    L.Parsers n V i .position .position :=
  .of_meaning fun _ _ j hij _ _ hz => .pure (.plain (.success hz (hV j hij _ _ hz.input)))

theorem get (hV : ∀ j, i ≤ j → ∀ s s', L.states s s' → V j s s') : L.Parsers n V i .get .get :=
  .of_meaning fun _ _ j hij _ _ hz => .pure (.plain (.success hz (hV j hij _ _ hz.state)))

theorem put {s s' : Value} (hs : L.states s s') (hV : ∀ j, i ≤ j → V j .absent .absent) :
    L.Parsers n V i (.put s) (.put s') :=
  .of_meaning fun _ _ j hij _ _ hz => .pure (.plain (.success ⟨hz.input, hs⟩ (hV j hij)))

end Parsers

namespace Lawful

variable (h : L.Lawful)

include h

theorem alternatives {ps qs : List (String × Parser)}
    (hps : List.Forall₂ (fun a b => a.1 = b.1 ∧ L.Parsers n V i a.2 b.2) ps qs) {j : L.Stage} (hij : i ≤ j)
    {z z' : Context} (hz : L.Contexts j z z') (failures : List (String × String)) :
    L.Alongside j (fun k => Result.Alike (L.Contexts k) (V k))
      ((Strict.upTo L.first n).alternatives L.first z failures ps)
      ((Strict.semantics L.second).alternatives L.second z' failures qs) := by
  induction hps generalizing j failures with
  | nil =>
    unfold Semantics.alternatives
    rw [h.indent]
    refine (Alongside.ofExcept (R := fun _ => (· = ·)) _ fun _ => rfl).bind fun k hjk m m' hm => ?_
    subst hm
    exact .pure (.plain (.failure (hz.mono hjk) m))
  | @cons a b ps qs hab _ ih =>
    obtain ⟨label, p⟩ := a
    obtain ⟨_, q⟩ := b
    obtain ⟨rfl, hp⟩ := hab
    unfold Semantics.alternatives
    refine Alongside.bind (hp j hij z z' hz) fun k hjk r r' hr => ?_
    rcases hr with ⟨⟨hz, hv⟩ | ⟨_, message⟩⟩ | hv
    · exact .pure (.plain (.success hz hv))
    · refine (h.trace _ _).bind fun l hkl _ _ _ => ?_
      have hjl : j ≤ l := le_trans hjk hkl
      exact ih (le_trans hij hjl) (hz.mono hjl) _
    · exact .pure (.committed hv)

theorem choice {ps qs : List (String × Parser)}
    (hps : List.Forall₂ (fun a b => a.1 = b.1 ∧ L.Parsers n V i a.2 b.2) ps qs) :
    L.Parsers n V i (.choice ps) (.choice qs) :=
  .of_meaning fun _ hm _ hij _ _ hz =>
    h.alternatives (hps.imp fun _ _ hab => ⟨hab.1, hab.2.of_le hm.le⟩) hij hz []

/-- The induction is on the number of turns of the first loop. -/
theorem loop {init init' : Value} {step step' : Value → Act Parser} (hinit : L.values i init init')
    (hstep : ∀ j, i ≤ j → ∀ s s', L.values j s s' → L.Acts j (L.Parsers n L.values) (step s) (step' s')) :
    L.Parsers n L.values i (.loop init step) (.loop init' step') := by
  refine .of_meaning fun m hm j hij z z' hz => ?_
  suffices hloop : ∀ j, i ≤ j → ∀ c s s' z z', L.values j s s' → L.Contexts j z z' →
      L.Alongside j (fun k => Result.Alike (L.Contexts k) (L.values k)) ((Strict.upTo L.first m).loop step c s z)
        ((Strict.semantics L.second).loop step' c s' z') from
    hloop j hij false init init' z z' (L.values_mono hij hinit) hz
  intro j hij c s s' z z' hs hz
  refine .sup (Course.Turn.monotone_rounds c s z) fun k => ?_
  induction k generalizing j c s s' z z' with
  | zero => exact .never
  | succ k ih =>
    rw [Semantics.loop, Course.Turn.loop_unfold, Course.Turn.rounds, Semantics.body, Semantics.body, bind_assoc,
      bind_assoc]
    refine (hstep j hij s s' hs).bind fun k₁ hk₁ p p' hp => ?_
    refine (hp.of_le hm.le k₁ le_rfl z z' (hz.mono hk₁)).bind fun k₂ hk₂ r r' hr => ?_
    have hik : i ≤ k₂ := le_trans hij (le_trans hk₁ hk₂)
    rw [Semantics.turn_after, Semantics.turn_after, hr.isCommitted]
    have hverdict := hr.verdict
    generalize r.verdict = v, r'.verdict = v' at hverdict
    cases hverdict with
    | failure hz message => exact .pure ((Result.Alike.plain (.failure hz message)).commitIf _)
    | @success _ _ v v' hz hv =>
      dsimp only
      have hturn := h.toStep hv
      generalize v.toStep = t, v'.toStep = t' at hturn
      cases hturn with
      | done hv => exact .pure ((Result.Alike.plain (.success hz hv)).commitIf _)
      | again hs => exact ih k₂ hik _ _ _ _ _ hs hz

theorem next : L.Parsers n L.values i .next .next := by
  refine .of_meaning fun m hm j hij z z' hz => ?_
  refine (h.next? hz.input).bind fun k hjk a b hab => ?_
  cases hab with
  | none => exact .pure (.plain (.failure (hz.mono hjk) _))
  | some ht hrest => exact .pure (.plain (.success ⟨hrest, hz.state⟩ ht))

theorem eof (hV : ∀ j, i ≤ j → V j .absent .absent) : L.Parsers n V i .eof .eof := by
  refine .of_meaning fun m hm j hij z z' hz => ?_
  refine (h.next? hz.input).bind fun k hjk a b hab => ?_
  cases hab with
  | none => exact .pure (.plain (.success (hz.mono hjk) (hV k (le_trans hij hjk))))
  | some ht hrest => exact .pure (.plain (.failure (hz.mono hjk) _))

theorem satisfy {test test' : Value → Act Bool}
    (htest : ∀ j, i ≤ j → ∀ t t', L.values j t t' → L.Acts j (fun _ => (· = ·)) (test t) (test' t')) :
    L.Parsers n L.values i (.satisfy test) (.satisfy test') := by
  refine .of_meaning fun m hm j hij z z' hz => ?_
  refine (h.next? hz.input).bind fun k hjk a b hab => ?_
  cases hab with
  | none => exact .pure (.plain (.failure (hz.mono hjk) _))
  | @some t t' s s' ht hrest =>
    refine Alongside.bind (htest k (le_trans hij hjk) _ _ ht) fun l hkl b b' hb => ?_
    subst hb
    cases b with
    | true => exact .pure (.plain (.success ⟨L.inputs_mono hkl hrest, hz.state⟩ (L.values_mono hkl ht)))
    | false =>
      rw [h.unexpected ht]
      refine (Alongside.ofExcept (R := fun _ => (· = ·)) _ fun _ => rfl).bind fun o hlo m m' hm => ?_
      subst hm
      exact .pure (.plain (.failure (hz.mono (le_trans hjk (le_trans hkl hlo))) m))

theorem pushBack {ts ts' : List Value} (hts : List.Forall₂ (L.values i) ts ts') (hV : ∀ j, i ≤ j → V j .absent .absent) :
    L.Parsers n V i (.pushBack ts) (.pushBack ts') := by
  refine .of_meaning fun m hm j hij z z' hz => ?_
  exact .pure (.plain (.success ⟨h.push hz.input (values_mono_all hij hts), hz.state⟩ (hV j hij)))

end Lawful

end Likeness

/-! ## Parses -/

namespace Engine

/-- Wherever the first parse ends, the second one ends too, in verdicts that are alike or in one fault. Where these are
verdicts, both parsers show one tag at first. -/
def EndsAlike (e e' : Engine) (env env' : Env) (p q : Parser) (z z' : Context) (w w' : World)
    (A : World → World → Verdict Context Value → Verdict Context Value → Prop) : Prop :=
  ∀ x w₁, Ends (fun n => e.parse env n p z) w x w₁ →
    ∃ x' w₁', Ends (fun n => e'.parse env' n q z') w' x' w₁' ∧ AnswersAlike (A w₁ w₁') x x' ∧
      ∀ v, x = .ok v → ∃ t w₂ w₂', Ends (fun n => e.rawTag env n p z) w (.ok t) w₂ ∧
        Ends (fun n => e'.rawTag env' n q z') w' (.ok t) w₂'

theorem EndsAlike.imp {e e' : Engine} {env env' : Env} {p q : Parser} {z z' : Context} {w w' : World}
    {A B : World → World → Verdict Context Value → Verdict Context Value → Prop}
    (h : EndsAlike e e' env env' p q z z' w w' A) (hAB : ∀ w₁ w₁' v v', A w₁ w₁' v v' → B w₁ w₁' v v') :
    EndsAlike e e' env env' p q z z' w w' B := by
  intro x w₁ hx
  obtain ⟨x', w₁', hx', hA, htag⟩ := h x w₁ hx
  exact ⟨x', w₁', hx', hA.imp (hAB w₁ w₁'), htag⟩

end Engine

namespace Likeness.Lawful

variable {L : Likeness} (h : L.Lawful) {i : L.Stage} {V : L.Stage → Value → Value → Prop} {p q : Parser} {z z' : Context}

include h

/-- Printing a failure keeps verdicts alike. -/
theorem traced {v v' : Verdict Context Value} (hv : v.Alike (L.Contexts i) (V i) v') :
    L.Alongside i (fun j => Verdict.Alike (L.Contexts j) (V j)) (Course.ofRun (Engine.traced L.first v))
      (Course.ofRun (Engine.traced L.second v')) := by
  cases hv with
  | success hz ha => exact .pure (.success hz ha)
  | failure hz message =>
    rw [Engine.traced, Engine.traced, Course.ofRun_bind, Course.ofRun_bind]
    exact (h.trace _ _).bind fun j hij _ _ _ => .pure (.failure (hz.mono hij) message)

/-- **Parsers that run side by side are parsed side by side,** in every engine, if there are no lists. -/
theorem endsAlike {w w' : World} (hw : L.worlds i w w')
    (hpq : L.Alongside i (fun j => Result.Alike (L.Contexts j) (V j)) (Strict.eval L.first p z) (Strict.eval L.second q z'))
    (hg : ∀ name, (L.first.grammar name).StreamFree) (hp : p.StreamFree) (hlists : w.lists = #[])
    (hg' : ∀ name, (L.second.grammar name).StreamFree) (hq : q.StreamFree) (hlists' : w'.lists = #[]) (e e' : Engine) :
    Engine.EndsAlike e e' L.first L.second p q z z' w w' fun w₁ w₁' v v' =>
      ∃ j, i ≤ j ∧ L.worlds j w₁ w₁' ∧ v.Alike (L.Contexts j) (V j) v' := by
  intro x w₁ hx
  have hverdicts : L.Alongside i (fun j => Verdict.Alike (L.Contexts j) (V j))
      (Strict.eval L.first p z >>= fun r => Course.ofRun (Engine.traced L.first r.verdict))
      (Strict.eval L.second q z' >>= fun r => Course.ofRun (Engine.traced L.second r.verdict)) :=
    hpq.bind fun j _ r r' hr => h.traced hr.verdict
  rw [← Run.limit_eq_some (e.steady_parse _ p z), e.limit_parse hg hp z hlists] at hx
  obtain ⟨j, hij, x', w₁', hx', hw₁, hverdict⟩ := hverdicts w w' hw x w₁ hx
  refine ⟨x', w₁', ?_, ?_, ?_⟩
  · rw [← Run.limit_eq_some (e'.steady_parse _ q z'), e'.limit_parse hg' hq z' hlists']
    exact hx'
  · exact hverdict.imp fun v v' hv => ⟨j, hij, hw₁, hv⟩
  · rintro v rfl
    obtain ⟨r, w₂, hr, -⟩ := Course.bind_eq_ok hx
    obtain ⟨k, -, _, w₂', hr', -, halike⟩ := hpq w w' hw _ _ hr
    cases halike with
    | ok halike =>
      obtain ⟨w₃, htag⟩ := e.ends_rawTag hg hp z hlists hr
      obtain ⟨w₃', htag'⟩ := e'.ends_rawTag hg' hq z' hlists' hr'
      rw [halike.tag] at htag'
      exact ⟨_, w₃, w₃', htag, htag'⟩

end Likeness.Lawful

end CommittedChoice
