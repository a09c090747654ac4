import CommittedChoice.Proofs.OnDemand.Growth
import Mathlib.Data.List.Forall2

/-!
# Runs that word their messages differently

Two runs of one parser under different settings go through the same steps and differ in nothing but the texts of messages:
in those of failures, in those of lists that end in a failure, and in what is printed.

- `Wording`: how messages may differ, and how the widths of their indentation may;
- `Wording.Acts`: callbacks that do the same whatever the messages and the widths are. What they answer may differ as far as
  the answers of callbacks of their kind may, so `Acts (· = ·)` answer the same and only functions of messages may not;
- `Wording.Parsers`: terms all of whose callbacks are so;
- `Wording.Runs`: runs that do the same, unless a message gets too long in one of them.
-/

namespace CommittedChoice

/-- Texts that were made in both runs. If the runs are loose, either text may be too long where the other one is not. -/
inductive Told (loose : Prop) (messages : String → String → Prop) : Except Fault String → Except Fault String → Prop
  | ok {m m'} : messages m m' → Told loose messages (.ok m) (.ok m')
  | same (e) : Told loose messages (.error e) (.error e)
  | overlong_left (h : loose) (x) : Told loose messages (.error .tooLong) x
  | overlong_right (h : loose) (x) : Told loose messages x (.error .tooLong)

/-- How the messages of two runs may differ, and the widths of their indentation. In loose runs a message that is too long
in one of them may be none in the other. -/
structure Wording where
  loose : Prop
  messages : String → String → Prop
  widths : Nat → Nat → Prop
  refl : ∀ message, messages message message
  report : ∀ {w w' : Nat} {fs gs : List (String × String)}, widths w w' →
    List.Forall₂ (fun f g => f.1 = g.1 ∧ messages f.2 g.2) fs gs →
    Told loose messages (Message.choiceReport w fs) (Message.choiceReport w' gs)

/-- A report of a choice fails in one way only. -/
theorem Message.choiceReport_cases (width : Nat) (fs : List (String × String)) :
    choiceReport width fs = .error .tooLong ∨ ∃ m, choiceReport width fs = .ok m := by
  unfold choiceReport bounded
  split
  · exact .inr ⟨_, rfl⟩
  · dsimp only
    split
    · exact .inr ⟨_, rfl⟩
    · exact .inl rfl

namespace Wording

/-- Messages and widths differ in any way. -/
def free : Wording where
  loose := True
  messages _ _ := True
  widths _ _ := True
  refl _ := trivial
  report {w w' fs gs} _ _ := by
    obtain hleft | ⟨m, hleft⟩ := Message.choiceReport_cases w fs
    · rw [hleft]
      exact .overlong_left trivial _
    · obtain hright | ⟨m', hright⟩ := Message.choiceReport_cases w' gs
      · rw [hright]
        exact .overlong_right trivial _
      · rw [hleft, hright]
        exact .ok trivial

/-- Messages and widths are the same. -/
def strict : Wording where
  loose := False
  messages := (· = ·)
  widths := (· = ·)
  refl _ := rfl
  report := by
    rintro w _ fs gs rfl hfs
    have hsame : fs = gs := by
      rw [← List.forall₂_eq_eq_eq]
      exact hfs.imp fun f g h => Prod.ext h.1 h.2
    rw [hsame]
    cases Message.choiceReport w gs with
    | ok m => exact .ok rfl
    | error e => exact .same e

variable (W : Wording)

/-! ## What runs are about -/

/-- Faults that differ in the wording of a parse failure. -/
inductive Faults : Fault → Fault → Prop
  | same (e : Fault) : Faults e e
  | parse {m m' : String} (offset : Number) : W.messages m m' → Faults (.parse m offset) (.parse m' offset)

/-- What a success turns out to be in both. -/
inductive Finishes : Finish → Finish → Prop
  | plain : Finishes .plain .plain
  | committed : Finishes .committed .committed
  | failed (z : Context) {m m' : String} : W.messages m m' → Finishes (.failed z m) (.failed z m')

/-- Where a list stopped in both. -/
structure Stops (e e' : ListEnd) : Prop where
  rest : e.rest = e'.rest
  finish : W.Finishes e.finish e'.finish

/-- A node of a list in both. -/
inductive Nodes : Node → Node → Prop
  | item (v : Value) (next : Nat) : Nodes (.item v next) (.item v next)
  | ended {e e' : ListEnd} : W.Stops e e' → Nodes (.ended e) (.ended e')

variable {W} in
/-- The faults that readers meet at the ends of lists. -/
theorem Stops.fault? {e e' : ListEnd} (h : W.Stops e e') : Option.Rel W.Faults e.fault? e'.fault? := by
  have hfinish := h.finish
  unfold ListEnd.fault?
  generalize e.finish = f at hfinish ⊢
  generalize e'.finish = f' at hfinish ⊢
  cases hfinish with
  | plain => exact .none
  | committed => exact .none
  | failed z hm => exact .some (.parse _ hm)

/-! ## Callbacks -/

/-- Callbacks that do the same, whatever the messages that they come upon and the widths that they ask for. What they
answer is in the relation `A`. In loose runs it does not matter how often the width is asked for, and one that stops
because a text gets too long may do anything in the other run. -/
inductive Acts {α : Type} (A : α → α → Prop) : Act α → Act α → Prop
  | pure {a b} : A a b → Acts A (.pure a) (.pure b)
  | throw {e e'} : W.Faults e e' → Acts A (.throw e) (.throw e')
  | overlong_left (h : W.loose) (act) : Acts A (.throw .tooLong) act
  | overlong_right (h : W.loose) (act) : Acts A act (.throw .tooLong)
  | width_left (h : W.loose) {k act} : (∀ w, Acts A (k w) act) → Acts A (.width k) act
  | width_right (h : W.loose) {act k} : (∀ w, Acts A act (k w)) → Acts A act (.width k)
  | note (id) {act act'} : Acts A act act' → Acts A (.note id act) (.note id act')
  | width {k k'} : (∀ w w', W.widths w w' → Acts A (k w) (k' w')) → Acts A (.width k) (.width k')
  | count (mark) {k k'} : (∀ c, Acts A (k c) (k' c)) → Acts A (.count mark k) (.count mark k')
  | fresh {k k'} : (∀ id, Acts A (k id) (k' id)) → Acts A (.fresh k) (.fresh k')
  | node (i) {k k'} : (∀ x x', W.Nodes x x' → Acts A (k x) (k' x')) → Acts A (.node i k) (.node i k')
  | walk (i) {k k'} : (∀ vs e e', W.Stops e e' → Acts A (k vs e) (k' vs e')) → Acts A (.walk i k) (.walk i k')

variable {W}

namespace Acts

variable {α β : Type} {A : α → α → Prop} {B : β → β → Prop}

theorem bind {act act' : Act α} {k k' : α → Act β} (h : W.Acts A act act') (hk : ∀ a b, A a b → W.Acts B (k a) (k' b)) :
    W.Acts B (act >>= k) (act' >>= k') := by
  show W.Acts B (Act.bind act k) (Act.bind act' k')
  induction h with
  | pure hab => exact hk _ _ hab
  | throw he => exact .throw he
  | overlong_left h act => exact .overlong_left h _
  | overlong_right h act => exact .overlong_right h _
  | width_left h _ ih => exact .width_left h ih
  | width_right h _ ih => exact .width_right h ih
  | note id _ ih => exact .note id ih
  | width _ ih => exact .width ih
  | count mark _ ih => exact .count mark ih
  | fresh _ ih => exact .fresh ih
  | node i _ ih => exact .node i ih
  | walk i _ ih => exact .walk i ih

theorem mono {B : α → α → Prop} {act act' : Act α} (h : W.Acts A act act') (hAB : ∀ a b, A a b → B a b) :
    W.Acts B act act' := by
  induction h with
  | pure hab => exact .pure (hAB _ _ hab)
  | throw he => exact .throw he
  | overlong_left h act => exact .overlong_left h _
  | overlong_right h act => exact .overlong_right h _
  | width_left h _ ih => exact .width_left h ih
  | width_right h _ ih => exact .width_right h ih
  | note id _ ih => exact .note id ih
  | width _ ih => exact .width ih
  | count mark _ ih => exact .count mark ih
  | fresh _ ih => exact .fresh ih
  | node i _ ih => exact .node i ih
  | walk i _ ih => exact .walk i ih

end Acts

/-! ## Terms -/

variable (W) in
/-- Terms whose callbacks do the same in both runs. The parsers that callbacks give are terms of this kind again. -/
inductive Parsers : Parser → Parser → Prop
  | pure (v) : Parsers (.pure v) (.pure v)
  | fail {m m'} : W.messages m m' → Parsers (.fail m) (.fail m')
  | map {p p' f f'} : Parsers p p' → (∀ v, W.Acts (· = ·) (f v) (f' v)) → Parsers (.map p f) (.map p' f')
  | bind {p p' k k'} (S : Parser → Parser → Prop) : Parsers p p' → (∀ v, W.Acts S (k v) (k' v)) →
      (∀ q q', S q q' → Parsers q q') → Parsers (.bind p k) (.bind p' k')
  | orElse {p p' q q'} : Parsers p p' → Parsers q q' → Parsers (.orElse p q) (.orElse p' q')
  | loop (init) {step step'} (S : Parser → Parser → Prop) : (∀ v, W.Acts S (step v) (step' v)) →
      (∀ q q', S q q' → Parsers q q') → Parsers (.loop init step) (.loop init step')
  | commit {p p'} : Parsers p p' → Parsers (.commit p) (.commit p')
  | reword {p p' f f'} : Parsers p p' → (∀ m m', W.messages m m' → W.Acts W.messages (f m) (f' m')) →
      Parsers (.reword p f) (.reword p' f')
  | choice {ps ps'} (S : Parser → Parser → Prop) : List.Forall₂ (fun a b => a.1 = b.1 ∧ S a.2 b.2) ps ps' →
      (∀ q q', S q q' → Parsers q q') → Parsers (.choice ps) (.choice ps')
  | next : Parsers .next .next
  | eof : Parsers .eof .eof
  | satisfy {test test'} : (∀ v, W.Acts (· = ·) (test v) (test' v)) → Parsers (.satisfy test) (.satisfy test')
  | pushBack (ts) : Parsers (.pushBack ts) (.pushBack ts)
  | position : Parsers .position .position
  | get : Parsers .get .get
  | put (state) : Parsers (.put state) (.put state)
  | restoring {p p'} : Parsers p p' → Parsers (.restoring p) (.restoring p')
  | stream {p p'} : Parsers p p' → Parsers (.stream p) (.stream p')
  | rule (name) : Parsers (.rule name) (.rule name)

/-! ## Worlds -/

variable (W) in
/-- A node that waits in both. -/
structure Waits (u u' : Unparsed) : Prop where
  item : W.Parsers u.item u'.item
  start : u.start = u'.start
  committed : u.committed = u'.committed

variable (W) in
/-- A cell of a list in both. -/
inductive Cells : Cell Unparsed Node → Cell Unparsed Node → Prop
  | pending {u u' : Unparsed} : W.Waits u u' → Cells (.pending u) (.pending u')
  | forcing : Cells .forcing .forcing
  | forced {x x' : Node} : W.Nodes x x' → Cells (.forced x) (.forced x')

variable (W) in
/-- Worlds in which the same has happened, with the same lists, but for messages and for what was printed. -/
structure Worlds (w w' : World) : Prop where
  feed : w.feed = w'.feed
  journal : w.journal = w'.journal
  marks : w.marks = w'.marks
  made : w.made = w'.made
  size : w.lists.size = w'.lists.size
  cells : ∀ l k : Nat, Option.Rel W.Cells (w.nodesOf l)[k]? (w'.nodesOf l)[k]?

variable {w w' : World}

/-- Lists have as many nodes in both worlds. -/
theorem Worlds.size_nodesOf (h : W.Worlds w w') (l : Nat) : (w.nodesOf l).size = (w'.nodesOf l).size := by
  have hlt : ∀ k, k < (w.nodesOf l).size ↔ k < (w'.nodesOf l).size := by
    intro k
    have hcell := h.cells l k
    rcases hc : (w.nodesOf l)[k]? with _ | c <;> rcases hc' : (w'.nodesOf l)[k]? with _ | c' <;> rw [hc, hc'] at hcell
    · rw [Array.getElem?_eq_none_iff] at hc hc'
      omega
    · cases hcell
    · cases hcell
    · obtain ⟨hk, -⟩ := Array.getElem?_eq_some_iff.1 hc
      obtain ⟨hk', -⟩ := Array.getElem?_eq_some_iff.1 hc'
      exact iff_of_true hk hk'
  have h₁ := hlt (w.nodesOf l).size
  have h₂ := hlt (w'.nodesOf l).size
  omega

/-! ## Runs -/

variable (W) in
/-- How two runs end: alike, unless a text has got too long for one of them. -/
inductive Ended {α : Type} (A : α → α → Prop) : Except Halt α × World → Except Halt α × World → Prop
  | ok {a b : α} {w w' : World} : A a b → W.Worlds w w' → Ended A (.ok a, w) (.ok b, w')
  | fault {e e' : Fault} {w w' : World} : W.Faults e e' → W.Worlds w w' →
      Ended A (.error (.fault e), w) (.error (.fault e'), w')
  | outOfFuel (w w' : World) : Ended A (.error .outOfFuel, w) (.error .outOfFuel, w')
  | overlong_left (h : W.loose) (w : World) (r : Except Halt α × World) : Ended A (.error (.fault .tooLong), w) r
  | overlong_right (h : W.loose) (r : Except Halt α × World) (w : World) : Ended A r (.error (.fault .tooLong), w)

variable (W) in
/-- Runs that do the same from worlds in which the same has happened. -/
def Runs {α : Type} (A : α → α → Prop) (x y : Run α) : Prop := ∀ w w', W.Worlds w w' → W.Ended A (x w) (y w')

namespace Runs

variable {α β : Type} {A : α → α → Prop} {B : β → β → Prop} {x y : Run α}

theorem pure {a b : α} (h : A a b) : W.Runs A (Pure.pure a) (Pure.pure b) := fun _ _ hw => .ok h hw

theorem fault {e e' : Fault} (h : W.Faults e e') : W.Runs A (Run.fault e) (Run.fault e') := fun _ _ hw => .fault h hw

theorem outOfFuel : W.Runs A (Run.halt .outOfFuel) (Run.halt .outOfFuel) := fun w w' _ => .outOfFuel w w'

theorem overlong_left (h : W.loose) (y : Run α) : W.Runs A (Run.fault .tooLong) y := fun w _ _ => .overlong_left h w _

theorem overlong_right (h : W.loose) (x : Run α) : W.Runs A x (Run.fault .tooLong) :=
  fun _ w' _ => .overlong_right h _ w'

theorem bind {f g : α → Run β} (h : W.Runs A x y) (hf : ∀ a b, A a b → W.Runs B (f a) (g b)) :
    W.Runs B (x >>= f) (y >>= g) := by
  intro w w' hw
  have hx := h w w' hw
  show W.Ended B (Run.bind x f w) (Run.bind y g w')
  unfold Run.bind
  generalize x w = r at hx ⊢
  generalize y w' = r' at hx ⊢
  cases hx with
  | ok hab hw₁ => exact hf _ _ hab _ _ hw₁
  | fault he hw₁ => exact .fault he hw₁
  | outOfFuel w₁ w₁' => exact .outOfFuel w₁ w₁'
  | overlong_left h w₁ r => exact .overlong_left h w₁ _
  | overlong_right h r w₁ => exact .overlong_right h _ w₁

theorem mono {A' : α → α → Prop} (h : W.Runs A x y) (hA : ∀ a b, A a b → A' a b) : W.Runs A' x y := by
  intro w w' hw
  have hx := h w w' hw
  generalize x w = r at hx ⊢
  generalize y w' = r' at hx ⊢
  cases hx with
  | ok hab hw₁ => exact .ok (hA _ _ hab) hw₁
  | fault he hw₁ => exact .fault he hw₁
  | outOfFuel w₁ w₁' => exact .outOfFuel w₁ w₁'
  | overlong_left h w₁ r => exact .overlong_left h w₁ _
  | overlong_right h r w₁ => exact .overlong_right h _ w₁

/-- What is printed does not matter. -/
theorem print (lines lines' : List Line) : W.Runs (· = ·) (Run.print lines) (Run.print lines') :=
  fun _ _ hw => .ok rfl ⟨hw.feed, hw.journal, hw.marks, hw.made, hw.size, hw.cells⟩

theorem note (id : String) : W.Runs (· = ·) (Run.note id) (Run.note id) :=
  fun _ _ hw => .ok rfl ⟨hw.feed, congrArg (Happening.noted id :: ·) hw.journal, hw.marks, hw.made, hw.size, hw.cells⟩

theorem count (mark : Nat) : W.Runs (· = ·) (Run.count mark) (Run.count mark) := by
  intro w w' hw
  have hcount : w.countOf mark = w'.countOf mark := by rw [World.countOf, World.countOf, hw.marks]
  refine .ok hcount ⟨hw.feed, hw.journal, ?_, hw.made, hw.size, hw.cells⟩
  show (mark, w.countOf mark + 1) :: w.marks.filter _ = (mark, w'.countOf mark + 1) :: w'.marks.filter _
  rw [hcount, hw.marks]

theorem identity : W.Runs (· = ·) Run.identity Run.identity := by
  intro w w' hw
  refine .ok (congrArg _ hw.made) ⟨hw.feed, hw.journal, hw.marks, ?_, hw.size, hw.cells⟩
  exact congrArg (· + 1) hw.made

theorem next? (s : Remainder) : W.Runs (· = ·) (Run.next? s) (Run.next? s) := by
  intro w w' hw
  have hnext : ∀ w, Run.next? s w = ((s.next? w.feed).1.mapError .fault, { w with
      feed := (s.next? w.feed).2
      journal := if (s.next? w.feed).2.calls = w.feed.calls then w.journal else .called :: w.journal }) := fun _ => rfl
  have hjournal : (if (s.next? w.feed).2.calls = w.feed.calls then w.journal else Happening.called :: w.journal) =
      if (s.next? w'.feed).2.calls = w'.feed.calls then w'.journal else .called :: w'.journal := by
    rw [hw.feed, hw.journal]
  have hworlds : W.Worlds (Run.next? s w).2 (Run.next? s w').2 :=
    ⟨congrArg (fun feed => (s.next? feed).2) hw.feed, hjournal, hw.marks, hw.made, hw.size, hw.cells⟩
  rw [hnext w, hnext w'] at hworlds ⊢
  rw [show (s.next? w.feed).1 = (s.next? w'.feed).1 from congrArg (fun feed => (s.next? feed).1) hw.feed]
  cases (s.next? w'.feed).1 with
  | error e => exact .fault (.same e) hworlds
  | ok a => exact .ok rfl hworlds

end Runs

/-! ### Callbacks -/

theorem Acts.runs {α : Type} {A : α → α → Prop} {env env' : Env} {lists lists' : Lists}
    (hwidth : W.widths env.settings.indent env'.settings.indent)
    (hnode : ∀ i, W.Runs W.Nodes (lists.node i) (lists'.node i))
    (hwalk : ∀ i, W.Runs (fun x y => x.1 = y.1 ∧ W.Stops x.2 y.2) (lists.walk i) (lists'.walk i)) {act act' : Act α}
    (h : W.Acts A act act') : W.Runs A (act.exec env lists) (act'.exec env' lists') := by
  induction h with
  | pure hab => exact .pure hab
  | throw he => exact .fault he
  | overlong_left h act => exact .overlong_left h _
  | overlong_right h act => exact .overlong_right h _
  | width_left _ _ ih => exact ih _
  | width_right _ _ ih => exact ih _
  | note id _ ih =>
    rw [Act.exec_note, Act.exec_note]
    exact (Runs.note id).bind fun _ _ _ => ih
  | width _ ih => exact ih _ _ hwidth
  | count mark _ ih =>
    rw [Act.exec_count, Act.exec_count]
    exact (Runs.count mark).bind fun c _ hc => hc ▸ ih c
  | fresh _ ih =>
    rw [Act.exec_fresh, Act.exec_fresh]
    exact Runs.identity.bind fun id _ hid => hid ▸ ih id
  | node i _ ih =>
    rw [Act.exec_node, Act.exec_node]
    exact (hnode i).bind ih
  | walk i _ ih =>
    rw [Act.exec_walk, Act.exec_walk]
    refine (hwalk i).bind fun x y hxy => ?_
    rw [← hxy.1]
    exact ih _ _ _ hxy.2

/-- A text that depends on a token alone. -/
theorem Runs.unexpected (t : Value) :
    W.Runs (· = ·) (Run.ofExcept (Message.unexpected t)) (Run.ofExcept (Message.unexpected t)) := by
  intro w w' hw
  unfold Run.ofExcept
  cases Message.unexpected t with
  | ok m => exact .ok rfl hw
  | error e => exact .fault (.same e) hw

/-- The report of a choice, unless it gets too long. -/
theorem Runs.report {w w' : Nat} (hwidth : W.widths w w') {fs gs : List (String × String)}
    (h : List.Forall₂ (fun f g => f.1 = g.1 ∧ W.messages f.2 g.2) fs gs) :
    W.Runs W.messages (Run.ofExcept (Message.choiceReport w fs)) (Run.ofExcept (Message.choiceReport w' gs)) := by
  have hreport := W.report hwidth h
  generalize Message.choiceReport w fs = x at hreport ⊢
  generalize Message.choiceReport w' gs = y at hreport ⊢
  cases hreport with
  | ok hm => exact .pure hm
  | same e => exact .fault (.same e)
  | overlong_left hloose x => exact .overlong_left hloose _
  | overlong_right hloose x => exact .overlong_right hloose _

/-! ## The same wording

Under the strict wording every term is the same as itself, and nothing else is. -/

section Strict

theorem strict_nodes_eq {x x' : Node} (h : strict.Nodes x x') : x = x' := by
  cases h with
  | item v next => rfl
  | @ended e e' h =>
    obtain ⟨rest, finish⟩ := e
    obtain ⟨rest', finish'⟩ := e'
    obtain ⟨rfl, hfinish⟩ := h
    cases hfinish with
    | plain => rfl
    | committed => rfl
    | failed z hm => cases hm; rfl

theorem strict_stops_eq {e e' : ListEnd} (h : strict.Stops e e') : e = e' := by
  cases strict_nodes_eq (.ended h)
  rfl

theorem strict_finishes_refl (f : Finish) : strict.Finishes f f := by
  cases f with
  | plain => exact .plain
  | committed => exact .committed
  | failed z m => exact .failed z rfl

theorem strict_stops_refl (e : ListEnd) : strict.Stops e e := ⟨rfl, strict_finishes_refl _⟩

theorem strict_nodes_refl (x : Node) : strict.Nodes x x := by
  cases x with
  | item v next => exact .item v next
  | ended e => exact .ended (strict_stops_refl e)

theorem strict_acts_eq {α : Type} {A : α → α → Prop} (hA : ∀ a b, A a b → a = b) {act act' : Act α}
    (h : strict.Acts A act act') : act = act' := by
  induction h with
  | pure hab => exact congrArg _ (hA _ _ hab)
  | throw he => cases he with | same e => rfl | parse offset hm => cases hm; rfl
  | overlong_left h _ | overlong_right h _ | width_left h _ _ | width_right h _ _ => exact h.elim
  | note id _ ih => rw [ih]
  | width _ ih => exact congrArg _ (funext fun w => ih w w rfl)
  | count mark _ ih => exact congrArg _ (funext ih)
  | fresh _ ih => exact congrArg _ (funext ih)
  | node i _ ih => exact congrArg _ (funext fun x => ih x x (strict_nodes_refl x))
  | walk i _ ih => exact congrArg _ (funext fun vs => funext fun e => ih vs e e (strict_stops_refl e))

theorem strict_acts_refl {α : Type} {A : α → α → Prop} (hA : ∀ a, A a a) (act : Act α) : strict.Acts A act act := by
  induction act with
  | pure a => exact .pure (hA a)
  | throw e => exact .throw (.same e)
  | note id _ ih => exact .note id ih
  | width k ih => exact .width fun w _ hw => hw ▸ ih w
  | count mark k ih => exact .count mark ih
  | fresh k ih => exact .fresh ih
  | node i k ih => exact .node i fun x _ hx => strict_nodes_eq hx ▸ ih x
  | walk i k ih => exact .walk i fun vs e _ he => strict_stops_eq he ▸ ih vs e

theorem strict_parsers_eq {p p' : Parser} (h : strict.Parsers p p') : p = p' := by
  have hacts : ∀ {α : Type} {act act' : Act α}, strict.Acts (· = ·) act act' → act = act' :=
    strict_acts_eq fun _ _ => id
  induction h with
  | fail hm => exact congrArg _ hm
  | map _ hf ih => rw [ih, funext fun v => hacts (hf v)]
  | bind S _ hk _ ih ihS => rw [ih, funext fun v => strict_acts_eq ihS (hk v)]
  | orElse _ _ ihp ihq => rw [ihp, ihq]
  | loop init S hstep _ ihS => rw [funext fun v => strict_acts_eq ihS (hstep v)]
  | reword _ hf ih => rw [ih, funext fun m => strict_acts_eq (fun _ _ => id) (hf m m rfl)]
  | choice S hps _ ihS =>
    have hsame := hps.imp fun a b hab => Prod.ext hab.1 (ihS _ _ hab.2)
    rw [List.forall₂_eq_eq_eq] at hsame
    rw [hsame]
  | satisfy htest => rw [funext fun v => hacts (htest v)]
  | commit _ ih | restoring _ ih | stream _ ih => rw [ih]
  | _ => rfl

mutual

theorem strict_parsers_refl : ∀ p : Parser, strict.Parsers p p
  | .pure v => .pure v
  | .fail _ => .fail rfl
  | .map p f => .map (strict_parsers_refl p) fun v => strict_acts_refl (fun _ => rfl) (f v)
  | .bind p k => .bind _ (strict_parsers_refl p) (fun v => strict_givers_refl (k v)) fun _ _ => id
  | .orElse p q => .orElse (strict_parsers_refl p) (strict_parsers_refl q)
  | .loop init step => .loop init _ (fun v => strict_givers_refl (step v)) fun _ _ => id
  | .commit p => .commit (strict_parsers_refl p)
  | .reword p f => .reword (strict_parsers_refl p) fun m _ hm => hm ▸ strict_acts_refl (fun _ => rfl) (f m)
  | .choice ps => .choice _ (strict_alternatives_refl ps) fun _ _ => id
  | .next => .next
  | .eof => .eof
  | .satisfy test => .satisfy fun v => strict_acts_refl (fun _ => rfl) (test v)
  | .pushBack ts => .pushBack ts
  | .position => .position
  | .get => .get
  | .put state => .put state
  | .restoring p => .restoring (strict_parsers_refl p)
  | .stream p => .stream (strict_parsers_refl p)
  | .rule name => .rule name

/-- A callback that gives a parser. -/
theorem strict_givers_refl : ∀ act : Act Parser, strict.Acts strict.Parsers act act
  | .pure p => .pure (strict_parsers_refl p)
  | .throw e => .throw (.same e)
  | .note id act => .note id (strict_givers_refl act)
  | .width k => .width fun w _ hw => hw ▸ strict_givers_refl (k w)
  | .count mark k => .count mark fun c => strict_givers_refl (k c)
  | .fresh k => .fresh fun id => strict_givers_refl (k id)
  | .node i k => .node i fun x _ hx => strict_nodes_eq hx ▸ strict_givers_refl (k x)
  | .walk i k => .walk i fun vs e _ he => strict_stops_eq he ▸ strict_givers_refl (k vs e)

theorem strict_alternatives_refl : ∀ ps : List (String × Parser),
    List.Forall₂ (fun a b => a.1 = b.1 ∧ strict.Parsers a.2 b.2) ps ps
  | [] => .nil
  | (_, p) :: ps => .cons ⟨rfl, strict_parsers_refl p⟩ (strict_alternatives_refl ps)

end

/-- Worlds that differ in what was printed alone. -/
theorem strict_worlds_eq {w w' : World} (h : strict.Worlds w w') : w' = { w with console := w'.console } := by
  have hcell : ∀ {c c' : Option (Cell Unparsed Node)}, Option.Rel strict.Cells c c' → c = c' := by
    intro c c' hc
    cases hc with
    | none => rfl
    | some hc =>
      cases hc with
      | @pending u u' hu =>
        obtain ⟨item, start, committed⟩ := u
        obtain ⟨item', start', committed'⟩ := u'
        obtain ⟨hitem, rfl, rfl⟩ := hu
        cases strict_parsers_eq hitem
        rfl
      | forcing => rfl
      | forced hx => rw [strict_nodes_eq hx]
  have hlists : w.lists = w'.lists := by
    refine Array.ext h.size fun l hl hl' => ?_
    have hnodes : w.nodesOf l = w'.nodesOf l := Array.ext_getElem? fun k => hcell (h.cells l k)
    unfold World.nodesOf at hnodes
    rwa [Array.getElem?_eq_getElem hl, Array.getElem?_eq_getElem hl'] at hnodes
  obtain ⟨feed, journal, console, lists, marks, made⟩ := w
  obtain ⟨feed', journal', console', lists', marks', made'⟩ := w'
  obtain ⟨rfl, rfl, rfl, rfl, -, -⟩ := h
  cases hlists
  rfl

theorem strict_cells_refl (c : Option (Cell Unparsed Node)) : Option.Rel strict.Cells c c := by
  cases c with
  | none => exact .none
  | some c =>
    cases c with
    | pending u => exact .some (.pending ⟨strict_parsers_refl u.item, rfl, rfl⟩)
    | forcing => exact .some .forcing
    | forced x => exact .some (.forced (strict_nodes_refl x))

theorem strict_worlds_refl (w : World) : strict.Worlds w w := ⟨rfl, rfl, rfl, rfl, rfl, fun _ _ => strict_cells_refl _⟩

end Strict

end Wording

end CommittedChoice
