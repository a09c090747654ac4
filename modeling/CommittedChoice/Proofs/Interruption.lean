import CommittedChoice.Proofs.Renaming
import CommittedChoice.Proofs.Wording

/-!
# Runs that a source interrupts

A source may fail at some calls and give its tokens at others. A run over such a source is compared with a run of the same
parser over a source that gives the same tokens and never fails. Both take the same steps up to the first call that fails,
which stops the first run; the lists that were there before it are then as they were.

- `Stage.Acts`, `Stage.Parsers`: callbacks and terms that do the same in both runs. A term that is so to itself at every
  stage has pure callbacks (`Parser.Pure`): they read no list, count nothing, and cannot tell names apart but by whether they
  are equal;
- `Stage.Worlds`: worlds of both runs in which lists that are paired, from a floor on, have the same nodes;
- `Stage.Runs`: runs that end alike from such worlds, unless the first one is stopped;
- `Strict.run_interrupted`: the strict engine.
-/

namespace CommittedChoice

open Run (Steady)

namespace Stage

variable {α β : Type}

/-! ## Callbacks -/

/-- Contexts that are the same but for names. -/
structure Contexts (σ : Stage) (z z' : Context) : Prop where
  input : σ.Remainders z.input z'.input
  state : σ.Values z.state z'.state

/-- Callbacks that do the same in both runs: they answer, stop, ask for the width, write notes and make values. -/
inductive Acts (A : Stage → α → α → Prop) : Stage → Act α → Act α → Prop
  | pure {σ a b} : A σ a b → Acts A σ (.pure a) (.pure b)
  | throw {σ e} : (∀ c, e ≠ .source c) → Acts A σ (.throw e) (.throw e)
  | note {σ} (id) {act act'} : Acts A σ act act' → Acts A σ (.note id act) (.note id act')
  | width {σ k k'} : (∀ n, Acts A σ (k n) (k' n)) → Acts A σ (.width k) (.width k')
  | fresh {σ k k'} : (∀ τ, σ ≤ τ → ∀ m m', τ.made.pairs m m' → Acts A τ (k (.made m)) (k' (.made m'))) →
      Acts A σ (.fresh k) (.fresh k')

/-- Functions whose callbacks do the same to values that are the same. -/
def Functions (A : Stage → α → α → Prop) (σ : Stage) (f f' : Value → Act α) : Prop :=
  ∀ τ, σ ≤ τ → ∀ v v', τ.Values v v' → Acts A τ (f v) (f' v')

/-- Functions of messages whose callbacks do the same. -/
def Rewordings (σ : Stage) (f f' : String → Act String) : Prop := ∀ τ, σ ≤ τ → ∀ m, Acts (fun _ => (· = ·)) τ (f m) (f' m)

/-- Terms that are the same but for names, with callbacks that do the same. The parsers that callbacks give are so again. -/
inductive Parsers : Stage → Parser → Parser → Prop
  | pure {σ v v'} : σ.Values v v' → Parsers σ (.pure v) (.pure v')
  | fail {σ} (m) : Parsers σ (.fail m) (.fail m)
  | map {σ p p' f f'} : Parsers σ p p' → Functions Values σ f f' → Parsers σ (.map p f) (.map p' f')
  | bind {σ p p' k k'} (R : Stage → Parser → Parser → Prop) : Parsers σ p p' → Functions R σ k k' →
      (∀ τ q q', R τ q q' → Parsers τ q q') → Parsers σ (.bind p k) (.bind p' k')
  | orElse {σ p p' q q'} : Parsers σ p p' → Parsers σ q q' → Parsers σ (.orElse p q) (.orElse p' q')
  | loop {σ init init' step step'} (R : Stage → Parser → Parser → Prop) : σ.Values init init' → Functions R σ step step' →
      (∀ τ q q', R τ q q' → Parsers τ q q') → Parsers σ (.loop init step) (.loop init' step')
  | commit {σ p p'} : Parsers σ p p' → Parsers σ (.commit p) (.commit p')
  | reword {σ p p' f f'} : Parsers σ p p' → σ.Rewordings f f' → Parsers σ (.reword p f) (.reword p' f')
  | choice {σ ps ps'} (R : Stage → Parser → Parser → Prop) : List.Forall₂ (fun a b => a.1 = b.1 ∧ R σ a.2 b.2) ps ps' →
      (∀ τ q q', R τ q q' → Parsers τ q q') → (∀ τ υ q q', τ ≤ υ → R τ q q' → R υ q q') →
      Parsers σ (.choice ps) (.choice ps')
  | next {σ} : Parsers σ .next .next
  | eof {σ} : Parsers σ .eof .eof
  | satisfy {σ test test'} : Functions (fun _ => (· = ·)) σ test test' → Parsers σ (.satisfy test) (.satisfy test')
  | pushBack {σ ts ts'} : List.Forall₂ σ.Values ts ts' → Parsers σ (.pushBack ts) (.pushBack ts')
  | position {σ} : Parsers σ .position .position
  | get {σ} : Parsers σ .get .get
  | put {σ s s'} : σ.Values s s' → Parsers σ (.put s) (.put s')
  | restoring {σ p p'} : Parsers σ p p' → Parsers σ (.restoring p) (.restoring p')
  | stream {σ p p'} : Parsers σ p p' → Parsers σ (.stream p) (.stream p')
  | rule {σ} (name) : Parsers σ (.rule name) (.rule name)

variable {ρ σ τ υ : Stage}

theorem Contexts.mono (h : ρ ≤ σ) {z z' : Context} (hz : ρ.Contexts z z') : σ.Contexts z z' :=
  ⟨hz.input.mono h, hz.state.mono h⟩

/-- What is left of the input has changed. -/
theorem Contexts.withInput {z z' : Context} (hz : σ.Contexts z z') {s s' : Remainder} (hs : σ.Remainders s s') :
    σ.Contexts { z with input := s } { z' with input := s' } := ⟨hs, hz.state⟩

/-- The state has changed. -/
theorem Contexts.withState {z z' : Context} (hz : σ.Contexts z z') {u u' : Value} (hu : σ.Values u u') :
    σ.Contexts { z with state := u } { z' with state := u' } := ⟨hz.input, hu⟩

namespace Acts

variable {A A' : Stage → α → α → Prop} {B : Stage → β → β → Prop} {act act' : Act α}

theorem bind (h : Acts A σ act act') {k k' : α → Act β} (hk : ∀ τ, σ ≤ τ → ∀ a b, A τ a b → Acts B τ (k a) (k' b)) :
    Acts B σ (act >>= k) (act' >>= k') := by
  show Acts B σ (Act.bind act k) (Act.bind act' k')
  induction h with
  | pure hab => exact hk _ (le_refl _) _ _ hab
  | throw he => exact .throw he
  | note id _ ih => exact .note id (ih hk)
  | width _ ih => exact .width fun n => ih n hk
  | fresh _ ih => exact .fresh fun τ hτ m m' hm => ih τ hτ m m' hm fun υ hυ => hk υ (le_trans hτ hυ)

theorem imp (hA : ∀ τ a b, A τ a b → A' τ a b) (h : Acts A σ act act') : Acts A' σ act act' := by
  induction h with
  | pure hab => exact .pure (hA _ _ _ hab)
  | throw he => exact .throw he
  | note id _ ih => exact .note id ih
  | width _ ih => exact .width ih
  | fresh _ ih => exact .fresh ih

/-- New arrays of values that are the same. -/
theorem array {vs vs' : List Value} (h : List.Forall₂ σ.Values vs vs') :
    Acts Values σ (Act.array vs) (Act.array vs') :=
  .fresh fun _ hτ _ _ hm => .pure (.array hm (Values.mono_all hτ h))

end Acts

theorem Functions.mono {A : Stage → α → α → Prop} (h : ρ ≤ σ) {f f' : Value → Act α} (hf : Functions A ρ f f') :
    Functions A σ f f' := fun τ hτ => hf τ (le_trans h hτ)

theorem Functions.imp {A A' : Stage → α → α → Prop} (hA : ∀ τ a b, A τ a b → A' τ a b) {f f' : Value → Act α}
    (hf : Functions A σ f f') : Functions A' σ f f' := fun τ hτ v v' hv => (hf τ hτ v v' hv).imp hA

theorem Rewordings.mono (h : ρ ≤ σ) {f f' : String → Act String} (hf : ρ.Rewordings f f') : σ.Rewordings f f' :=
  fun τ hτ => hf τ (le_trans h hτ)

theorem Parsers.mono {p p' : Parser} (h : ρ.Parsers p p') : ∀ {σ}, ρ ≤ σ → σ.Parsers p p' := by
  induction h with
  | pure hv => exact fun h => .pure (hv.mono h)
  | fail m => exact fun _ => .fail m
  | map _ hf ih => exact fun h => .map (ih h) (hf.mono h)
  | bind R _ hk hR ih => exact fun h => .bind R (ih h) (hk.mono h) hR
  | orElse _ _ ihp ihq => exact fun h => .orElse (ihp h) (ihq h)
  | loop R hinit hstep hR => exact fun h => .loop R (hinit.mono h) (hstep.mono h) hR
  | commit _ ih => exact fun h => .commit (ih h)
  | reword _ hf ih => exact fun h => .reword (ih h) (hf.mono h)
  | choice R hps hR hmono => exact fun h => .choice R (hps.imp fun _ _ hab => ⟨hab.1, hmono _ _ _ _ h hab.2⟩) hR hmono
  | next => exact fun _ => .next
  | eof => exact fun _ => .eof
  | satisfy htest => exact fun h => .satisfy (htest.mono h)
  | pushBack hts => exact fun h => .pushBack (Values.mono_all h hts)
  | position => exact fun _ => .position
  | get => exact fun _ => .get
  | put hs => exact fun h => .put (hs.mono h)
  | restoring _ ih => exact fun h => .restoring (ih h)
  | stream _ ih => exact fun h => .stream (ih h)
  | rule name => exact fun _ => .rule name

theorem values_monotone : Monotone Values := fun _ _ h _ _ hv => hv.mono h

theorem parsers_monotone : Monotone Parsers := fun _ _ h _ _ hp => hp.mono h

end Stage

/-- A term whose callbacks are pure: whatever the names are, they do the same to what is the same. -/
def Parser.Pure (p : Parser) : Prop := ∀ σ : Stage, σ.Parsers p p

namespace Stage

variable {α β : Type} {ρ σ τ υ : Stage}

/-! ## Worlds -/

/-- A node that waits in both runs. -/
structure Waits (σ : Stage) (u u' : Unparsed) : Prop where
  item : σ.Parsers u.item u'.item
  start : σ.Contexts u.start u'.start
  committed : u.committed = u'.committed

/-- What a success turns out to be in both runs. -/
inductive Finishes (σ : Stage) : Finish → Finish → Prop
  | plain : Finishes σ .plain .plain
  | committed : Finishes σ .committed .committed
  | failed {z z'} (m) : σ.Contexts z z' → Finishes σ (.failed z m) (.failed z' m)

/-- Where a list stopped in both runs. -/
structure Stops (σ : Stage) (e e' : ListEnd) : Prop where
  rest : σ.Contexts e.rest e'.rest
  finish : σ.Finishes e.finish e'.finish

/-- A node of two lists that are paired. The node after it is one of the same lists. -/
inductive Nodes (l l' : Nat) (σ : Stage) : Node → Node → Prop
  | item {v v'} (k : Nat) : σ.Values v v' → σ.lists.pairs l l' →
      Nodes l l' σ (.item v (nodeNumber l k)) (.item v' (nodeNumber l' k))
  | ended {e e'} : σ.Stops e e' → Nodes l l' σ (.ended e) (.ended e')

/-- A cell of two lists. -/
inductive Cells (l l' : Nat) (σ : Stage) : Cell Unparsed Node → Cell Unparsed Node → Prop
  | pending {u u'} : σ.Waits u u' → Cells l l' σ (.pending u) (.pending u')
  | forcing : Cells l l' σ .forcing .forcing
  | forced {x x'} : Nodes l l' σ x x' → Cells l l' σ (.forced x) (.forced x')

theorem Finishes.mono (h : ρ ≤ σ) {f f' : Finish} (hf : ρ.Finishes f f') : σ.Finishes f f' := by
  cases hf with
  | plain => exact .plain
  | committed => exact .committed
  | failed m hz => exact .failed m (hz.mono h)

theorem Stops.mono (h : ρ ≤ σ) {e e' : ListEnd} (he : ρ.Stops e e') : σ.Stops e e' := ⟨he.rest.mono h, he.finish.mono h⟩

theorem Nodes.mono (h : ρ ≤ σ) {l l' : Nat} {x x' : Node} (hx : Nodes l l' ρ x x') : Nodes l l' σ x x' := by
  cases hx with
  | item k hv hl => exact .item k (hv.mono h) (lists_le h hl)
  | ended he => exact .ended (he.mono h)

theorem Waits.mono (h : ρ ≤ σ) {u u' : Unparsed} (hu : ρ.Waits u u') : σ.Waits u u' :=
  ⟨hu.item.mono h, hu.start.mono h, hu.committed⟩

theorem Cells.mono (h : ρ ≤ σ) {l l' : Nat} {c c' : Cell Unparsed Node} (hc : Cells l l' ρ c c') : Cells l l' σ c c' := by
  cases hc with
  | pending hu => exact .pending (hu.mono h)
  | forcing => exact .forcing
  | forced hx => exact .forced (hx.mono h)

/-- Lists that are paired in two worlds, with the same nodes in both. -/
def SameList (σ : Stage) (w w' : World) (l l' : Nat) : Prop :=
  ∀ k : Nat, Option.Rel (Cells l l' σ) (w.nodesOf l)[k]? (w'.nodesOf l')[k]?

theorem SameList.mono (h : ρ ≤ σ) {w w' : World} {l l' : Nat} (hl : ρ.SameList w w' l l') : σ.SameList w w' l l' := by
  intro k
  have hcell := hl k
  generalize (w.nodesOf l)[k]? = c at hcell ⊢
  generalize (w'.nodesOf l')[k]? = c' at hcell ⊢
  cases hcell with
  | none => exact .none
  | some hc => exact .some (hc.mono h)

/-- Worlds of both runs. Lists that are paired have the same nodes if they are not below the floors. -/
structure Worlds (S : Supply) (f f' : Nat) (σ : Stage) (w w' : World) : Prop where
  feeds : S.Feeds σ w.feed w'.feed
  floor : f ≤ w.lists.size
  floor' : f' ≤ w'.lists.size
  made : ∀ m m', σ.made.pairs m m' → m < w.made ∧ m' < w'.made
  lists : ∀ l l', σ.lists.pairs l l' → l < w.lists.size ∧ l' < w'.lists.size
  same : ∀ l l', σ.lists.pairs l l' → f ≤ l → f' ≤ l' → σ.SameList w w' l l'

end Stage

/-- What a run does to a world in which it does not touch the lists below a floor. -/
structure World.Leaves (f : Nat) (w w₁ : World) : Prop where
  later : w.feed.Later w₁.feed
  made : w.made ≤ w₁.made
  size : w.lists.size ≤ w₁.lists.size
  below : ∀ l < f, w₁.nodesOf l = w.nodesOf l

namespace World.Leaves

variable {f : Nat} {w w₁ w₂ : World}

theorem refl (f : Nat) (w : World) : w.Leaves f w := ⟨.refl, Nat.le_refl _, Nat.le_refl _, fun _ _ => rfl⟩

theorem trans (h : w.Leaves f w₁) (h' : w₁.Leaves f w₂) : w.Leaves f w₂ :=
  ⟨h.later.trans h'.later, Nat.le_trans h.made h'.made, Nat.le_trans h.size h'.size,
    fun l hl => (h'.below l hl).trans (h.below l hl)⟩

end World.Leaves

namespace Stage

variable {α β : Type} {ρ σ τ υ : Stage} {S : Supply} {f f' : Nat} {w w' w₁ w₁' w₂ w₂' : World}

/-- From one stage to a later one: lists are paired that were not there before, and nothing below the floors changes. -/
structure Onward (f f' : Nat) (σ τ : Stage) (w w' w₁ w₁' : World) : Prop where
  le : σ ≤ τ
  new : ∀ l l', τ.lists.pairs l l' → σ.lists.pairs l l' ∨ w.lists.size ≤ l ∧ w'.lists.size ≤ l'
  first : w.Leaves f w₁
  second : w'.Leaves f' w₁'

theorem Onward.refl (f f' : Nat) (σ : Stage) (w w' : World) : Onward f f' σ σ w w' w w' :=
  ⟨le_refl _, fun _ _ => .inl, .refl _ _, .refl _ _⟩

theorem Onward.trans (h : Onward f f' σ τ w w' w₁ w₁') (h' : Onward f f' τ υ w₁ w₁' w₂ w₂') :
    Onward f f' σ υ w w' w₂ w₂' := by
  refine ⟨le_trans h.le h'.le, fun l l' hl => ?_, h.first.trans h'.first, h.second.trans h'.second⟩
  rcases h'.new l l' hl with hτ | ⟨hnew, hnew'⟩
  · exact h.new l l' hτ
  · exact .inr ⟨Nat.le_trans h.first.size hnew, Nat.le_trans h.second.size hnew'⟩

namespace Worlds

/-- Lists that are there already may be put below the floors. -/
theorem raise (h : Worlds S f f' σ w w') : Worlds S w.lists.size w'.lists.size σ w w' :=
  ⟨h.feeds, Nat.le_refl _, Nat.le_refl _, h.made, h.lists,
    fun l l' hl hf _ => absurd (h.lists l l' hl).1 (Nat.not_lt_of_le hf)⟩

/-- A run of the first world that leaves all lists alone can be taken back. -/
theorem stopped (h : Worlds S f f' σ w w') (hleaves : w.Leaves w.lists.size w₁) : Worlds S f f' σ w₁ w' := by
  refine ⟨⟨h.feeds.first.later hleaves.later, h.feeds.second, h.feeds.steady,
    Nat.le_trans h.feeds.reach hleaves.later.size_le, h.feeds.reach'⟩, Nat.le_trans h.floor hleaves.size, h.floor',
    fun m m' hm => ⟨Nat.lt_of_lt_of_le (h.made m m' hm).1 hleaves.made, (h.made m m' hm).2⟩,
    fun l l' hl => ⟨Nat.lt_of_lt_of_le (h.lists l l' hl).1 hleaves.size, (h.lists l l' hl).2⟩, fun l l' hl hf hf' k => ?_⟩
  rw [hleaves.below l (h.lists l l' hl).1]
  exact h.same l l' hl hf hf' k

/-- What is read and made in both worlds alike keeps them alike. -/
theorem quiet (h : Worlds S f f' σ w w') (hστ : σ ≤ τ) (hpairs : τ.lists = σ.lists) (hfeeds : S.Feeds τ w₁.feed w₁'.feed)
    (hmade : ∀ m m', τ.made.pairs m m' → m < w₁.made ∧ m' < w₁'.made) (hlists : w₁.lists = w.lists)
    (hlists' : w₁'.lists = w'.lists) : Worlds S f f' τ w₁ w₁' := by
  have hnodes : ∀ l, w₁.nodesOf l = w.nodesOf l := fun l => by rw [World.nodesOf, World.nodesOf, hlists]
  have hnodes' : ∀ l, w₁'.nodesOf l = w'.nodesOf l := fun l => by rw [World.nodesOf, World.nodesOf, hlists']
  refine ⟨hfeeds, hlists ▸ h.floor, hlists' ▸ h.floor', hmade, ?_, ?_⟩
  · rw [hpairs, hlists, hlists']
    exact h.lists
  · intro l l' hl hf hf' k
    rw [hnodes, hnodes']
    rw [hpairs] at hl
    exact ((h.same l l' hl hf hf').mono hστ) k

end Worlds

/-! ## Runs -/

/-- How two runs end: alike, or the source has stopped the first one. -/
inductive Ends (S : Supply) (f f' : Nat) (A : Stage → α → α → Prop) (σ : Stage) (w w' : World) :
    Except Halt α × World → Except Halt α × World → Prop
  | ok {τ : Stage} {a b : α} {w₁ w₁' : World} : A τ a b → Worlds S f f' τ w₁ w₁' → Onward f f' σ τ w w' w₁ w₁' →
      Ends S f f' A σ w w' (.ok a, w₁) (.ok b, w₁')
  | fault {τ : Stage} {e : Fault} {w₁ w₁' : World} : (∀ c, e ≠ .source c) → Worlds S f f' τ w₁ w₁' → Onward f f' σ τ w w' w₁ w₁' →
      Ends S f f' A σ w w' (.error (.fault e), w₁) (.error (.fault e), w₁')
  | stopped {c : Nat} {w₁ : World} (r : Except Halt α × World) : w.Leaves f w₁ → w.feed.Fails w₁.feed c →
      Ends S f f' A σ w w' (.error (.fault (.source c)), w₁) r
  | outOfFuel (w₁ w₁' : World) : Ends S f f' A σ w w' (.error .outOfFuel, w₁) (.error .outOfFuel, w₁')

/-- Runs that end alike from worlds of this stage and later ones, unless the first one is stopped. -/
def Runs (S : Supply) (f f' : Nat) (A : Stage → α → α → Prop) (σ : Stage) (x y : Run α) : Prop :=
  ∀ τ, σ ≤ τ → ∀ w w', Worlds S f f' τ w w' → Ends S f f' A τ w w' (x w) (y w')

variable {A : Stage → α → α → Prop} {B : Stage → β → β → Prop} {x y : Run α}

namespace Runs

theorem later (h : Runs S f f' A σ x y) (hστ : σ ≤ τ) : Runs S f f' A τ x y := fun υ hυ => h υ (le_trans hστ hυ)

theorem pure {a b : α} (h : ∀ τ, σ ≤ τ → A τ a b) : Runs S f f' A σ (Pure.pure a) (Pure.pure b) :=
  fun τ hτ _ _ hw => .ok (h τ hτ) hw (.refl _ _ _ _ _)

theorem fault {e : Fault} (he : ∀ c, e ≠ .source c) : Runs S f f' A σ (Run.fault e) (Run.fault e) :=
  fun _ _ _ _ hw => .fault he hw (.refl _ _ _ _ _)

/-- The report of a choice. -/
theorem report (width : Nat) (failures : List (String × String)) :
    Runs S f f' (fun _ => (· = ·)) σ (Run.ofExcept (Message.choiceReport width failures))
      (Run.ofExcept (Message.choiceReport width failures)) := by
  obtain h | ⟨m, h⟩ := Message.choiceReport_cases width failures
  · rw [h]
    exact .fault nofun
  · rw [h]
    exact .pure fun _ _ => rfl

/-- The message about a token. -/
theorem unexpected {t t' : Value} (ht : σ.Values t t') :
    Runs S f f' (fun _ => (· = ·)) σ (Run.ofExcept (Message.unexpected t)) (Run.ofExcept (Message.unexpected t')) := by
  rw [← ht.unexpected]
  cases h : Message.unexpected t with
  | ok m => exact .pure fun _ _ => rfl
  | error e =>
    obtain ⟨m, rfl⟩ := Message.unexpected_error h
    exact .fault nofun

theorem outOfFuel : Runs S f f' A σ (Run.halt .outOfFuel) (Run.halt .outOfFuel) := fun _ _ w w' _ => .outOfFuel w w'

theorem bind {g h : α → Run β} (hx : Runs S f f' A σ x y)
    (hg : ∀ τ, σ ≤ τ → ∀ a b, A τ a b → Runs S f f' B τ (g a) (h b)) : Runs S f f' B σ (x >>= g) (y >>= h) := by
  intro τ hτ w w' hw
  have hends := hx τ hτ w w' hw
  show Ends S f f' B τ w w' (Run.bind x g w) (Run.bind y h w')
  unfold Run.bind
  generalize x w = r at hends ⊢
  generalize y w' = r' at hends ⊢
  cases hends with
  | outOfFuel w₁ w₁' => exact .outOfFuel w₁ w₁'
  | stopped _ hleaves hfails => exact .stopped _ hleaves hfails
  | fault he hw₁ hon => exact .fault he hw₁ hon
  | @ok υ a b w₁ w₁' hab hw₁ hon =>
    have hends₁ := hg υ (le_trans hτ hon.le) a b hab υ (le_refl υ) w₁ w₁' hw₁
    dsimp only
    generalize g a w₁ = r at hends₁ ⊢
    generalize h b w₁' = r' at hends₁ ⊢
    cases hends₁ with
    | outOfFuel w₂ w₂' => exact .outOfFuel w₂ w₂'
    | ok hab₁ hw₂ hon₁ => exact .ok hab₁ hw₂ (hon.trans hon₁)
    | fault he hw₂ hon₁ => exact .fault he hw₂ (hon.trans hon₁)
    | stopped _ hleaves hfails =>
      -- the call that failed was made after those of the first part
      refine .stopped _ (hon.first.trans hleaves) ⟨?_, hfails.after, ?_⟩
      · exact Nat.lt_of_le_of_lt hon.first.later.calls_le hfails.before
      · rw [← hon.first.later.source_eq]
        exact hfails.failed

/-- Runs that answer and change neither what was read nor the lists. -/
theorem quiet {a b : α} (hab : ∀ τ, σ ≤ τ → A τ a b) {g h : World → World} (hx : ∀ w, x w = (.ok a, g w))
    (hy : ∀ w, y w = (.ok b, h w)) (hg : ∀ w, (g w).feed = w.feed ∧ (g w).lists = w.lists ∧ (g w).made = w.made)
    (hh : ∀ w, (h w).feed = w.feed ∧ (h w).lists = w.lists ∧ (h w).made = w.made) : Runs S f f' A σ x y := by
  intro τ hτ w w' hw
  obtain ⟨hfeed, hlists, hmade⟩ := hg w
  obtain ⟨hfeed', hlists', hmade'⟩ := hh w'
  have hleaves : ∀ {f : Nat} {w w₁ : World}, w₁.feed = w.feed → w₁.lists = w.lists → w₁.made = w.made → w.Leaves f w₁ := by
    intro f w w₁ hfeed hlists hmade
    exact ⟨hfeed ▸ .refl, Nat.le_of_eq hmade.symm, Nat.le_of_eq (congrArg _ hlists.symm),
      fun l _ => by rw [World.nodesOf, World.nodesOf, hlists]⟩
  rw [hx, hy]
  refine .ok (hab τ hτ) (hw.quiet (le_refl τ) rfl ?_ ?_ hlists hlists')
    ⟨le_refl τ, fun _ _ => .inl, hleaves hfeed hlists hmade, hleaves hfeed' hlists' hmade'⟩
  · rw [hfeed, hfeed']
    exact hw.feeds
  · rw [hmade, hmade']
    exact hw.made

theorem print (lines lines' : List Line) : Runs S f f' (fun _ => (· = ·)) σ (Run.print lines) (Run.print lines') :=
  quiet (fun _ _ => rfl) (fun _ => rfl) (fun _ => rfl) (fun _ => ⟨rfl, rfl, rfl⟩) fun _ => ⟨rfl, rfl, rfl⟩

theorem note (id : String) : Runs S f f' (fun _ => (· = ·)) σ (Run.note id) (Run.note id) :=
  quiet (fun _ _ => rfl) (fun _ => rfl) (fun _ => rfl) (fun _ => ⟨rfl, rfl, rfl⟩) fun _ => ⟨rfl, rfl, rfl⟩

/-- Both runs make a value. -/
theorem identity : Runs S f f' (fun τ id id' => ∃ m m', id = .made m ∧ id' = .made m' ∧ τ.made.pairs m m') σ Run.identity
    Run.identity := by
  intro τ hτ w w' hw
  have hnew : τ.made.New w.made w'.made :=
    ⟨fun n hn => Nat.lt_irrefl _ (hw.made _ n hn).1, fun m hm => Nat.lt_irrefl _ (hw.made m _ hm).2⟩
  let υ : Stage := { τ with made := τ.made.add hnew }
  have hle : τ ≤ υ := ⟨le_refl _, Pairing.le_add hnew, Nat.le_refl _⟩
  have hleaves : ∀ (f : Nat) (w : World), w.Leaves f { w with made := w.made + 1 } :=
    fun f w => ⟨.refl, Nat.le_succ _, Nat.le_refl _, fun _ _ => rfl⟩
  refine .ok ⟨_, _, rfl, rfl, show υ.made.pairs _ _ from .inr ⟨rfl, rfl⟩⟩ (hw.quiet hle rfl ?_ ?_ rfl rfl)
    ⟨hle, fun _ _ => .inl, hleaves f w, hleaves f' w'⟩
  · exact ⟨hw.feeds.first, hw.feeds.second, hw.feeds.steady, hw.feeds.reach, hw.feeds.reach'⟩
  · rintro m n (hmn | ⟨rfl, rfl⟩)
    · exact ⟨Nat.lt_succ_of_lt (hw.made m n hmn).1, Nat.lt_succ_of_lt (hw.made m n hmn).2⟩
    · exact ⟨Nat.lt_succ_self _, Nat.lt_succ_self _⟩

theorem next? {s s' : Remainder} (hs : σ.Remainders s s') :
    Runs S f f' (fun τ => Remainder.Taking τ.Values τ.Remainders) σ (Run.next? s) (Run.next? s') := by
  intro τ hτ w w' hw
  have hrun : ∀ (s : Remainder) (w : World), Run.next? s w = ((s.next? w.feed).1.mapError .fault, { w with
      feed := (s.next? w.feed).2
      journal := if (s.next? w.feed).2.calls = w.feed.calls then w.journal else .called :: w.journal }) := fun _ _ => rfl
  have hnext := (hs.mono hτ).next? hw.feeds
  have hlater := s.later_next? w.feed
  have hlater' := s'.later_next? w'.feed
  rw [hrun, hrun]
  rcases hnext with ⟨c, hstop, hfails⟩ | ⟨n, x, x', hx, hx', hfeeds, htaking⟩
  · rw [hstop]
    exact .stopped _ ⟨hlater, Nat.le_refl _, Nat.le_refl _, fun _ _ => rfl⟩ hfails
  · rw [hx, hx']
    refine .ok htaking (hw.quiet (τ.le_reaching n) rfl hfeeds hw.made rfl rfl) ⟨τ.le_reaching n, fun _ _ => .inl, ?_, ?_⟩
    · exact ⟨hlater, Nat.le_refl _, Nat.le_refl _, fun _ _ => rfl⟩
    · exact ⟨hlater', Nat.le_refl _, Nat.le_refl _, fun _ _ => rfl⟩

end Runs

/-- **Callbacks that do the same end alike,** and are never stopped by the source. -/
theorem Acts.runs (hA : Monotone A) {env : Env} {lists lists' : Lists} {act act' : Act α} (h : Acts A σ act act') :
    Runs S f f' A σ (act.exec env lists) (act'.exec env lists') := by
  induction h with
  | pure hab => exact .pure fun τ hτ => hA hτ _ _ hab
  | throw he => exact .fault he
  | note id _ ih =>
    rw [Act.exec_note, Act.exec_note]
    exact (Runs.note id).bind fun τ hτ _ _ _ => ih.later hτ
  | width _ ih => exact ih _
  | fresh _ ih =>
    rw [Act.exec_fresh, Act.exec_fresh]
    refine Runs.identity.bind fun τ hτ id id' hid => ?_
    obtain ⟨m, m', rfl, rfl, hm⟩ := hid
    exact ih τ hτ m m' hm

/-! ## The strict engine -/

/-- Results that are the same but for names. -/
def Outcomes (σ : Stage) : Strict.Outcome → Strict.Outcome → Prop := Result.Alike σ.Contexts σ.Values

section Strict

variable {r r' : Strict.Outcome}

theorem Outcomes.mono (h : ρ ≤ σ) (hr : ρ.Outcomes r r') : σ.Outcomes r r' :=
  hr.imp (fun _ _ => Contexts.mono h) fun _ _ => Values.mono h

theorem Outcomes.success {z z' : Context} (hz : σ.Contexts z z') {v v' : Value} (hv : σ.Values v v') :
    σ.Outcomes (.success z v) (.success z' v') := .plain (.success hz hv)

theorem Outcomes.failure {z z' : Context} (hz : σ.Contexts z z') (m : String) :
    σ.Outcomes (.failure z m) (.failure z' m) := .plain (.failure hz m)

/-- Committing results. -/
theorem Runs.committing {x y : Run Strict.Outcome} (h : Runs S f f' Outcomes σ x y) :
    Runs S f f' Outcomes σ (x >>= fun r => Pure.pure r.commit) (y >>= fun r => Pure.pure r.commit) :=
  h.bind fun _ _ _ _ hr => .pure fun _ hτ => (hr.mono hτ).commit

theorem Runs.outcome (hr : σ.Outcomes r r') : Runs S f f' Outcomes σ (Pure.pure r) (Pure.pure r') :=
  .pure fun _ hτ => hr.mono hτ

/-- Going on after a success. -/
theorem Outcomes.bind (hr : σ.Outcomes r r') {k k' : Context → Value → Run Strict.Outcome}
    (hk : ∀ z z' v v', σ.Contexts z z' → σ.Values v v' → Runs S f f' Outcomes σ (k z v) (k' z' v')) :
    Runs S f f' Outcomes σ (r.bind k) (r'.bind k') := by
  match hr with
  | .plain (.success hz hv) => exact hk _ _ _ _ hz hv
  | .plain (.failure hz m) => exact .outcome (.failure hz m)
  | .committed (.success hz hv) => exact (hk _ _ _ _ hz hv).committing
  | .committed (.failure hz m) => exact .outcome (.committed (.failure hz m))

/-- Changing the value of a success. -/
theorem Outcomes.map (hr : σ.Outcomes r r') {k k' : Value → Run Value}
    (hk : ∀ v v', σ.Values v v' → Runs S f f' Values σ (k v) (k' v')) :
    Runs S f f' Outcomes σ (r.map k) (r'.map k') := by
  match hr with
  | .plain (.success hz hv) => exact (hk _ _ hv).bind fun τ hτ _ _ hv => .outcome (.success (hz.mono hτ) hv)
  | .plain (.failure hz m) => exact .outcome (.failure hz m)
  | .committed (.success hz hv) =>
    exact (hk _ _ hv).bind fun τ hτ _ _ hv => .outcome (.committed (.success (hz.mono hτ) hv))
  | .committed (.failure hz m) => exact .outcome (.committed (.failure hz m))

/-- Changing the message of a failure. -/
theorem Outcomes.adjust (hr : σ.Outcomes r r') {k k' : String → Run String}
    (hk : ∀ m, Runs S f f' (fun _ => (· = ·)) σ (k m) (k' m)) :
    Runs S f f' Outcomes σ (r.adjust k) (r'.adjust k') := by
  match hr with
  | .plain (.success hz hv) => exact .outcome (.plain (.success hz hv))
  | .plain (.failure hz m) => exact (hk m).bind fun τ hτ m _ hm => hm ▸ .outcome (.plain (.failure (hz.mono hτ) m))
  | .committed (.success hz hv) => exact .outcome (.committed (.success hz hv))
  | .committed (.failure hz m) =>
    exact (hk m).bind fun τ hτ m _ hm => hm ▸ .outcome (.committed (.failure (hz.mono hτ) m))

/-- Changing the context of a failure. -/
theorem Outcomes.onFailureRest (hr : σ.Outcomes r r') {g g' : Context → Context}
    (hg : ∀ z z', σ.Contexts z z' → σ.Contexts (g z) (g' z')) : σ.Outcomes (r.onFailureRest g) (r'.onFailureRest g') := by
  match hr with
  | .plain (.success hz hv) => exact .plain (.success hz hv)
  | .plain (.failure hz m) => exact .plain (.failure (hg _ _ hz) m)
  | .committed (.success hz hv) => exact .committed (.success hz hv)
  | .committed (.failure hz m) => exact .committed (.failure (hg _ _ hz) m)

end Strict

end Stage

namespace Strict

open Stage

variable {σ : Stage} {S : Supply} {f f' : Nat} {env : Env} {apply : Parser → Context → Run Outcome}

section Parts

variable (happly : ∀ σ p p' z z', σ.Parsers p p' → σ.Contexts z z' → Runs S f f' Outcomes σ (apply p z) (apply p' z'))

include happly

theorem alternatives_interrupted {z z' : Context} {ps ps' : List (String × Parser)}
    (hps : List.Forall₂ (fun a b => a.1 = b.1 ∧ σ.Parsers a.2 b.2) ps ps') (hz : σ.Contexts z z') :
    ∀ failures, Runs S f f' Outcomes σ (alternatives env apply z failures ps) (alternatives env apply z' failures ps') := by
  induction hps with
  | nil =>
    intro failures
    exact (Runs.report _ _).bind fun τ hτ m _ hm => hm ▸ .outcome (.failure (hz.mono hτ) m)
  | @cons a b ps ps' hab _ ih =>
    intro failures
    obtain ⟨label, p⟩ := a
    obtain ⟨_, p'⟩ := b
    obtain ⟨rfl, hp⟩ := hab
    refine (happly σ p p' z z' hp hz).bind fun τ hτ r r' hr => ?_
    match hr with
    | .plain (.success hz hv) => exact .outcome (.plain (.success hz hv))
    | .plain (.failure _ m) => exact (Runs.print _ _).bind fun υ hυ _ _ _ => (ih _).later (le_trans hτ hυ)
    | .committed (.success hz hv) => exact .outcome (.committed (.success hz hv))
    | .committed (.failure hz m) => exact .outcome (.committed (.failure hz m))

theorem turns_interrupted {step step' : Value → Act Parser} (hstep : Functions Parsers σ step step') :
    ∀ (n : Nat) (committed : Bool) {τ : Stage}, σ ≤ τ → ∀ {state state' : Value}, τ.Values state state' →
      ∀ {z z' : Context}, τ.Contexts z z' →
        Runs S f f' Outcomes τ (turns env apply step n committed state z) (turns env apply step' n committed state' z')
  | 0, _, _, _, _, _, _, _, _, _ => .outOfFuel
  | n + 1, committed, τ, hτ, state, state', hstate, z, z', hz => by
    refine ((hstep τ hτ _ _ hstate).runs parsers_monotone).bind fun υ hυ p p' hp => ?_
    refine (happly υ p p' z z' hp (hz.mono hυ)).bind fun φ hφ r r' hr => ?_
    rw [show r.isCommitted = r'.isCommitted from hr.isCommitted.symm]
    have hverdict := hr.verdict
    generalize r.verdict = v at hverdict ⊢
    generalize r'.verdict = v' at hverdict ⊢
    cases hverdict with
    | failure hz m => exact .outcome (Result.Alike.commitIf (.plain (.failure hz m)) _)
    | success hz hv =>
      have hnext := hv.toStep
      dsimp only
      generalize Value.toStep _ = s at hnext ⊢
      generalize Value.toStep _ = s' at hnext ⊢
      cases hnext with
      | done hv => exact .outcome (Result.Alike.commitIf (.plain (.success hz hv)) _)
      | again hv => exact turns_interrupted hstep n _ (le_trans hτ (le_trans hυ hφ)) hv hz

end Parts

/-- **The strict engine does the same in both runs,** up to the first call of the source that fails. -/
theorem run_interrupted (hg : ∀ name, (env.grammar name).Pure) :
    ∀ (n : Nat) {σ : Stage} {p p' : Parser} {z z' : Context}, σ.Parsers p p' → σ.Contexts z z' →
      Runs S f f' Outcomes σ (run env n p z) (run env n p' z')
  | 0, _, _, _, _, _, _, _ => .outOfFuel
  | n + 1, σ, p, p', z, z', hp, hz => by
    have ih : ∀ σ p p' z z', σ.Parsers p p' → σ.Contexts z z' → Runs S f f' Outcomes σ (run env n p z) (run env n p' z') :=
      fun _ _ _ _ _ => run_interrupted hg n
    cases hp with
    | pure hv => exact .outcome (.success hz hv)
    | fail m => exact .outcome (.failure hz m)
    | map hp hf =>
      refine (ih _ _ _ _ _ hp hz).bind fun τ hτ r r' hr => hr.map fun v v' hv => ?_
      exact (hf τ hτ v v' hv).runs values_monotone
    | bind R hp hk hR =>
      refine (ih _ _ _ _ _ hp hz).bind fun τ hτ r r' hr => hr.bind fun z z' v v' hz hv => ?_
      refine (((hk τ hτ v v' hv).imp hR).runs parsers_monotone).bind fun υ hυ q q' hq => ?_
      exact ih υ q q' z z' hq (hz.mono hυ)
    | orElse hp hq =>
      refine (ih _ _ _ _ _ hp hz).bind fun τ hτ r r' hr => ?_
      match hr with
      | .plain (.success hz hv) => exact .outcome (.plain (.success hz hv))
      | .plain (.failure _ _) => exact ih τ _ _ z z' (hq.mono hτ) (hz.mono hτ)
      | .committed (.success hz hv) => exact .outcome (.committed (.success hz hv))
      | .committed (.failure hz m) => exact .outcome (.committed (.failure hz m))
    | loop R hinit hstep hR => exact turns_interrupted ih (hstep.imp hR) n false (le_refl σ) hinit hz
    | commit hp => exact (ih _ _ _ _ _ hp hz).committing
    | reword hp hf =>
      refine (ih _ _ _ _ _ hp hz).bind fun τ hτ r r' hr => hr.adjust fun m => ?_
      exact (hf τ hτ m).runs monotone_const
    | choice R hps hR _ =>
      exact alternatives_interrupted ih (hps.imp fun _ _ hab => ⟨hab.1, hR _ _ _ hab.2⟩) hz []
    | next =>
      refine (Runs.next? hz.input).bind fun τ hτ x x' hx => ?_
      cases hx with
      | none => exact .outcome (.failure (hz.mono hτ) _)
      | some ht hrest => exact .outcome (.success ((hz.mono hτ).withInput hrest) ht)
    | eof =>
      refine (Runs.next? hz.input).bind fun τ hτ x x' hx => ?_
      cases hx with
      | none => exact .outcome (.success (hz.mono hτ) (.of_names rfl))
      | some _ _ => exact .outcome (.failure (hz.mono hτ) _)
    | satisfy htest =>
      refine (Runs.next? hz.input).bind fun τ hτ x x' hx => ?_
      cases hx with
      | none => exact .outcome (.failure (hz.mono hτ) _)
      | some ht hrest =>
        refine ((htest τ hτ _ _ ht).runs monotone_const).bind fun υ hυ b b' hb => ?_
        subst hb
        cases b with
        | true => exact .outcome (.success ((hz.mono (le_trans hτ hυ)).withInput (hrest.mono hυ)) (ht.mono hυ))
        | false =>
          exact (Runs.unexpected (ht.mono hυ)).bind fun φ hφ m _ hm =>
            hm ▸ .outcome (.failure (hz.mono (le_trans hτ (le_trans hυ hφ))) m)
    | pushBack hts => exact .outcome (.success (hz.withInput (hz.input.push hts)) (.of_names rfl))
    | position =>
      unfold run
      rw [hz.input.consumed]
      exact .outcome (.success hz (.of_names rfl))
    | get => exact .outcome (.success hz hz.state)
    | put hs => exact .outcome (.success (hz.withState hs) (.of_names rfl))
    | restoring hp =>
      refine (ih _ _ _ _ _ hp hz).bind fun τ hτ r r' hr => .outcome (hr.onFailureRest fun _ _ h => ?_)
      exact h.withState (hz.state.mono hτ)
    | stream _ => exact .fault nofun
    | rule name => exact ih σ _ _ z z' (hg name σ) hz

end Strict

end CommittedChoice
