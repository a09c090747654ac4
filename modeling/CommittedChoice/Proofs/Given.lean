import Mathlib.Data.Set.Lattice
import Mathlib.Order.CompletePartialOrder
import CommittedChoice.Callback
import CommittedChoice.Proofs.OnDemand.Related

/-!
# What callbacks are given

A callback comes by a list that is parsed on demand in one of three ways: the list is in its argument, it is in something
that the callback was made with, or it is in a list that the callback has read. This module says so for a set of lists that
are given, by their numbers.

- `Value.lists`: the lists in a value;
- `Given.Values`, `Given.Contexts`, `Given.Nodes`: values, contexts and nodes all of whose lists are given;
- `Given.Acts`: callbacks that read only lists that are given, and those that they find there;
- `Given.Parsers`: terms with such callbacks. A term that needs nothing to be given is closed (`Parser.Closed`).
-/

namespace CommittedChoice

/-! ## Lists in values -/

namespace Value

mutual

/-- The lists in a value, by number. -/
def lists : Value → List Nat
  | .array _ xs => listsAll xs
  | .record _ fields => listsFields fields
  | .function (.enclosing _ v) => lists v
  | .function (.applied _ _ v) => lists v
  | .function (.defined _ _ v) => lists v
  | .list i => [listOf i]
  | .step (.again v) => lists v
  | .step (.done v) => lists v
  | _ => []

/-- The lists in values. -/
def listsAll : List Value → List Nat
  | [] => []
  | x :: xs => lists x ++ listsAll xs

/-- The lists in fields. -/
def listsFields : List (String × Value) → List Nat
  | [] => []
  | (_, x) :: fields => lists x ++ listsFields fields

end

theorem mem_listsAll {l : Nat} : ∀ {xs : List Value}, l ∈ listsAll xs ↔ ∃ x ∈ xs, l ∈ x.lists
  | [] => by simp [listsAll]
  | x :: xs => by simp [listsAll, @mem_listsAll l xs]

end Value

/-- The tokens that a remainder does not have to ask the source for. -/
def Remainder.stored : Remainder → List Value
  | .tokens left _ => left
  | .chars _ _ | .fed _ => []
  | .pushed t more base _ => t :: (more ++ base.stored)
  | .shifted base _ => base.stored

namespace Given

variable {α β : Type} {K K' : Set Nat}

/-! ## Values, contexts and nodes -/

/-- A value all of whose lists are given. -/
def Values (K : Set Nat) (v : Value) : Prop := ∀ l ∈ v.lists, l ∈ K

/-- Tokens all of whose lists are given. -/
def Remainders (K : Set Nat) (s : Remainder) : Prop := ∀ t ∈ s.stored, Values K t

/-- A context all of whose lists are given. -/
structure Contexts (K : Set Nat) (z : Context) : Prop where
  input : Remainders K z.input
  state : Values K z.state

/-- What a success turns out to be, where all lists are given. -/
inductive Finishes (K : Set Nat) : Finish → Prop
  | plain : Finishes K .plain
  | committed : Finishes K .committed
  | failed {z} (m) : Contexts K z → Finishes K (.failed z m)

/-- Where a list stopped, where all lists are given. -/
structure Stops (K : Set Nat) (e : ListEnd) : Prop where
  rest : Contexts K e.rest
  finish : Finishes K e.finish

/-- A node of list `l` all of whose lists are given. The node after it is one of the same list. -/
inductive Nodes (l : Nat) (K : Set Nat) : Node → Prop
  | item {v next} : Values K v → listOf next = l → Nodes l K (.item v next)
  | ended {e} : Stops K e → Nodes l K (.ended e)

theorem Values.mono (h : K ⊆ K') {v : Value} (hv : Values K v) : Values K' v := fun l hl => h (hv l hl)

theorem Remainders.mono (h : K ⊆ K') {s : Remainder} (hs : Remainders K s) : Remainders K' s :=
  fun t ht => (hs t ht).mono h

theorem Contexts.mono (h : K ⊆ K') {z : Context} (hz : Contexts K z) : Contexts K' z := ⟨hz.input.mono h, hz.state.mono h⟩

theorem Finishes.mono (h : K ⊆ K') {f : Finish} (hf : Finishes K f) : Finishes K' f := by
  cases hf with
  | plain => exact .plain
  | committed => exact .committed
  | failed m hz => exact .failed m (hz.mono h)

theorem Stops.mono (h : K ⊆ K') {e : ListEnd} (he : Stops K e) : Stops K' e := ⟨he.rest.mono h, he.finish.mono h⟩

theorem Nodes.mono (h : K ⊆ K') {l : Nat} {x : Node} (hx : Nodes l K x) : Nodes l K' x := by
  cases hx with
  | item hv hnext => exact .item (hv.mono h) hnext
  | ended he => exact .ended (he.mono h)

namespace Values

/-- A value without lists. -/
theorem of_nil {v : Value} (h : v.lists = []) : Values K v := by
  intro l hl
  rw [h] at hl
  exact absurd hl List.not_mem_nil

theorem list {i : Nat} (hi : listOf i ∈ K) : Values K (.list i) := by
  intro l hl
  rw [Value.lists, List.mem_singleton] at hl
  exact hl ▸ hi

theorem array {id : Identity} {vs : List Value} (h : ∀ v ∈ vs, Values K v) : Values K (.array id vs) := by
  intro l hl
  rw [Value.lists] at hl
  obtain ⟨v, hv, hl⟩ := Value.mem_listsAll.1 hl
  exact h v hv l hl

/-- A record of two fields. -/
theorem record {id : Identity} {key key' : String} {u v : Value} (hu : Values K u) (hv : Values K v) :
    Values K (.record id [(key, u), (key', v)]) := by
  intro l hl
  simp only [Value.lists, Value.listsFields, List.append_nil, List.mem_append] at hl
  exact hl.elim (hu l) (hv l)

theorem toStep {v : Value} (h : Values K v) :
    (∃ u, v.toStep = .again u ∧ Values K u) ∨ ∃ u, v.toStep = .done u ∧ Values K u := by
  unfold Value.toStep
  split
  · rename_i s
    cases s with
    | again u =>
      refine .inl ⟨u, rfl, ?_⟩
      rwa [Values, Value.lists] at h
    | done u =>
      refine .inr ⟨u, rfl, ?_⟩
      rwa [Values, Value.lists] at h
  · exact .inl ⟨_, rfl, of_nil rfl⟩

end Values

/-- The state has changed. -/
theorem Contexts.withState {z : Context} (hz : Contexts K z) {u : Value} (hu : Values K u) :
    Contexts K { z with state := u } := ⟨hz.input, hu⟩

/-- What is left of the input has changed. -/
theorem Contexts.withInput {z : Context} (hz : Contexts K z) {s : Remainder} (hs : Remainders K s) :
    Contexts K { z with input := s } := ⟨hs, hz.state⟩

/-! ## Remainders -/

namespace Remainders

variable {s : Remainder}

theorem shift (hs : Remainders K s) (extra : Nat) : Remainders K (s.shift extra) := by
  unfold Remainder.shift
  split
  · exact hs
  · split <;> exact hs

theorem push (hs : Remainders K s) {ts : List Value} (hts : ∀ t ∈ ts, Values K t) : Remainders K (s.push ts) := by
  cases ts with
  | nil => exact hs
  | cons t more =>
    intro u hu
    rw [Remainder.push, Remainder.stored, ← List.cons_append] at hu
    exact (List.mem_append.1 hu).elim (hts u) (hs u)

end Remainders

end Given

/-- Tokens of a source that have no lists in them. -/
structure Feed.Listless (feed : Feed) : Prop where
  given : ∀ t ∈ feed.given, t.lists = []
  source : ∀ k t, feed.source k = .token t → t.lists = []

namespace Feed.Listless

variable {feed feed' : Feed}

theorem empty : Feed.empty.Listless := ⟨fun _ ht => absurd ht (Array.not_mem_empty _), fun _ _ h => by cases h⟩

theorem advance (h : feed.Listless) : feed.advance.Listless := by
  unfold Feed.advance
  cases hpull : feed.source feed.calls with
  | token t =>
    refine ⟨fun u hu => ?_, h.source⟩
    rcases Array.mem_push.1 hu with hu | rfl
    · exact h.given u hu
    · exact h.source _ _ hpull
  | ended => exact ⟨h.given, h.source⟩
  | failed => exact ⟨h.given, h.source⟩

theorem later (h : feed.Listless) (hlater : feed.Later feed') : feed'.Listless := by
  induction hlater with
  | refl => exact h
  | call _ _ ih => exact ih.advance

/-- A token that is read is one of them. -/
theorem read (h : feed.Listless) (n : Nat) : (∃ c, (feed.read n).1 = .error (.source c)) ∨
    ∃ o : Option Value, (feed.read n).1 = .ok o ∧ ∀ t ∈ o, t.lists = [] := by
  by_cases hn : n < feed.given.size
  · rw [Feed.read_of_lt hn]
    refine .inr ⟨_, rfl, fun t ht => ?_⟩
    cases ht
    exact h.given _ (Array.getElem_mem hn)
  cases hended : feed.ended with
  | true =>
    rw [Feed.read_of_ended (Nat.le_of_not_lt hn) hended]
    exact .inr ⟨none, rfl, nofun⟩
  | false =>
    rw [Feed.read_of_open (Nat.le_of_not_lt hn) hended]
    cases hpull : feed.source feed.calls with
    | token t =>
      refine .inr ⟨some t, rfl, fun u hu => ?_⟩
      cases hu
      exact h.source _ _ hpull
    | ended => exact .inr ⟨none, rfl, nofun⟩
    | failed => exact .inl ⟨_, rfl⟩

end Feed.Listless

namespace Given

/-- What reading a token comes to, where all lists are given. -/
inductive Readings (K : Set Nat) : Except Fault (Option (Value × Remainder)) → Prop
  | ended : Readings K (.ok none)
  | token {t rest} : Values K t → Remainders K rest → Readings K (.ok (some (t, rest)))
  | failed (c) : Readings K (.error (.source c))

/-- **Reading a token** gives no list that was not given. -/
theorem Remainders.next? {K : Set Nat} {s : Remainder} (hs : Remainders K s) {feed : Feed} (hfeed : feed.Listless) :
    Readings K (s.next? feed).1 := by
  have hnone : Remainders K (.chars [] 0) := fun _ hv => absurd hv List.not_mem_nil
  induction s with
  | tokens left n =>
    cases left with
    | nil => exact .ended
    | cons u us => exact .token (hs u (List.mem_cons_self ..)) fun v hv => hs v (List.mem_cons_of_mem _ hv)
  | chars left n =>
    cases left with
    | nil => exact .ended
    | cons c cs => exact .token (.of_nil rfl) hnone
  | fed n =>
    have hread := hfeed.read n
    rw [Remainder.next?]
    generalize feed.read n = r at hread ⊢
    obtain ⟨a, feed'⟩ := r
    obtain ⟨c, rfl⟩ | ⟨o, rfl, ho⟩ := hread
    · exact .failed c
    · cases o with
      | none => exact .ended
      | some t => exact .token (.of_nil (ho t rfl)) hnone
  | pushed u more base c _ =>
    have hu : Values K u := hs u (List.mem_cons_self ..)
    have hmore : ∀ v ∈ more ++ base.stored, Values K v := fun v hv => hs v (List.mem_cons_of_mem _ hv)
    cases more with
    | nil => exact .token hu (shift hmore _)
    | cons v vs => exact .token hu hmore
  | shifted base extra ih =>
    have hbase := ih hs
    rw [Remainder.next?]
    generalize base.next? feed = r at hbase ⊢
    obtain ⟨a, feed'⟩ := r
    cases hbase with
    | ended => exact .ended
    | token ht hrest => exact .token ht (hrest.shift extra)
    | failed c => exact .failed c

/-! ## Callbacks and terms -/

variable {α β : Type}

/-- Callbacks that read only lists that are given, and those that they find there. What they answer satisfies `A`. -/
inductive Acts (A : Set Nat → α → Prop) : Set Nat → Act α → Prop
  | pure {K a} : A K a → Acts A K (.pure a)
  | throw {K e} : e ≠ .reentered → Acts A K (.throw e)
  | note {K} (id) {act} : Acts A K act → Acts A K (.note id act)
  | width {K k} : (∀ n, Acts A K (k n)) → Acts A K (.width k)
  | count {K} (mark) {k} : (∀ n, Acts A K (k n)) → Acts A K (.count mark k)
  | fresh {K k} : (∀ id, Acts A K (k id)) → Acts A K (.fresh k)
  | node {K i k} : listOf i ∈ K → (∀ K', K ⊆ K' → ∀ x, Nodes (listOf i) K' x → Acts A K' (k x)) → Acts A K (.node i k)
  | walk {K i k} : listOf i ∈ K → (∀ K', K ⊆ K' → ∀ vs e, (∀ v ∈ vs, Values K' v) → Stops K' e → Acts A K' (k vs e)) →
      Acts A K (.walk i k)

/-- Functions whose callbacks do so. -/
def Functions (A : Set Nat → α → Prop) (K : Set Nat) (f : Value → Act α) : Prop :=
  ∀ K', K ⊆ K' → ∀ v, Values K' v → Acts A K' (f v)

/-- Nothing is said of an answer. -/
def Anything (_ : Set Nat) (_ : α) : Prop := True

/-- Functions of messages whose callbacks do so. -/
def Rewordings (K : Set Nat) (f : String → Act String) : Prop := ∀ m, Acts Anything K (f m)

/-- Terms whose callbacks read only lists that are given. The parsers that callbacks give are so again. -/
inductive Parsers : Set Nat → Parser → Prop
  | pure {K v} : Values K v → Parsers K (.pure v)
  | fail {K} (m) : Parsers K (.fail m)
  | map {K p f} : Parsers K p → Functions Values K f → Parsers K (.map p f)
  | bind {K p k} (R : Set Nat → Parser → Prop) : Parsers K p → Functions R K k → (∀ K q, R K q → Parsers K q) →
      Parsers K (.bind p k)
  | orElse {K p q} : Parsers K p → Parsers K q → Parsers K (.orElse p q)
  | loop {K init step} (R : Set Nat → Parser → Prop) : Values K init → Functions R K step →
      (∀ K q, R K q → Parsers K q) → Parsers K (.loop init step)
  | commit {K p} : Parsers K p → Parsers K (.commit p)
  | reword {K p f} : Parsers K p → Rewordings K f → Parsers K (.reword p f)
  | choice {K ps} : (∀ a ∈ ps, Parsers K a.2) → Parsers K (.choice ps)
  | next {K} : Parsers K .next
  | eof {K} : Parsers K .eof
  | satisfy {K test} : Functions Anything K test → Parsers K (.satisfy test)
  | pushBack {K ts} : (∀ t ∈ ts, Values K t) → Parsers K (.pushBack ts)
  | position {K} : Parsers K .position
  | get {K} : Parsers K .get
  | put {K u} : Values K u → Parsers K (.put u)
  | restoring {K p} : Parsers K p → Parsers K (.restoring p)
  | stream {K p} : Parsers K p → Parsers K (.stream p)
  | rule {K} (name) : Parsers K (.rule name)

variable {K K' : Set Nat}

namespace Acts

variable {A B : Set Nat → α → Prop} {act : Act α}

theorem mono (hA : Monotone A) (h : Acts A K act) : ∀ {K'}, K ⊆ K' → Acts A K' act := by
  induction h with
  | pure ha => exact fun hK => .pure (hA hK _ ha)
  | throw he => exact fun _ => .throw he
  | note id _ ih => exact fun hK => .note id (ih hK)
  | width _ ih => exact fun hK => .width fun n => ih n hK
  | count mark _ ih => exact fun hK => .count mark fun n => ih n hK
  | fresh _ ih => exact fun hK => .fresh fun id => ih id hK
  | node hi hk _ => exact fun hK => .node (hK hi) fun K' hK' => hk K' (hK.trans hK')
  | walk hi hk _ => exact fun hK => .walk (hK hi) fun K' hK' => hk K' (hK.trans hK')

theorem imp (hAB : ∀ K a, A K a → B K a) (h : Acts A K act) : Acts B K act := by
  induction h with
  | pure ha => exact .pure (hAB _ _ ha)
  | throw he => exact .throw he
  | note id _ ih => exact .note id ih
  | width _ ih => exact .width ih
  | count mark _ ih => exact .count mark ih
  | fresh _ ih => exact .fresh ih
  | node hi _ ih => exact .node hi ih
  | walk hi _ ih => exact .walk hi ih

theorem bind {C : Set Nat → β → Prop} {k : α → Act β} (h : Acts A K act)
    (hk : ∀ K', K ⊆ K' → ∀ a, A K' a → Acts C K' (k a)) : Acts C K (act >>= k) := by
  show Acts C K (Act.bind act k)
  induction h with
  | pure ha => exact hk _ subset_rfl _ ha
  | throw he => exact .throw he
  | note id _ ih => exact .note id (ih hk)
  | width _ ih => exact .width fun n => ih n hk
  | count mark _ ih => exact .count mark fun n => ih n hk
  | fresh _ ih => exact .fresh fun id => ih id hk
  | node hi _ ih => exact .node hi fun K' hK' x hx => ih K' hK' x hx fun K'' hK'' => hk K'' (hK'.trans hK'')
  | walk hi _ ih =>
    exact .walk hi fun K' hK' vs e hvs he => ih K' hK' vs e hvs he fun K'' hK'' => hk K'' (hK'.trans hK'')

end Acts

theorem monotone_values : Monotone Values := fun _ _ h _ hv => hv.mono h

theorem monotone_contexts : Monotone Contexts := fun _ _ h _ hz => hz.mono h

theorem monotone_finishes : Monotone Finishes := fun _ _ h _ hf => hf.mono h

theorem monotone_anything : Monotone (@Anything α) := fun _ _ _ _ => id

theorem Functions.mono {A : Set Nat → α → Prop} (h : K ⊆ K') {f : Value → Act α} (hf : Functions A K f) :
    Functions A K' f := fun K'' hK'' => hf K'' (h.trans hK'')

theorem Functions.imp {A B : Set Nat → α → Prop} (hAB : ∀ K a, A K a → B K a) {f : Value → Act α}
    (hf : Functions A K f) : Functions B K f := fun K' hK' v hv => (hf K' hK' v hv).imp hAB

theorem Rewordings.mono (h : K ⊆ K') {f : String → Act String} (hf : Rewordings K f) : Rewordings K' f :=
  fun m => (hf m).mono monotone_anything h

/-! ### Reading lists -/

theorem Acts.array {vs : List Value} (h : ∀ v ∈ vs, Values K v) : Acts Values K (Act.array vs) :=
  .fresh fun _ => .pure (.array h)

/-- Where a list stops, a callback may stop with the failure of the list. -/
theorem Acts.atEnd {A : Set Nat → α → Prop} {a : α} {e : ListEnd} (ha : A K a) :
    Acts A K (match e.fault? with | some fault => .throw fault | none => .pure a) := by
  obtain ⟨rest, finish⟩ := e
  cases finish with
  | plain => exact .pure ha
  | committed => exact .pure ha
  | failed z m => exact .throw nofun

theorem Acts.toArray {i : Nat} (hi : listOf i ∈ K) : Acts (fun K vs => ∀ v ∈ vs, Values K v) K (Act.toArray i) :=
  .walk hi fun _ _ _ _ hvs _ => .atEnd hvs

theorem Acts.takeFrom (n : Nat) : ∀ {K : Set Nat} {i : Nat} {done : List Value}, listOf i ∈ K → (∀ v ∈ done, Values K v) →
    Acts (fun K vs => ∀ v ∈ vs, Values K v) K (Act.takeFrom n i done) := by
  induction n with
  | zero => exact fun _ hdone => .pure fun v hv => hdone v (List.mem_reverse.1 hv)
  | succ n ih =>
    intro K i done hi hdone
    refine .node hi fun K' hK' x hx => ?_
    cases hx with
    | item hv hnext =>
      refine ih (hnext ▸ hK' hi) fun u hu => ?_
      rcases List.mem_cons.1 hu with rfl | hu
      · exact hv
      · exact (hdone u hu).mono hK'
    | ended he => exact .atEnd fun v hv => (hdone v (List.mem_reverse.1 hv)).mono hK'

/-- A value that cannot be asked for something. -/
theorem lacking_ne_reentered (shown operation : String) (v : Value) : Callback.lacking shown operation v ≠ .reentered := by
  unfold Callback.lacking
  split <;> nofun

/-- **A callback may read the list that it is given,** all of it or the leading items. -/
theorem Acts.walked {v : Value} (hv : Values K v) : Acts Values K (Callback.walked v) := by
  have hitems : Acts (fun K vs => ∀ v ∈ vs, Values K v) K (Callback.listItems "x" v) := by
    unfold Callback.listItems
    split
    · exact .toArray (hv _ (List.mem_singleton_self _))
    · exact .throw (lacking_ne_reentered _ _ _)
  exact hitems.bind fun K' _ vs hvs => .array hvs

theorem Acts.taken {v : Value} (hv : Values K v) (n : Number) : Acts Values K (Callback.taken n v) := by
  have hitems : Acts (fun K vs => ∀ v ∈ vs, Values K v) K (Callback.leadingItems "x" n v) := by
    unfold Callback.leadingItems
    split
    · rename_i i
      have hi : listOf i ∈ K := hv _ (List.mem_singleton_self _)
      unfold Act.takeBelow
      split
      · exact .takeFrom _ hi nofun
      · exact .toArray hi
    · exact .throw (lacking_ne_reentered _ _ _)
  exact hitems.bind fun K' _ vs hvs => .array hvs

/-! ### Terms -/

theorem Parsers.mono {p : Parser} (h : Parsers K p) : ∀ {K'}, K ⊆ K' → Parsers K' p := by
  induction h with
  | pure hv => exact fun hK => .pure (hv.mono hK)
  | fail m => exact fun _ => .fail m
  | map _ hf ih => exact fun hK => .map (ih hK) (hf.mono hK)
  | bind R _ hk hR ih => exact fun hK => .bind R (ih hK) (hk.mono hK) hR
  | orElse _ _ ihp ihq => exact fun hK => .orElse (ihp hK) (ihq hK)
  | loop R hinit hstep hR => exact fun hK => .loop R (hinit.mono hK) (hstep.mono hK) hR
  | commit _ ih => exact fun hK => .commit (ih hK)
  | reword _ hf ih => exact fun hK => .reword (ih hK) (hf.mono hK)
  | choice _ ih => exact fun hK => .choice fun a ha => ih a ha hK
  | next => exact fun _ => .next
  | eof => exact fun _ => .eof
  | satisfy htest => exact fun hK => .satisfy (htest.mono hK)
  | pushBack hts => exact fun hK => .pushBack fun t ht => (hts t ht).mono hK
  | position => exact fun _ => .position
  | get => exact fun _ => .get
  | put hu => exact fun hK => .put (hu.mono hK)
  | restoring _ ih => exact fun hK => .restoring (ih hK)
  | stream _ ih => exact fun hK => .stream (ih hK)
  | rule name => exact fun _ => .rule name

theorem monotone_parsers : Monotone Parsers := fun _ _ h _ hp => hp.mono h

end Given

/-- A term that has no list in it: its callbacks read only lists that they are given. -/
def Parser.Closed (p : Parser) : Prop := Given.Parsers ∅ p

theorem Parser.Closed.given {p : Parser} (h : p.Closed) (K : Set Nat) : Given.Parsers K p := h.mono (Set.empty_subset K)

end CommittedChoice
