import CommittedChoice.Proofs.OnDemand.Growth
import CommittedChoice.Proofs.Terms

/-!
# Where a run can get to

A set of remainders that reading does not leave is not left by a run of the engine either: every context that an answer, a
suspended parser or a list made on the way has in it is one of the set. The lists that were there before are none of the
run's; it may read them, and whatever they hold, the lists that are within the set stay there.

- `Domain`: a set of remainders, which may depend on what was read of the feed;
- `Domain.Within`, `Domain.Answers`, `Domain.Suspends`: lists, answers and suspended parsers all of whose contexts are in the set.
  The context after a success is known, or it is the end of a list that is within the set; once the finish of the success
  is known, so is that end;
- `Domain.Ensures`: from some world on, a run keeps lists within the set and gives only what is in it;
- `Domain.means_within`: so do all parts of the engine;
- `Domain.reveal_within`: what a parser reveals is in the set, and the context after a success is anchored there.
-/

namespace CommittedChoice

open Run (limit Steady)

/-- A set of remainders that reading does not leave. -/
structure Domain where
  holds : Feed → Remainder → Prop
  later : ∀ {feed feed' s}, Feed.Later feed feed' → holds feed s → holds feed' s
  next : ∀ {feed feed' s t s'}, holds feed s → s.next? feed = (.ok (some (t, s')), feed') → holds feed' s'

namespace Domain

open OnDemand (Late Promise Frame Answer Suspended Settled Means means node walk)

variable (D : Domain)

/-! ## Contexts -/

/-- If the parser pushes tokens, it does not push them out of the set. -/
def Admits (p : Parser) : Prop := ∀ ts, p = .pushBack ts → ∀ feed s, D.holds feed s → D.holds feed (s.push ts)

/-- The context is in the set. -/
def Has (w : World) (z : Context) : Prop := D.holds w.feed z.input

/-- So is that of a failure. -/
def Finishes (w : World) (f : Finish) : Prop := ∀ z message, f = .failed z message → D.Has w z

/-- So are those of the end of a list. -/
def Ends (w : World) (e : ListEnd) : Prop := D.Has w e.rest ∧ D.Finishes w e.finish

/-! ## Lists -/

/-- What a node of list `l` has in it is in the set. -/
def Holds (w : World) (l : Nat) : Cell Unparsed Node → Prop
  | .pending u => u.item.Throughout D.Admits ∧ D.Has w u.start
  | .forcing => True
  | .forced (.item _ next) => listOf next = l
  | .forced (.ended e) => D.Ends w e

/-- The list is within the set. -/
def Within (w : World) (l : Nat) : Prop :=
  l < w.lists.size ∧ ∀ (k : Nat) (c : Cell Unparsed Node), (w.nodesOf l)[k]? = some c → D.Holds w l c

/-- Nothing is lost between the worlds, and the lists within the set stay there, but for some. -/
structure Keeps (but : Nat → Prop) (w w' : World) : Prop where
  before : w.Before w'
  list : ∀ l, ¬ but l → D.Within w l → D.Within w' l

/-- All lists within the set stay there. -/
abbrev KeepsAll (w w' : World) : Prop := D.Keeps (fun _ => False) w w'

variable {D} {w w' w'' : World} {but : Nat → Prop}

theorem Keeps.refl (w : World) : D.Keeps but w w := ⟨.refl w, fun _ _ => id⟩

theorem Keeps.trans (h : D.Keeps but w w') (h' : D.Keeps but w' w'') : D.Keeps but w w'' :=
  ⟨h.before.trans h'.before, fun l hl hlist => h'.list l hl (h.list l hl hlist)⟩

theorem Keeps.weaken (h : D.KeepsAll w w') : D.Keeps but w w' := ⟨h.before, fun l _ => h.list l id⟩

section Mono

variable (hbefore : w.Before w')

include hbefore

theorem Has.mono {z : Context} (h : D.Has w z) : D.Has w' z := D.later hbefore.feed h

theorem Finishes.mono {f : Finish} (h : D.Finishes w f) : D.Finishes w' f :=
  fun z message hf => (h z message hf).mono hbefore

theorem Ends.mono {e : ListEnd} (h : D.Ends w e) : D.Ends w' e := ⟨h.1.mono hbefore, h.2.mono hbefore⟩

theorem Holds.mono {l : Nat} {c : Cell Unparsed Node} (h : D.Holds w l c) : D.Holds w' l c := by
  match c, h with
  | .pending u, h => exact ⟨h.1, h.2.mono hbefore⟩
  | .forcing, _ => trivial
  | .forced (.item v next), h => exact h
  | .forced (.ended e), h => exact Ends.mono hbefore h

/-- A list whose nodes are those it had is within the set if it was. -/
theorem Within.of_nodes {l : Nat} (h : D.Within w l) (hnodes : ∀ (k : Nat) c, (w'.nodesOf l)[k]? = some c →
    (w.nodesOf l)[k]? = some c ∨ D.Holds w' l c) : D.Within w' l := by
  refine ⟨Nat.lt_of_lt_of_le h.1 hbefore.lists, fun k c hc => ?_⟩
  rcases hnodes k c hc with hc | hc
  · exact (h.2 k c hc).mono hbefore
  · exact hc

end Mono

/-- Runs that only add to what was read and noted. -/
theorem keeps_of_plain {α : Type} {x : Run α} (h : x.Plain) (w : World) : D.Keeps but w (x w).2 := by
  have hbefore : w.Before (x w).2 := Run.Congruence.grows.plain h w
  refine ⟨hbefore, fun l _ hl => hl.of_nodes hbefore fun k c hc => .inl ?_⟩
  rwa [World.nodesOf, h.listFree.lists_eq w] at hc

theorem keeps_makeList (u : Unparsed) (w : World) : D.Keeps but w (Means.makeList u w).2 := by
  have hbefore := World.before_makeList w u
  refine ⟨hbefore, fun l _ hl => hl.of_nodes hbefore fun k c hc => .inl ?_⟩
  rwa [World.nodesOf_makeList, if_neg (Nat.ne_of_lt hl.1)] at hc

/-- A new list of a parser and a context of the set is within the set. -/
theorem within_makeList {u : Unparsed} {w : World} (hu : u.item.Throughout D.Admits) (hz : D.Has w u.start) :
    D.Within (Means.makeList u w).2 w.lists.size := by
  refine ⟨?_, fun k c hc => ?_⟩
  · show w.lists.size < (w.lists.push #[.pending u]).size
    rw [Array.size_push]
    exact Nat.lt_succ_self _
  · rw [World.nodesOf_makeList, if_pos rfl] at hc
    have hk : k = 0 ∧ c = .pending u := by
      cases k with
      | zero => cases hc; exact ⟨rfl, rfl⟩
      | succ k => cases hc
    rw [hk.2]
    exact ⟨hu, hz⟩

/-- A list within the set may have one of its nodes changed to one that is fine. -/
theorem Within.set {l l' k : Nat} {c : Cell Unparsed Node} (h : D.Within w l') (hc : l = l' → D.Holds w l' c) :
    D.Within ((World.listNodes l).set k c w) l' := by
  have hholds : ∀ {c'}, D.Holds w l' c' → D.Holds ((World.listNodes l).set k c w) l' c' := fun {c'} h => by
    match c', h with
    | .pending u, h => exact h
    | .forcing, h => exact h
    | .forced (.item v next), h => exact h
    | .forced (.ended e), h => exact h
  refine ⟨Nat.lt_of_lt_of_eq h.1 (Array.size_modify).symm, fun k' c' hc' => ?_⟩
  by_cases heq : l = l' ∧ k = k'
  · obtain ⟨rfl, rfl⟩ := heq
    rw [World.nodesOf_set, if_pos rfl, Array.getElem?_setIfInBounds_self] at hc'
    split at hc'
    · cases hc'
      exact hholds (hc rfl)
    · cases hc'
  · rw [World.nodesOf_set_of_ne heq] at hc'
    exact hholds (h.2 k' c' hc')

theorem keeps_addNode {l : Nat} {u : Unparsed} (hu : ¬ but l → u.item.Throughout D.Admits ∧ D.Has w u.start) :
    D.Keeps but w (Means.addNode l u w).2 := by
  have hbefore := World.before_addNode w l u
  refine ⟨hbefore, fun l' hbut hl' => hl'.of_nodes hbefore fun k c hc => ?_⟩
  rw [World.nodesOf_addNode] at hc
  split at hc
  · rename_i h
    obtain ⟨rfl, -⟩ := h
    rw [Array.getElem?_push] at hc
    split at hc
    · cases hc
      exact .inr ⟨(hu hbut).1, (hu hbut).2.mono hbefore⟩
    · exact .inl hc
  · exact .inl hc

/-! ## Answers -/

/-- A change of what a success may turn out to be that keeps the remainder of a failure. -/
def KeepsInput (f : Finish → Act Finish) : Prop := ∀ {env lists w finish finish' w'},
  (f finish).exec env lists w = (.ok finish', w') → ∀ z' message', finish' = .failed z' message' →
    ∃ z message, finish = .failed z message ∧ z'.input = z.input

/-- What a success turns out to be is what a list turns out to be, but for the wording and the state of a failure. -/
inductive Discloses (i : Nat) : Late Finish → Prop
  | later : Discloses i (.later do return (← Act.endOf i).finish)
  | mapped {l f} : Discloses i l → KeepsInput f → Discloses i (.mapped l f)

/-- The finish of a success that ends where the list of node `i` does: it is that of the list, or it is known. -/
def Closes (w : World) (i : Nat) : Option (Late Finish) → Prop
  | some l => Discloses i l
  | none => ∃ e, w.Walked i e

variable (D) in
/-- The context after a success is known and in the set, or it is the end of a list within the set. -/
def Promises (w : World) (p : Promise) : Prop :=
  (∃ z, p.rest = .known z ∧ p.finish = none ∧ D.Has w z) ∨
    ∃ i, p.rest = (.later do return (← Act.endOf i).rest) ∧ D.Within w (listOf i) ∧ Closes w i p.finish

variable (D) in
/-- What a frame has in it is in the set. -/
def Frames (w : World) : Frame → Prop
  | .bind k => ∀ v, Parser.Gives D.Admits (k v)
  | .orElse q z => q.Throughout D.Admits ∧ D.Has w z
  | .loop step => ∀ v, Parser.Gives D.Admits (step v)
  | _ => True

mutual

/-- What an answer has in it is in the set. -/
def Answers (D : Domain) (w : World) : Answer → Prop
  | .success p => D.Promises w p
  | .failure z _ => D.Has w z
  | .committed inner => Suspends D w inner

/-- What a suspended parser has in it is in the set. -/
def Suspends (D : Domain) (w : World) : Suspended → Prop
  | .ready a => Answers D w a
  | .apply p z => p.Throughout D.Admits ∧ D.Has w z
  | .afresh p z => p.Throughout D.Admits ∧ D.Has w z
  | .after _ s => Suspends D w s
  | .framed s f => Suspends D w s ∧ D.Frames w f

end

section Mono

variable (hkeeps : D.KeepsAll w w')

include hkeeps

theorem Promises.mono {p : Promise} (h : D.Promises w p) : D.Promises w' p := by
  obtain ⟨z, hrest, hfinish, hz⟩ | ⟨i, hrest, hlist, hfinish⟩ := h
  · exact .inl ⟨z, hrest, hfinish, hz.mono hkeeps.before⟩
  · refine .inr ⟨i, hrest, hkeeps.list _ id hlist, ?_⟩
    cases hf : p.finish with
    | none =>
      rw [hf] at hfinish
      obtain ⟨e, he⟩ := hfinish
      exact ⟨e, he.before hkeeps.before⟩
    | some l => rw [hf] at hfinish; exact hfinish

theorem Frames.mono {f : Frame} (h : D.Frames w f) : D.Frames w' f := by
  cases f with
  | orElse q z => exact ⟨h.1, h.2.mono hkeeps.before⟩
  | _ => exact h

mutual

theorem Answers.mono : ∀ {a : Answer}, D.Answers w a → D.Answers w' a
  | .success p, h => by rw [Answers] at h ⊢; exact h.mono hkeeps
  | .failure z _, h => by rw [Answers] at h ⊢; exact h.mono hkeeps.before
  | .committed inner, h => by rw [Answers] at h ⊢; exact Suspends.mono h

theorem Suspends.mono : ∀ {s : Suspended}, D.Suspends w s → D.Suspends w' s
  | .ready a, h => by rw [Suspends] at h ⊢; exact Answers.mono h
  | .apply p z, h => by rw [Suspends] at h ⊢; exact ⟨h.1, h.2.mono hkeeps.before⟩
  | .afresh p z, h => by rw [Suspends] at h ⊢; exact ⟨h.1, h.2.mono hkeeps.before⟩
  | .after act s, h => by rw [Suspends] at h ⊢; exact Suspends.mono h
  | .framed s f, h => by rw [Suspends] at h ⊢; exact ⟨Suspends.mono h.1, h.2.mono hkeeps⟩

end

end Mono

/-- A parser made of a frame around another one. -/
theorem suspends_framed {p q : Parser} {z : Context} {f : Frame} (hframe : OnDemand.frame? z p = some (q, f))
    (hp : p.Throughout D.Admits) (hz : D.Has w z) : D.Suspends w (.framed (.apply q z) f) := by
  rw [Suspends, Suspends]
  cases p with
  | bind p k =>
    rw [Parser.Throughout] at hp
    cases hframe
    exact ⟨⟨hp.2.1, hz⟩, hp.2.2⟩
  | orElse p q =>
    rw [Parser.Throughout] at hp
    cases hframe
    exact ⟨⟨hp.2.1, hz⟩, hp.2.2, hz⟩
  | map p f | reword p f | restoring p =>
    rw [Parser.Throughout] at hp
    cases hframe
    exact ⟨⟨hp.2, hz⟩, trivial⟩
  | _ => cases hframe

/-- A change of what a success may turn out to be. -/
theorem Promises.onFailure {p : Promise} (h : D.Promises w p) {f : Context → String → Act (Context × String)}
    (hf : ∀ {env lists w z message x w'}, (f z message).exec env lists w = (.ok x, w') → x.1.input = z.input) :
    D.Promises w (p.onFailure f) := by
  obtain ⟨z, hrest, hfinish, hz⟩ | ⟨i, hrest, hlist, hcloses⟩ := h
  · exact .inl ⟨z, hrest, by rw [Promise.onFailure, hfinish]; rfl, hz⟩
  · refine .inr ⟨i, hrest, hlist, ?_⟩
    unfold Promise.onFailure
    cases hfinish : p.finish with
    | none => rw [hfinish] at hcloses; exact hcloses
    | some l =>
      rw [hfinish] at hcloses
      refine .mapped hcloses ?_
      intro env lists w finish finish' w' hexec z' message' hfailed
      cases finish with
      | failed z message =>
        rw [Act.exec_bind] at hexec
        obtain ⟨x, w₁, hx, hpure⟩ := Run.bind_eq_ok hexec
        cases hpure
        cases hfailed
        exact ⟨z, message, rfl, hf hx⟩
      | plain => cases hexec; cases hfailed
      | committed => cases hexec; cases hfailed

theorem keepsInput_reword (f : String → Act String) {env : Env} {lists : Lists} {w w' : World} {z : Context}
    {message : String} {x : Context × String}
    (h : (do return (z, ← f message) : Act (Context × String)).exec env lists w = (.ok x, w')) : x.1.input = z.input := by
  rw [Act.exec_bind] at h
  obtain ⟨message', w₁, -, hpure⟩ := Run.bind_eq_ok h
  cases hpure
  rfl

theorem keepsInput_restoring (state : Value) {env : Env} {lists : Lists} {w w' : World} {z : Context}
    {message : String} {x : Context × String}
    (h : (.pure ({ z with state := state }, message) : Act (Context × String)).exec env lists w = (.ok x, w')) :
    x.1.input = z.input := by
  cases h
  rfl

/-! ## Runs -/

variable (D) in
/-- From a world on, the run keeps the lists within the set there, and its answers satisfy `Q` in the world after it. -/
def Ensures {α : Type} (w₀ : World) (x : Run α) (Q : World → α → Prop) : Prop :=
  ∀ w, D.KeepsAll w₀ w → D.KeepsAll w (x w).2 ∧ ∀ a w', x w = (.ok a, w') → Q w' a

namespace Ensures

variable {α β : Type} {w₀ w₁ : World} {x : Run α} {f : α → Run β} {Q : World → α → Prop} {Q' : World → β → Prop}

theorem pure {a : α} (h : ∀ w, D.KeepsAll w₀ w → Q w a) : D.Ensures w₀ (Pure.pure a) Q := by
  refine fun w hw => ⟨.refl w, ?_⟩
  rintro b w' ⟨⟩
  exact h w hw

theorem bind (hx : D.Ensures w₀ x Q) (hf : ∀ w₁ a, D.KeepsAll w₀ w₁ → Q w₁ a → D.Ensures w₁ (f a) Q') :
    D.Ensures w₀ (x >>= f) Q' := by
  intro w hw
  obtain ⟨hkeeps, hQ⟩ := hx w hw
  show D.KeepsAll w (Run.bind x f w).2 ∧ ∀ b w', Run.bind x f w = (.ok b, w') → Q' w' b
  unfold Run.bind
  rcases hr : x w with ⟨e | a, w₁⟩
  · rw [hr] at hkeeps
    exact ⟨hkeeps, fun b w' hb => by cases hb⟩
  · rw [hr] at hkeeps
    obtain ⟨hkeeps', hQ'⟩ := hf w₁ a (hw.trans hkeeps) (hQ a w₁ hr) w₁ (.refl w₁)
    exact ⟨hkeeps.trans hkeeps', hQ'⟩

theorem of_keeps (h : ∀ w, D.KeepsAll w (x w).2) : D.Ensures w₀ x fun _ _ => True :=
  fun w _ => ⟨h w, fun _ _ _ => trivial⟩

theorem weaken (h : D.Ensures w₀ x Q) {P : World → α → Prop} (himp : ∀ w a, D.KeepsAll w₀ w → Q w a → P w a) :
    D.Ensures w₀ x P := by
  refine fun w hw => ⟨(h w hw).1, fun a w' ha => himp w' a ?_ ((h w hw).2 a w' ha)⟩
  have hkeeps := (h w hw).1
  rw [ha] at hkeeps
  exact hw.trans hkeeps

theorem outOfFuel : D.Ensures w₀ (Run.halt .outOfFuel : Run α) Q := fun w _ => ⟨.refl w, fun _ _ h => by cases h⟩

end Ensures

/-- Reading a token. -/
theorem ensures_next? {w₀ : World} {z : Context} (hz : D.Has w₀ z) :
    D.Ensures w₀ (Run.next? z.input) fun w next => ∀ t rest, next = some (t, rest) → D.Has w { z with input := rest } := by
  refine fun w hw => ⟨keeps_of_plain (.next? _) w, ?_⟩
  rintro next w' h t rest rfl
  rcases hnext : z.input.next? w.feed with ⟨answer, feed⟩
  obtain ⟨journal, hrun⟩ := Run.next?_of hnext
  rw [hrun] at h
  rcases answer with e | answer <;> cases h
  exact D.next (hz.mono hw.before) hnext

theorem congruence_keeps (but : Nat → Prop) : Run.Congruence fun {α} (x _ : Run α) => ∀ w, D.Keeps but w (x w).2 where
  bind hx hf := Run.bind_advances (r := D.Keeps but) .trans hx hf
  plain h := keeps_of_plain h
  outOfFuel _ w := .refl w
  makeList u := keeps_makeList u

variable (D) in
/-- What is to be shown of the engine with some fuel. -/
structure Engine (env : Env) (n : Nat) : Prop where
  keeps : (means env n).Related (fun {α} (x _ : Run α) => ∀ w, D.KeepsAll w (x w).2) (means env n)
  answer : ∀ {w₀ s}, D.Suspends w₀ s → D.Ensures w₀ ((means env n).answer s) D.Answers
  node : ∀ {w₀ i}, D.Within w₀ (listOf i) → D.Ensures w₀ (node env n i) fun w x => D.Holds w (listOf i) (.forced x)

namespace Engine

variable {env : Env} {n : Nat} (E : D.Engine env n) {w₀ : World}

include E

/-! ### Callbacks and parts of a success -/

theorem exec {α : Type} (act : Act α) : D.Ensures w₀ ((means env n).exec act) fun _ _ => True :=
  .of_keeps (E.keeps.exec (congruence_keeps _) act)

theorem value (l : Late Value) : D.Ensures w₀ ((means env n).late l) fun _ _ => True :=
  .of_keeps (E.keeps.late (congruence_keeps _) l)

/-- The parser that a callback gives. -/
theorem exec_gives {act : Act Parser} (h : Parser.Gives D.Admits act) :
    D.Ensures w₀ ((means env n).exec act) fun _ q => q.Throughout D.Admits :=
  fun w hw => ⟨(E.exec act w hw).1, fun _ _ hq => h.exec hq⟩

theorem walk : ∀ (fuel : Nat) {w₀ : World} {i : Nat} (done : List Value), D.Within w₀ (listOf i) →
    D.Ensures w₀ (OnDemand.walk (OnDemand.node env n) fuel i done) fun w x => D.Ends w x.2
  | 0, _, _, _, _ => .outOfFuel
  | fuel + 1, w₀, i, done, hi => by
    refine (E.node hi).bind fun w₁ x hw₁ hx => ?_
    match x, hx with
    | .item v next, hx => exact walk fuel _ ((show listOf next = listOf i from hx) ▸ hw₁.list _ id hi)
    | .ended e, hx => exact .pure fun w hw => Ends.mono hw.before hx

/-- The end of a list, which is known once it was asked for. -/
theorem endOf {i : Nat} (hi : D.Within w₀ (listOf i)) :
    D.Ensures w₀ ((means env n).exec (Act.endOf i)) fun w e => D.Ends w e ∧ w.Walked i e := by
  rw [Act.endOf, Means.exec, Act.exec_walk]
  have hwalk : D.Ensures w₀ ((means env n).lists.walk i) fun w x => D.Ends w x.2 ∧ w.Walked i x.2 := fun w hw =>
    ⟨(E.walk n [] hi w hw).1, fun x w' hx => ⟨(E.walk n [] hi w hw).2 x w' hx, OnDemand.walk_walked hx⟩⟩
  exact hwalk.bind fun w₁ x _ hx => .pure fun w hw => ⟨hx.1.mono hw.before, hx.2.before hw.before⟩

theorem rest {p : Promise} (hp : D.Promises w₀ p) : D.Ensures w₀ ((means env n).late p.rest) D.Has := by
  obtain ⟨z, hrest, -, hz⟩ | ⟨i, hrest, hi, -⟩ := hp
  · rw [hrest]
    exact .pure fun w hw => hz.mono hw.before
  · rw [hrest, Means.late_later, Means.exec, Act.exec_bind]
    exact (E.endOf hi).bind fun w₁ e _ he => .pure fun w hw => he.1.1.mono hw.before

theorem discloses {i : Nat} {l : Late Finish} (hi : D.Within w₀ (listOf i)) (hl : Discloses i l) :
    D.Ensures w₀ ((means env n).late l) fun w f => D.Finishes w f ∧ ∃ e, w.Walked i e := by
  induction hl with
  | later =>
    rw [Means.late_later, Means.exec, Act.exec_bind]
    exact (E.endOf hi).bind fun w₁ e _ he => .pure fun w hw => ⟨he.1.2.mono hw.before, e, he.2.before hw.before⟩
  | @mapped l g _ hg ih =>
    rw [Means.late_mapped]
    refine ih.bind fun w₁ f _ hfinish w hw => ?_
    have hkeeps := (E.exec (g f) w hw).1
    refine ⟨hkeeps, fun f' w' hf' => ?_⟩
    rw [hf'] at hkeeps
    have hbefore := (hw.trans hkeeps).before
    refine ⟨fun z' message' heq => ?_, hfinish.2.imp fun e he => he.before hbefore⟩
    obtain ⟨z, message, rfl, hinput⟩ := hg hf' z' message' heq
    have hz := (hfinish.1 z message rfl).mono hbefore
    rwa [Has, hinput]

/-- Once the finish of a success is known, so is the context after it. -/
theorem finish {p : Promise} (hp : D.Promises w₀ p) :
    D.Ensures w₀ ((means env n).finish p) fun w f => D.Finishes w f ∧ D.Promises w p.disclosed := by
  have hplain : ∀ w, D.Finishes w .plain := fun _ _ _ h => by cases h
  rw [Means.finish_eq]
  obtain ⟨z, hrest, hfinish, hz⟩ | ⟨i, hrest, hi, hfinish⟩ := hp
  · rw [hfinish]
    exact .pure fun w hw => ⟨hplain w, .inl ⟨z, hrest, rfl, hz.mono hw.before⟩⟩
  · cases hf : p.finish with
    | none =>
      rw [hf] at hfinish
      exact .pure fun w hw => ⟨hplain w, .inr ⟨i, hrest, hw.list _ id hi, hfinish.imp fun e he => he.before hw.before⟩⟩
    | some l =>
      rw [hf] at hfinish
      exact (E.discloses hi hfinish).weaken fun w f hw h => ⟨h.1, .inr ⟨i, hrest, hw.list _ id hi, h.2⟩⟩

/-! ### Commitments and loops -/

theorem settlement : ∀ (fuel : Nat) {w₀ : World} {s : Suspended}, D.Suspends w₀ s →
    D.Ensures w₀ ((means env n).settlement fuel s) fun w t => D.Answers w t.toAnswer
  | 0, _, _, _ => .outOfFuel
  | fuel + 1, w₀, s, hs => by
    rw [Means.settlement_succ]
    refine (E.answer hs).bind fun w₁ a _ ha => ?_
    match a, ha with
    | .success p, ha => exact .pure fun w hw => ha.mono hw
    | .failure z message, ha => exact .pure fun w hw => ha.mono hw
    | .committed inner, ha =>
      rw [Answers] at ha
      exact settlement fuel ha

theorem bindFinished {k : Value → Act Parser} (hk : ∀ v, Parser.Gives D.Admits (k v)) {p : Promise} {f : Finish}
    (hf : D.Finishes w₀ f) (hp : D.Promises w₀ p.disclosed) :
    D.Ensures w₀ ((means env n).bindFinished k p f) D.Answers := by
  cases f with
  | plain =>
    refine (E.rest hp).bind fun w₁ z hw₁ hz => (E.value _).bind fun w₂ v hw₂ _ => ?_
    refine (E.exec_gives (hk v)).bind fun w₃ q hw₃ hq => E.answer ?_
    rw [Suspends]
    exact ⟨hq, hz.mono (hw₂.trans hw₃).before⟩
  | committed =>
    refine .pure fun w hw => ?_
    rw [Answers, Suspends, Suspends, Answers]
    exact ⟨hp.mono hw, hk⟩
  | failed z message =>
    refine .pure fun w hw => ?_
    rw [Answers, Suspends, Answers]
    exact (hf z message rfl).mono hw.before

omit E in
variable (D) in
/-- What a turn leads to is in the set. -/
def Turns (w : World) : Means.Turn → Prop
  | .finished a => D.Answers w a
  | .again _ z => D.Has w z

theorem turnValue {p : Promise} (hp : D.Promises w₀ p.disclosed) :
    D.Ensures w₀ ((means env n).turnValue p) (Turns D) := by
  refine (E.value _).bind fun w₁ v hw₁ _ => ?_
  cases v.toStep with
  | done value =>
    refine .pure fun w hw => ?_
    rw [Turns, Answers]
    exact hp.mono (hw₁.trans hw)
  | again state => exact (E.rest (hp.mono hw₁)).bind fun w₂ z _ hz => .pure fun w hw => hz.mono hw.before

section Loops

variable {step : Value → Act Parser} (hstep : ∀ v, Parser.Gives D.Admits (step v))

include hstep

theorem turnFinished {p : Promise} {f : Finish} (hf : D.Finishes w₀ f) (hp : D.Promises w₀ p.disclosed) (c : Bool) :
    D.Ensures w₀ ((means env n).turnFinished step c p f) (Turns D) := by
  cases f with
  | plain => exact E.turnValue hp
  | committed =>
    cases c with
    | true => exact E.turnValue hp
    | false =>
      refine .pure fun w hw => ?_
      rw [Turns, Answers, Suspends, Suspends, Answers]
      exact ⟨hp.mono hw, hstep⟩
  | failed z message =>
    refine .pure fun w hw => ?_
    have hz := (hf z message rfl).mono hw.before
    cases c with
    | true => rw [if_pos rfl, Turns, Answers]; exact hz
    | false => rw [if_neg Bool.false_ne_true, Turns, Answers, Suspends, Answers]; exact hz

theorem turnAnswer (fuel : Nat) (c : Bool) {a : Answer} (ha : D.Answers w₀ a) :
    D.Ensures w₀ ((means env n).turnAnswer fuel step c a) (Turns D) := by
  have hsuccess : ∀ {w₁ : World} {p : Promise} (c : Bool), D.Promises w₁ p →
      D.Ensures w₁ ((means env n).finish p >>= (means env n).turnFinished step c p) (Turns D) :=
    fun c hp => (E.finish hp).bind fun w₂ f _ hf => E.turnFinished hstep hf.1 hf.2 c
  match a, c, ha with
  | .failure z message, _, ha => exact .pure fun w hw => ha.mono hw
  | .success p, c, ha => rw [Answers] at ha; exact hsuccess c ha
  | .committed inner, false, ha =>
    refine .pure fun w hw => ?_
    rw [Answers] at ha
    rw [Turns, Answers, Suspends]
    exact ⟨ha.mono hw, hstep⟩
  | .committed inner, true, ha =>
    rw [Answers] at ha
    refine (E.settlement fuel ha).bind fun w₁ t _ ht => ?_
    match t, ht with
    | .failure z message, ht => exact .pure fun w hw => ht.mono hw
    | .success p, ht => rw [Settled.toAnswer, Answers] at ht; exact hsuccess true ht

theorem turns (c : Bool) : ∀ (fuel : Nat) {w₀ : World} (state : Value) {z : Context}, D.Has w₀ z →
    D.Ensures w₀ ((means env n).turns step c fuel state z) D.Answers
  | 0, _, _, _, _ => .outOfFuel
  | fuel + 1, w₀, state, z, hz => by
    rw [Means.turns_succ]
    refine (E.exec_gives (hstep state)).bind fun w₁ p hw₁ hp => ?_
    have hs : D.Suspends w₁ (.apply p z) := by rw [Suspends]; exact ⟨hp, hz.mono hw₁.before⟩
    refine (E.answer hs).bind fun w₂ a _ ha => (E.turnAnswer hstep fuel c ha).bind fun w₃ t _ ht => ?_
    match t, ht with
    | .finished a, ht => exact .pure fun w hw => Answers.mono hw ht
    | .again state z, ht => exact turns c fuel state ht

end Loops

/-! ### Frames and primitives -/

theorem resumption (fuel : Nat) {f : Frame} (hf : D.Frames w₀ f) {a : Answer} (ha : D.Answers w₀ a) :
    D.Ensures w₀ ((means env n).resumption fuel f a) D.Answers := by
  have hanswer : ∀ {b : Answer}, D.Answers w₀ b → D.Ensures w₀ (pure b) D.Answers :=
    fun hb => .pure fun w hw => hb.mono hw
  -- a frame is moved under a commitment
  have hcommitted : ∀ {inner : Suspended}, D.Answers w₀ (.committed inner) →
      D.Ensures w₀ (pure (.committed (.framed inner f))) D.Answers := by
    intro inner h
    rw [Answers] at h
    exact hanswer (by rw [Answers, Suspends]; exact ⟨h, hf⟩)
  cases f with
  | bind k =>
    cases a with
    | success p =>
      rw [Means.resumption_bind_success]
      rw [Answers] at ha
      exact (E.finish ha).bind fun w₁ f hw₁ hfinish => E.bindFinished hf hfinish.1 hfinish.2
    | failure z message => exact hanswer ha
    | committed inner => exact hcommitted ha
  | map f =>
    cases a with
    | success p =>
      rw [Answers] at ha
      exact hanswer (by rw [Answers]; exact ha)
    | failure z message => exact hanswer ha
    | committed inner => exact hcommitted ha
  | reword f =>
    cases a with
    | success p =>
      rw [Answers] at ha
      exact hanswer (by rw [Answers]; exact ha.onFailure (keepsInput_reword f))
    | failure z message =>
      rw [Answers] at ha
      rw [Means.resumption_reword_failure]
      refine (E.exec _).bind fun w₁ message hw₁ _ => .pure fun w hw => ?_
      rw [Answers]
      exact ha.mono (hw₁.trans hw).before
    | committed inner => exact hcommitted ha
  | restoring state =>
    cases a with
    | success p =>
      rw [Answers] at ha
      exact hanswer (by rw [Answers]; exact ha.onFailure (keepsInput_restoring state))
    | failure z message =>
      rw [Answers] at ha
      exact hanswer (by rw [Answers]; exact ha)
    | committed inner => exact hcommitted ha
  | orElse q z =>
    cases a with
    | success p => exact hanswer ha
    | failure rest message =>
      rw [Means.resumption_orElse_failure]
      exact E.answer (by rw [Suspends]; exact hf)
    | committed inner => exact hanswer ha
  | loop step =>
    rw [Means.resumption_loop]
    refine (E.turnAnswer hf fuel true ha).bind fun w₁ t _ ht => ?_
    match t, ht with
    | .finished a, ht => exact .pure fun w hw => Answers.mono hw ht
    | .again state z, ht => exact E.turns hf true fuel state ht

theorem alternatives {z : Context} : ∀ {w₀ : World} (failures : List (String × String)) {ps : List (String × Parser)},
    Parser.Each D.Admits ps → D.Has w₀ z → D.Ensures w₀ ((means env n).alternatives z failures ps) D.Answers
  | w₀, failures, [], _, hz => by
    refine (Ensures.of_keeps (keeps_of_plain (.ofExcept _))).bind fun w₁ message hw₁ _ => .pure fun w hw => ?_
    rw [Answers]
    exact hz.mono (hw₁.trans hw).before
  | w₀, failures, (label, p) :: rest, hps, hz => by
    rw [Parser.Each] at hps
    have hs : D.Suspends w₀ (.apply p z) := by rw [Suspends]; exact ⟨hps.1, hz⟩
    refine (E.answer hs).bind fun w₁ a hw₁ ha => ?_
    match a, ha with
    | .failure _ message, _ =>
      refine (Ensures.of_keeps (keeps_of_plain (.print _))).bind fun w₂ _ hw₂ _ => ?_
      exact alternatives _ hps.2 (hz.mono (hw₁.trans hw₂).before)
    | .success p, ha => exact .pure fun w hw => ha.mono hw
    | .committed inner, ha => exact .pure fun w hw => ha.mono hw

section Grammar

variable (hgrammar : ∀ name, (env.grammar name).Throughout D.Admits)

include hgrammar

theorem primitive (fuel : Nat) {p : Parser} {z : Context} (hframe : OnDemand.frame? z p = none)
    (hp : p.Throughout D.Admits) (hz : D.Has w₀ z) : D.Ensures w₀ ((means env n).primitive fuel p z) D.Answers := by
  have hknown : ∀ {w₁ : World} {z : Context} {v : Value}, D.Has w₁ z →
      D.Ensures w₁ (pure (.known z v)) D.Answers := by
    refine fun hz => .pure fun w hw => ?_
    rw [Answer.known, Answers]
    exact .inl ⟨_, rfl, rfl, hz.mono hw.before⟩
  have hfailure : ∀ {w₁ : World} {message : String}, D.KeepsAll w₀ w₁ →
      D.Ensures w₁ (pure (.failure z message)) D.Answers := by
    refine fun hw₁ => .pure fun w hw => ?_
    rw [Answers]
    exact hz.mono (hw₁.trans hw).before
  cases p with
  | pure v => exact hknown hz
  | fail message => exact hfailure (.refl _)
  | commit p =>
    rw [Parser.Throughout] at hp
    refine .pure fun w hw => ?_
    rw [Answers, Suspends]
    exact ⟨hp.2, hz.mono hw.before⟩
  | loop init step =>
    rw [Parser.Throughout] at hp
    exact E.turns hp.2 false fuel init hz
  | choice ps =>
    rw [Parser.Throughout] at hp
    exact E.alternatives [] hp.2 hz
  | next =>
    refine (ensures_next? hz).bind fun w₁ next hw₁ hnext => ?_
    rcases next with _ | ⟨t, rest⟩
    · exact hfailure hw₁
    · exact hknown (hnext t rest rfl)
  | eof =>
    refine (ensures_next? hz).bind fun w₁ next hw₁ hnext => ?_
    rcases next with _ | ⟨t, rest⟩
    · exact hknown (hz.mono hw₁.before)
    · exact hfailure hw₁
  | satisfy test =>
    refine (ensures_next? hz).bind fun w₁ next hw₁ hnext => ?_
    rcases next with _ | ⟨t, rest⟩
    · exact hfailure hw₁
    · refine (E.exec (test t)).bind fun w₂ b hw₂ _ => ?_
      cases b with
      | true => exact hknown (Has.mono hw₂.before (z := ⟨rest, z.state⟩) (hnext t rest rfl))
      | false =>
        refine (Ensures.of_keeps (keeps_of_plain (.ofExcept _))).bind fun w₃ message hw₃ _ => ?_
        exact hfailure ((hw₁.trans hw₂).trans hw₃)
  | pushBack ts =>
    rw [Parser.Throughout] at hp
    · exact hknown (hp ts rfl _ _ hz)
    all_goals intros; contradiction
  | position => exact hknown hz
  | get => exact hknown hz
  | put state => exact hknown hz
  | stream p =>
    rw [Parser.Throughout] at hp
    refine Ensures.bind (Q := fun w i => D.Within w (listOf i)) (fun w hw => ⟨keeps_makeList _ w, ?_⟩)
      fun w₁ i _ hi => .pure fun w hw => ?_
    · rintro i w' ⟨⟩
      rw [listOf_nodeNumber]
      exact within_makeList hp.2 (hz.mono hw.before)
    · rw [Answer.ofList, Answers]
      exact .inr ⟨i, rfl, hw.list _ id hi, .later⟩
  | rule name => exact E.answer (by rw [Suspends]; exact ⟨hgrammar name, hz⟩)
  | map | bind | orElse | reword | restoring => cases hframe

theorem answer_succ {s : Suspended} (hs : D.Suspends w₀ s) : D.Ensures w₀ ((means env (n + 1)).answer s) D.Answers := by
  match s, hs with
  | .ready a, hs =>
    rw [Suspends] at hs
    rw [OnDemand.means_answer_ready]
    exact .pure fun w hw => hs.mono hw
  | .afresh p z, hs =>
    rw [Suspends] at hs
    rw [OnDemand.means_answer_afresh]
    exact E.answer (by rw [Suspends]; exact hs)
  | .after act s, hs =>
    rw [Suspends] at hs
    rw [OnDemand.means_answer_after]
    exact (E.exec act).bind fun w₁ _ hw₁ _ => E.answer (hs.mono hw₁)
  | .framed s f, hs =>
    rw [Suspends] at hs
    rw [OnDemand.means_answer_framed]
    exact (E.answer hs.1).bind fun w₁ a hw₁ ha => E.resumption n (hs.2.mono hw₁) ha
  | .apply p z, hs =>
    rw [Suspends] at hs
    rw [OnDemand.means_answer_apply]
    split
    · rename_i hframe
      exact E.answer (suspends_framed hframe hs.1 hs.2)
    · rename_i hframe
      exact E.primitive hgrammar n hframe hs.1 hs.2

end Grammar

/-! ### Nodes -/

section Nodes

variable {l : Nat} {u : Unparsed} (hu : u.item.Throughout D.Admits) (hz : D.Has w₀ u.start)

include hu hz

theorem nodeValue {p : Promise} (hp : D.Promises w₀ p.disclosed) (c : Bool) :
    D.Ensures w₀ ((means env n).nodeValue l u c p) fun w x => D.Holds w l (.forced x) := by
  refine (E.rest hp).bind fun w₁ z hw₁ hrest => ?_
  split
  · exact .pure fun w hw => ⟨hz.mono (hw₁.trans hw).before, fun _ _ h => by cases c <;> cases h⟩
  · refine (E.value _).bind fun w₂ v hw₂ _ => ?_
    refine Ensures.bind (Q := fun _ next => listOf next = l) (fun w hw => ⟨keeps_addNode fun _ => ?_, ?_⟩)
      fun w₃ next _ hnext => .pure fun w hw => hnext
    · exact ⟨hu, hrest.mono (hw₂.trans hw).before⟩
    · rintro next w' ⟨⟩
      exact listOf_nodeNumber _ _

theorem nodeFinished {p : Promise} {f : Finish} (hf : D.Finishes w₀ f) (hp : D.Promises w₀ p.disclosed) (c : Bool) :
    D.Ensures w₀ ((means env n).nodeFinished l u c p f) fun w x => D.Holds w l (.forced x) := by
  cases f with
  | plain => exact E.nodeValue hu hz hp _
  | committed => exact E.nodeValue hu hz hp _
  | failed z message => exact .pure fun w hw => ⟨hz.mono hw.before, hf.mono hw.before⟩

theorem computeNode : D.Ensures w₀ ((means env n).computeNode n l u) fun w x => D.Holds w l (.forced x) := by
  have hfinish : ∀ {w₁ : World} {p : Promise} (c : Bool), D.KeepsAll w₀ w₁ → D.Promises w₁ p →
      D.Ensures w₁ ((means env n).finish p >>= (means env n).nodeFinished l u c p) fun w x => D.Holds w l (.forced x) := by
    refine fun c hw₁ hp => (E.finish hp).bind fun w₂ f hw₂ hf => ?_
    have hw := hw₁.trans hw₂
    exact E.nodeFinished hu (hz.mono hw.before) hf.1 hf.2 c
  have hs : D.Suspends w₀ (.apply u.item u.start) := by rw [Suspends]; exact ⟨hu, hz⟩
  rw [Means.computeNode_eq]
  refine (E.answer hs).bind fun w₁ a hw₁ ha => ?_
  match a, ha with
  | .failure _ _, _ => exact .pure fun w hw => ⟨hz.mono (hw₁.trans hw).before, fun _ _ h => by split at h <;> cases h⟩
  | .success p, ha => rw [Answers] at ha; exact hfinish _ hw₁ ha
  | .committed inner, ha =>
    rw [Answers] at ha
    refine (E.settlement n ha).bind fun w₂ t hw₂ ht => ?_
    match t, ht with
    | .failure z message, ht =>
      rw [Settled.toAnswer, Answers] at ht
      refine .pure fun w hw => ⟨hz.mono ((hw₁.trans hw₂).trans hw).before, ?_⟩
      rintro z' message' ⟨⟩
      exact ht.mono hw.before
    | .success p, ht => rw [Settled.toAnswer, Answers] at ht; exact hfinish true (hw₁.trans hw₂) ht

end Nodes

/-- Computing a node of any list, within the set or not. -/
theorem keeps_computeNode (l : Nat) (u : Unparsed) (w : World) :
    D.Keeps (· = l) w ((means env n).computeNode n l u w).2 := by
  have hkeeps : (means env n).Related (fun {α} (x _ : Run α) => ∀ w, D.Keeps (· = l) w (x w).2) (means env n) :=
    ⟨rfl, fun i w => (E.keeps.node i w).weaken, fun i w => (E.keeps.walk i w).weaken,
      fun s w => (E.keeps.answer s w).weaken⟩
  exact hkeeps.computeNode (congruence_keeps _) (Nat.le_refl n) (fun u w => keeps_addNode fun h => absurd rfl h) u w

theorem node_succ (i : Nat) (w : World) : D.KeepsAll w (OnDemand.node env (n + 1) i w).2 ∧
    (D.Within w (listOf i) → ∀ x w', OnDemand.node env (n + 1) i w = (.ok x, w') → D.Holds w' (listOf i) (.forced x)) := by
  have hgrows : w.Before (OnDemand.node env (n + 1) i w).2 := (OnDemand.means_grows env (n + 1)).node i w
  revert hgrows
  rw [OnDemand.node_succ]
  dsimp only
  split
  · unfold Table.force
    split
    · rename_i x hx
      refine fun hgrows => ⟨.refl w, fun hl y w' h => ?_⟩
      cases h
      exact hl.2 _ _ hx
    · rename_i u hu
      have hcell : (w.nodesOf (listOf i))[placeOf i]? = some (.pending u) := hu
      generalize hw₁ : (World.listNodes (listOf i)).set (placeOf i) .forcing w = w₁
      have hforcing : D.KeepsAll w w₁ := by
        subst hw₁
        refine ⟨World.before_set fun x hx => ?_, fun l' _ hl' => hl'.set fun _ => trivial⟩
        rw [hcell] at hx
        cases hx
      have hothers := E.keeps_computeNode (listOf i) u w₁
      -- if the list is within the set, so is its node
      have hself : D.Within w (listOf i) → D.KeepsAll w₁ ((means env n).computeNode n (listOf i) u w₁).2 ∧
          ∀ x w', (means env n).computeNode n (listOf i) u w₁ = (.ok x, w') → D.Holds w' (listOf i) (.forced x) := by
        intro hl
        obtain ⟨hitem, hstart⟩ := hl.2 _ _ hcell
        exact E.computeNode hitem (hstart.mono hforcing.before) w₁ (.refl w₁)
      rcases hc : (means env n).computeNode n (listOf i) u w₁ with ⟨e | x, w₂⟩ <;> rw [hc] at hothers hself
      · refine fun hgrows => ⟨⟨hgrows, fun l' _ hl' => ?_⟩, fun _ x w' h => by cases h⟩
        by_cases heq : l' = listOf i
        · subst heq
          obtain ⟨hitem, hstart⟩ := hl'.2 _ _ hcell
          have hkeeps := hforcing.trans (hself hl').1
          exact (hkeeps.list _ id hl').set fun _ => ⟨hitem, hstart.mono hkeeps.before⟩
        · exact (hothers.list l' heq (hforcing.list l' id hl')).set fun h => absurd h.symm heq
      · refine fun hgrows => ⟨⟨hgrows, fun l' _ hl' => ?_⟩, fun hl y w' h => ?_⟩
        · by_cases heq : l' = listOf i
          · subst heq
            have hkeeps := hforcing.trans (hself hl').1
            exact (hkeeps.list _ id hl').set fun _ => (hself hl').2 x w₂ rfl
          · exact (hothers.list l' heq (hforcing.list l' id hl')).set fun h => absurd h.symm heq
        · cases h
          have hx := (hself hl).2 x w₂ rfl
          match x, hx with
          | .item v next, hx => exact hx
          | .ended e, hx => exact hx
    · exact fun _ => ⟨.refl w, fun _ _ _ h => by cases h⟩
    · exact fun _ => ⟨.refl w, fun _ _ _ h => by cases h⟩
  · exact fun _ => ⟨.refl w, fun _ _ _ h => by cases h⟩

end Engine

/-- **The engine does not leave the set.** -/
theorem means_within {env : Env} (hgrammar : ∀ name, (env.grammar name).Throughout D.Admits) :
    ∀ n, D.Engine env n
  | 0 =>
    { keeps := OnDemand.means_related_zero (congruence_keeps _) env 0
      answer := fun _ => .outOfFuel
      node := fun _ => .outOfFuel }
  | n + 1 => by
    have E := means_within hgrammar n
    refine ⟨?_, fun hs => E.answer_succ hgrammar hs, fun hi w hw => ?_⟩
    · exact OnDemand.means_related_succ (congruence_keeps _) (Nat.le_refl n) E.keeps fun i w => (E.node_succ i w).1
    · exact ⟨(E.node_succ _ w).1, (E.node_succ _ w).2 (hw.list _ id hi)⟩

/-! ## What is revealed -/

/-- All of a list within the set that is known is in the set. -/
theorem Within.walked {i : Nat} {e : ListEnd} (h : D.Within w (listOf i)) (hwalked : w.Walked i e) : D.Ends w e := by
  induction hwalked with
  | ended hcell => exact h.2 _ _ hcell
  | item hcell _ ih =>
    have hnext : listOf _ = listOf _ := h.2 _ _ hcell
    exact ih (hnext ▸ h)

/-- A success that is disclosed is anchored in the set. -/
theorem Promises.anchored {p : Promise} (h : D.Promises w p) (hfinish : p.finish = none) :
    ∃ z, p.rest.Anchored w z ∧ D.Has w z := by
  obtain ⟨z, hrest, -, hz⟩ | ⟨i, hrest, hlist, hcloses⟩ := h
  · rw [hrest]
    exact ⟨z, rfl, hz⟩
  · rw [hfinish] at hcloses
    obtain ⟨e, hwalked⟩ := hcloses
    rw [hrest]
    exact ⟨e.rest, ⟨i, e, rfl, hwalked, rfl⟩, (hlist.walked hwalked).1⟩

section Reveal

variable {env : Env} {w₀ : World}

/-- With enough fuel, a run ensures what it ensures with any fuel. -/
theorem Ensures.limit {α : Type} {x : Nat → Run α} {Q : World → α → Prop} (h : ∀ n, D.Ensures w₀ (x n) Q)
    (hsteady : Steady x) (hw : D.KeepsAll w₀ w) {a : α} (ha : limit x w = some (.ok a, w')) :
    D.KeepsAll w w' ∧ Q w' a := by
  obtain ⟨n, hn⟩ := (Run.limit_eq_some hsteady).1 ha
  obtain ⟨hkeeps, hQ⟩ := h n w hw
  change x n w = (.ok a, w') at hn
  rw [hn] at hkeeps
  exact ⟨hkeeps, hQ a w' hn⟩

variable (D) in
/-- What shows of a parser is in the set: the context after a success is anchored there. -/
def Shows (w : World) (r : OnDemand.Revealed) : Prop :=
  match r.settled with
  | .success p => ∃ z, p.rest.Anchored w z ∧ D.Has w z
  | .failure z _ => D.Has w z

variable (hgrammar : ∀ name, (env.grammar name).Throughout D.Admits)

include hgrammar

/-- **What a parser reveals is in the set.** -/
theorem reveal_within {s : Suspended} (hs : D.Suspends w s) {r : OnDemand.Revealed}
    (h : OnDemand.reveal env s w = some (.ok r, w')) : w.Before w' ∧ D.Shows w' r := by
  obtain ⟨k, hk⟩ := (Course.sup_eq_some (OnDemand.monotone_revealUpTo s)).1 h
  induction k generalizing s w r with
  | zero => cases hk
  | succ k ih =>
    obtain ⟨a, w₁, ha, hr⟩ := Course.bind_eq_ok hk
    obtain ⟨hkeeps, ha⟩ := Ensures.limit (fun n => (means_within hgrammar n).answer hs) (OnDemand.steady_answer env s)
      (.refl w) ha
    match a, ha with
    | .failure z message, ha =>
      rw [Answers] at ha
      cases hr
      exact ⟨hkeeps.before, ha⟩
    | .committed inner, ha =>
      rw [Answers] at ha
      rw [OnDemand.revealing, map_eq_pure_bind] at hr
      obtain ⟨r₁, w₂, hr₁, hpure⟩ := Course.bind_eq_ok hr
      cases hpure
      obtain ⟨hbefore, hshows⟩ := ih ha (OnDemand.revealUpTo_le k inner w₁ _ hr₁) hr₁
      exact ⟨hkeeps.before.trans hbefore, hshows⟩
    | .success p, ha =>
      rw [Answers] at ha
      rw [OnDemand.revealing, map_eq_pure_bind] at hr
      obtain ⟨f, w₂, hf, hpure⟩ := Course.bind_eq_ok hr
      cases hpure
      obtain ⟨hkeeps', hf, hp⟩ := Ensures.limit (fun n => (means_within hgrammar n).finish ha)
        (OnDemand.steady_finish env p) (.refl w₁) hf
      refine ⟨(hkeeps.trans hkeeps').before, ?_⟩
      cases f with
      | plain => exact hp.anchored rfl
      | committed => exact hp.anchored rfl
      | failed z message => exact hf z message rfl

end Reveal

end Domain

end CommittedChoice
