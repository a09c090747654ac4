import Mathlib.Data.Option.Basic
import CommittedChoice.Proofs.Heap.Changes
import CommittedChoice.Proofs.OnDemand.Settling

/-!
# Outcomes in cells

The engine says what is still to be done in the answers it gives; the engine in cells says it in tasks of cells. This module
relates the two: which cell stands for which part of an answer. A cell stands for a part as long as neither it nor the cells
that it refers to are changed, so this is kept by everything that changes other cells only.

- `Heap.ValueAt`, `RestAt`, `FinishAt`, `PromiseAt`, `SettledAt`, `UnderAt`, `AnswerAt`: the cells of a value, of a remainder,
  and so on, up to those of an answer, and of what is under a commitment;
- `Heap.AppliedAt`: the cells of a parser that was applied;
- `Heap.applies`: applying a parser makes these cells, and does no work.
-/

namespace CommittedChoice

open OnDemand

namespace Heap

variable {T : Nat → Cell Task Content → Prop} {s s' : Heap × World} {b b' : Nat}

/-! ## Parts of answers in cells -/

/-- Changes the failure that a success may turn out to be. -/
def changing (f : Context → String → Act (Context × String)) : Finish → Act Finish
  | .failed z message => do
    let (z, message) ← f z message
    return .failed z message
  | finish => .pure finish

/-- A value in cell `i`. All cells here are from `b` on. -/
inductive ValueAt (b : Nat) (s : Heap × World) : Nat → Late Value → Prop
  | known {i v} : b ≤ i → s.1.cells[i]? = some (.forced (.value v)) → ValueAt b s i (.known v)
  | mapped {i j l f} : b ≤ i → j < i → s.1.cells[i]? = some (.pending (.mapped j f)) → ValueAt b s j l →
      ValueAt b s i (.mapped l f)

/-- A remainder in cell `i`. -/
inductive RestAt (b : Nat) (s : Heap × World) : Nat → Late Context → Prop
  | known {i z} : b ≤ i → s.1.cells[i]? = some (.forced (.rest z)) → RestAt b s i (.known z)
  | pushed {i z ts} : b ≤ i → s.1.cells[i]? = some (.pending (.pushed z ts)) →
      RestAt b s i (.known { z with input := z.input.push ts })
  | ended {i j n} : b ≤ i → b ≤ j → s.1.cells[i]? = some (.pending (.restOf j)) → EndAt s j n →
      RestAt b s i (.later do return (← Act.endOf n).rest)

/-- What a success turns out to be, in cell `i`. -/
inductive FinishAt (b : Nat) (s : Heap × World) : Nat → Late Finish → Prop
  | ended {i j n} : b ≤ i → b ≤ j → s.1.cells[i]? = some (.pending (.finishOf j)) → EndAt s j n →
      FinishAt b s i (.later do return (← Act.endOf n).finish)
  | changed {i j l f} : b ≤ i → j < i → s.1.cells[i]? = some (.pending (.changed j f)) → FinishAt b s j l →
      FinishAt b s i (.mapped l (changing f))

/-- A success in cells. -/
structure PromiseAt (b : Nat) (s : Heap × World) (rest value : Nat) (finish : Option Nat) (p : Promise) : Prop where
  rest : RestAt b s rest p.rest
  value : ValueAt b s value p.value
  finish : Option.Rel (FinishAt b s) finish p.finish

/-- A settled outcome in cells. -/
inductive SettledAt (b : Nat) (s : Heap × World) : Heap.Settled → OnDemand.Settled → Prop
  | success {rest value finish p} : PromiseAt b s rest value finish p →
      SettledAt b s (.success rest value finish) (.success p)
  | failure (z message) : SettledAt b s (.failure z message) (.failure z message)

/-- What is under a commitment, in cell `i`. -/
inductive UnderAt (b : Nat) (s : Heap × World) : Nat → Suspended → Prop
  | success {i rest value finish p} : b ≤ i →
      s.1.cells[i]? = some (.forced (.outcome (.plain (.success rest value finish)))) →
      PromiseAt b s rest value finish p → UnderAt b s i (.ready (.success p))
  | failure {i z message} : b ≤ i → s.1.cells[i]? = some (.forced (.outcome (.plain (.failure z message)))) →
      UnderAt b s i (.ready (.failure z message))
  | afresh {i j p z} : b ≤ j → j < i → s.1.cells[i]? = some (.pending (.settled j)) →
      s.1.cells[j]? = some (.pending (.afresh p z)) → UnderAt b s i (.afresh p z)
  | framed {i j k u f} : k < j → j < i → s.1.cells[i]? = some (.pending (.settled j)) →
      s.1.cells[j]? = some (.pending (.framed true k f)) → Postponed f → UnderAt b s k u → UnderAt b s i (.framed u f)
  | passing {i j k z message f} : k < j → j < i → s.1.cells[i]? = some (.pending (.settled j)) →
      s.1.cells[j]? = some (.pending (.framed true k f)) → Passing f → UnderAt b s k (.ready (.failure z message)) →
      UnderAt b s i (.ready (.failure z message))

/-- An answer in cells. -/
inductive AnswerAt (b : Nat) (s : Heap × World) : Outcome → Answer → Prop
  | success {rest value finish p} : PromiseAt b s rest value finish p →
      AnswerAt b s (.plain (.success rest value finish)) (.success p)
  | failure (z message) : AnswerAt b s (.plain (.failure z message)) (.failure z message)
  | committed {i u} : UnderAt b s i u → AnswerAt b s (.committed i) (.committed u)

/-- Parsers that have no outcome before they are asked, and are not made of frames. -/
inductive Asked : Parser → Prop
  | loop (init step) : Asked (.loop init step)
  | choice (ps) : Asked (.choice ps)
  | next : Asked .next
  | eof : Asked .eof
  | satisfy (test) : Asked (.satisfy test)

/-- A parser that was applied in the world `w`, with its outcome in cell `i`. -/
inductive AppliedAt (env : Env) (b : Nat) (s : Heap × World) (w : World) : Nat → Parser → Context → Prop
  | framed {i j p q f z} : frame? z p = some (q, f) → j < i → s.1.cells[i]? = some (.pending (.framed false j f)) →
      AppliedAt env b s w j q z → AppliedAt env b s w i p z
  | asked {i p z} : b ≤ i → s.1.cells[i]? = some (.pending (.primitive p z)) → Asked p → s.2 = w →
      AppliedAt env b s w i p z
  | known {i p z t t'} : b ≤ i → s.1.cells[i]? = some (.forced (.outcome (.plain t))) → SettledAt b s t t' →
      (∀ n, (means env (n + 1)).answer (.apply p z) w = (.ok t'.toAnswer, s.2)) → AppliedAt env b s w i p z
  | commit {i j p z} : j < i → s.1.cells[i]? = some (.forced (.outcome (.committed j))) → UnderAt b s j (.afresh p z) →
      s.2 = w → AppliedAt env b s w i (.commit p) z
  | rule {i j t name z} : b ≤ j → j < i →
      s.1.cells[i]? = some (.pending (.framed false j (.bind fun _ => .pure (env.grammar name)))) →
      s.1.cells[j]? = some (.forced (.outcome (.plain t))) →
      SettledAt b s t (.success { rest := .known z, value := .known .absent }) → s.2 = w →
      AppliedAt env b s w i (.rule name) z

/-! ### Cells that stay -/

section Keep

variable (h : Touches T s s') {i : Nat}

include h

theorem ValueAt.keep {l : Late Value} (hl : ValueAt b s i l)
    (hT : ∀ j ≤ i, ∀ c, kind? c = some .value → ¬ T j c) : ValueAt b s' i l := by
  induction hl with
  | known hb hi => exact .known hb (h.same _ _ hi (hT _ (Nat.le_refl _) _ rfl))
  | mapped hb hj hi _ ih =>
    exact .mapped hb hj (h.same _ _ hi (hT _ (Nat.le_refl _) _ rfl)) (ih fun k hk => hT k (Nat.le_trans hk (Nat.le_of_lt hj)))

theorem RestAt.keep {l : Late Context} (hl : RestAt b s i l) (hT : ∀ c, kind? c = some .rest → ¬ T i c) :
    RestAt b s' i l := by
  cases hl with
  | known hb hi => exact .known hb (h.same _ _ hi (hT _ rfl))
  | pushed hb hi => exact .pushed hb (h.same _ _ hi (hT _ rfl))
  | ended hb hj hi hend => exact .ended hb hj (h.same _ _ hi (hT _ rfl)) (h.ended _ _ hend)

theorem FinishAt.keep {l : Late Finish} (hl : FinishAt b s i l)
    (hT : ∀ j ≤ i, ∀ c, kind? c = some .finish → ¬ T j c) : FinishAt b s' i l := by
  induction hl with
  | ended hb hj hi hend => exact .ended hb hj (h.same _ _ hi (hT _ (Nat.le_refl _) _ rfl)) (h.ended _ _ hend)
  | changed hb hj hi _ ih =>
    exact .changed hb hj (h.same _ _ hi (hT _ (Nat.le_refl _) _ rfl)) (ih fun k hk => hT k (Nat.le_trans hk (Nat.le_of_lt hj)))

variable (hparts : ∀ j c κ, kind? c = some κ → κ ≠ .outcome → ¬ T j c)

include hparts

theorem PromiseAt.keep {r v : Nat} {f : Option Nat} {p : Promise} (hp : PromiseAt b s r v f p) :
    PromiseAt b s' r v f p := by
  refine ⟨hp.rest.keep h fun c hc => hparts _ c _ hc nofun, hp.value.keep h fun j _ c hc => hparts j c _ hc nofun, ?_⟩
  have hfinish := hp.finish
  revert hfinish
  generalize p.finish = l
  rintro (hl | -)
  · exact .some (hl.keep h fun j _ c hc => hparts j c _ hc nofun)
  · exact .none

theorem SettledAt.keep {t : Heap.Settled} {t' : OnDemand.Settled} (ht : SettledAt b s t t') : SettledAt b s' t t' := by
  cases ht with
  | success hp => exact .success (hp.keep h hparts)
  | failure z message => exact .failure z message

theorem UnderAt.keep {u : Suspended} (hu : UnderAt b s i u) (hT : ∀ j ≤ i, ∀ c, kind? c = some .outcome → ¬ T j c) :
    UnderAt b s' i u := by
  induction hu with
  | success hb hi hp => exact .success hb (h.same _ _ hi (hT _ (Nat.le_refl _) _ rfl)) (hp.keep h hparts)
  | failure hb hi => exact .failure hb (h.same _ _ hi (hT _ (Nat.le_refl _) _ rfl))
  | afresh hb hj hi hj' =>
    exact .afresh hb hj (h.same _ _ hi (hT _ (Nat.le_refl _) _ rfl)) (h.same _ _ hj' (hT _ (Nat.le_of_lt hj) _ rfl))
  | framed hk hj hi hj' hf _ ih =>
    exact .framed hk hj (h.same _ _ hi (hT _ (Nat.le_refl _) _ rfl)) (h.same _ _ hj' (hT _ (Nat.le_of_lt hj) _ rfl)) hf
      (ih fun m hm => hT m (Nat.le_trans hm (Nat.le_of_lt (Nat.lt_trans hk hj))))
  | passing hk hj hi hj' hf _ ih =>
    exact .passing hk hj (h.same _ _ hi (hT _ (Nat.le_refl _) _ rfl)) (h.same _ _ hj' (hT _ (Nat.le_of_lt hj) _ rfl)) hf
      (ih fun m hm => hT m (Nat.le_trans hm (Nat.le_of_lt (Nat.lt_trans hk hj))))

theorem AnswerAt.keep {o : Outcome} {a : Answer} (ho : AnswerAt b s o a)
    (hT : ∀ j c, kind? c = some .outcome → ¬ T j c) : AnswerAt b s' o a := by
  cases ho with
  | success hp => exact .success (hp.keep h hparts)
  | failure z message => exact .failure z message
  | committed hu => exact .committed (hu.keep h hparts fun j _ => hT j)

/-- What is in the cells of a parser that was applied stays as long as the world does. -/
theorem AppliedAt.keep {env : Env} {w : World} {p : Parser} {z : Context} (hp : AppliedAt env b s w i p z)
    (hworld : s'.2 = s.2) (hT : ∀ j ≤ i, ∀ c, kind? c = some .outcome → ¬ T j c) : AppliedAt env b s' w i p z := by
  induction hp with
  | framed hframe hj hi _ ih =>
    exact .framed hframe hj (h.same _ _ hi (hT _ (Nat.le_refl _) _ rfl)) (ih fun k hk => hT k (Nat.le_trans hk (Nat.le_of_lt hj)))
  | asked hb hi hp hw => exact .asked hb (h.same _ _ hi (hT _ (Nat.le_refl _) _ rfl)) hp (hworld.trans hw)
  | known hb hi ht hanswer =>
    exact .known hb (h.same _ _ hi (hT _ (Nat.le_refl _) _ rfl)) (ht.keep h hparts) fun n => hworld ▸ hanswer n
  | commit hj hi hu hw =>
    exact .commit hj (h.same _ _ hi (hT _ (Nat.le_refl _) _ rfl))
      (hu.keep h hparts fun k hk => hT k (Nat.le_trans hk (Nat.le_of_lt hj))) (hworld.trans hw)
  | rule hb hj hi hj' ht hw =>
    exact .rule hb hj (h.same _ _ hi (hT _ (Nat.le_refl _) _ rfl)) (h.same _ _ hj' (hT _ (Nat.le_of_lt hj) _ rfl))
      (ht.keep h hparts) (hworld.trans hw)

end Keep

theorem UnderAt.mem {i : Nat} {u : Suspended} (hu : UnderAt b s i u) : b ≤ i ∧ i < s.1.cells.size := by
  have hlt : ∀ {j : Nat} {c : Cell Task Content}, s.1.cells[j]? = some c → j < s.1.cells.size := fun hj =>
    (Array.getElem?_eq_some_iff.1 hj).1
  induction hu with
  | success hb hi _ => exact ⟨hb, hlt hi⟩
  | failure hb hi => exact ⟨hb, hlt hi⟩
  | afresh hb hj hi _ => exact ⟨Nat.le_trans hb (Nat.le_of_lt hj), hlt hi⟩
  | framed hk hj hi _ _ _ ih => exact ⟨Nat.le_trans ih.1 (Nat.le_of_lt (Nat.lt_trans hk hj)), hlt hi⟩
  | passing hk hj hi _ _ _ ih => exact ⟨Nat.le_trans ih.1 (Nat.le_of_lt (Nat.lt_trans hk hj)), hlt hi⟩

section Forced

variable {i : Nat} (hi : s.1.cells[i]? = some .forcing) (c : Cell Task Content)

include hi

theorem SettledAt.put {t : Heap.Settled} {t' : OnDemand.Settled} (ht : SettledAt b s t t') :
    SettledAt b (put i c s) t t' := ht.keep (touches_put_forcing hi c) fun _ _ _ hc _ => not_forcing hc

theorem AnswerAt.put {o : Outcome} {a : Answer} (ho : AnswerAt b s o a) : AnswerAt b (put i c s) o a :=
  ho.keep (touches_put_forcing hi c) (fun _ _ _ hc _ => not_forcing hc) fun _ _ hc => not_forcing hc

end Forced

/-! ### Cells below one that waits for an outcome -/

section Pending

variable {i j : Nat} {t : Task} (hj : s.1.cells[j]? = some (.pending t)) (ht : t.kind = .outcome) (c : Cell Task Content)

include ht

theorem not_part (i : Nat) (c : Cell Task Content) (κ : Kind) (hc : kind? c = some κ) (hκ : κ ≠ .outcome) :
    ¬ (i = j ∧ c = .pending t) := by
  rintro ⟨-, rfl⟩
  exact hκ ((Option.some.inj hc).symm.trans ht)

include hj

theorem touches_put_outcome : Touches (fun k d => k = j ∧ d = .pending t) s (put j c s) :=
  touches_put_pending hj (by rw [ht]; nofun) c

theorem PromiseAt.put {r v : Nat} {f : Option Nat} {p : Promise} (hp : PromiseAt b s r v f p) :
    PromiseAt b (put j c s) r v f p := hp.keep (touches_put_outcome hj ht c) (not_part ht)

variable (hij : i < j)

include hij

theorem UnderAt.put {u : Suspended} (hu : UnderAt b s i u) : UnderAt b (put j c s) i u :=
  hu.keep (touches_put_outcome hj ht c) (not_part ht) fun _ hk _ _ hkj => absurd (hkj.1 ▸ hij) (Nat.not_lt_of_le hk)

theorem AppliedAt.put {env : Env} {w : World} {p : Parser} {z : Context} (hp : AppliedAt env b s w i p z) :
    AppliedAt env b (put j c s) w i p z :=
  hp.keep (touches_put_outcome hj ht c) (not_part ht) rfl fun _ hk _ _ hkj => absurd (hkj.1 ▸ hij) (Nat.not_lt_of_le hk)

end Pending

/-! ### What is there -/

theorem AppliedAt.mem {env : Env} {w : World} {i : Nat} {p : Parser} {z : Context} (hp : AppliedAt env b s w i p z) :
    b ≤ i ∧ i < s.1.cells.size := by
  have hlt : ∀ {j : Nat} {c : Cell Task Content}, s.1.cells[j]? = some c → j < s.1.cells.size := fun hj =>
    (Array.getElem?_eq_some_iff.1 hj).1
  induction hp with
  | framed _ hj hi _ ih => exact ⟨Nat.le_trans ih.1 (Nat.le_of_lt hj), hlt hi⟩
  | asked hb hi _ _ => exact ⟨hb, hlt hi⟩
  | known hb hi _ _ => exact ⟨hb, hlt hi⟩
  | commit hj hi hu _ => exact ⟨Nat.le_trans hu.mem.1 (Nat.le_of_lt hj), hlt hi⟩
  | rule hb hj hi _ _ _ => exact ⟨Nat.le_trans hb (Nat.le_of_lt hj), hlt hi⟩

theorem ValueAt.lt {i : Nat} {l : Late Value} (hl : ValueAt b s i l) : i < s.1.cells.size := by
  cases hl with
  | known _ hi => exact (Array.getElem?_eq_some_iff.1 hi).1
  | mapped _ _ hi _ => exact (Array.getElem?_eq_some_iff.1 hi).1

theorem FinishAt.lt {i : Nat} {l : Late Finish} (hl : FinishAt b s i l) : i < s.1.cells.size := by
  cases hl with
  | ended _ _ hi _ => exact (Array.getElem?_eq_some_iff.1 hi).1
  | changed _ _ hi _ => exact (Array.getElem?_eq_some_iff.1 hi).1

/-! ### A lower bound -/

section Lower

variable (hb : b' ≤ b) {i : Nat}

include hb

theorem ValueAt.lower {l : Late Value} (hl : ValueAt b s i l) : ValueAt b' s i l := by
  induction hl with
  | known hi hc => exact .known (Nat.le_trans hb hi) hc
  | mapped hi hj hc _ ih => exact .mapped (Nat.le_trans hb hi) hj hc ih

theorem RestAt.lower {l : Late Context} (hl : RestAt b s i l) : RestAt b' s i l := by
  cases hl with
  | known hi hc => exact .known (Nat.le_trans hb hi) hc
  | pushed hi hc => exact .pushed (Nat.le_trans hb hi) hc
  | ended hi hj hc hend => exact .ended (Nat.le_trans hb hi) (Nat.le_trans hb hj) hc hend

theorem FinishAt.lower {l : Late Finish} (hl : FinishAt b s i l) : FinishAt b' s i l := by
  induction hl with
  | ended hi hj hc hend => exact .ended (Nat.le_trans hb hi) (Nat.le_trans hb hj) hc hend
  | changed hi hj hc _ ih => exact .changed (Nat.le_trans hb hi) hj hc ih

theorem PromiseAt.lower {r v : Nat} {f : Option Nat} {p : Promise} (hp : PromiseAt b s r v f p) :
    PromiseAt b' s r v f p := by
  refine ⟨hp.rest.lower hb, hp.value.lower hb, ?_⟩
  have hfinish := hp.finish
  revert hfinish
  generalize p.finish = l
  rintro (hl | -)
  · exact .some (hl.lower hb)
  · exact .none

theorem UnderAt.lower {u : Suspended} (hu : UnderAt b s i u) : UnderAt b' s i u := by
  induction hu with
  | success hi hc hp => exact .success (Nat.le_trans hb hi) hc (hp.lower hb)
  | failure hi hc => exact .failure (Nat.le_trans hb hi) hc
  | afresh hj hi hc hj' => exact .afresh (Nat.le_trans hb hj) hi hc hj'
  | framed hk hj hc hj' hf _ ih => exact .framed hk hj hc hj' hf ih
  | passing hk hj hc hj' hf _ ih => exact .passing hk hj hc hj' hf ih

theorem AnswerAt.lower {o : Outcome} {a : Answer} (ho : AnswerAt b s o a) : AnswerAt b' s o a := by
  cases ho with
  | success hp => exact .success (hp.lower hb)
  | failure z message => exact .failure z message
  | committed hu => exact .committed (hu.lower hb)

end Lower

/-! ## Applying parsers -/

/-- A commitment to what is in a cell already. -/
theorem commit_forced {i : Nat} {t : Heap.Settled} (hi : s.1.cells[i]? = some (.forced (.outcome (.plain t)))) :
    commit i s.1 s.2 = (.ok (.committed s.1.cells.size), push (.forced (.outcome (.plain t))) s) := by
  unfold commit
  refine (Hold.bind_of_ok (show Hold.get s.1 s.2 = (.ok s.1, s.1, s.2) from rfl)).trans ?_
  rw [hi]
  rfl

/-- A commitment to what waits in a cell. -/
theorem commit_pending {i : Nat} {t : Task} (hi : s.1.cells[i]? = some (.pending t)) :
    commit i s.1 s.2 = (.ok (.committed s.1.cells.size), push (.pending (.settled i)) s) := by
  unfold commit
  refine (Hold.bind_of_ok (show Hold.get s.1 s.2 = (.ok s.1, s.1, s.2) from rfl)).trans ?_
  rw [hi]
  rfl

variable {env : Env}

/-- A parser comes to be applied: its cell is new, and nothing that was there has changed. -/
def Applies (env : Env) (x : Hold Heap Nat) (p : Parser) (z : Context) (s : Heap × World) : Prop :=
  ∃ i s', x s.1 s.2 = (.ok i, s') ∧ AppliedAt env s.1.cells.size s' s.2 i p z ∧ Touches (From s.1.cells.size Kind.None) s s' ∧
    Beside s'

namespace Applies

variable {x : Hold Heap Nat} {p q : Parser} {z : Context} {f : Frame}

/-- A frame around a parser that was applied. -/
theorem framed (h : Applies env x q z s) (hf : frame? z p = some (q, f)) :
    Applies env (do waiting (.framed false (← x) f)) p z s := by
  obtain ⟨j, s', hx, hj, ht, hs⟩ := h
  refine ⟨s'.1.cells.size, push (.pending (.framed false j f)) s', Hold.bind_of_ok hx, ?_, ht.trans (touches_push _),
    hs.of_lists rfl rfl⟩
  exact .framed hf hj.mem.2 (push_self _ _) (hj.keep (touches_push (T := fun _ _ => False) _) (fun _ _ _ _ _ => id) rfl
    fun _ _ _ _ => id)

/-- A parser that has no outcome before it is asked. -/
theorem asked (hs : Beside s) (hp : Asked p) : Applies env (waiting (.primitive p z)) p z s :=
  ⟨s.1.cells.size, push (.pending (.primitive p z)) s, rfl, .asked (Nat.le_refl _) (push_self _ s) hp rfl, touches_push _,
    hs.of_lists rfl rfl⟩

/-- A failure. -/
theorem failure (hs : Beside s) (message : String) :
    Applies env (known (.outcome (.plain (.failure z message)))) (.fail message) z s :=
  ⟨s.1.cells.size, push (.forced (.outcome (.plain (.failure z message)))) s, rfl,
    .known (Nat.le_refl _) (push_self _ s) (.failure z message) fun n => by rw [means_answer_apply]; rfl, touches_push _,
    hs.of_lists rfl rfl⟩

/-- A success whose parts are in cells. -/
theorem plainly {x : Hold Heap Outcome} {s' : Heap × World} {rest value : Nat} {finish : Option Nat} {promise : Promise}
    (hx : x s.1 s.2 = (.ok (.plain (.success rest value finish)), s'))
    (hp : PromiseAt s.1.cells.size s' rest value finish promise)
    (hanswer : ∀ n, (means env (n + 1)).answer (.apply p z) s.2 = (.ok (.success promise), s'.2))
    (ht : Touches (From s.1.cells.size Kind.None) s s') (hs : Beside s') :
    Applies env (do known (.outcome (← x))) p z s := by
  refine ⟨s'.1.cells.size, push _ s', Hold.bind_of_ok hx, ?_, ht.trans (touches_push _), hs.of_lists rfl rfl⟩
  exact .known ht.size (push_self _ _) (.success (hp.keep (touches_push (T := fun _ _ => False) _) fun _ _ _ _ _ => id))
    hanswer

/-- The cells of a success all of whose parts are known. -/
theorem success_eq (z : Context) (v : Value) (s : Heap × World) : Heap.success z v s.1 s.2 =
    (.ok (.plain (.success s.1.cells.size (s.1.cells.size + 1) none)),
      push (.forced (.value v)) (push (.forced (.rest z)) s)) := by
  rw [← size_push (.forced (.rest z)) s]
  rfl

theorem success_at (z : Context) (v : Value) (s : Heap × World) :
    PromiseAt s.1.cells.size (push (.forced (.value v)) (push (.forced (.rest z)) s)) s.1.cells.size
      (s.1.cells.size + 1) none { rest := .known z, value := .known v } :=
  ⟨.known (Nat.le_refl _) (push_old _ (push_self _ s)), .known (Nat.le_succ _) (size_push _ s ▸ push_self _ _), .none⟩

/-- A success all of whose parts are known. -/
theorem success {z' : Context} {v : Value} (hs : Beside s)
    (hanswer : ∀ n, (means env (n + 1)).answer (.apply p z) s.2 = (.ok (.known z' v), s.2)) :
    Applies env (do known (.outcome (← Heap.success z' v))) p z s :=
  plainly (success_eq z' v s) (success_at z' v s) hanswer ((touches_push _).trans (touches_push _)) (hs.of_lists rfl rfl)

/-- Tokens that were pushed back. -/
theorem pushBack (hs : Beside s) (ts : List Value) :
    Applies env (Heap.apply env.grammar (.pushBack ts) z) (.pushBack ts) z s := by
  have hp : PromiseAt s.1.cells.size (push (.forced (.value .absent)) (push (.pending (.pushed z ts)) s)) s.1.cells.size
      (s.1.cells.size + 1) none { rest := .known { z with input := z.input.push ts }, value := .known .absent } :=
    ⟨.pushed (Nat.le_refl _) (push_old _ (push_self _ s)), .known (Nat.le_succ _) (size_push _ s ▸ push_self _ _), .none⟩
  refine plainly (x := do
    let rest ← waiting (.pushed z ts)
    let value ← known (.value .absent)
    pure (.plain (.success rest value none))) ?_ hp (fun n => by rw [means_answer_apply]; rfl)
    ((touches_push _).trans (touches_push _)) (hs.of_lists rfl rfl)
  rw [← size_push (.pending (.pushed z ts)) s]
  rfl

/-- A rule of the grammar. -/
theorem rule (hs : Beside s) (name : String) : Applies env (Heap.apply env.grammar (.rule name) z) (.rule name) z s := by
  have hp := success_at z .absent s
  have hsize := Nat.le_of_lt (Nat.lt_trans (lt_push (.forced (.rest z)) s) (lt_push (.forced (.value .absent)) _))
  have heq := success_eq z .absent s
  have ht : Touches (From s.1.cells.size Kind.None) s (push (.forced (.value .absent)) (push (.forced (.rest z)) s)) :=
    (touches_push _).trans (touches_push _)
  have hs' : Beside (push (.forced (.value .absent)) (push (.forced (.rest z)) s)) := hs.of_lists rfl rfl
  have hw : (push (.forced (.value .absent)) (push (.forced (.rest z)) s)).2 = s.2 := rfl
  generalize push (.forced (.value .absent)) (push (.forced (.rest z)) s) = s' at hp hsize heq ht hs' hw
  have hkeep : ∀ c d, Touches (fun _ _ => False) s' (push c (push d s')) := fun _ _ =>
    (touches_push _).trans (touches_push _)
  refine ⟨_, push (.pending (.framed false s'.1.cells.size (.bind fun _ => .pure (env.grammar name)))) (push _ s'),
    Hold.bind_of_ok heq, .rule hsize (lt_push _ _) (push_self _ _) (push_old _ (push_self _ _))
    (.success (hp.keep (hkeep _ _) fun _ _ _ _ _ => id)) hw, ht.trans ((touches_push _).trans (touches_push _)),
    hs'.of_lists rfl rfl⟩

/-- A commitment. -/
theorem commit (hs : Beside s) (p : Parser) : Applies env (Heap.apply env.grammar (.commit p) z) (.commit p) z s := by
  have hkeep : ∀ c, Touches (fun _ _ => False) (push (.pending (.settled s.1.cells.size)) (push (.pending (.afresh p z)) s))
      (push c (push (.pending (.settled s.1.cells.size)) (push (.pending (.afresh p z)) s))) := fun _ => touches_push _
  have hunder : UnderAt s.1.cells.size (push (.pending (.settled s.1.cells.size)) (push (.pending (.afresh p z)) s))
      (push (.pending (.afresh p z)) s).1.cells.size (.afresh p z) :=
    .afresh (Nat.le_refl _) (lt_push _ s) (push_self _ _) (push_old _ (push_self _ s))
  refine ⟨_, push _ (push (.pending (.settled s.1.cells.size)) (push (.pending (.afresh p z)) s)),
    Hold.bind_of_ok (commit_pending (push_self (.pending (.afresh p z)) s)), .commit (lt_push _ _) (push_self _ _)
    (hunder.keep (hkeep _) (fun _ _ _ _ _ => id) fun _ _ _ _ => id) rfl,
    (touches_push _).trans ((touches_push _).trans (touches_push _)), hs.of_lists rfl rfl⟩

/-- The cells of the success of a list, and its items are not parsed. -/
theorem list_at (i : Nat) (s : Heap × World) : ∃ s', Touches (From s.1.cells.size Kind.None) s s' ∧ s'.2 = s.2 ∧
    s'.1.links = s.1.links ∧ PromiseAt s.1.cells.size s' (s.1.cells.size + 1) (s.1.cells.size + 3)
      (some (s.1.cells.size + 2)) {
        rest := .later do return (← Act.endOf i).rest
        value := .known (.list i)
        finish := some (.later do return (← Act.endOf i).finish) } ∧
    (do
      let ended ← waiting (.walked i)
      let rest ← waiting (.restOf ended)
      let finish ← waiting (.finishOf ended)
      let value ← known (.value (.list i))
      pure (Outcome.plain (.success rest value (some finish))) : Hold Heap Outcome) s.1 s.2 =
        (.ok (.plain (.success (s.1.cells.size + 1) (s.1.cells.size + 3) (some (s.1.cells.size + 2)))), s') := by
  have h₁ := push_self (.pending (.walked i)) s
  have h₂ := push_self (.pending (.restOf s.1.cells.size)) (push (.pending (.walked i)) s)
  have h₃ := push_self (.pending (.finishOf s.1.cells.size))
    (push (.pending (.restOf s.1.cells.size)) (push (.pending (.walked i)) s))
  have h₄ := push_self (.forced (.value (.list i))) (push (.pending (.finishOf s.1.cells.size))
    (push (.pending (.restOf s.1.cells.size)) (push (.pending (.walked i)) s)))
  simp only [size_push] at h₂ h₃ h₄
  refine ⟨push (.forced (.value (.list i))) (push (.pending (.finishOf s.1.cells.size))
    (push (.pending (.restOf s.1.cells.size)) (push (.pending (.walked i)) s))),
    (touches_push _).trans ((touches_push _).trans ((touches_push _).trans (touches_push _))), rfl, rfl, ?_, ?_⟩
  · have hend := EndAt.waits (push_old (.forced (.value (.list i))) (push_old (.pending (.finishOf s.1.cells.size))
      (push_old (.pending (.restOf s.1.cells.size)) h₁)))
    exact ⟨.ended (Nat.le_add_right _ _) (Nat.le_refl _) (push_old _ (push_old _ h₂)) hend,
      .known (Nat.le_add_right _ _) h₄,
      .some (.ended (Nat.le_add_right _ _) (Nat.le_refl _) (push_old _ h₃) hend)⟩
  · have hsizes : ∀ c d e : Cell Task Content, (push c s).1.cells.size = s.1.cells.size + 1 ∧
        (push d (push c s)).1.cells.size = s.1.cells.size + 2 ∧
        (push e (push d (push c s))).1.cells.size = s.1.cells.size + 3 := fun c d e => by simp
    obtain ⟨hs₁, hs₂, hs₃⟩ := hsizes (.pending (.walked i)) (.pending (.restOf s.1.cells.size))
      (.pending (.finishOf s.1.cells.size))
    rw [← hs₁, ← hs₂, ← hs₃]
    rfl

/-- A list. -/
theorem stream (hs : Beside s) (p : Parser) : Applies env (Heap.apply env.grammar (.stream p) z) (.stream p) z s := by
  have hanswer : ∀ n, (means env (n + 1)).answer (.apply (.stream p) z) s.2 =
      (.ok (.ofList (nodeNumber s.2.lists.size 0)), (Heap.makeList ⟨p, z, false⟩ s.1 s.2).2.2) := fun n => by
    rw [means_answer_apply]
    rfl
  have hmake : Heap.makeList ⟨p, z, false⟩ s.1 s.2 =
      (.ok (nodeNumber s.2.lists.size 0), (Heap.makeList ⟨p, z, false⟩ s.1 s.2).2) := rfl
  have hcells : (Heap.makeList ⟨p, z, false⟩ s.1 s.2).2.1.cells = s.1.cells := rfl
  obtain ⟨s', ht, hworld, hlinks, hp, hlist⟩ := list_at (nodeNumber s.2.lists.size 0) (Heap.makeList ⟨p, z, false⟩ s.1 s.2).2
  rw [hcells] at ht hp hlist
  refine plainly (x := list p z) ((Hold.bind_of_ok hmake).trans hlist) hp (fun n => ?_) ((touches_makeList hs _).trans ht)
    ((hs.makeList _).of_lists hlinks (congrArg World.lists hworld))
  rw [hworld]
  exact hanswer n

end Applies

/-- **Applying a parser** does no work. -/
theorem applies (env : Env) : ∀ (p : Parser) (z : Context) {s : Heap × World}, Beside s →
    Applies env (apply env.grammar p z) p z s
  | .pure v, z, _, hs => .success hs fun n => by rw [means_answer_apply]; rfl
  | .fail message, z, _, hs => .failure hs message
  | .map p f, z, _, hs => (applies env p z hs).framed rfl
  | .bind p k, z, _, hs => (applies env p z hs).framed rfl
  | .orElse p q, z, _, hs => (applies env p z hs).framed rfl
  | .reword p f, z, _, hs => (applies env p z hs).framed rfl
  | .restoring p, z, _, hs => (applies env p z hs).framed rfl
  | .commit p, z, _, hs => .commit hs p
  | .pushBack ts, z, _, hs => .pushBack hs ts
  | .position, z, _, hs => .success hs fun n => by rw [means_answer_apply]; rfl
  | .get, z, _, hs => .success hs fun n => by rw [means_answer_apply]; rfl
  | .put u, z, _, hs => .success hs fun n => by rw [means_answer_apply]; rfl
  | .stream p, z, _, hs => .stream hs p
  | .rule name, z, _, hs => .rule hs name
  | .loop init step, z, _, hs => .asked hs (.loop init step)
  | .choice ps, z, _, hs => .asked hs (.choice ps)
  | .next, z, _, hs => .asked hs .next
  | .eof, z, _, hs => .asked hs .eof
  | .satisfy test, z, _, hs => .asked hs (.satisfy test)

end Heap

end CommittedChoice
