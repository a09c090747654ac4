import CommittedChoice.Proofs.Tokens
import Mathlib.Data.Finset.Card
import Mathlib.Data.Finset.Range

/-!
# Where tokens come from

A program may read any remainder it has obtained, push tokens in front of it, and look at what it counts. Whether the
tokens come from a list, from a text or from a feed cannot be told from what it sees, and a feed is asked no more than
once for each position.

- `Probe`, `Views.run`: operations on remainders obtained before, and what each of them shows;
- `Remainder.listed`: the remainder of the list that a remainder stands for. Reading a remainder goes along with reading
  the list (`Sound.next?`), and so does every operation (`Views.Sound.step`);
- `Remainder.position?`: the position of the source at which a remainder is read. A feed is asked for a position unless it
  was asked for that one or a later one before (`Sound.next?`);
- `Views.sources_alike`: the same for whole programs.
-/

namespace CommittedChoice

/-! ## Programs -/

/-- An operation on a remainder. -/
inductive Probe where
  | next
  | push (ts : List Value)
  | offset
  | consumed

/-- What an operation shows. -/
inductive Sight where
  | token (t : Value)
  | ended
  | fault (e : Fault)
  | pushed
  | offset (n : Int)
  | consumed (n : Nat)
  /-- The operation was for a remainder that was never obtained. -/
  | missing

/-- What an operation shows of a remainder, the remainder it gives, and the feed after it. -/
def Probe.apply : Probe → Remainder → Feed → Sight × Option Remainder × Feed
  | .next, s, feed =>
    match s.next? feed with
    | (.ok (some (t, rest)), feed) => (.token t, some rest, feed)
    | (.ok none, feed) => (.ended, none, feed)
    | (.error e, feed) => (.fault e, none, feed)
  | .push ts, s, feed => (.pushed, some (s.push ts), feed)
  | .offset, s, feed => (.offset s.offset, none, feed)
  | .consumed, s, feed => (.consumed s.consumed, none, feed)

/-- The position of the source at which a remainder is read, unless a token was pushed in front of it. -/
def Remainder.position? : Remainder → Option Nat
  | .fed n => some n
  | .shifted base _ => base.position?
  | _ => none

/-- The remainders obtained so far, the oldest first, and the feed behind them. -/
structure Views where
  obtained : List Remainder
  feed : Feed

namespace Views

/-- One operation on the remainder of this number. -/
def step (v : Views) (op : Nat × Probe) : Sight × Views :=
  match v.obtained[op.1]? with
  | none => (.missing, v)
  | some s =>
    match op.2.apply s v.feed with
    | (sight, new, feed) => (sight, ⟨v.obtained ++ new.toList, feed⟩)

/-- A program: what each operation shows, and what there is after the last one. -/
def run : Views → List (Nat × Probe) → List Sight × Views
  | v, [] => ([], v)
  | v, op :: ops =>
    match run (v.step op).2 ops with
    | (sights, v') => ((v.step op).1 :: sights, v')

/-- The position of the source that an operation demands. -/
def demand? (v : Views) : Nat × Probe → Option Nat
  | (i, .next) => v.obtained[i]?.bind Remainder.position?
  | _ => none

/-- The positions of the source that a program demands, in order. -/
def demands : Views → List (Nat × Probe) → List Nat
  | _, [] => []
  | v, op :: ops => (v.demand? op).toList ++ demands (v.step op).2 ops

end Views

/-! ## Feeds -/

/-- A source that gives `ts`, then reports its end, and was not asked yet. What it would answer afterwards is open. -/
structure Feed.Offers (feed : Feed) (ts : List Value) : Prop where
  token : ∀ (k : Nat) (t : Value), ts[k]? = some t → feed.source k = .token t
  ended : feed.source ts.length = .ended
  unasked : feed.calls = 0 ∧ feed.given = #[] ∧ feed.ended = false

theorem Feed.offers_ofTokens (ts : List Value) (more : Array Value) : (Feed.ofTokens ts.toArray more []).Offers ts where
  token k t h := by simp [ofTokens, h]
  ended := by simp [ofTokens]
  unasked := ⟨rfl, rfl, rfl⟩

/-- A feed of `ts` whose source was called once for each token it gave and once for its end. -/
structure Feed.Over (feed : Feed) (ts : List Value) : Prop where
  gives : feed.Gives ts
  calls : feed.calls = feed.given.size + if feed.ended then 1 else 0

namespace Feed

variable {feed feed' : Feed} {ts : List Value} {n : Nat}

theorem Offers.over (h : feed.Offers ts) : feed.Over ts := by
  obtain ⟨hcalls, hgiven, hended⟩ := h.unasked
  have hahead : ∀ k, k ≤ ts.length → Ahead feed.source k (ts.drop k) := by
    intro k hk
    induction hk using Nat.decreasingInduction with
    | self => rw [List.drop_length]; exact .ended h.ended
    | of_succ k hk ih =>
      rw [List.drop_eq_getElem_cons hk]
      exact .token (h.token k _ (List.getElem?_eq_getElem hk)) ih
  refine ⟨⟨ts, by rw [hgiven]; rfl, ?_⟩, by rw [hcalls, hgiven, hended]; rfl⟩
  rw [hended, hcalls]
  exact hahead 0 (Nat.zero_le _)

theorem Over.advance (h : feed.Over ts) (hended : feed.ended = false) : feed.advance.Over ts := by
  refine ⟨h.gives.advance hended, ?_⟩
  have hcalls := h.calls
  rw [hended] at hcalls
  obtain ⟨us, -, hus⟩ := h.gives
  rw [hended, if_neg Bool.false_ne_true] at hus
  unfold Feed.advance
  cases hus with
  | ended hsource => rw [hsource]; simpa using hcalls
  | token hsource _ => rw [hsource]; simpa [hended] using hcalls

theorem Over.later (h : feed.Over ts) (hlater : feed.Later feed') : feed'.Over ts := by
  induction hlater with
  | refl => exact h
  | call _ hended ih => exact ih.advance hended

/-- **A position is asked for once.** -/
theorem Over.calls_read (h : feed.Over ts) (hn : n ≤ feed.given.size) :
    (feed.read n).2.calls = max feed.calls (n + 1) := by
  have hcalls := h.calls
  by_cases hlt : n < feed.given.size
  · have hle : n + 1 ≤ feed.calls := by omega
    rw [read_of_lt hlt]
    exact (Nat.max_eq_left hle).symm
  · cases hended : feed.ended with
    | true =>
      rw [hended, if_pos rfl] at hcalls
      have hle : n + 1 ≤ feed.calls := by omega
      rw [read_of_ended (Nat.le_of_not_lt hlt) hended]
      exact (Nat.max_eq_left hle).symm
    | false =>
      rw [hended, if_neg Bool.false_ne_true] at hcalls
      rw [read_of_open (Nat.le_of_not_lt hlt) hended]
      have hadvance : feed.advance.calls = feed.calls + 1 := by
        unfold Feed.advance
        cases feed.source feed.calls <;> rfl
      exact hadvance.trans (by omega)

end Feed

/-! ## Remainders -/

namespace Remainder

/-- The remainder of the list `ts` that a remainder stands for. -/
def listed (ts : List Value) : Remainder → Remainder
  | .tokens _ n | .chars _ n | .fed n => .tokens (ts.drop n) n
  | .pushed t more base c => .pushed t more (base.listed ts) c
  | .shifted base extra => .shifted (base.listed ts) extra

section Listed

variable (ts : List Value)

@[simp] theorem offset_listed : ∀ s : Remainder, (s.listed ts).offset = s.offset
  | .tokens _ _ | .chars _ _ | .fed _ => rfl
  | .pushed _ _ base _ => congrArg (· - _) (offset_listed base)
  | .shifted base _ => offset_listed base

@[simp] theorem consumed_listed : ∀ s : Remainder, (s.listed ts).consumed = s.consumed
  | .tokens _ _ | .chars _ _ | .fed _ => rfl
  | .pushed _ _ _ _ => rfl
  | .shifted base _ => congrArg (· + _) (consumed_listed base)

@[simp] theorem listed_push (us : List Value) (s : Remainder) : (s.push us).listed ts = (s.listed ts).push us := by
  cases us with
  | nil => rfl
  | cons u us => rw [push, push, listed, consumed_listed]

@[simp] theorem listed_shift (s : Remainder) (k : Nat) : (s.shift k).listed ts = (s.listed ts).shift k := by
  unfold shift
  split
  · rfl
  · cases s <;> rfl

end Listed

/-- The remainder has the tokens of `ts` behind the place where it stands; a feed was read up to there. -/
def Sound (ts : List Value) (feed : Feed) : Remainder → Prop
  | .tokens left n => left = ts.drop n
  | .chars left n => left.map (fun c => .text (String.singleton c)) = ts.drop n
  | .fed n => feed.Over ts ∧ n ≤ feed.given.size
  | .pushed _ _ base _ => base.Sound ts feed
  | .shifted base _ => base.Sound ts feed

namespace Sound

variable {ts : List Value} {feed feed' : Feed}

theorem push {s : Remainder} (h : s.Sound ts feed) (us : List Value) : (s.push us).Sound ts feed := by
  cases us with
  | nil => exact h
  | cons u us => exact h

theorem shift {s : Remainder} (h : s.Sound ts feed) (k : Nat) : (s.shift k).Sound ts feed := by
  unfold Remainder.shift
  split
  · exact h
  · cases s <;> exact h

/-- What is read of one remainder leaves all others as they are. -/
theorem later (hlater : feed.Later feed') : ∀ {s : Remainder}, s.Sound ts feed → s.Sound ts feed'
  | .tokens _ _, h | .chars _ _, h => h
  | .fed _, h => ⟨h.1.later hlater, Nat.le_trans h.2 hlater.size_le⟩
  | .pushed _ _ base _, h => later hlater (s := base) h
  | .shifted base _, h => later hlater (s := base) h

/-- What reading a remainder does: it gives what the list gives, what is left stands for what is left of the list, and the
source is called for a position at most once. -/
structure Step (ts : List Value) (feed : Feed) (s : Remainder) (a : Option (Value × Remainder)) (feed' : Feed) : Prop where
  next? : s.next? feed = (.ok a, feed')
  listed : ∀ g, (s.listed ts).next? g = (.ok (a.map fun x => (x.1, x.2.listed ts)), g)
  sound : ∀ x, a = some x → x.2.Sound ts feed'
  later : feed.Later feed'
  calls : feed'.calls = match s.position? with
    | some n => max feed.calls (n + 1)
    | none => feed.calls

/-- **Reading a remainder goes along with reading the list.** -/
theorem next? : ∀ {s : Remainder}, s.Sound ts feed → ∃ a feed', Step ts feed s a feed'
  | .tokens left n, h => by
    have h : left = ts.drop n := h
    subst h
    cases hdrop : ts.drop n with
    | nil =>
      refine ⟨none, feed, ?_, fun g => ?_, fun _ hx => (nomatch hx), .refl, rfl⟩
      · rw [Remainder.next?]
      · rw [Remainder.listed, hdrop, Remainder.next?]; rfl
    | cons t us =>
      have hus : us = ts.drop (n + 1) := by rw [← List.tail_drop, hdrop]; rfl
      refine ⟨some (t, .tokens us (n + 1)), feed, ?_, fun g => ?_, ?_, .refl, rfl⟩
      · rw [Remainder.next?]
      · rw [Remainder.listed, hdrop, Remainder.next?, hus]; rfl
      · rintro x ⟨⟩
        exact hus
  | .chars left n, h => by
    have h : left.map (fun c => Value.text (String.singleton c)) = ts.drop n := h
    cases left with
    | nil =>
      refine ⟨none, feed, ?_, fun g => ?_, fun _ hx => (nomatch hx), .refl, rfl⟩
      · rw [Remainder.next?]
      · rw [Remainder.listed, ← h, List.map_nil, Remainder.next?]; rfl
    | cons c cs =>
      have hcs : cs.map (fun c => Value.text (String.singleton c)) = ts.drop (n + 1) := by
        rw [← List.tail_drop, ← h]; rfl
      refine ⟨some (.text (String.singleton c), .chars cs (n + 1)), feed, ?_, fun g => ?_, ?_, .refl, rfl⟩
      · rw [Remainder.next?]
      · rw [Remainder.listed, ← h, List.map_cons, Remainder.next?, hcs]; rfl
      · rintro x ⟨⟩
        exact hcs
  | .fed n, h => by
    obtain ⟨hover, hn⟩ := h
    have hlater := feed.later_read n
    have hcalls := hover.calls_read hn
    obtain ⟨hread, hlt⟩ := hover.gives.read hn
    rcases hfeed : feed.read n with ⟨answer, feed'⟩
    rw [hfeed] at hlater hcalls hread hlt
    cases hread
    cases ht : ts[n]? with
    | none =>
      refine ⟨none, feed', ?_, fun g => ?_, fun _ hx => (nomatch hx), hlater, hcalls⟩
      · rw [Remainder.next?, hfeed, ht]
      · rw [Remainder.listed, List.drop_eq_nil_of_le (List.getElem?_eq_none_iff.1 ht), Remainder.next?]; rfl
    | some t =>
      obtain ⟨hlength, rfl⟩ := List.getElem?_eq_some_iff.1 ht
      refine ⟨some (ts[n], .fed (n + 1)), feed', ?_, fun g => ?_, ?_, hlater, hcalls⟩
      · rw [Remainder.next?, hfeed, ht]
      · rw [Remainder.listed, List.drop_eq_getElem_cons hlength, Remainder.next?]; rfl
      · rintro x ⟨⟩
        exact ⟨hover.later hlater, hlt hlength⟩
  | .pushed t more base c, h => by
    have h : base.Sound ts feed := h
    cases more with
    | nil =>
      refine ⟨some (t, base.shift (c + 1 - base.consumed)), feed, ?_, fun g => ?_, ?_, .refl, rfl⟩
      · rw [Remainder.next?]
      · rw [Remainder.listed, Remainder.next?, Option.map_some, listed_shift, consumed_listed]
      · rintro x ⟨⟩
        exact Sound.shift (s := base) h _
    | cons u us =>
      refine ⟨some (t, .pushed u us base (c + 1)), feed, ?_, fun g => ?_, ?_, .refl, rfl⟩
      · rw [Remainder.next?]
      · rw [Remainder.listed, Remainder.next?]; rfl
      · rintro x ⟨⟩
        exact h
  | .shifted base extra, h => by
    obtain ⟨a, feed', step⟩ := next? (s := base) h
    refine ⟨a.map fun x => (x.1, x.2.shift extra), feed', ?_, fun g => ?_, ?_, step.later, step.calls⟩
    · rw [Remainder.next?, step.next?]
      cases a <;> rfl
    · rw [Remainder.listed, Remainder.next?, step.listed]
      cases a with
      | none => rfl
      | some x => simp only [Option.map_some, listed_shift]
    · rintro x hx
      obtain ⟨y, hy, rfl⟩ := Option.map_eq_some_iff.1 hx
      exact (step.sound y hy).shift extra

end Sound

end Remainder

/-! ## Whole programs -/

namespace Views

variable {ts : List Value} {v : Views}

/-- The remainders of the list that the remainders obtained so far stand for. -/
def listed (ts : List Value) (v : Views) : Views := ⟨v.obtained.map (Remainder.listed ts), .empty⟩

/-- All remainders obtained so far have the tokens of `ts` behind the places where they stand. -/
def Sound (ts : List Value) (v : Views) : Prop := ∀ s ∈ v.obtained, s.Sound ts v.feed

/-- **An operation shows the same of the list.** After it the remainders are sound again, and the calls of the source are
those for the positions demanded. -/
theorem Sound.step (h : v.Sound ts) (op : Nat × Probe) :
    ((v.listed ts).step op).1 = (v.step op).1 ∧ ((v.listed ts).step op).2 = (v.step op).2.listed ts ∧
      (v.step op).2.Sound ts ∧
      (v.step op).2.feed.calls = match v.demand? op with
        | some n => max v.feed.calls (n + 1)
        | none => v.feed.calls := by
  obtain ⟨i, probe⟩ := op
  have hlisted : (v.listed ts).obtained[i]? = v.obtained[i]?.map (Remainder.listed ts) := List.getElem?_map
  unfold Views.step
  rw [hlisted]
  cases hi : v.obtained[i]? with
  | none =>
    refine ⟨rfl, rfl, h, ?_⟩
    cases probe <;> simp [demand?, hi]
  | some s =>
    have hs : s.Sound ts v.feed := h s (List.mem_of_getElem? hi)
    cases probe with
    | next =>
      obtain ⟨a, feed', step⟩ := hs.next?
      have hsound : ∀ s ∈ v.obtained, s.Sound ts feed' := fun s hs => (h s hs).later step.later
      have hdemand : v.demand? (i, .next) = s.position? := by simp [demand?, hi]
      simp only [Option.map_some, Probe.apply, step.next?, step.listed, hdemand]
      cases a with
      | none => exact ⟨rfl, by simp [listed], by simpa [Sound] using hsound, step.calls⟩
      | some x =>
        refine ⟨rfl, by simp [listed], fun s hs => ?_, step.calls⟩
        rcases List.mem_append.1 hs with hs | hs
        · exact hsound s hs
        · rw [Option.toList_some, List.mem_singleton] at hs
          exact hs ▸ step.sound x rfl
    | push us =>
      refine ⟨rfl, by simp [listed, Probe.apply], fun s' hs' => ?_, rfl⟩
      rcases List.mem_append.1 hs' with hs' | hs'
      · exact h s' hs'
      · rw [Probe.apply, Option.toList_some, List.mem_singleton] at hs'
        exact hs' ▸ hs.push us
    | offset => exact ⟨by simp [Probe.apply], by simp [listed, Probe.apply], by simpa [Sound, Probe.apply] using h, rfl⟩
    | consumed => exact ⟨by simp [Probe.apply], by simp [listed, Probe.apply], by simpa [Sound, Probe.apply] using h, rfl⟩

/-- **A program shows the same of the list.** -/
theorem Sound.run (h : v.Sound ts) (ops : List (Nat × Probe)) : ((v.listed ts).run ops).1 = (v.run ops).1 := by
  induction ops generalizing v with
  | nil => rfl
  | cons op ops ih =>
    obtain ⟨hsight, hviews, hsound, -⟩ := h.step op
    show ((v.listed ts).step op).1 :: (((v.listed ts).step op).2.run ops).1 = (v.step op).1 :: ((v.step op).2.run ops).1
    rw [hsight, hviews, ih hsound]

/-- A demanded position is one of those asked for so far or the next one. -/
theorem Sound.demand?_le (h : v.Sound ts) {op : Nat × Probe} {n : Nat} (hn : v.demand? op = some n) :
    n ≤ v.feed.calls := by
  have hle : ∀ s : Remainder, s.Sound ts v.feed → s.position? = some n → n ≤ v.feed.calls := by
    intro s
    induction s with
    | fed m =>
      rintro ⟨hover, hm⟩ ⟨⟩
      have := hover.calls
      omega
    | shifted base extra ih => exact ih
    | tokens | chars | pushed => intro _ hs; cases hs
  obtain ⟨i, probe⟩ := op
  cases probe with
  | next =>
    obtain ⟨s, hs, hn⟩ := Option.bind_eq_some_iff.1 hn
    exact hle s (h s (List.mem_of_getElem? hs)) hn
  | push | offset | consumed => cases hn

/-- **The source is called once for each position that a program demands.** -/
theorem Sound.calls (h : v.Sound ts) (ops : List (Nat × Probe)) :
    Finset.range (v.run ops).2.feed.calls = Finset.range v.feed.calls ∪ (v.demands ops).toFinset := by
  induction ops generalizing v with
  | nil => rw [demands, List.toFinset_nil, Finset.union_empty]; rfl
  | cons op ops ih =>
    obtain ⟨-, -, hsound, hcalls⟩ := h.step op
    have hrange : Finset.range (v.step op).2.feed.calls =
        Finset.range v.feed.calls ∪ (v.demand? op).toList.toFinset := by
      rw [hcalls]
      cases hd : v.demand? op with
      | none => simp
      | some n =>
        have hn := h.demand?_le hd
        ext m
        simp only [Finset.mem_range, Finset.mem_union, Option.toList_some, List.toFinset_cons, List.toFinset_nil,
          Finset.mem_insert, Finset.notMem_empty, or_false]
        omega
    show Finset.range ((v.step op).2.run ops).2.feed.calls = _
    rw [ih hsound, hrange, demands, List.toFinset_append, Finset.union_assoc]

/-- **All sources look alike.** A program sees the same of a feed as of the list of its tokens, whatever the source would
give after its end, and the same of a text as of the list of its characters. The source behind a feed is called as often as
there are different positions that the program demands, its end included. -/
theorem sources_alike {feed : Feed} (hfeed : feed.Offers ts) (ops : List (Nat × Probe)) :
    (∀ feed', (run ⟨[.ofList ts], feed'⟩ ops).1 = (run ⟨[.ofFeed], feed⟩ ops).1) ∧
    (∀ text feed', ts = Value.chars text → (run ⟨[.ofText text], feed'⟩ ops).1 = (run ⟨[.ofFeed], feed⟩ ops).1) ∧
    (run ⟨[.ofFeed], feed⟩ ops).2.feed.calls = (demands ⟨[.ofFeed], feed⟩ ops).toFinset.card := by
  have hfed : Sound ts ⟨[.ofFeed], feed⟩ := by
    intro s hs
    rw [List.mem_singleton.1 hs]
    exact ⟨hfeed.over, Nat.zero_le _⟩
  have hlisted : ∀ v : Views, v.Sound ts → v.listed ts = ⟨[.tokens ts 0], .empty⟩ →
      (v.run ops).1 = (run ⟨[.ofFeed], feed⟩ ops).1 := by
    intro v hv heq
    rw [← hv.run, ← hfed.run, heq]
    rfl
  refine ⟨fun feed' => ?_, fun text feed' htext => ?_, ?_⟩
  · refine hlisted _ (fun s hs => ?_) rfl
    rw [List.mem_singleton.1 hs]
    rfl
  · refine hlisted _ (fun s hs => ?_) rfl
    rw [List.mem_singleton.1 hs]
    exact htext.symm
  · have hcalls := congrArg Finset.card (hfed.calls ops)
    rwa [hfeed.unasked.1, Finset.range_zero, Finset.empty_union, Finset.card_range] at hcalls

/-- Two readings of one position, a pushed token, and a source that goes on after its end. -/
theorem sources_alike_twice :
    (run ⟨[.ofFeed], .ofTokens #[.text "a"] #[.text "b"] []⟩
      [(0, .next), (0, .next), (1, .next), (1, .push [.text "c"]), (3, .next), (4, .next), (4, .consumed)]).2.feed.calls =
      2 := by
  rw [(sources_alike (Feed.offers_ofTokens [.text "a"] #[.text "b"]) _).2.2]
  decide

end Views

end CommittedChoice
