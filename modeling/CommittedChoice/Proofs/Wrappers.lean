import CommittedChoice.Proofs.Sources

/-!
# Wrappers of remainders

What is left of a source is wrapped when tokens are pushed in front of it, and again when they have been read. However a
program mixes reading and pushing, wrappers do not pile up: there are about two for each token that was pushed and not read
yet, and one at most when all of them have been read.

- `Remainder.wrappers`, `Remainder.unread`: the wrappers of a remainder, and the pushed tokens it has in them;
- `Remainder.Shape`: how a wrapper is made; `Remainder.Wrapped`: a remainder all of whose wrappers are made so. Reading and
  pushing keep it (`Wrapped.next?`, `Wrapped.push`), and it bounds the wrappers (`Wrapped.length_wrappers_le`);
- `Remainder.first`: the first tokens of a remainder. Pushed tokens stand in front of all others (`first_push`);
- `Views.wrapped_run`: whatever a program does, the remainders it obtains are made so; `Views.wrappers_stay_few` puts all of
  this together.
-/

namespace CommittedChoice

namespace Remainder

/-! ## Wrappers -/

/-- The wrappers around what is left of a source, the outermost first. -/
def wrappers : Remainder → List Remainder
  | .tokens _ _ | .chars _ _ | .fed _ => []
  | .pushed t more base c => .pushed t more base c :: base.wrappers
  | .shifted base extra => .shifted base extra :: base.wrappers

/-- How many tokens were pushed and not read yet. -/
def unread : Remainder → Nat
  | .tokens _ _ | .chars _ _ | .fed _ => 0
  | .pushed _ more base _ => more.length + 1 + base.unread
  | .shifted base _ => base.unread

/-- Whether the outermost wrapper is a shift. -/
def isShifted : Remainder → Bool
  | .shifted _ _ => true
  | _ => false

/-- How a wrapper is made, where `P` says which lists were pushed. In front of another remainder there is what is left of a
pushed list after `index` of its tokens were read, which are counted beside what the other one has consumed. A shift adds
something, and to no other shift. -/
def Shape (P : List Value → Prop) : Remainder → Prop
  | .tokens _ _ | .chars _ _ | .fed _ => True
  | .pushed t more base c =>
    ∃ ts index, P ts ∧ index < ts.length ∧ ts.drop index = t :: more ∧ c = base.consumed + index
  | .shifted base extra => 1 ≤ extra ∧ base.isShifted = false

/-- All wrappers are made so. -/
def Wrapped (P : List Value → Prop) (s : Remainder) : Prop := ∀ l ∈ s.wrappers, l.Shape P

variable {P : List Value → Prop} {s base : Remainder} {t : Value} {more : List Value} {c extra : Nat}

theorem wrapped_pushed : (pushed t more base c).Wrapped P ↔ (pushed t more base c).Shape P ∧ base.Wrapped P :=
  List.forall_mem_cons

theorem wrapped_shifted : (shifted base extra).Wrapped P ↔ (shifted base extra).Shape P ∧ base.Wrapped P :=
  List.forall_mem_cons

namespace Wrapped

theorem shift (h : s.Wrapped P) (k : Nat) : (s.shift k).Wrapped P := by
  unfold Remainder.shift
  split
  · exact h
  · rename_i hk
    have hk : 1 ≤ k := Nat.one_le_iff_ne_zero.2 hk
    cases s with
    | shifted base e =>
      obtain ⟨⟨he, hbase⟩, hwrapped⟩ := wrapped_shifted.1 h
      exact wrapped_shifted.2 ⟨⟨Nat.le_add_right_of_le he, hbase⟩, hwrapped⟩
    | tokens | chars | fed | pushed => exact wrapped_shifted.2 ⟨⟨hk, rfl⟩, h⟩

theorem push (h : s.Wrapped P) {ts : List Value} (hts : P ts) : (s.push ts).Wrapped P := by
  cases ts with
  | nil => exact h
  | cons t more => exact wrapped_pushed.2 ⟨⟨t :: more, 0, hts, Nat.succ_pos _, rfl, rfl⟩, h⟩

/-- **Reading keeps the wrappers in shape.** -/
theorem next? : ∀ {s s' : Remainder} {t : Value} {feed feed' : Feed}, s.Wrapped P →
    s.next? feed = (.ok (some (t, s')), feed') → s'.Wrapped P
  | .tokens [] _, _, _, _, _, _, hnext | .chars [] _, _, _, _, _, _, hnext => by cases hnext
  | .tokens (_ :: _) _, _, _, _, _, h, hnext | .chars (_ :: _) _, _, _, _, _, h, hnext => by
    cases hnext
    exact h
  | .fed n, _, _, _, _, h, hnext => by
    obtain ⟨-, rfl⟩ := next?_fed_eq_some hnext
    exact h
  | .pushed t [] base c, _, _, _, _, h, hnext => by
    cases hnext
    exact (wrapped_pushed.1 h).2.shift _
  | .pushed t (u :: us) base c, _, _, _, _, h, hnext => by
    cases hnext
    obtain ⟨⟨ts, index, hts, -, hdrop, rfl⟩, hbase⟩ := wrapped_pushed.1 h
    have hdrop' : ts.drop (index + 1) = u :: us := by rw [← List.tail_drop, hdrop, List.tail_cons]
    have hindex : index + 1 < ts.length := by
      rw [← Nat.not_le, ← List.drop_eq_nil_iff, hdrop']
      exact List.cons_ne_nil _ _
    exact wrapped_pushed.2 ⟨⟨ts, index + 1, hts, hindex, hdrop', rfl⟩, hbase⟩
  | .shifted base extra, _, _, _, _, h, hnext => by
    obtain ⟨rest, hrest, rfl⟩ := next?_shifted_eq_some hnext
    exact (next? (s := base) (wrapped_shifted.1 h).2 hrest).shift extra

/-- **Wrappers do not pile up.** A shift stands on something else, and everything else has a token that is not read. -/
theorem length_wrappers_le (h : s.Wrapped P) : s.wrappers.length ≤ 2 * s.unread + if s.isShifted then 1 else 0 := by
  induction s with
  | tokens | chars | fed => exact Nat.zero_le _
  | pushed t more base c ih =>
    have hbase := ih (wrapped_pushed.1 h).2
    have htop : (pushed t more base c).isShifted = false := rfl
    rw [wrappers, List.length_cons, unread, htop, if_neg Bool.false_ne_true]
    split at hbase <;> omega
  | shifted base extra ih =>
    obtain ⟨⟨-, hshift⟩, hbase⟩ := wrapped_shifted.1 h
    have hbase := ih hbase
    rw [hshift, if_neg Bool.false_ne_true] at hbase
    exact Nat.succ_le_succ hbase

end Wrapped

/-! ## The first tokens -/

/-- Up to `n` tokens, the fault that kept more of them from being read, and the feed after it. -/
def first : Nat → Remainder → Feed → List Value × Option Fault × Feed
  | 0, _, feed => ([], none, feed)
  | n + 1, s, feed =>
    match s.next? feed with
    | (.ok (some (t, rest)), feed) => (t :: (first n rest feed).1, (first n rest feed).2)
    | (.ok none, feed) => ([], none, feed)
    | (.error e, feed) => ([], some e, feed)

theorem first_shift (n k : Nat) (s : Remainder) (feed : Feed) : first n (s.shift k) feed = first n s feed := by
  induction n generalizing s feed with
  | zero => rfl
  | succ n ih =>
    rw [first, first, next?_shift]
    rcases s.next? feed with ⟨_ | _ | ⟨t, rest⟩, feed'⟩
    · rfl
    · rfl
    · show (t :: (first n (rest.shift k) feed').1, (first n (rest.shift k) feed').2) = _
      rw [ih]

/-- **Pushed tokens stand in front of all others,** and nothing else is different. -/
theorem first_push (ts : List Value) (s : Remainder) (n : Nat) (feed : Feed) :
    first (ts.length + n) (s.push ts) feed = (ts ++ (first n s feed).1, (first n s feed).2) := by
  have hpushed : ∀ (more : List Value) (t : Value) (c : Nat), first (more.length + 1 + n) (.pushed t more s c) feed =
      (t :: (more ++ (first n s feed).1), (first n s feed).2) := by
    intro more
    induction more with
    | nil =>
      intro t c
      rw [List.length_nil, Nat.zero_add, Nat.add_comm 1 n, first, Remainder.next?]
      simp only [first_shift, List.nil_append]
    | cons u us ih =>
      intro t c
      rw [List.length_cons, Nat.add_right_comm, first, Remainder.next?]
      simp only [ih, List.cons_append]
  cases ts with
  | nil => rw [List.length_nil, Nat.zero_add]; rfl
  | cons t more => exact hpushed more t s.consumed

end Remainder

/-! ## Whole programs -/

namespace Views

variable {P : List Value → Prop} {v : Views}

/-- The remainders obtained so far are in shape, and the feed was read up to where they stand. -/
def Wrapped (P : List Value → Prop) (v : Views) : Prop := ∀ s ∈ v.obtained, s.Wrapped P ∧ s.WellFormed v.feed

/-- One operation, which pushes no other lists. -/
theorem Wrapped.step (h : v.Wrapped P) {op : Nat × Probe} (hop : ∀ ts, op.2 = .push ts → P ts) : (v.step op).2.Wrapped P := by
  obtain ⟨i, probe⟩ := op
  cases hi : v.obtained[i]? with
  | none => simpa only [Views.step, hi] using h
  | some s =>
    obtain ⟨hwrapped, hformed⟩ := h s (List.mem_of_getElem? hi)
    -- A feed that is asked for more tokens leaves the other remainders as they are.
    have hlater : ∀ feed', v.feed.Later feed' → Wrapped P ⟨v.obtained, feed'⟩ :=
      fun feed' hfeed s hs => ⟨(h s hs).1, (h s hs).2.later hfeed⟩
    have hmore : ∀ {feed' s'}, v.feed.Later feed' → s'.Wrapped P → s'.WellFormed feed' →
        Wrapped P ⟨v.obtained ++ [s'], feed'⟩ := by
      intro feed' s' hfeed hs' hformed' s hs
      rcases List.mem_append.1 hs with hs | hs
      · exact hlater feed' hfeed s hs
      · rw [List.mem_singleton.1 hs]
        exact ⟨hs', hformed'⟩
    cases probe with
    | next =>
      have hfeed := Remainder.later_next? s v.feed
      rcases hnext : s.next? v.feed with ⟨e | _ | ⟨t, rest⟩, feed'⟩ <;> rw [hnext] at hfeed <;>
        simp only [Views.step, hi, Probe.apply, hnext, Option.toList_none, Option.toList_some, List.append_nil]
      · exact hlater feed' hfeed
      · exact hlater feed' hfeed
      · exact hmore hfeed (hwrapped.next? hnext) (hformed.next? hnext)
    | push ts =>
      simp only [Views.step, hi, Probe.apply, Option.toList_some]
      exact hmore .refl (hwrapped.push (hop ts rfl)) (hformed.push ts)
    | offset | consumed => simpa only [Views.step, hi, Probe.apply, Option.toList_none, List.append_nil] using h

/-- **A program keeps the wrappers in shape.** -/
theorem wrapped_run (h : v.Wrapped P) {ops : List (Nat × Probe)} (hops : ∀ op ∈ ops, ∀ ts, op.2 = .push ts → P ts) :
    (v.run ops).2.Wrapped P := by
  induction ops generalizing v with
  | nil => exact h
  | cons op ops ih =>
    obtain ⟨hop, hops⟩ := List.forall_mem_cons.1 hops
    exact ih (h.step hop) hops

end Views

/-- All that there is of a source. -/
inductive Remainder.IsWhole : Remainder → Prop
  | list (ts : List Value) : IsWhole (.ofList ts)
  | text (text : String) : IsWhole (.ofText text)
  | feed : IsWhole .ofFeed

namespace Views

/-- **Wrappers stay few.** Take any remainder that a program has obtained by reading and pushing. A wrapper with pushed
tokens has at least one of a pushed list, and has consumed what is below it and what was read of the list; a shift adds at
least one and stands on no other shift. So there are at most two wrappers for each pushed token that was not read yet, and
one more; when all have been read there is at most one. Reading a token adds one to the offset and one to what was consumed.
Pushing tokens puts them in front of all others, lowers the offset by their number and leaves what was consumed. -/
theorem wrappers_stay_few {start : Remainder} (hstart : start.IsWhole) (feed : Feed) (ops : List (Nat × Probe))
    {s : Remainder} (hs : s ∈ (run ⟨[start], feed⟩ ops).2.obtained) :
    (∀ l ∈ s.wrappers, l.Shape fun ts => ∃ i, (i, Probe.push ts) ∈ ops) ∧
      s.wrappers.length ≤ 2 * s.unread + 1 ∧ (s.unread = 0 → s.wrappers.length ≤ 1) ∧
      (∀ t rest feed', s.next? (run ⟨[start], feed⟩ ops).2.feed = (.ok (some (t, rest)), feed') →
        rest.offset = s.offset + 1 ∧ rest.consumed = s.consumed + 1) ∧
      ∀ ts, (∀ n feed', (s.push ts).first (ts.length + n) feed' = (ts ++ (s.first n feed').1, (s.first n feed').2)) ∧
        (s.push ts).offset = s.offset - ts.length ∧ (s.push ts).consumed = s.consumed := by
  have hwhole : Wrapped (fun ts => ∃ i, (i, Probe.push ts) ∈ ops) ⟨[start], feed⟩ := by
    intro s hs
    rw [List.mem_singleton.1 hs]
    cases hstart with
    | list | text => exact ⟨fun _ hl => (nomatch hl), trivial⟩
    | feed => exact ⟨fun _ hl => (nomatch hl), Nat.zero_le _⟩
  have hops : ∀ op ∈ ops, ∀ ts, op.2 = .push ts → ∃ i, (i, Probe.push ts) ∈ ops := by
    rintro ⟨i, _⟩ hop ts rfl
    exact ⟨i, hop⟩
  obtain ⟨hwrapped, hformed⟩ := wrapped_run hwhole hops s hs
  have hlength := hwrapped.length_wrappers_le
  have hmost : s.wrappers.length ≤ 2 * s.unread + 1 := by
    split at hlength <;> omega
  refine ⟨hwrapped, hmost, fun hunread => ?_, fun t rest feed' hnext => hformed.counts hnext, fun ts => ⟨?_, ?_, ?_⟩⟩
  · rwa [hunread] at hmost
  · exact fun n feed' => Remainder.first_push ts s n feed'
  · exact Remainder.offset_push ts s
  · exact Remainder.consumed_push ts s

/-- A list that is pushed in front of one that was read in part: the shift of the inner one is added to what is left of the
other. -/
theorem wrappers_stay_few_nested :
    let s : Remainder := .shifted (.pushed (.text "y") [] (.ofText "ab") 1) 2
    s ∈ (run ⟨[.ofText "ab"], .empty⟩ [(0, .push [.text "x", .text "y"]), (1, .next), (2, .push [.text "z"]), (3, .next),
        (4, .push [.text "w"]), (5, .next)]).2.obtained ∧
      s.wrappers.length ≤ 2 * s.unread + 1 ∧ s.unread = 1 := by
  intro s
  have hs : s ∈ (run ⟨[.ofText "ab"], .empty⟩ [(0, .push [.text "x", .text "y"]), (1, .next), (2, .push [.text "z"]),
      (3, .next), (4, .push [.text "w"]), (5, .next)]).2.obtained := List.mem_of_getElem? (show _[6]? = some s from rfl)
  exact ⟨hs, (wrappers_stay_few (.text "ab") .empty _ hs).2.1, rfl⟩

end Views

end CommittedChoice
