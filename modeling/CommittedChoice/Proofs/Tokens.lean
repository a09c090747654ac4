import CommittedChoice.Engine
import CommittedChoice.Proofs.Course

/-!
# The tokens of a remainder

What is left of an input is read one token at a time, and what a feed has not given yet is asked for on the way. If the
reading comes to an end, the remainder has a list of tokens, which is the same whenever it is read.

- `Feed.Later`: a feed after more calls of its source; `Feed.Gives feed ts`: the tokens that a feed gave and will give;
- `Remainder.WellFormed`: a remainder that can be obtained by reading and pushing: a feed was read up to where it stands,
  and what is in front of another remainder has consumed no less than that one;
- `Remainder.left`: the tokens that are left, and `Remainder.Fits ts feed`: a well-formed remainder of a feed that gives `ts`.
  Reading a token takes the first one away and counts it (`Fits.next?`);
- `Run.drain`: reading to the end gives what is left (`Run.ends_drain`), and a remainder that can be read to its end is one
  of a feed that gives finitely many tokens (`exists_fits`).
-/

namespace CommittedChoice

/-! ## Feeds -/

namespace Feed

/-- The feed after one more call of its source. -/
def advance (feed : Feed) : Feed :=
  match feed.source feed.calls with
  | .token t => { feed with calls := feed.calls + 1, given := feed.given.push t }
  | .ended => { feed with calls := feed.calls + 1, ended := true }
  | .failed => { feed with calls := feed.calls + 1 }

/-- The feed after any number of calls. -/
inductive Later (feed : Feed) : Feed → Prop
  | refl : Later feed feed
  | call {feed' : Feed} : Later feed feed' → feed'.ended = false → Later feed feed'.advance

theorem Later.trans {f g h : Feed} (hfg : f.Later g) (hgh : g.Later h) : f.Later h := by
  induction hgh with
  | refl => exact hfg
  | call _ hended ih => exact ih.call hended

variable {feed feed' : Feed} {ts : List Value} {n : Nat}

theorem size_le_advance (feed : Feed) : feed.given.size ≤ feed.advance.given.size := by
  unfold advance
  split
  · exact Nat.le_of_lt (by simp)
  · exact Nat.le_refl _
  · exact Nat.le_refl _

theorem Later.size_le (h : feed.Later feed') : feed.given.size ≤ feed'.given.size := by
  induction h with
  | refl => exact Nat.le_refl _
  | call _ _ ih => exact Nat.le_trans ih (size_le_advance _)

theorem Later.source_eq (h : feed.Later feed') : feed'.source = feed.source := by
  induction h with
  | refl => rfl
  | @call feed' _ _ ih =>
    rw [← ih]
    unfold advance
    split <;> rfl

theorem calls_advance (feed : Feed) : feed.advance.calls = feed.calls + 1 := by
  unfold advance
  split <;> rfl

theorem Later.calls_le (h : feed.Later feed') : feed.calls ≤ feed'.calls := by
  induction h with
  | refl => exact Nat.le_refl _
  | call _ _ ih =>
    rw [calls_advance]
    omega

/-- A position that was read before is not asked for again. -/
theorem read_of_lt (hn : n < feed.given.size) : feed.read n = (.ok (some feed.given[n]), feed) := by
  rw [read, Array.getElem?_eq_getElem hn]

theorem read_of_ended (hn : feed.given.size ≤ n) (hended : feed.ended = true) : feed.read n = (.ok none, feed) := by
  rw [read, Array.getElem?_eq_none hn, hended]
  rfl

/-- Any other position is. -/
theorem read_of_open (hn : feed.given.size ≤ n) (hended : feed.ended = false) :
    feed.read n = (match feed.source feed.calls with
      | .token t => .ok (some t)
      | .ended => .ok none
      | .failed => .error (.source (feed.calls + 1)), feed.advance) := by
  have hopen : ¬ feed.ended = true := by rw [hended]; exact Bool.false_ne_true
  rw [read, Array.getElem?_eq_none hn]
  dsimp only
  rw [if_neg hopen]
  unfold advance
  cases feed.source feed.calls <;> rfl

theorem later_read (feed : Feed) (n : Nat) : feed.Later (feed.read n).2 := by
  by_cases hn : n < feed.given.size
  · rw [read_of_lt hn]
    exact .refl
  · cases hended : feed.ended with
    | true => rw [read_of_ended (Nat.le_of_not_lt hn) hended]; exact .refl
    | false => rw [read_of_open (Nat.le_of_not_lt hn) hended]; exact .call .refl hended

/-- The same feed with another source. -/
def withSource (feed : Feed) (source : Nat → Pull) : Feed := { feed with source := source }

/-- A position is read under every source that answers the calls made for it in the same way. -/
theorem read_withSource {source : Nat → Pull} (h : ∀ k < (feed.read n).2.calls, source k = feed.source k) :
    (feed.withSource source).read n = ((feed.read n).1, (feed.read n).2.withSource source) := by
  by_cases hn : n < feed.given.size
  · rw [read_of_lt hn]
    have hn' : n < (feed.withSource source).given.size := hn
    exact read_of_lt hn'
  · have hn := Nat.le_of_not_lt hn
    have hn' : (feed.withSource source).given.size ≤ n := hn
    cases hended : feed.ended with
    | true =>
      rw [read_of_ended hn hended]
      exact read_of_ended hn' hended
    | false =>
      rw [read_of_open hn hended] at h ⊢
      have hsource : source feed.calls = feed.source feed.calls := by
        apply h
        rw [calls_advance]
        omega
      refine (read_of_open hn' hended).trans ?_
      unfold advance withSource
      dsimp only
      rw [hsource]
      cases feed.source feed.calls <;> rfl

/-- From this call on, a source gives these tokens and then reports its end. -/
inductive Ahead (source : Nat → Pull) : Nat → List Value → Prop
  | ended {k} : source k = .ended → Ahead source k []
  | token {k t us} : source k = .token t → Ahead source (k + 1) us → Ahead source k (t :: us)

/-- The tokens that a feed has given and those it will give. -/
def Gives (feed : Feed) (ts : List Value) : Prop :=
  ∃ us, ts = feed.given.toList ++ us ∧ if feed.ended then us = [] else Ahead feed.source feed.calls us

theorem Gives.advance (h : feed.Gives ts) (hended : feed.ended = false) : feed.advance.Gives ts := by
  obtain ⟨us, rfl, hus⟩ := h
  rw [hended, if_neg Bool.false_ne_true] at hus
  unfold Feed.advance
  cases hus with
  | ended hsource => rw [hsource]; exact ⟨[], rfl, rfl⟩
  | @token _ t us hsource hus =>
    rw [hsource]
    refine ⟨us, by simp, ?_⟩
    rw [hended]
    exact hus

theorem Gives.later (h : feed.Gives ts) (hlater : feed.Later feed') : feed'.Gives ts := by
  induction hlater with
  | refl => exact h
  | call _ hended ih => exact ih.advance hended

/-- **Reading a position gives the token of that position,** if those in front of it were read. -/
theorem Gives.read (h : feed.Gives ts) (hn : n ≤ feed.given.size) :
    (feed.read n).1 = .ok ts[n]? ∧ (n < ts.length → n < (feed.read n).2.given.size) := by
  obtain ⟨us, rfl, hus⟩ := h
  by_cases hlt : n < feed.given.size
  · rw [read_of_lt hlt, List.getElem?_append_left (by simpa using hlt)]
    exact ⟨by simp [hlt], fun _ => hlt⟩
  · have hsize : n = feed.given.size := by omega
    subst hsize
    have hget : (feed.given.toList ++ us)[feed.given.size]? = us[0]? := by
      rw [List.getElem?_append_right (by simp)]
      simp
    rw [hget]
    cases hended : feed.ended with
    | true =>
      rw [hended, if_pos rfl] at hus
      rw [read_of_ended (Nat.le_refl _) hended, hus]
      exact ⟨rfl, fun hlt => by simp at hlt⟩
    | false =>
      rw [hended, if_neg Bool.false_ne_true] at hus
      rw [read_of_open (Nat.le_refl _) hended]
      unfold Feed.advance
      cases hus with
      | ended hsource => rw [hsource]; exact ⟨rfl, fun hlt => by simp at hlt⟩
      | token hsource _ => rw [hsource]; exact ⟨rfl, fun _ => by simp⟩

/-- What a feed gives after a position was read is what it gave before. -/
theorem Gives.of_read {a : Option Value} (hread : feed.read n = (.ok a, feed')) (h : feed'.Gives ts) : feed.Gives ts := by
  by_cases hn : n < feed.given.size
  · rw [read_of_lt hn] at hread
    cases hread
    exact h
  · cases hended : feed.ended with
    | true =>
      rw [read_of_ended (Nat.le_of_not_lt hn) hended] at hread
      cases hread
      exact h
    | false =>
      rw [read_of_open (Nat.le_of_not_lt hn) hended] at hread
      unfold Feed.advance at hread
      obtain ⟨us, rfl, hus⟩ := h
      cases hsource : feed.source feed.calls with
      | token t =>
        rw [hsource] at hread
        cases hread
        refine ⟨t :: us, by simp, ?_⟩
        dsimp only at hus
        rw [hended] at hus ⊢
        exact .token hsource hus
      | ended =>
        rw [hsource] at hread
        cases hread
        refine ⟨us, rfl, ?_⟩
        rw [hended, show us = [] from hus]
        exact .ended hsource
      | failed => rw [hsource] at hread; cases hread

/-- A token that was read has been given. -/
theorem lt_of_read {t : Value} (hn : n ≤ feed.given.size) (hread : feed.read n = (.ok (some t), feed')) :
    n < feed'.given.size := by
  by_cases hlt : n < feed.given.size
  · rw [read_of_lt hlt] at hread
    cases hread
    exact hlt
  · cases hended : feed.ended with
    | true => rw [read_of_ended (Nat.le_of_not_lt hlt) hended] at hread; cases hread
    | false =>
      rw [read_of_open (Nat.le_of_not_lt hlt) hended] at hread
      unfold Feed.advance at hread
      cases hsource : feed.source feed.calls with
      | token u =>
        rw [hsource] at hread
        cases hread
        rw [Array.size_push]
        exact Nat.lt_succ_of_le hn
      | ended => rw [hsource] at hread; cases hread
      | failed => rw [hsource] at hread; cases hread

/-- A feed that has just reported its end has given all its tokens. -/
theorem gives_of_read_none (hread : feed.read n = (.ok none, feed')) :
    feed.Gives feed.given.toList := by
  by_cases hlt : n < feed.given.size
  · rw [read_of_lt hlt] at hread
    cases hread
  · refine ⟨[], (List.append_nil _).symm, ?_⟩
    cases hended : feed.ended with
    | true => rfl
    | false =>
      rw [read_of_open (Nat.le_of_not_lt hlt) hended] at hread
      cases hsource : feed.source feed.calls with
      | token t => rw [hsource] at hread; cases hread
      | ended => exact .ended hsource
      | failed => rw [hsource] at hread; cases hread

end Feed

/-! ## Remainders -/

namespace Remainder

variable {ts : List Value} {feed feed' : Feed} {s s' : Remainder}

/-- The tokens that are left, for a feed that gives `ts`. -/
def left (ts : List Value) : Remainder → List Value
  | .tokens left _ => left
  | .chars left _ => left.map fun c => .text (String.singleton c)
  | .fed n => ts.drop n
  | .pushed t more base _ => t :: (more ++ base.left ts)
  | .shifted base _ => base.left ts

/-- A feed was read up to where the remainder stands, and tokens in front of another remainder were pushed there. -/
def WellFormed (feed : Feed) : Remainder → Prop
  | .tokens _ _ | .chars _ _ => True
  | .fed n => n ≤ feed.given.size
  | .pushed _ _ base c => base.WellFormed feed ∧ base.consumed ≤ c
  | .shifted base _ => base.WellFormed feed

/-- The same for a feed that gives `ts`, if there is a feed behind the remainder. -/
def Fits (ts : List Value) (feed : Feed) : Remainder → Prop
  | .tokens _ _ | .chars _ _ => True
  | .fed n => feed.Gives ts ∧ n ≤ feed.given.size
  | .pushed _ _ base c => base.Fits ts feed ∧ base.consumed ≤ c
  | .shifted base _ => base.Fits ts feed

theorem Fits.wellFormed : ∀ {s : Remainder}, s.Fits ts feed → s.WellFormed feed
  | .tokens _ _, _ | .chars _ _, _ => trivial
  | .fed _, h => h.2
  | .pushed _ _ base _, h => ⟨wellFormed (s := base) h.1, h.2⟩
  | .shifted base _, h => wellFormed (s := base) h

/-- What is read of other remainders does not matter. -/
theorem Fits.later (hlater : feed.Later feed') : ∀ {s : Remainder}, s.Fits ts feed → s.Fits ts feed'
  | .tokens _ _, _ | .chars _ _, _ => trivial
  | .fed _, h => ⟨h.1.later hlater, Nat.le_trans h.2 hlater.size_le⟩
  | .pushed _ _ base _, h => ⟨later hlater (s := base) h.1, h.2⟩
  | .shifted base _, h => later hlater (s := base) h

section Shift

variable (s) (k : Nat)

/-- A shift changes what was consumed and nothing else. -/
theorem shift_cases : s.shift k = s ∧ k = 0 ∨ (∃ base e, s = .shifted base e ∧ s.shift k = .shifted base (e + k)) ∨
    s.shift k = .shifted s k := by
  unfold shift
  split
  · exact .inl ⟨rfl, by assumption⟩
  · cases s with
    | shifted base e => exact .inr (.inl ⟨base, e, rfl, rfl⟩)
    | _ => exact .inr (.inr rfl)

@[simp] theorem left_shift : (s.shift k).left ts = s.left ts := by
  obtain ⟨h, -⟩ | ⟨base, e, rfl, h⟩ | h := shift_cases s k <;> rw [h] <;> rfl

@[simp] theorem offset_shift : (s.shift k).offset = s.offset := by
  obtain ⟨h, -⟩ | ⟨base, e, rfl, h⟩ | h := shift_cases s k <;> rw [h] <;> rfl

@[simp] theorem consumed_shift : (s.shift k).consumed = s.consumed + k := by
  obtain ⟨h, rfl⟩ | ⟨base, e, rfl, h⟩ | h := shift_cases s k
  · rw [h, Nat.add_zero]
  · rw [h, consumed, consumed, Nat.add_assoc]
  · rw [h, consumed]

@[simp] theorem fits_shift : (s.shift k).Fits ts feed ↔ s.Fits ts feed := by
  obtain ⟨h, -⟩ | ⟨base, e, rfl, h⟩ | h := shift_cases s k <;> rw [h] <;> rfl

@[simp] theorem wellFormed_shift : (s.shift k).WellFormed feed ↔ s.WellFormed feed := by
  obtain ⟨h, -⟩ | ⟨base, e, rfl, h⟩ | h := shift_cases s k <;> rw [h] <;> rfl

/-- Shifts add up. -/
theorem shift_shift (n : Nat) : (s.shift k).shift n = s.shift (k + n) := by
  by_cases hk : k = 0
  · subst hk
    rw [Nat.zero_add]
    rfl
  · by_cases hn : n = 0
    · subst hn
      rfl
    · have hsum : ¬ k + n = 0 := by omega
      cases s <;> simp only [shift, if_neg hk, if_neg hn, if_neg hsum, Nat.add_assoc]

end Shift

section Push

variable (us : List Value) (s : Remainder)

@[simp] theorem left_push : (s.push us).left ts = us ++ s.left ts := by cases us <;> rfl

@[simp] theorem offset_push : (s.push us).offset = s.offset - us.length := by
  cases us with
  | nil => exact (Int.sub_zero _).symm
  | cons u us => rfl

@[simp] theorem consumed_push : (s.push us).consumed = s.consumed := by cases us <;> rfl

variable {s}

theorem Fits.push (h : s.Fits ts feed) : (s.push us).Fits ts feed := by
  cases us with
  | nil => exact h
  | cons u us => exact ⟨h, Nat.le_refl _⟩

end Push

section Next

variable {base : Remainder} {t : Value} (n k : Nat)

/-- A feed is asked for the position where the remainder stands. -/
theorem next?_fed (feed : Feed) :
    (fed n).next? feed = ((feed.read n).1.map (Option.map fun t => (t, fed (n + 1))), (feed.read n).2) := by
  rw [Remainder.next?]
  rcases feed.read n with ⟨_ | _ | _, _⟩ <;> rfl

/-- A shifted remainder is read where it is not shifted. -/
theorem next?_shifted (base : Remainder) (feed : Feed) :
    (shifted base k).next? feed =
      ((base.next? feed).1.map (Option.map fun p => (p.1, p.2.shift k)), (base.next? feed).2) := by
  rw [Remainder.next?]
  rcases base.next? feed with ⟨_ | _ | _, _⟩ <;> rfl

/-- A shift does not change which token is read. -/
theorem next?_shift (s : Remainder) (feed : Feed) :
    (s.shift k).next? feed =
      ((s.next? feed).1.map (Option.map fun p => (p.1, p.2.shift k)), (s.next? feed).2) := by
  obtain ⟨h, rfl⟩ | ⟨base, e, rfl, h⟩ | h := shift_cases s k
  · rw [h]
    rcases s.next? feed with ⟨_ | _ | _, _⟩ <;> rfl
  · rw [h, next?_shifted, next?_shifted]
    rcases base.next? feed with ⟨_ | _ | ⟨t, rest⟩, feed'⟩
    · rfl
    · rfl
    · exact congrArg (fun r => (Except.ok (some (t, r)), feed')) (shift_shift rest e k).symm
  · rw [h, next?_shifted]

variable {n k}

theorem next?_fed_eq_some (h : (fed n).next? feed = (.ok (some (t, s')), feed')) :
    feed.read n = (.ok (some t), feed') ∧ s' = fed (n + 1) := by
  rw [next?_fed] at h
  rcases hread : feed.read n with ⟨_ | _ | u, feed₁⟩ <;> rw [hread] at h <;> cases h
  exact ⟨rfl, rfl⟩

theorem next?_shifted_eq_some (h : (shifted base k).next? feed = (.ok (some (t, s')), feed')) :
    ∃ rest, base.next? feed = (.ok (some (t, rest)), feed') ∧ s' = rest.shift k := by
  rw [next?_shifted] at h
  rcases hbase : base.next? feed with ⟨_ | _ | ⟨u, rest⟩, feed₁⟩ <;> rw [hbase] at h <;> cases h
  exact ⟨rest, rfl, rfl⟩

theorem next?_shifted_eq_none (h : (shifted base k).next? feed = (.ok none, feed')) :
    base.next? feed = (.ok none, feed') := by
  rw [next?_shifted] at h
  rcases hbase : base.next? feed with ⟨_ | _ | ⟨u, rest⟩, feed₁⟩ <;> rw [hbase] at h <;> cases h
  rfl

end Next

/-- What one token more makes of a remainder. -/
structure Taken (ts : List Value) (feed : Feed) (s : Remainder) (t : Value) (s' : Remainder) : Prop where
  left : s.left ts = t :: s'.left ts
  offset : s'.offset = s.offset + 1
  consumed : s'.consumed = s.consumed + 1
  fits : s'.Fits ts feed

theorem Taken.shift {t : Value} {base : Remainder} (h : Taken ts feed base t s') (k : Nat) :
    Taken ts feed (.shifted base k) t (s'.shift k) where
  left := h.left.trans (by rw [left_shift])
  offset := (offset_shift s' k).trans h.offset
  consumed := by rw [consumed_shift, h.consumed, Remainder.consumed, Nat.add_right_comm]
  fits := (fits_shift s' k).2 h.fits

/-- **Reading a remainder takes away its first token,** if it has one, and asks the source at most once. -/
theorem Fits.next? : ∀ {s : Remainder}, s.Fits ts feed → ∃ feed', feed.Later feed' ∧
    (s.next? feed = (.ok none, feed') ∧ s.left ts = [] ∨
      ∃ t s', s.next? feed = (.ok (some (t, s')), feed') ∧ Taken ts feed' s t s')
  | .tokens [] n, _ => ⟨feed, .refl, .inl ⟨rfl, rfl⟩⟩
  | .tokens (t :: us) n, _ => ⟨feed, .refl, .inr ⟨t, .tokens us (n + 1), rfl, rfl, rfl, rfl, trivial⟩⟩
  | .chars [] n, _ => ⟨feed, .refl, .inl ⟨rfl, rfl⟩⟩
  | .chars (c :: cs) n, _ =>
    ⟨feed, .refl, .inr ⟨_, .chars cs (n + 1), rfl, rfl, rfl, rfl, trivial⟩⟩
  | .fed n, ⟨hgives, hn⟩ => by
    have hlater := feed.later_read n
    obtain ⟨hread, hlt⟩ := hgives.read hn
    refine ⟨(feed.read n).2, hlater, ?_⟩
    have hnext : feed.read n = (.ok ts[n]?, (feed.read n).2) := Prod.ext hread rfl
    rw [next?_fed, hnext]
    cases ht : ts[n]? with
    | none => exact .inl ⟨rfl, List.drop_eq_nil_of_le (List.getElem?_eq_none_iff.1 ht)⟩
    | some t =>
      obtain ⟨hlength, rfl⟩ := List.getElem?_eq_some_iff.1 ht
      exact .inr ⟨_, .fed (n + 1), rfl, List.drop_eq_getElem_cons hlength, rfl, rfl, hgives.later hlater, hlt hlength⟩
  | .pushed t [] base c, ⟨hbase, hc⟩ => by
    refine ⟨feed, .refl, .inr ⟨t, base.shift (c + 1 - base.consumed), rfl, ?_, ?_, ?_, ?_⟩⟩
    · rw [left_shift]; rfl
    · rw [offset_shift, offset]; simp
    · rw [consumed_shift, consumed]; omega
    · exact (fits_shift _ _).2 hbase
  | .pushed t (u :: us) base c, ⟨hbase, hc⟩ => by
    refine ⟨feed, .refl, .inr ⟨t, .pushed u us base (c + 1), rfl, rfl, ?_, rfl, hbase, ?_⟩⟩
    · simp only [offset, List.length_cons]; omega
    · omega
  | .shifted base extra, h => by
    obtain ⟨feed', hlater, ⟨hnext, hleft⟩ | ⟨t, s', hnext, htaken⟩⟩ := next? (s := base) h
    · exact ⟨feed', hlater, .inl ⟨by rw [next?_shifted, hnext]; rfl, hleft⟩⟩
    · exact ⟨feed', hlater, .inr ⟨t, s'.shift extra, by rw [next?_shifted, hnext]; rfl, htaken.shift extra⟩⟩

/-- The token that was read. -/
theorem Fits.taken {t : Value} (h : s.Fits ts feed) (hnext : s.next? feed = (.ok (some (t, s')), feed')) :
    Taken ts feed' s t s' := by
  obtain ⟨feed₁, -, ⟨hnone, -⟩ | ⟨t₁, s₁, hsome, htaken⟩⟩ := h.next?
  · rw [hnone] at hnext
    cases hnext
  · rw [hsome] at hnext
    cases hnext
    exact htaken

theorem later_next? : ∀ (s : Remainder) (feed : Feed), feed.Later (s.next? feed).2
  | .tokens [] _, _ | .tokens (_ :: _) _, _ | .chars [] _, _ | .chars (_ :: _) _, _ => .refl
  | .pushed _ [] _ _, _ | .pushed _ (_ :: _) _ _, _ => .refl
  | .fed n, feed => by
    have h := feed.later_read n
    rw [next?_fed]
    rcases hread : feed.read n with ⟨_ | _ | _, feed'⟩ <;> rw [hread] at h <;> exact h
  | .shifted base extra, feed => by
    have h := later_next? base feed
    rw [next?_shifted]
    rcases hnext : base.next? feed with ⟨_ | _ | _, feed'⟩ <;> rw [hnext] at h <;> exact h

/-- A token is read under every source that answers the calls made for it in the same way. -/
theorem next?_withSource {source : Nat → Pull} : ∀ {s : Remainder} {feed : Feed},
    (∀ k < (s.next? feed).2.calls, source k = feed.source k) →
      s.next? (feed.withSource source) = ((s.next? feed).1, (s.next? feed).2.withSource source)
  | .tokens [] _, _, _ | .tokens (_ :: _) _, _, _ | .chars [] _, _, _ | .chars (_ :: _) _, _, _ => rfl
  | .pushed _ [] _ _, _, _ | .pushed _ (_ :: _) _ _, _, _ => rfl
  | .fed n, feed, h => by
    rw [next?_fed] at h ⊢
    rcases hread : feed.read n with ⟨_ | _ | t, feed'⟩ <;>
      · rw [hread] at h
        rw [next?_fed, Feed.read_withSource (by rwa [hread]), hread]
  | .shifted base extra, feed, h => by
    rw [next?_shifted] at h ⊢
    rcases hnext : base.next? feed with ⟨_ | _ | ⟨t, rest⟩, feed'⟩ <;>
      · rw [hnext] at h
        rw [next?_shifted, next?_withSource (by rwa [hnext]), hnext]

/-- What is read of other remainders does not matter. -/
theorem WellFormed.later (hlater : feed.Later feed') : ∀ {s : Remainder}, s.WellFormed feed → s.WellFormed feed'
  | .tokens _ _, _ | .chars _ _, _ => trivial
  | .fed _, h => Nat.le_trans h hlater.size_le
  | .pushed _ _ base _, h => ⟨later hlater (s := base) h.1, h.2⟩
  | .shifted base _, h => later hlater (s := base) h

theorem WellFormed.push (h : s.WellFormed feed) (us : List Value) : (s.push us).WellFormed feed := by
  cases us with
  | nil => exact h
  | cons u us => exact ⟨h, Nat.le_refl _⟩

/-- What is left of a well-formed remainder is well-formed. -/
theorem WellFormed.next? : ∀ {s s' : Remainder} {t : Value}, s.WellFormed feed →
    s.next? feed = (.ok (some (t, s')), feed') → s'.WellFormed feed'
  | .tokens [] _, _, _, _, hnext | .chars [] _, _, _, _, hnext => by cases hnext
  | .tokens (_ :: _) _, _, _, _, hnext | .chars (_ :: _) _, _, _, _, hnext => by
    cases hnext
    trivial
  | .fed n, s', t, hn, hnext => by
    obtain ⟨hread, rfl⟩ := next?_fed_eq_some hnext
    exact Feed.lt_of_read hn hread
  | .pushed t [] base c, s', _, ⟨hbase, hc⟩, hnext => by
    cases hnext
    exact (wellFormed_shift _ _).2 hbase
  | .pushed t (u :: us) base c, s', _, ⟨hbase, hc⟩, hnext => by
    cases hnext
    exact ⟨hbase, Nat.le_succ_of_le hc⟩
  | .shifted base extra, s', t, hbase, hnext => by
    obtain ⟨rest, hrest, rfl⟩ := next?_shifted_eq_some hnext
    exact (wellFormed_shift _ _).2 (next? (s := base) hbase hrest)

/-- Reading a token adds one to what was consumed, and to the offset. -/
theorem WellFormed.counts : ∀ {s s' : Remainder} {feed feed' : Feed} {t : Value}, s.WellFormed feed →
    s.next? feed = (.ok (some (t, s')), feed') → s'.offset = s.offset + 1 ∧ s'.consumed = s.consumed + 1
  | .tokens [] _, _, _, _, _, _, h | .chars [] _, _, _, _, _, _, h => by cases h
  | .tokens (_ :: _) _, _, _, _, _, _, h | .chars (_ :: _) _, _, _, _, _, _, h => by
    cases h
    exact ⟨rfl, rfl⟩
  | .fed n, _, _, _, _, _, h => by
    obtain ⟨-, rfl⟩ := next?_fed_eq_some h
    exact ⟨rfl, rfl⟩
  | .pushed t [] base c, _, _, _, _, ⟨_, hc⟩, h => by
    cases h
    rw [offset_shift, consumed_shift, offset, consumed]
    exact ⟨by simp, by omega⟩
  | .pushed t (u :: us) base c, _, _, _, _, _, h => by
    cases h
    exact ⟨by simp only [offset, List.length_cons]; omega, rfl⟩
  | .shifted base extra, _, _, _, _, hbase, h => by
    obtain ⟨rest, hrest, rfl⟩ := next?_shifted_eq_some h
    obtain ⟨hoffset, hconsumed⟩ := counts (s := base) hbase hrest
    rw [offset_shift, consumed_shift, hoffset, hconsumed, offset, consumed, Nat.add_right_comm]
    exact ⟨rfl, rfl⟩

/-! ## Reading to the end -/

/-- A remainder whose next token is one of a feed that gives `ts` is one itself. -/
theorem WellFormed.fits_of_next? : ∀ {s s' : Remainder} {t : Value}, s.WellFormed feed →
    s.next? feed = (.ok (some (t, s')), feed') → s'.Fits ts feed' → s.Fits ts feed
  | .tokens _ _, _, _, _, _, _ | .chars _ _, _, _, _, _, _ => trivial
  | .fed n, s', t, hn, hnext, h => by
    obtain ⟨hread, rfl⟩ := next?_fed_eq_some hnext
    exact ⟨.of_read hread h.1, hn⟩
  | .pushed t [] base c, s', _, ⟨_, hc⟩, hnext, h => by
    cases hnext
    exact ⟨(fits_shift _ _).1 h, hc⟩
  | .pushed t (u :: us) base c, s', _, ⟨_, hc⟩, hnext, h => by
    cases hnext
    exact ⟨h.1, hc⟩
  | .shifted base extra, s', t, hbase, hnext, h => by
    obtain ⟨rest, hrest, rfl⟩ := next?_shifted_eq_some hnext
    exact fits_of_next? (s := base) hbase hrest ((fits_shift _ _).1 h)

/-- A remainder without a token is one of a feed that gives no more. -/
theorem WellFormed.exists_fits_of_none : ∀ {s : Remainder}, s.WellFormed feed → s.next? feed = (.ok none, feed') →
    ∃ ts, s.Fits ts feed
  | .tokens _ _, _, _ | .chars _ _, _, _ => ⟨[], trivial⟩
  | .fed n, hn, hnext => by
    rw [next?_fed] at hnext
    rcases hread : feed.read n with ⟨_ | _ | u, feed₁⟩
    · rw [hread] at hnext; cases hnext
    · exact ⟨_, Feed.gives_of_read_none hread, hn⟩
    · rw [hread] at hnext; cases hnext
  | .pushed _ [] _ _, _, hnext | .pushed _ (_ :: _) _ _, _, hnext => by cases hnext
  | .shifted base _, hbase, hnext => exists_fits_of_none (s := base) hbase (next?_shifted_eq_none hnext)

end Remainder

namespace Run

variable {ts us : List Value} {s : Remainder} {w : World}

/-- Reading a token changes the feed and the journal. -/
theorem next?_of {a : Except Fault (Option (Value × Remainder))} {feed : Feed} (h : s.next? w.feed = (a, feed)) :
    ∃ journal, next? s w = (a.mapError .fault, { w with feed := feed, journal := journal }) := by
  refine ⟨if feed.calls = w.feed.calls then w.journal else .called :: w.journal, ?_⟩
  unfold next?
  dsimp only
  rw [h]

theorem drain_none {n : Nat} {done : List Value} {w' : World} (h : next? s w = (.ok none, w')) :
    drain (n + 1) s done w = (.ok done.reverse, w') := by
  show Run.bind (next? s) _ w = _
  unfold Run.bind
  rw [h]
  rfl

theorem drain_some {n : Nat} {done : List Value} {t : Value} {rest : Remainder} {w' : World}
    (h : next? s w = (.ok (some (t, rest)), w')) : drain (n + 1) s done w = drain n rest (t :: done) w' := by
  show Run.bind (next? s) _ w = _
  unfold Run.bind
  rw [h]

/-- **Reading to the end gives the tokens that are left.** -/
theorem ends_drain (h : s.Fits ts w.feed) (done : List Value) :
    ∃ w', Ends (fun n => drain n s done) w (.ok (done.reverse ++ s.left ts)) w' := by
  induction hus : s.left ts generalizing s w done with
  | nil =>
    obtain ⟨feed', -, ⟨hnext, -⟩ | ⟨t, s', -, htaken⟩⟩ := h.next?
    · obtain ⟨journal, hrun⟩ := next?_of hnext
      exact ⟨_, 1, (drain_none hrun).trans (by rw [List.append_nil]; rfl)⟩
    · rw [htaken.left] at hus
      cases hus
  | cons u us ih =>
    obtain ⟨feed', -, ⟨-, hleft⟩ | ⟨t, s', hnext, htaken⟩⟩ := h.next?
    · rw [hleft] at hus
      cases hus
    · rw [htaken.left] at hus
      cases hus
      obtain ⟨journal, hrun⟩ := next?_of hnext
      obtain ⟨w', n, hn⟩ := ih (w := { w with feed := feed', journal := journal }) htaken.fits (u :: done) rfl
      refine ⟨w', n + 1, (drain_some hrun).trans (hn.trans ?_)⟩
      rw [List.reverse_cons, List.append_assoc, List.singleton_append]

/-- **A remainder that can be read to its end is one of a feed that gives finitely many tokens.** -/
theorem exists_fits (hs : s.WellFormed w.feed) {n : Nat} {done : List Value} {w' : World}
    (h : drain n s done w = (.ok us, w')) : ∃ ts, s.Fits ts w.feed ∧ us = done.reverse ++ s.left ts := by
  induction n generalizing s w done with
  | zero => cases h
  | succ n ih =>
    rcases hnext : s.next? w.feed with ⟨e | _ | ⟨t, s'⟩, feed'⟩
    · obtain ⟨journal, hrun⟩ := next?_of hnext
      change Run.bind (next? s) _ w = _ at h
      unfold Run.bind at h
      rw [hrun] at h
      cases h
    · obtain ⟨journal, hrun⟩ := next?_of hnext
      rw [drain_none hrun] at h
      cases h
      obtain ⟨ts, hfits⟩ := hs.exists_fits_of_none hnext
      obtain ⟨feed₁, -, ⟨-, hleft⟩ | ⟨t, s', hsome, -⟩⟩ := hfits.next?
      · exact ⟨ts, hfits, by rw [hleft, List.append_nil]⟩
      · rw [hsome] at hnext
        cases hnext
    · obtain ⟨journal, hrun⟩ := next?_of hnext
      rw [drain_some hrun] at h
      obtain ⟨ts, hfits', rfl⟩ := ih (w := { w with feed := feed', journal := journal }) (hs.next? hnext) h
      have hfits := hs.fits_of_next? hnext hfits'
      refine ⟨ts, hfits, ?_⟩
      rw [(hfits.taken hnext).left, List.reverse_cons, List.append_assoc]
      rfl

end Run

end CommittedChoice
