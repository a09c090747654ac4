import CommittedChoice.Proofs.Likeness
import CommittedChoice.Proofs.Tokens

/-!
# Values up to identities

Compound values have identities, which a run gives out by number. Two runs of which one gives out more identities than the
other make the same values under different numbers. Nothing but these numbers differs, and nothing can be told from them.

- `Pairing`: which identity of one run is which of the other, one to one; pairings grow as the runs go on;
- `Value.Alike`, `Remainder.Alike`: values and remainders that are the same up to a pairing. They are compared, shown and
  read alike (`Value.Alike.same`, `Value.Alike.token`, `Remainder.Alike.next?`);
- `Act.Alike`: callbacks that do the same, whatever identities they are given.
-/

namespace CommittedChoice

/-! ## Pairings -/

/-- Which identity of one run is which of the other. -/
structure Pairing where
  pairs : Nat → Nat → Prop
  /-- No identity has two partners. -/
  unique : ∀ {m n m' n'}, pairs m n → pairs m' n' → (m = m' ↔ n = n')

namespace Pairing

/-- A pairing grows by pairs. -/
instance : Preorder Pairing where
  le ρ σ := ∀ m n, ρ.pairs m n → σ.pairs m n
  le_refl _ _ _ h := h
  le_trans _ _ _ h h' m n hmn := h' m n (h m n hmn)

/-- Neither identity has a partner. -/
def New (ρ : Pairing) (m n : Nat) : Prop := (∀ n', ¬ ρ.pairs m n') ∧ ∀ m', ¬ ρ.pairs m' n

/-- One more pair. -/
def add (ρ : Pairing) {m n : Nat} (h : ρ.New m n) : Pairing where
  pairs a b := ρ.pairs a b ∨ a = m ∧ b = n
  unique := by
    rintro a b a' b' (hab | ⟨rfl, rfl⟩) (hab' | ⟨rfl, rfl⟩)
    · exact ρ.unique hab hab'
    · exact ⟨fun hm => absurd (hm ▸ hab) (h.1 _), fun hn => absurd (hn ▸ hab) (h.2 _)⟩
    · exact ⟨fun hm => absurd (hm ▸ hab') (h.1 _), fun hn => absurd (hn ▸ hab') (h.2 _)⟩
    · exact ⟨fun _ => rfl, fun _ => rfl⟩

variable {ρ : Pairing} {m n : Nat}

theorem le_add (h : ρ.New m n) : ρ ≤ ρ.add h := fun _ _ => .inl

/-- Every identity that was given out so far, with itself. -/
def upTo (made : Nat) : Pairing where
  pairs m n := m = n ∧ m < made
  unique := by
    rintro m _ m' _ ⟨rfl, -⟩ ⟨rfl, -⟩
    exact Iff.rfl

end Pairing

/-! ## Values -/

/-- One identity, or two that are paired. -/
inductive Identity.Alike (ρ : Pairing) : Identity → Identity → Prop
  | constant : Alike ρ .constant .constant
  | written (n : Nat) : Alike ρ (.written n) (.written n)
  | item (node : Nat) : Alike ρ (.item node) (.item node)
  | made {m n : Nat} (h : ρ.pairs m n) : Alike ρ (.made m) (.made n)

mutual

/-- Values that are the same but for identities, which are paired. -/
inductive Value.Alike (ρ : Pairing) : Value → Value → Prop
  | absent : Alike ρ .absent .absent
  | null : Alike ρ .null .null
  | bool (b : Bool) : Alike ρ (.bool b) (.bool b)
  | number (n : Number) : Alike ρ (.number n) (.number n)
  | bigint (i : Int) : Alike ρ (.bigint i) (.bigint i)
  | text (s : String) : Alike ρ (.text s) (.text s)
  | symbol {id id'} (h : id.Alike ρ id') (name : String) : Alike ρ (.symbol id name) (.symbol id' name)
  | array {id id' xs xs'} (h : id.Alike ρ id') (hxs : List.Forall₂ (Alike ρ) xs xs') :
      Alike ρ (.array id xs) (.array id' xs')
  | record {id id' fields fields'} (h : id.Alike ρ id') (hfields : Value.FieldsAlike ρ fields fields') :
      Alike ρ (.record id fields) (.record id' fields')
  | knot : Alike ρ .knot .knot
  | mute : Alike ρ .mute .mute
  | maximum : Alike ρ (.function .maximum) (.function .maximum)
  | operation (op : Operation) (noting : Option String) :
      Alike ρ (.function (.operation op noting)) (.function (.operation op noting))
  | enclosing {id id' v v'} (h : id.Alike ρ id') (hv : Alike ρ v v') :
      Alike ρ (.function (.enclosing id v)) (.function (.enclosing id' v'))
  | applied {id id' v v'} (h : id.Alike ρ id') (op : Operation) (hv : Alike ρ v v') :
      Alike ρ (.function (.applied id op v)) (.function (.applied id' op v'))
  | defined {id id' v v'} (h : id.Alike ρ id') (n : Nat) (hv : Alike ρ v v') :
      Alike ρ (.function (.defined id n v)) (.function (.defined id' n v'))
  | list (node : Nat) : Alike ρ (.list node) (.list node)
  | again {s s'} (hs : Alike ρ s s') : Alike ρ (.step (.again s)) (.step (.again s'))
  | done {v v'} (hv : Alike ρ v v') : Alike ρ (.step (.done v)) (.step (.done v'))

/-- Fields under the same keys in the same order. -/
inductive Value.FieldsAlike (ρ : Pairing) : List (String × Value) → List (String × Value) → Prop
  | nil : FieldsAlike ρ [] []
  | cons {v v' fields fields'} (key : String) (hv : Value.Alike ρ v v') (hfields : FieldsAlike ρ fields fields') :
      FieldsAlike ρ ((key, v) :: fields) ((key, v') :: fields')

end

theorem Identity.Alike.mono {ρ σ : Pairing} (hρσ : ρ ≤ σ) {id id' : Identity} (h : id.Alike ρ id') : id.Alike σ id' := by
  cases h with
  | constant => exact .constant
  | written n => exact .written n
  | item node => exact .item node
  | made h => exact .made (hρσ _ _ h)

/-- Paired identities are equal where their partners are. -/
theorem Identity.Alike.beq {ρ : Pairing} {i i' j j' : Identity} (hi : i.Alike ρ i') (hj : j.Alike ρ j') :
    (i == j) = (i' == j') := by
  rw [Bool.eq_iff_iff, beq_iff_eq, beq_iff_eq]
  cases hi <;> cases hj <;> simp only [reduceCtorEq, Identity.made.injEq]
  exact ρ.unique ‹_› ‹_›

namespace Value.Alike

mutual

theorem mono {ρ σ : Pairing} (hρσ : ρ ≤ σ) : ∀ {v v' : Value}, v.Alike ρ v' → v.Alike σ v'
  | .absent, _, .absent => .absent
  | .null, _, .null => .null
  | .bool b, _, .bool _ => .bool b
  | .number n, _, .number _ => .number n
  | .bigint i, _, .bigint _ => .bigint i
  | .text s, _, .text _ => .text s
  | .symbol _ name, _, .symbol h _ => .symbol (h.mono hρσ) name
  | .array _ _, _, .array h hxs => .array (h.mono hρσ) (mono_all hρσ hxs)
  | .record _ _, _, .record h hfields => .record (h.mono hρσ) (mono_fields hρσ hfields)
  | .knot, _, .knot => .knot
  | .mute, _, .mute => .mute
  | .function .maximum, _, .maximum => .maximum
  | .function (.operation op noting), _, .operation _ _ => .operation op noting
  | .function (.enclosing _ _), _, .enclosing h hv => .enclosing (h.mono hρσ) (mono hρσ hv)
  | .function (.applied _ op _), _, .applied h _ hv => .applied (h.mono hρσ) op (mono hρσ hv)
  | .function (.defined _ n _), _, .defined h _ hv => .defined (h.mono hρσ) n (mono hρσ hv)
  | .list node, _, .list _ => .list node
  | .step (.again _), _, .again hs => .again (mono hρσ hs)
  | .step (.done _), _, .done hv => .done (mono hρσ hv)

theorem mono_all {ρ σ : Pairing} (hρσ : ρ ≤ σ) : ∀ {xs xs' : List Value}, List.Forall₂ (Value.Alike ρ) xs xs' →
    List.Forall₂ (Value.Alike σ) xs xs'
  | [], _, .nil => .nil
  | _ :: _, _, .cons h hxs => .cons (mono hρσ h) (mono_all hρσ hxs)

theorem mono_fields {ρ σ : Pairing} (hρσ : ρ ≤ σ) : ∀ {fields fields' : List (String × Value)},
    FieldsAlike ρ fields fields' → FieldsAlike σ fields fields'
  | [], _, .nil => .nil
  | (key, _) :: _, _, .cons _ h hfields => .cons key (mono hρσ h) (mono_fields hρσ hfields)

end

variable {ρ : Pairing}

theorem toStep {v v' : Value} (h : v.Alike ρ v') : Step.Alike (Value.Alike ρ) v.toStep v'.toStep := by
  cases h with
  | again hs => exact .again hs
  | done hv => exact .done hv
  | _ => exact .again .absent

theorem items {v v' : Value} (h : v.Alike ρ v') : List.Forall₂ (Value.Alike ρ) v.items v'.items := by
  cases h with
  | array _ hxs => exact hxs
  | _ => exact .nil

/-- What is told apart in one run is told apart in the other. -/
theorem same {u u' v v' : Value} (hu : u.Alike ρ u') (hv : v.Alike ρ v') : u.same v = u'.same v' := by
  cases hu <;> cases hv <;> first | rfl | exact Identity.Alike.beq ‹_› ‹_›

/-! ### How values are shown -/

theorem lookup (name : String) : ∀ {fields fields' : List (String × Value)}, FieldsAlike ρ fields fields' →
    Option.Rel (Value.Alike ρ) (fields.lookup name) (fields'.lookup name)
  | [], _, .nil => .none
  | (key, _) :: _, _, .cons _ hv hfields => by
    rw [List.lookup_cons, List.lookup_cons]
    cases name == key with
    | true => exact .some hv
    | false => exact lookup name hfields

theorem saysItself {fields fields' : List (String × Value)} (h : FieldsAlike ρ fields fields') :
    Json.saysItself fields = Json.saysItself fields' := by
  have hlookup := lookup "toJSON" h
  unfold Json.saysItself
  generalize fields.lookup "toJSON" = f, fields'.lookup "toJSON" = f' at hlookup
  cases hlookup with
  | none => rfl
  | some hv => cases hv <;> rfl

theorem saying (name : String) {fields fields' : List (String × Value)} (h : FieldsAlike ρ fields fields') :
    Value.saying fields name = Value.saying fields' name := by
  have hlookup := lookup name h
  unfold Value.saying
  generalize fields.lookup name = f, fields'.lookup name = f' at hlookup
  cases hlookup with
  | none => rfl
  | some hv => cases hv <;> rfl

mutual

theorem writtenAt (key : String) : ∀ {v v' : Value}, v.Alike ρ v' → Json.writtenAt? key v = Json.writtenAt? key v'
  | .array _ _, _, .array _ hxs => by rw [Json.writtenAt?, Json.writtenAt?, elements 0 hxs]
  | .record _ _, _, .record _ hfields => by
    rw [Json.writtenAt?, Json.writtenAt?, saysItself hfields, members hfields]
  | .absent, _, .absent => rfl
  | .null, _, .null => rfl
  | .bool _, _, .bool _ => rfl
  | .number _, _, .number _ => rfl
  | .bigint _, _, .bigint _ => rfl
  | .text _, _, .text _ => rfl
  | .symbol _ _, _, .symbol _ _ => by rw [Json.writtenAt?, Json.writtenAt?]
  | .knot, _, .knot => rfl
  | .mute, _, .mute => rfl
  | .function _, _, .maximum => rfl
  | .function _, _, .operation _ _ => rfl
  | .function _, _, .enclosing _ _ => by rw [Json.writtenAt?, Json.writtenAt?]
  | .function _, _, .applied _ _ _ => by rw [Json.writtenAt?, Json.writtenAt?]
  | .function _, _, .defined _ _ _ => by rw [Json.writtenAt?, Json.writtenAt?]
  | .list _, _, .list _ => rfl
  | .step _, _, .again _ => by rw [Json.writtenAt?, Json.writtenAt?]
  | .step _, _, .done _ => by rw [Json.writtenAt?, Json.writtenAt?]

theorem elements (i : Nat) : ∀ {xs xs' : List Value}, List.Forall₂ (Value.Alike ρ) xs xs' →
    Json.elements i xs = Json.elements i xs'
  | [], _, .nil => rfl
  | _ :: _, _, .cons h hxs => by rw [Json.elements, Json.elements, writtenAt _ h, elements (i + 1) hxs]

theorem members : ∀ {fields fields' : List (String × Value)}, FieldsAlike ρ fields fields' →
    Json.members fields = Json.members fields'
  | [], _, .nil => rfl
  | (key, _) :: _, _, .cons _ h hfields => by rw [Json.members, Json.members, writtenAt key h, members hfields]

end

mutual

theorem asText : ∀ {v v' : Value}, v.Alike ρ v' → v.asText = v'.asText
  | .array _ _, _, .array _ hxs => by rw [Value.asText, Value.asText, elementTexts hxs]
  | .record _ _, _, .record _ hfields => by
    rw [Value.asText, Value.asText, recordAsText, recordAsText, saying _ hfields, saying _ hfields]
  | .absent, _, .absent => rfl
  | .null, _, .null => rfl
  | .bool _, _, .bool _ => rfl
  | .number _, _, .number _ => rfl
  | .bigint _, _, .bigint _ => rfl
  | .text _, _, .text _ => rfl
  | .symbol _ _, _, .symbol _ _ => by rw [Value.asText, Value.asText]
  | .knot, _, .knot => rfl
  | .mute, _, .mute => rfl
  | .function _, _, .maximum => rfl
  | .function _, _, .operation _ _ => rfl
  | .function _, _, .enclosing _ _ => by rw [Value.asText, Value.asText]
  | .function _, _, .applied _ _ _ => by rw [Value.asText, Value.asText]
  | .function _, _, .defined _ _ _ => by rw [Value.asText, Value.asText]
  | .list _, _, .list _ => rfl
  | .step _, _, .again _ => by rw [Value.asText, Value.asText]
  | .step _, _, .done _ => by rw [Value.asText, Value.asText]

theorem elementTexts : ∀ {xs xs' : List Value}, List.Forall₂ (Value.Alike ρ) xs xs' →
    Value.elementTexts xs = Value.elementTexts xs'
  | [], _, .nil => rfl
  | x :: xs, x' :: xs', .cons h hxs => by
    have hx := asText h
    have hrest := elementTexts hxs
    cases h <;> simp only [Value.elementTexts, hrest, hx]

end

/-- Nothing in a message tells one identity from another. -/
theorem token {v v' : Value} (h : v.Alike ρ v') : Message.token v = Message.token v' := by
  have hwritten : Json.written? v = Json.written? v' := writtenAt "" h
  have htext := asText h
  cases h <;> simp only [Message.token, hwritten, htext]

theorem unexpected {v v' : Value} (h : v.Alike ρ v') : Message.unexpected v = Message.unexpected v' := by
  rw [Message.unexpected, Message.unexpected, h.token]

end Value.Alike

/-! ## Inputs -/

/-- All identities in the tokens of a feed are paired with themselves. -/
structure Feed.Fixed (ρ : Pairing) (feed : Feed) : Prop where
  given : ∀ t ∈ feed.given, t.Alike ρ t
  source : ∀ k t, feed.source k = .token t → t.Alike ρ t

namespace Feed.Fixed

variable {ρ σ : Pairing} {feed : Feed}

theorem mono (hρσ : ρ ≤ σ) (h : feed.Fixed ρ) : feed.Fixed σ :=
  ⟨fun t ht => (h.given t ht).mono hρσ, fun k t ht => (h.source k t ht).mono hρσ⟩

theorem advance (h : feed.Fixed ρ) : feed.advance.Fixed ρ := by
  unfold Feed.advance
  cases hpull : feed.source feed.calls with
  | token t =>
    refine ⟨fun u hu => ?_, h.source⟩
    rcases Array.mem_push.1 hu with hu | rfl
    · exact h.given u hu
    · exact h.source _ _ hpull
  | ended => exact ⟨h.given, h.source⟩
  | failed => exact ⟨h.given, h.source⟩

/-- So are those of a token that is read. -/
theorem read (h : feed.Fixed ρ) (n : Nat) :
    (feed.read n).2.Fixed ρ ∧ ∀ t, (feed.read n).1 = .ok (some t) → t.Alike ρ t := by
  by_cases hn : n < feed.given.size
  · rw [Feed.read_of_lt hn]
    refine ⟨h, fun t ht => ?_⟩
    cases ht
    exact h.given _ (Array.getElem_mem hn)
  · cases hended : feed.ended with
    | true =>
      rw [Feed.read_of_ended (Nat.le_of_not_lt hn) hended]
      exact ⟨h, fun t ht => by cases ht⟩
    | false =>
      rw [Feed.read_of_open (Nat.le_of_not_lt hn) hended]
      refine ⟨h.advance, fun t ht => ?_⟩
      dsimp only at ht
      cases hpull : feed.source feed.calls with
      | token u =>
        rw [hpull] at ht
        cases ht
        exact h.source _ _ hpull
      | ended => rw [hpull] at ht; cases ht
      | failed => rw [hpull] at ht; cases ht

end Feed.Fixed

/-- Remainders that are the same but for identities, which are paired. -/
inductive Remainder.Alike (ρ : Pairing) : Remainder → Remainder → Prop
  | tokens {ts ts'} (hts : List.Forall₂ (Value.Alike ρ) ts ts') (taken : Nat) :
      Alike ρ (.tokens ts taken) (.tokens ts' taken)
  | chars (cs : List Char) (taken : Nat) : Alike ρ (.chars cs taken) (.chars cs taken)
  | fed (taken : Nat) : Alike ρ (.fed taken) (.fed taken)
  | pushed {t t' more more' s s'} (ht : Value.Alike ρ t t') (hmore : List.Forall₂ (Value.Alike ρ) more more')
      (hs : Alike ρ s s') (consumed : Nat) : Alike ρ (.pushed t more s consumed) (.pushed t' more' s' consumed)
  | shifted {s s'} (hs : Alike ρ s s') (extra : Nat) : Alike ρ (.shifted s extra) (.shifted s' extra)

namespace Remainder.Alike

variable {ρ σ : Pairing} {s s' : Remainder}

theorem mono (hρσ : ρ ≤ σ) (h : s.Alike ρ s') : s.Alike σ s' := by
  induction h with
  | tokens hts taken => exact .tokens (Value.Alike.mono_all hρσ hts) taken
  | chars cs taken => exact .chars cs taken
  | fed taken => exact .fed taken
  | pushed ht hmore _ consumed ih => exact .pushed (ht.mono hρσ) (Value.Alike.mono_all hρσ hmore) ih consumed
  | shifted _ extra ih => exact .shifted ih extra

theorem offset (h : s.Alike ρ s') : s.offset = s'.offset := by
  induction h with
  | tokens _ _ | chars _ _ | fed _ => rfl
  | pushed _ hmore _ _ ih => rw [Remainder.offset, Remainder.offset, ih, hmore.length_eq]
  | shifted _ _ ih => rw [Remainder.offset, Remainder.offset, ih]

theorem consumed (h : s.Alike ρ s') : s.consumed = s'.consumed := by
  induction h with
  | tokens _ _ | chars _ _ | fed _ | pushed _ _ _ _ _ => rfl
  | shifted _ _ ih => rw [Remainder.consumed, Remainder.consumed, ih]

theorem shift (h : s.Alike ρ s') (extra : Nat) : (s.shift extra).Alike ρ (s'.shift extra) := by
  unfold Remainder.shift
  by_cases hextra : extra = 0
  · rw [if_pos hextra, if_pos hextra]
    exact h
  · rw [if_neg hextra, if_neg hextra]
    cases h with
    | shifted hs e => exact .shifted hs (e + extra)
    | tokens hts taken => exact .shifted (.tokens hts taken) extra
    | chars cs taken => exact .shifted (.chars cs taken) extra
    | fed taken => exact .shifted (.fed taken) extra
    | pushed ht hmore hs consumed => exact .shifted (.pushed ht hmore hs consumed) extra

theorem push (h : s.Alike ρ s') {ts ts' : List Value} (hts : List.Forall₂ (Value.Alike ρ) ts ts') :
    (s.push ts).Alike ρ (s'.push ts') := by
  cases hts with
  | nil => exact h
  | cons ht hmore =>
    rw [Remainder.push, Remainder.push, h.consumed]
    exact .pushed ht hmore h _

/-- **Such remainders are read alike,** and what is asked of the feed is the same. -/
theorem next? {feed : Feed} (h : s.Alike ρ s') (hfeed : feed.Fixed ρ) :
    ∃ a a' feed', s.next? feed = (a, feed') ∧ s'.next? feed = (a', feed') ∧ feed'.Fixed ρ ∧
      AnswersAlike (Remainder.Taking (Value.Alike ρ) (Remainder.Alike ρ)) a a' := by
  induction h with
  | tokens hts taken =>
    cases hts with
    | nil => exact ⟨_, _, feed, by rw [Remainder.next?], by rw [Remainder.next?], hfeed, .ok .none⟩
    | cons ht hts =>
      exact ⟨_, _, feed, by rw [Remainder.next?], by rw [Remainder.next?], hfeed, .ok (.some ht (.tokens hts _))⟩
  | chars cs taken =>
    cases cs with
    | nil => exact ⟨_, _, feed, by rw [Remainder.next?], by rw [Remainder.next?], hfeed, .ok .none⟩
    | cons c cs =>
      exact ⟨_, _, feed, by rw [Remainder.next?], by rw [Remainder.next?], hfeed, .ok (.some (.text _) (.chars cs _))⟩
  | fed taken =>
    obtain ⟨hfixed, htoken⟩ := hfeed.read taken
    rcases hread : feed.read taken with ⟨e | _ | t, feed'⟩
    · rw [hread] at hfixed
      exact ⟨_, _, feed', by rw [Remainder.next?, hread], by rw [Remainder.next?, hread], hfixed, .fault e⟩
    · rw [hread] at hfixed
      exact ⟨_, _, feed', by rw [Remainder.next?, hread], by rw [Remainder.next?, hread], hfixed, .ok .none⟩
    · have ht : t.Alike ρ t := htoken t (by rw [hread])
      rw [hread] at hfixed
      exact ⟨_, _, feed', by rw [Remainder.next?, hread], by rw [Remainder.next?, hread], hfixed,
        .ok (.some ht (.fed _))⟩
  | pushed ht hmore hs consumed _ =>
    cases hmore with
    | nil =>
      refine ⟨_, _, feed, by rw [Remainder.next?], by rw [Remainder.next?], hfeed, .ok (.some ht ?_)⟩
      rw [hs.consumed]
      exact hs.shift _
    | cons hu hus =>
      exact ⟨_, _, feed, by rw [Remainder.next?], by rw [Remainder.next?], hfeed,
        .ok (.some ht (.pushed hu hus hs _))⟩
  | shifted _ extra ih =>
    obtain ⟨a, a', feed', hnext, hnext', hfixed, halike⟩ := ih
    cases halike with
    | fault e => exact ⟨_, _, feed', by rw [Remainder.next?, hnext], by rw [Remainder.next?, hnext'], hfixed, .fault e⟩
    | ok htaking =>
      cases htaking with
      | none => exact ⟨_, _, feed', by rw [Remainder.next?, hnext], by rw [Remainder.next?, hnext'], hfixed, .ok .none⟩
      | some ht hrest =>
        exact ⟨_, _, feed', by rw [Remainder.next?, hnext], by rw [Remainder.next?, hnext'], hfixed,
          .ok (.some ht (hrest.shift extra))⟩

end Remainder.Alike

/-! ## Callbacks -/

/-- The callbacks take the same steps, whatever identities they are given, and their answers are related. Lists are not
followed: there are none where such callbacks are compared. -/
def Act.Alike {α β : Type} (R : Pairing → α → β → Prop) : Pairing → Act α → Act β → Prop
  | ρ, .pure a, .pure b => R ρ a b
  | _, .throw e, .throw e' => e = e'
  | ρ, .note id act, .note id' act' => id = id' ∧ act.Alike R ρ act'
  | ρ, .width k, .width l => ∀ n, (k n).Alike R ρ (l n)
  | ρ, .count mark k, .count mark' l => mark = mark' ∧ ∀ c, (k c).Alike R ρ (l c)
  | ρ, .fresh k, .fresh l => ∀ m n (h : ρ.New m n), (k (.made m)).Alike R (ρ.add h) (l (.made n))
  | _, .node i _, .node j _ => i = j
  | _, .walk i _, .walk j _ => i = j
  | _, _, _ => False

theorem Act.Alike.bind {α β γ δ : Type} {R : Pairing → α → β → Prop} {S : Pairing → γ → δ → Prop} {act : Act α}
    {act' : Act β} {ρ : Pairing} (h : act.Alike R ρ act') {k : α → Act γ} {l : β → Act δ}
    (hk : ∀ σ, ρ ≤ σ → ∀ a b, R σ a b → (k a).Alike S σ (l b)) : (act.bind k).Alike S ρ (act'.bind l) := by
  induction act generalizing act' ρ with
  | pure a =>
    cases act' with
    | pure b => exact hk ρ le_rfl a b h
    | _ => exact h.elim
  | throw e =>
    cases act' with
    | throw e' => exact h
    | _ => exact h.elim
  | note id act ih =>
    cases act' with
    | note id' act' => exact ⟨h.1, ih h.2 hk⟩
    | _ => exact h.elim
  | width f ih =>
    cases act' with
    | width g => exact fun n => ih n (h n) hk
    | _ => exact h.elim
  | count mark f ih =>
    cases act' with
    | count mark' g => exact ⟨h.1, fun c => ih c (h.2 c) hk⟩
    | _ => exact h.elim
  | fresh f ih =>
    cases act' with
    | fresh g =>
      exact fun m n hnew => ih _ (h m n hnew) fun σ hσ => hk σ (le_trans (Pairing.le_add hnew) hσ)
    | _ => exact h.elim
  | node i f ih =>
    cases act' with
    | node j g => exact h
    | _ => exact h.elim
  | walk i f ih =>
    cases act' with
    | walk j g => exact h
    | _ => exact h.elim

/-- New arrays of values that are alike. -/
theorem Act.Alike.array {ρ : Pairing} {xs xs' : List Value} (h : List.Forall₂ (Value.Alike ρ) xs xs') :
    (Act.array xs).Alike Value.Alike ρ (Act.array xs') :=
  fun _ _ hnew => Value.Alike.array (.made (.inr ⟨rfl, rfl⟩)) (Value.Alike.mono_all (Pairing.le_add hnew) h)

/-- Worlds in which callbacks that are alike do the same. -/
structure World.Paired (ρ : Pairing) (w w' : World) : Prop where
  feed : w.feed = w'.feed
  tokens : w.feed.Fixed ρ
  marks : w.marks = w'.marks
  below : ∀ m n, ρ.pairs m n → m < w.made ∧ n < w'.made

namespace World.Paired

variable {ρ : Pairing} {w w' : World}

theorem new (h : w.Paired ρ w') : ρ.New w.made w'.made :=
  ⟨fun n hn => Nat.lt_irrefl _ (h.below _ n hn).1, fun m hm => Nat.lt_irrefl _ (h.below m _ hm).2⟩

/-- Both worlds give out an identity. -/
theorem made (h : w.Paired ρ w') :
    World.Paired (ρ.add h.new) { w with made := w.made + 1 } { w' with made := w'.made + 1 } where
  feed := h.feed
  tokens := h.tokens.mono (Pairing.le_add h.new)
  marks := h.marks
  below := by
    rintro m n (hmn | ⟨rfl, rfl⟩)
    · exact ⟨Nat.lt_succ_of_lt (h.below m n hmn).1, Nat.lt_succ_of_lt (h.below m n hmn).2⟩
    · exact ⟨Nat.lt_succ_self _, Nat.lt_succ_self _⟩

theorem countOf (h : w.Paired ρ w') (mark : Nat) : w.countOf mark = w'.countOf mark := by
  rw [World.countOf, World.countOf, h.marks]

theorem addCount (h : w.Paired ρ w') (mark : Nat) : (w.addCount mark).Paired ρ (w'.addCount mark) where
  feed := h.feed
  tokens := h.tokens
  marks := by rw [World.addCount, World.addCount, h.countOf mark, h.marks]
  below := h.below

end World.Paired

/-- **Callbacks that are alike end alike.** -/
theorem Act.Alike.exec {α β : Type} {R : Pairing → α → β → Prop} {env env' : Env}
    (hindent : env.settings.indent = env'.settings.indent) {act : Act α} {act' : Act β} {ρ : Pairing}
    (h : act.Alike R ρ act') {w w' : World} (hw : w.Paired ρ w') :
    ∃ σ, ρ ≤ σ ∧ ∃ x x' w₁ w₁', act.exec env .none w = (x.mapError .fault, w₁) ∧
      act'.exec env' .none w' = (x'.mapError .fault, w₁') ∧ w₁.Paired σ w₁' ∧ AnswersAlike (R σ) x x' := by
  induction act generalizing act' ρ w w' with
  | pure a =>
    cases act' with
    | pure b => exact ⟨ρ, le_rfl, .ok a, .ok b, w, w', rfl, rfl, hw, .ok h⟩
    | _ => exact h.elim
  | throw e =>
    cases act' with
    | throw e' =>
      obtain rfl : e = e' := h
      exact ⟨ρ, le_rfl, .error e, .error e, w, w', rfl, rfl, hw, .fault e⟩
    | _ => exact h.elim
  | note id act ih =>
    cases act' with
    | note id' act' =>
      have hnoted : World.Paired ρ { w with journal := .noted id :: w.journal }
          { w' with journal := .noted id' :: w'.journal } := ⟨hw.feed, hw.tokens, hw.marks, hw.below⟩
      exact ih h.2 hnoted
    | _ => exact h.elim
  | width k ih =>
    cases act' with
    | width l =>
      have hwidth : (k env.settings.indent).Alike R ρ (l env'.settings.indent) := by
        rw [← hindent]
        exact h _
      exact ih _ hwidth hw
    | _ => exact h.elim
  | count mark k ih =>
    cases act' with
    | count mark' l =>
      obtain ⟨rfl, hk⟩ := h
      have hcount : (k (w.countOf mark)).Alike R ρ (l (w'.countOf mark)) := by
        rw [← hw.countOf mark]
        exact hk _
      exact ih _ hcount (hw.addCount mark)
    | _ => exact h.elim
  | fresh k ih =>
    cases act' with
    | fresh l =>
      obtain ⟨σ, hσ, hrest⟩ := ih _ (h w.made w'.made hw.new) hw.made
      exact ⟨σ, le_trans (Pairing.le_add hw.new) hσ, hrest⟩
    | _ => exact h.elim
  | node i k ih =>
    cases act' with
    | node j l => exact ⟨ρ, le_rfl, .error _, .error _, w, w', rfl, rfl, hw, .fault _⟩
    | _ => exact h.elim
  | walk i k ih =>
    cases act' with
    | walk j l => exact ⟨ρ, le_rfl, .error _, .error _, w, w', rfl, rfl, hw, .fault _⟩
    | _ => exact h.elim

end CommittedChoice
