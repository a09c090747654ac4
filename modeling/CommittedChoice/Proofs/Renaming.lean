import CommittedChoice.Listing
import CommittedChoice.Proofs.Pairing

/-!
# Values up to names

Lists that are parsed on demand and values that a run makes are told apart by numbers, which a run gives out as it goes. A
run that was interrupted and taken up again gives out other numbers than one that was not. This module says when two values
are the same but for such numbers, and two remainders that are read in two runs.

- `Stage`: which list of one run is which of the other, which value that was made is which, one to one, and how far both
  runs have read the source. Stages grow as the runs go on;
- `Value.shape`, `Value.names`: a value without the numbers in it, and these numbers in their order;
- `Stage.Values`: values of the same shape whose names are paired. Messages show them alike (`Values.unexpected`);
- `Stage.Remainders`: remainders of such tokens, which are as far as one another.
-/

namespace CommittedChoice

/-! ## Names -/

/-- What a run gives out a number for: a node of a list, or a value that it makes. -/
inductive Name where
  | node (i : Nat)
  | made (n : Nat)

/-- The name in an identity, if there is one. -/
def Identity.names : Identity → List Name
  | .made n => [.made n]
  | .item i => [.node i]
  | .constant | .written _ => []

/-- An identity without the name in it. -/
def Identity.shape : Identity → Identity
  | .made _ => .made 0
  | .item _ => .item 0
  | id => id

namespace Value

mutual

/-- The names in a value. -/
def names : Value → List Name
  | .symbol id _ => id.names
  | .array id xs => id.names ++ namesAll xs
  | .record id fields => id.names ++ namesFields fields
  | .function (.enclosing id v) => id.names ++ names v
  | .function (.applied id _ v) => id.names ++ names v
  | .function (.defined id _ v) => id.names ++ names v
  | .list i => [.node i]
  | .step (.again v) => names v
  | .step (.done v) => names v
  | _ => []

/-- The names in values. -/
def namesAll : List Value → List Name
  | [] => []
  | x :: xs => names x ++ namesAll xs

/-- The names in fields. -/
def namesFields : List (String × Value) → List Name
  | [] => []
  | (_, x) :: fields => names x ++ namesFields fields

end

mutual

/-- A value without the names in it. -/
def shape : Value → Value
  | .symbol id name => .symbol id.shape name
  | .array id xs => .array id.shape (shapeAll xs)
  | .record id fields => .record id.shape (shapeFields fields)
  | .function (.enclosing id v) => .function (.enclosing id.shape (shape v))
  | .function (.applied id op v) => .function (.applied id.shape op (shape v))
  | .function (.defined id n v) => .function (.defined id.shape n (shape v))
  | .list _ => .list 0
  | .step (.again v) => .step (.again (shape v))
  | .step (.done v) => .step (.done (shape v))
  | v => v

/-- Values without the names in them. -/
def shapeAll : List Value → List Value
  | [] => []
  | x :: xs => shape x :: shapeAll xs

/-- Fields without the names in them. -/
def shapeFields : List (String × Value) → List (String × Value)
  | [] => []
  | (key, x) :: fields => (key, shape x) :: shapeFields fields

end

/-! ### How values are shown -/

theorem lookup_shapeFields (name : String) : ∀ fields : List (String × Value),
    (shapeFields fields).lookup name = (fields.lookup name).map shape
  | [] => rfl
  | (key, x) :: fields => by
    rw [shapeFields, List.lookup_cons, List.lookup_cons]
    cases name == key with
    | true => rfl
    | false => exact lookup_shapeFields name fields

theorem saysItself_shape (fields : List (String × Value)) :
    Json.saysItself (shapeFields fields) = Json.saysItself fields := by
  unfold Json.saysItself
  rw [lookup_shapeFields]
  cases fields.lookup "toJSON" with
  | none => rfl
  | some v =>
    cases v with
    | function f => cases f <;> rfl
    | step s => cases s <;> rfl
    | _ => rfl

theorem saying_shape (fields : List (String × Value)) (name : String) :
    saying (shapeFields fields) name = saying fields name := by
  unfold saying
  rw [lookup_shapeFields]
  cases fields.lookup name with
  | none => rfl
  | some v =>
    cases v with
    | function f => cases f <;> rfl
    | step s => cases s <;> rfl
    | _ => rfl

mutual

theorem writtenAt_shape (key : String) : ∀ v : Value, Json.writtenAt? key v.shape = Json.writtenAt? key v
  | .array _ xs => by rw [shape, Json.writtenAt?, Json.writtenAt?, elements_shape 0 xs]
  | .record _ fields => by
    rw [shape, Json.writtenAt?, Json.writtenAt?, saysItself_shape, members_shape fields]
  | .symbol _ _ => by rw [shape, Json.writtenAt?, Json.writtenAt?]
  | .function (.enclosing _ _) | .function (.applied _ _ _) | .function (.defined _ _ _) => by
    rw [shape, Json.writtenAt?, Json.writtenAt?]
  | .function .maximum | .function (.operation _ _) => rfl
  | .list _ => by rw [shape, Json.writtenAt?, Json.writtenAt?]
  | .step (.again _) | .step (.done _) => by rw [shape, Json.writtenAt?, Json.writtenAt?]
  | .absent | .null | .bool _ | .number _ | .bigint _ | .text _ | .knot | .mute => rfl

theorem elements_shape (i : Nat) : ∀ xs : List Value, Json.elements i (shapeAll xs) = Json.elements i xs
  | [] => rfl
  | x :: xs => by rw [shapeAll, Json.elements, Json.elements, writtenAt_shape _ x, elements_shape (i + 1) xs]

theorem members_shape : ∀ fields : List (String × Value), Json.members (shapeFields fields) = Json.members fields
  | [] => rfl
  | (key, x) :: fields => by
    rw [shapeFields, Json.members, Json.members, writtenAt_shape key x, members_shape fields]

end

mutual

theorem asText_shape : ∀ v : Value, v.shape.asText = v.asText
  | .array _ xs => by rw [shape, asText, asText, elementTexts_shape xs]
  | .record _ fields => by
    rw [shape, asText, asText, recordAsText, recordAsText, saying_shape, saying_shape]
  | .symbol _ _ => by rw [shape, asText, asText]
  | .function (.enclosing _ _) | .function (.applied _ _ _) | .function (.defined _ _ _) => by
    rw [shape, asText, asText]
  | .function .maximum | .function (.operation _ _) => rfl
  | .list _ => by rw [shape, asText, asText]
  | .step (.again _) | .step (.done _) => by rw [shape, asText, asText]
  | .absent | .null | .bool _ | .number _ | .bigint _ | .text _ | .knot | .mute => rfl

theorem elementTexts_shape : ∀ xs : List Value, elementTexts (shapeAll xs) = elementTexts xs
  | [] => rfl
  | x :: xs => by
    have hx := asText_shape x
    have hxs := elementTexts_shape xs
    rw [shapeAll]
    cases x with
    | function f => cases f <;> simp only [elementTexts, shape, hxs] at hx ⊢ <;> rw [hx]
    | step s => cases s <;> simp only [elementTexts, shape, hxs] at hx ⊢ <;> rw [hx]
    | _ => simp only [elementTexts, shape, hxs] at hx ⊢ <;> rw [hx]

end

mutual

/-- A value without a plain text is of a wrong kind. -/
theorem asText_error : ∀ {v : Value} {e : Fault}, v.asText = .error e → ∃ m, e = .mistyped m
  | .array _ xs, e, h => by
    rw [asText] at h
    cases hxs : elementTexts xs with
    | error e' =>
      rw [hxs] at h
      cases h
      exact elementTexts_error hxs
    | ok ts => rw [hxs] at h; cases h
  | .record _ fields, e, h => by
    rw [asText, recordAsText] at h
    split at h <;> cases h
    exact ⟨_, rfl⟩
  | .absent, _, h | .null, _, h | .bool _, _, h | .number _, _, h | .bigint _, _, h | .text _, _, h | .symbol _ _, _, h
  | .function _, _, h | .knot, _, h | .mute, _, h | .list _, _, h | .step _, _, h => by rw [asText] at h; cases h

theorem elementTexts_error : ∀ {xs : List Value} {e : Fault}, elementTexts xs = .error e → ∃ m, e = .mistyped m
  | [], _, h => by rw [elementTexts] at h; cases h
  | x :: xs, e, h => by
    have hx : ∀ {e : Fault}, x.asText = .error e → ∃ m, e = .mistyped m := asText_error
    have htail : ∀ {f : List String → List String}, (elementTexts xs).map f = .error e → ∃ m, e = .mistyped m := by
      intro f h
      cases hxs : elementTexts xs with
      | error e' =>
        rw [hxs] at h
        cases h
        exact elementTexts_error hxs
      | ok ts => rw [hxs] at h; cases h
    have hrest : (match asText x with
        | .error e => .error e
        | .ok s => (elementTexts xs).map (s :: ·)) = Except.error e → ∃ m, e = .mistyped m := by
      intro h
      split at h
      · rename_i hx'
        cases h
        exact hx hx'
      · exact htail h
    cases x with
    | absent | null => exact htail h
    | symbol => cases h; exact ⟨_, rfl⟩
    | _ => exact hrest h

end

end Value

/-- A message about a token fails in one way only. -/
theorem Message.unexpected_error {t : Value} {e : Fault} (h : Message.unexpected t = .error e) : ∃ m, e = .mistyped m := by
  unfold Message.unexpected at h
  cases htoken : Message.token t with
  | ok m => rw [htoken] at h; cases h
  | error e' =>
    rw [htoken] at h
    cases h
    unfold Message.token at htoken
    split at htoken
    · cases htoken
    · split at htoken
      · cases htoken
      · exact Value.asText_error htoken

/-! ## Stages -/

/-- Which list and which value that was made in one run is which in the other, and how many tokens of the source both have
read. -/
structure Stage where
  lists : Pairing
  made : Pairing
  reach : Nat

namespace Stage

/-- Stages grow by pairs and by tokens. -/
instance : Preorder Stage where
  le ρ σ := ρ.lists ≤ σ.lists ∧ ρ.made ≤ σ.made ∧ ρ.reach ≤ σ.reach
  le_refl σ := ⟨le_refl _, le_refl _, le_refl _⟩
  le_trans _ _ _ h h' := ⟨le_trans h.1 h'.1, le_trans h.2.1 h'.2.1, le_trans h.2.2 h'.2.2⟩

variable {ρ σ τ : Stage}

theorem lists_le (h : ρ ≤ σ) {l l' : Nat} (hl : ρ.lists.pairs l l') : σ.lists.pairs l l' := h.1 l l' hl

theorem made_le (h : ρ ≤ σ) {m m' : Nat} (hm : ρ.made.pairs m m') : σ.made.pairs m m' := h.2.1 m m' hm

/-- Nodes at the same place of lists that are paired. -/
inductive Places (σ : Stage) : Nat → Nat → Prop
  | mk {l l' : Nat} (h : σ.lists.pairs l l') (k : Nat) : Places σ (nodeNumber l k) (nodeNumber l' k)

theorem Places.mono (h : ρ ≤ σ) {i i' : Nat} (hi : ρ.Places i i') : σ.Places i i' := by
  obtain ⟨hl, k⟩ := hi
  exact .mk (lists_le h hl) k

/-- Names of the same. -/
inductive Names (σ : Stage) : Name → Name → Prop
  | node {i i' : Nat} (h : σ.Places i i') : Names σ (.node i) (.node i')
  | made {m m' : Nat} (h : σ.made.pairs m m') : Names σ (.made m) (.made m')

theorem Names.mono (h : ρ ≤ σ) {a a' : Name} (ha : ρ.Names a a') : σ.Names a a' := by
  cases ha with
  | node hi => exact .node (hi.mono h)
  | made hm => exact .made (made_le h hm)

/-- Values that are the same but for names, which are names of the same. -/
structure Values (σ : Stage) (v v' : Value) : Prop where
  shape : v.shape = v'.shape
  names : List.Forall₂ σ.Names v.names v'.names

namespace Values

variable {u u' v v' : Value}

theorem mono (h : ρ ≤ σ) (hv : ρ.Values v v') : σ.Values v v' := ⟨hv.shape, hv.names.imp fun _ _ => Names.mono h⟩

theorem mono_all (h : ρ ≤ σ) {vs vs' : List Value} (hvs : List.Forall₂ ρ.Values vs vs') :
    List.Forall₂ σ.Values vs vs' := hvs.imp fun _ _ => mono h

/-- A value without names is the same in both runs. -/
theorem of_names (h : v.names = []) : σ.Values v v := ⟨rfl, by rw [h]; exact .nil⟩

theorem list {i i' : Nat} (h : σ.Places i i') : σ.Values (.list i) (.list i') := ⟨rfl, .cons (.node h) .nil⟩

theorem again (h : σ.Values v v') : σ.Values (.again v) (.again v') :=
  ⟨congrArg (fun u => Value.step (.again u)) h.shape, h.names⟩

theorem done (h : σ.Values v v') : σ.Values (.done v) (.done v') :=
  ⟨congrArg (fun u => Value.step (.done u)) h.shape, h.names⟩

theorem shapeAll_eq {vs vs' : List Value} (h : List.Forall₂ σ.Values vs vs') :
    Value.shapeAll vs = Value.shapeAll vs' := by
  induction h with
  | nil => rfl
  | cons hv _ ih => rw [Value.shapeAll, Value.shapeAll, hv.shape, ih]

theorem namesAll {vs vs' : List Value} (h : List.Forall₂ σ.Values vs vs') :
    List.Forall₂ σ.Names (Value.namesAll vs) (Value.namesAll vs') := by
  induction h with
  | nil => exact .nil
  | cons hv _ ih => exact List.rel_append hv.names ih

/-- Arrays of the same elements under the identities of values that are paired. -/
theorem array {m m' : Nat} (hm : σ.made.pairs m m') {vs vs' : List Value} (h : List.Forall₂ σ.Values vs vs') :
    σ.Values (.array (.made m) vs) (.array (.made m') vs') :=
  ⟨congrArg (Value.array (.made 0)) (shapeAll_eq h), .cons (.made hm) (namesAll h)⟩

/-- The record of an item and of the state that it left. -/
theorem item {i i' : Nat} (hi : σ.Places i i') (hu : σ.Values u u') (hv : σ.Values v v') (key key' : String) :
    σ.Values (.record (.item i) [(key, u), (key', v)]) (.record (.item i') [(key, u'), (key', v')]) := by
  refine ⟨?_, .cons (.node hi) (List.rel_append hu.names (List.rel_append hv.names .nil))⟩
  simp only [Value.shape, Value.shapeFields, hu.shape, hv.shape, Identity.shape]

theorem toStep_cases (v : Value) : (∃ u, v = .again u) ∨ (∃ u, v = .done u) ∨
    v.toStep = .again .absent ∧ ∀ s, v.shape ≠ .step s := by
  cases v with
  | step s =>
    cases s with
    | again u => exact .inl ⟨u, rfl⟩
    | done u => exact .inr (.inl ⟨u, rfl⟩)
  | function f => cases f <;> exact .inr (.inr ⟨rfl, nofun⟩)
  | _ => exact .inr (.inr ⟨rfl, nofun⟩)

/-- Turns of a loop say the same. -/
theorem toStep (h : σ.Values v v') : Step.Alike σ.Values v.toStep v'.toStep := by
  obtain ⟨hshape, hnames⟩ := h
  obtain ⟨u, rfl⟩ | ⟨u, rfl⟩ | ⟨hv, hnone⟩ := toStep_cases v <;>
    obtain ⟨u', rfl⟩ | ⟨u', rfl⟩ | ⟨hv', hnone'⟩ := toStep_cases v'
  · exact .again ⟨Step.again.inj (Value.step.inj hshape), hnames⟩
  · cases hshape
  · exact absurd hshape.symm (hnone' _)
  · cases hshape
  · exact .done ⟨Step.done.inj (Value.step.inj hshape), hnames⟩
  · exact absurd hshape.symm (hnone' _)
  · exact absurd hshape (hnone _)
  · exact absurd hshape (hnone _)
  · rw [hv, hv']
    exact .again (of_names rfl)

/-- Nothing in a message tells one name from another. -/
theorem unexpected (h : σ.Values v v') : Message.unexpected v = Message.unexpected v' := by
  have htoken : ∀ v, Message.token v.shape = Message.token v := by
    intro v
    have hwritten : Json.written? v.shape = Json.written? v := Value.writtenAt_shape "" v
    have htext := Value.asText_shape v
    cases v with
    | function f => cases f <;> simp only [Value.shape] at hwritten htext ⊢ <;> simp only [Message.token, hwritten, htext]
    | step s => cases s <;> simp only [Value.shape] at hwritten htext ⊢ <;> simp only [Message.token, hwritten, htext]
    | _ => simp only [Value.shape] at hwritten htext ⊢ <;> simp only [Message.token, hwritten, htext]
  rw [Message.unexpected, Message.unexpected, ← htoken v, ← htoken v', h.shape]

end Values

end Stage

/-! ## Sources -/

/-- How many of the first calls of a source were answered. -/
def answered (source : Nat → Pull) : Nat → Nat
  | 0 => 0
  | c + 1 =>
    match source c with
    | .failed => answered source c
    | _ => answered source c + 1

/-- A source that never fails, and whose tokens were there before any run. -/
structure Supply where
  pull : Nat → Pull
  steady : ∀ k, pull k ≠ .failed
  plain : ∀ k t, pull k = .token t → t.names = []

namespace Supply

variable (S : Supply)

/-- The token at a position, if there are that many. -/
def token? (n : Nat) : Option Value :=
  match S.pull n with
  | .token t => some t
  | _ => none

/-- A source that gives the same, but fails at some calls without giving anything. -/
def Interrupted (source : Nat → Pull) : Prop := ∀ c, source c = .failed ∨ source c = S.pull (answered source c)

/-- A feed that has come some way along the tokens. -/
structure Along (feed : Feed) : Prop where
  source : S.Interrupted feed.source
  given : ∀ (k : Nat) (h : k < feed.given.size), S.pull k = .token feed.given[k]
  ended : feed.ended = true → S.pull feed.given.size = .ended
  calls : feed.ended = false → answered feed.source feed.calls = feed.given.size

variable {S} {feed feed' : Feed} {n : Nat}

theorem plain_token? {t : Value} (h : S.token? n = some t) : t.names = [] := by
  unfold token? at h
  split at h
  · rename_i hpull
    cases h
    exact S.plain n _ hpull
  · cases h

/-- A source that is never interrupted. -/
theorem interrupted_self : S.Interrupted S.pull := by
  intro c
  have hall : answered S.pull c = c := by
    induction c with
    | zero => rfl
    | succ c ih =>
      unfold answered
      split
      · exact absurd ‹_› (S.steady c)
      · rw [ih]
  exact .inr (by rw [hall])

theorem Along.start {source : Nat → Pull} (h : S.Interrupted source) : S.Along { source := source } :=
  ⟨h, fun _ hk => absurd hk (Nat.not_lt_zero _), nofun, fun _ => rfl⟩

theorem Along.advance (h : S.Along feed) (hended : feed.ended = false) : S.Along feed.advance := by
  have hcalls := h.calls hended
  have hpull := h.source feed.calls
  rw [hcalls] at hpull
  unfold Feed.advance
  cases hsource : feed.source feed.calls with
  | token t =>
    rw [hsource] at hpull
    have ht : S.pull feed.given.size = .token t := (hpull.resolve_left nofun).symm
    refine ⟨h.source, fun k hk => ?_, fun htrue => ?_, fun _ => ?_⟩
    · dsimp only at hk ⊢
      rw [Array.getElem_push]
      split
      · exact h.given k _
      · rw [Array.size_push] at hk
        rw [show k = feed.given.size by omega]
        exact ht
    · exact absurd (hended.symm.trans htrue) Bool.false_ne_true
    · dsimp only
      rw [answered, hsource, Array.size_push, hcalls]
  | ended =>
    rw [hsource] at hpull
    exact ⟨h.source, h.given, fun _ => (hpull.resolve_left nofun).symm, nofun⟩
  | failed =>
    refine ⟨h.source, h.given, h.ended, fun _ => ?_⟩
    dsimp only
    rw [answered, hsource, hcalls]

theorem Along.later (h : S.Along feed) (hlater : feed.Later feed') : S.Along feed' := by
  induction hlater with
  | refl => exact h
  | call _ hended ih => exact ih.advance hended

end Supply

/-- The source failed at call `c`, which was made on the way from one feed to the other. -/
structure Feed.Fails (feed feed' : Feed) (c : Nat) : Prop where
  before : feed.calls < c
  after : c ≤ feed'.calls
  failed : feed.source (c - 1) = .failed

/-- **Reading a position** gives its token, or the source fails at that call. -/
theorem Supply.Along.read {S : Supply} {feed : Feed} (h : S.Along feed) {n : Nat} (hn : n ≤ feed.given.size) :
    (∃ c, (feed.read n).1 = .error (.source c) ∧ feed.Fails (feed.read n).2 c) ∨
      (feed.read n).1 = .ok (S.token? n) ∧ ((S.token? n).isSome → n < (feed.read n).2.given.size) := by
  by_cases hlt : n < feed.given.size
  · have htoken : S.token? n = some feed.given[n] := by rw [token?, h.given n hlt]
    rw [Feed.read_of_lt hlt, htoken]
    exact .inr ⟨rfl, fun _ => hlt⟩
  obtain rfl : n = feed.given.size := Nat.le_antisymm hn (Nat.le_of_not_lt hlt)
  cases hended : feed.ended with
  | true =>
    have hnone : S.token? feed.given.size = none := by rw [token?, h.ended hended]
    rw [Feed.read_of_ended (Nat.le_refl _) hended, hnone]
    exact .inr ⟨rfl, nofun⟩
  | false =>
    have hpull := h.source feed.calls
    rw [h.calls hended] at hpull
    rw [Feed.read_of_open (Nat.le_refl _) hended]
    cases hsource : feed.source feed.calls with
    | failed =>
      refine .inl ⟨feed.calls + 1, rfl, Nat.lt_succ_self _, ?_, hsource⟩
      rw [Feed.calls_advance]
    | token t =>
      rw [hsource] at hpull
      have htoken : S.token? feed.given.size = some t := by rw [token?, ← hpull.resolve_left nofun]
      rw [htoken]
      refine .inr ⟨rfl, fun _ => ?_⟩
      unfold Feed.advance
      rw [hsource]
      show feed.given.size < (feed.given.push t).size
      rw [Array.size_push]
      exact Nat.lt_succ_self _
    | ended =>
      rw [hsource] at hpull
      have hnone : S.token? feed.given.size = none := by rw [token?, ← hpull.resolve_left nofun]
      rw [hnone]
      exact .inr ⟨rfl, nofun⟩

/-! ## Remainders -/

/-- Feeds of the same tokens in two runs, the second of which is never interrupted. -/
structure Supply.Feeds (S : Supply) (σ : Stage) (feed feed' : Feed) : Prop where
  first : S.Along feed
  second : S.Along feed'
  steady : ∀ c, feed'.source c ≠ .failed
  reach : σ.reach ≤ feed.given.size
  reach' : σ.reach ≤ feed'.given.size

namespace Stage

/-- The stage at which both runs have read `n` tokens. -/
def reaching (σ : Stage) (n : Nat) : Stage := { σ with reach := max σ.reach n }

theorem le_reaching (σ : Stage) (n : Nat) : σ ≤ σ.reaching n := ⟨le_refl _, le_refl _, Nat.le_max_left _ _⟩

variable {ρ σ : Stage}

/-- Remainders of the same, which were reached in both runs. -/
inductive Remainders (σ : Stage) : Remainder → Remainder → Prop
  | tokens {ts ts'} (hts : List.Forall₂ σ.Values ts ts') (taken : Nat) : Remainders σ (.tokens ts taken) (.tokens ts' taken)
  | chars (cs : List Char) (taken : Nat) : Remainders σ (.chars cs taken) (.chars cs taken)
  | fed {taken : Nat} (h : taken ≤ σ.reach) : Remainders σ (.fed taken) (.fed taken)
  | pushed {t t' more more' s s'} (ht : σ.Values t t') (hmore : List.Forall₂ σ.Values more more') (hs : Remainders σ s s')
      (consumed : Nat) : Remainders σ (.pushed t more s consumed) (.pushed t' more' s' consumed)
  | shifted {s s'} (hs : Remainders σ s s') (extra : Nat) : Remainders σ (.shifted s extra) (.shifted s' extra)

namespace Remainders

variable {s s' : Remainder}

theorem mono (h : ρ ≤ σ) (hs : ρ.Remainders s s') : σ.Remainders s s' := by
  induction hs with
  | tokens hts taken => exact .tokens (Values.mono_all h hts) taken
  | chars cs taken => exact .chars cs taken
  | fed htaken => exact .fed (Nat.le_trans htaken h.2.2)
  | pushed ht hmore _ consumed ih => exact .pushed (ht.mono h) (Values.mono_all h hmore) ih consumed
  | shifted _ extra ih => exact .shifted ih extra

theorem offset (hs : σ.Remainders s s') : s.offset = s'.offset := by
  induction hs with
  | tokens _ _ | chars _ _ | fed _ => rfl
  | pushed _ hmore _ _ ih => rw [Remainder.offset, Remainder.offset, ih, hmore.length_eq]
  | shifted _ _ ih => rw [Remainder.offset, Remainder.offset, ih]

theorem consumed (hs : σ.Remainders s s') : s.consumed = s'.consumed := by
  induction hs with
  | tokens _ _ | chars _ _ | fed _ | pushed _ _ _ _ _ => rfl
  | shifted _ _ ih => rw [Remainder.consumed, Remainder.consumed, ih]

theorem shift (hs : σ.Remainders s s') (extra : Nat) : σ.Remainders (s.shift extra) (s'.shift extra) := by
  unfold Remainder.shift
  by_cases hextra : extra = 0
  · rw [if_pos hextra, if_pos hextra]
    exact hs
  · rw [if_neg hextra, if_neg hextra]
    cases hs with
    | shifted hs e => exact .shifted hs (e + extra)
    | tokens hts taken => exact .shifted (.tokens hts taken) extra
    | chars cs taken => exact .shifted (.chars cs taken) extra
    | fed htaken => exact .shifted (.fed htaken) extra
    | pushed ht hmore hs consumed => exact .shifted (.pushed ht hmore hs consumed) extra

theorem push (hs : σ.Remainders s s') {ts ts' : List Value} (hts : List.Forall₂ σ.Values ts ts') :
    σ.Remainders (s.push ts) (s'.push ts') := by
  cases hts with
  | nil => exact hs
  | cons ht hmore =>
    rw [Remainder.push, Remainder.push, hs.consumed]
    exact .pushed ht hmore hs _

/-- **Reading such a remainder** stops at a failing source in the first run, or gives the same in both. -/
theorem next? {S : Supply} {feed feed' : Feed} (hs : σ.Remainders s s') (hfeeds : S.Feeds σ feed feed') :
    (∃ c, (s.next? feed).1 = .error (.source c) ∧ feed.Fails (s.next? feed).2 c) ∨
      ∃ n x x', (s.next? feed).1 = .ok x ∧ (s'.next? feed').1 = .ok x' ∧
        S.Feeds (σ.reaching n) (s.next? feed).2 (s'.next? feed').2 ∧
        Remainder.Taking (σ.reaching n).Values (σ.reaching n).Remainders x x' := by
  have hsame : S.Feeds (σ.reaching 0) feed feed' :=
    ⟨hfeeds.first, hfeeds.second, hfeeds.steady, Nat.max_le.2 ⟨hfeeds.reach, Nat.zero_le _⟩,
      Nat.max_le.2 ⟨hfeeds.reach', Nat.zero_le _⟩⟩
  have hle := σ.le_reaching 0
  induction hs with
  | tokens hts taken =>
    cases hts with
    | nil =>
      rw [Remainder.next?, Remainder.next?]
      exact .inr ⟨0, _, _, rfl, rfl, hsame, .none⟩
    | cons ht hts =>
      rw [Remainder.next?, Remainder.next?]
      exact .inr ⟨0, _, _, rfl, rfl, hsame, .some (ht.mono hle) (.tokens (Values.mono_all hle hts) _)⟩
  | chars cs taken =>
    cases cs with
    | nil =>
      rw [Remainder.next?]
      exact .inr ⟨0, _, _, rfl, rfl, hsame, .none⟩
    | cons c cs =>
      rw [Remainder.next?]
      exact .inr ⟨0, _, _, rfl, rfl, hsame, .some (.of_names rfl) (.chars cs _)⟩
  | @fed taken htaken =>
    have hlater := feed.later_read taken
    have hlater' := feed'.later_read taken
    have hread := hfeeds.first.read (Nat.le_trans htaken hfeeds.reach)
    have hread' := hfeeds.second.read (Nat.le_trans htaken hfeeds.reach')
    have hfirst := hfeeds.first.later hlater
    have hsecond := hfeeds.second.later hlater'
    have hsteady : ∀ c, (feed'.read taken).2.source c ≠ .failed := by
      rw [hlater'.source_eq]
      exact hfeeds.steady
    rw [Remainder.next?, Remainder.next?]
    generalize feed.read taken = r at hlater hread hfirst ⊢
    generalize feed'.read taken = r' at hlater' hread' hsecond hsteady ⊢
    obtain ⟨a, feed₁⟩ := r
    obtain ⟨a', feed₁'⟩ := r'
    rcases hread with ⟨c, rfl, hfails⟩ | ⟨rfl, hsize⟩
    · exact .inl ⟨c, rfl, hfails⟩
    rcases hread' with ⟨c, rfl, hfails⟩ | ⟨rfl, hsize'⟩
    · exact absurd hfails.failed (hfeeds.steady _)
    cases htoken : S.token? taken with
    | none =>
      refine .inr ⟨0, none, none, rfl, rfl, ⟨hfirst, hsecond, hsteady, ?_, ?_⟩, .none⟩
      · exact Nat.le_trans hsame.reach hlater.size_le
      · exact Nat.le_trans hsame.reach' hlater'.size_le
    | some t =>
      rw [htoken] at hsize hsize'
      have hreach : taken + 1 ≤ (σ.reaching (taken + 1)).reach := Nat.le_max_right _ _
      refine .inr ⟨taken + 1, _, _, rfl, rfl, ⟨hfirst, hsecond, hsteady, ?_, ?_⟩,
        .some (.of_names (Supply.plain_token? htoken)) (.fed hreach)⟩
      · exact Nat.max_le.2 ⟨Nat.le_trans hfeeds.reach hlater.size_le, hsize rfl⟩
      · exact Nat.max_le.2 ⟨Nat.le_trans hfeeds.reach' hlater'.size_le, hsize' rfl⟩
  | pushed ht hmore hs consumed _ =>
    cases hmore with
    | nil =>
      rw [Remainder.next?, Remainder.next?]
      refine .inr ⟨0, _, _, rfl, rfl, hsame, .some (ht.mono hle) ?_⟩
      rw [hs.consumed]
      exact (hs.mono hle).shift _
    | cons hu hus =>
      rw [Remainder.next?, Remainder.next?]
      exact .inr ⟨0, _, _, rfl, rfl, hsame,
        .some (ht.mono hle) (.pushed (hu.mono hle) (Values.mono_all hle hus) (hs.mono hle) _)⟩
  | @shifted s s' _ extra ih =>
    rw [Remainder.next?, Remainder.next?]
    rcases hnext : s.next? feed with ⟨a, feed₁⟩
    rcases hnext' : s'.next? feed' with ⟨a', feed₁'⟩
    rw [hnext, hnext'] at ih
    rcases ih with ⟨c, rfl, hfails⟩ | ⟨n, x, x', rfl, rfl, hfeeds₁, htaking⟩
    · exact .inl ⟨c, rfl, hfails⟩
    · cases htaking with
      | none => exact .inr ⟨n, _, _, rfl, rfl, hfeeds₁, .none⟩
      | some ht hrest => exact .inr ⟨n, _, _, rfl, rfl, hfeeds₁, .some ht (hrest.shift extra)⟩

end Remainders

end Stage

end CommittedChoice
