import CommittedChoice.Proofs.Opening

/-!
# Demands on an outcome

A reader holds the outcome of a parser and asks of it what it wants to know, in any order and any number of times. What is
read and noted for it is what the strict engine reads and notes first, so the two engines differ in when they work and not
in what they do.

- `Demand.meet`: the demands of a reader, and what each of them leaves in its hands;
- `Demand.Step`: all that a demand can do (`Demand.Meets.step`), in terms of answers, settlements and late values;
- `Held`: what is left to do for the outcome in hand is what is left of the strict run. Every demand that is answered
  keeps this, and one that stops with a fault stops where the strict run does (`Held.step`);
- `Demand.Met`: the outcome in hand knows what the demand asks for, so asking again changes nothing (`Met.meet`). Other
  demands do not change that (`Met.step`), not even those that stop;
- `Session`: any sequence of demands, some of which may stop with a fault;
- `Engine.demands_in_order`: the order of work in a session.
-/

namespace CommittedChoice

open Run (Ends)
open Strict (Outcome)

namespace OnDemand

/-! ## Demands -/

/-- Applies a parser to a context. The reader holds what it will answer. -/
def evaluate (p : Parser) (z : Context) : Run Suspended := pure (.apply p z)

/-- What a reader can ask of an outcome: its tag, what it settles to, and the parts of a success. -/
inductive Demand where
  | force
  | settle
  | value
  | rest

/-- The tag that shows when a part is asked for, which only a success has. -/
def partTag {α : Type} : Option α → Tag
  | some _ => .success
  | none => .failure

/-- Meets a demand on the outcome in hand, and says which tag showed. -/
def Demand.meet (m : Means) (fuel : Nat) : Demand → Hold Suspended Tag
  | .force => do return (← m.force).tag
  | .settle => do return (← m.onAnswer (m.settled fuel)).toAnswer.tag
  | .value => do return partTag (← m.onAnswer (m.onPromise fuel (Promise.forceValue m.env m.lists)))
  | .rest => do return partTag (← m.onAnswer (m.onPromise fuel (Promise.forceRest m.env m.lists)))

/-- The demand is met or stops with a fault, if there is enough fuel, and leaves `s'` in hand. -/
def Demand.Meets (env : Env) (d : Demand) (s : Suspended) (w : World) (x : Except Fault Tag) (s' : Suspended) (w' : World) :
    Prop := ∃ n, d.meet (means env n) n s w = (x.mapError .fault, s', w')

/-- Demands with the tag that showed or the fault that stopped them, the newest first. -/
abbrev Demands := List (Demand × Except Fault Tag)

/-- No demand was stopped. -/
def Demands.Answered (ds : Demands) : Prop := ∀ d e, (d, .error e) ∉ ds

/-- Demands that were made on the outcome of a parser, one after another. -/
inductive Session (env : Env) (p : Parser) (z : Context) (w : World) : Demands → Suspended → World → Prop
  | start {s : Suspended} {w' : World} : evaluate p z w = (.ok s, w') → Session env p z w [] s w'
  | demand {ds : Demands} {s s' : Suspended} {w₁ w' : World} {d : Demand} {x : Except Fault Tag} :
      Session env p z w ds s w₁ → d.Meets env s w₁ x s' w' → Session env p z w ((d, x) :: ds) s' w'

/-! ## What a demand can do -/

/-- Whether an answer is committed. -/
def Answer.isCommitted : Answer → Bool
  | .committed _ => true
  | _ => false

/-- What is settled, as an answer that is committed or not. -/
def Settled.under (c : Bool) (t : Settled) : Answer := if c then .committed (.ready t.toAnswer) else t.toAnswer

@[simp] theorem Settled.isCommitted_under (c : Bool) (t : Settled) : (t.under c).isCommitted = c := by
  cases c <;> cases t <;> rfl

variable {env : Env}

variable (env) in
/-- The success after the part that is asked for was computed. -/
noncomputable def Demand.part : Demand → Promise → Course Promise
  | .value, q => late env q.value >>= fun v => pure { q with value := .known v }
  | .rest, q => late env q.rest >>= fun z => pure { q with rest := .known z }
  | _, q => pure q

/-- The part of a success that is asked for is known. -/
def Demand.Known : Demand → Promise → Prop
  | .value, q => ∃ v, q.value = .known v
  | .rest, q => ∃ z, q.rest = .known z
  | _, _ => True

/-- What is known of the one success is known of the other. -/
def Promise.Keeps (q q' : Promise) : Prop := ∀ d : Demand, d.Known q → d.Known q'

variable (env) in
/-- All that a demand can do with the outcome `s` in the world `w`. -/
inductive Demand.Step (s : Suspended) (w : World) : Demand → Except Fault Tag → Suspended → World → Prop
  /-- The parser stops before it answers. -/
  | unanswered {d e s' w'} : answer env s w = some (.error e, w') → Step s w d (.error e) s' w'
  | forced {a w'} : answer env s w = some (.ok a, w') → Step s w .force (.ok a.tag) (.ready a) w'
  /-- The parser answers, and stops before it settles. -/
  | unsettled {d a w₁ e a' w'} : d ≠ .force → answer env s w = some (.ok a, w₁) →
      settleAnswer env a w₁ = some (.error e, w') → a'.tag = a.tag → Step s w d (.error e) (.ready a') w'
  /-- There is nothing more to ask of a failure. -/
  | failed {d a w₁ z message w'} : d ≠ .force → answer env s w = some (.ok a, w₁) →
      settleAnswer env a w₁ = some (.ok (.failure z message), w') →
      Step s w d (.ok .failure) (.ready (Settled.under a.isCommitted (.failure z message))) w'
  | succeeded {d a w₁ q w₂ q' w'} : d ≠ .force → answer env s w = some (.ok a, w₁) →
      settleAnswer env a w₁ = some (.ok (.success q), w₂) → d.part env q w₂ = some (.ok q', w') → q.Keeps q' →
      Step s w d (.ok .success) (.ready (Settled.under a.isCommitted (.success q'))) w'
  /-- The parser succeeds, and the part that is asked for stops. -/
  | unparted {d a w₁ q w₂ e q' w'} : d ≠ .force → answer env s w = some (.ok a, w₁) →
      settleAnswer env a w₁ = some (.ok (.success q), w₂) → d.part env q w₂ = some (.error e, w') → q.Keeps q' →
      Step s w d (.error e) (.ready (Settled.under a.isCommitted (.success q'))) w'

/-! ### One demand -/

/-- A halt that is a fault. -/
theorem eq_error_of_mapError {α : Type} {x : Except Fault α} {h : Halt} (hx : x.mapError .fault = .error h) :
    ∃ e, x = .error e ∧ h = .fault e := by
  cases x with
  | error e => cases hx; exact ⟨e, rfl, rfl⟩
  | ok a => cases hx

namespace Hold

variable {φ ψ α β : Type}

/-- Where a sequence ends, its first part has halted, or the second part has ended after it. -/
theorem bind_cases {x : Hold φ α} {f : α → Hold φ β} {s s'' : φ} {w w'' : World} {r : Except Halt β}
    (h : (x >>= f) s w = (r, s'', w'')) : (∃ e, r = .error e ∧ x s w = (.error e, s'', w'')) ∨
      ∃ a s' w', x s w = (.ok a, s', w') ∧ f a s' w' = (r, s'', w'') := by
  change Hold.bind x f s w = _ at h
  unfold Hold.bind at h
  rcases hx : x s w with ⟨e | a, s', w'⟩
  · rw [hx] at h; cases h; exact .inl ⟨e, rfl, rfl⟩
  · rw [hx] at h; exact .inr ⟨a, s', w', rfl, h⟩

theorem within_eq {wrap : ψ → φ} {x : ψ} {m : Hold ψ α} {s s' : φ} {w w' : World} {r : Except Halt α}
    (h : within wrap x m s w = (r, s', w')) : ∃ x', m x w = (r, x', w') ∧ s' = wrap x' := by
  unfold within at h
  rcases hm : m x w with ⟨r', x', w₁⟩
  rw [hm] at h
  cases h
  exact ⟨x', rfl, rfl⟩

/-- Changing an answer is all that is done here. -/
theorem map_cases {x : Hold φ α} {g : α → β} {s s' : φ} {w w' : World} {y : Except Fault β}
    (h : (x >>= fun a => pure (g a)) s w = (y.mapError .fault, s', w')) :
    ∃ y' : Except Fault α, x s w = (y'.mapError .fault, s', w') ∧ y = y'.map g := by
  rcases bind_cases h with ⟨_, hy, hx⟩ | ⟨a, s₁, w₁, hx, hy⟩
  · obtain ⟨e, rfl, rfl⟩ := eq_error_of_mapError hy
    exact ⟨.error e, hx, rfl⟩
  · cases y with
    | error e => cases hy
    | ok b =>
      cases hy
      exact ⟨.ok a, hx, rfl⟩

end Hold

theorem Late.force_keeps {lists : Lists} {α : Type} {l l' : Late α} {a : α} {w w' : World}
    (h : l.force env lists w = (.ok a, l', w')) : l' = .known a := by
  cases l with
  | known b =>
    cases h
    rfl
  | later act =>
    rw [Late.force] at h
    split at h <;> cases h
    rfl
  | mapped l f =>
    rw [Late.force] at h
    split at h
    · cases h
    · split at h <;> cases h
      rfl

section Fuel

variable {n : Nat} {w w' : World}

theorem answer_of_force {s s' : Suspended} {x : Except Fault Answer}
    (h : (means env n).force s w = (x.mapError .fault, s', w')) : answer env s w = some (x, w') := by
  refine (Run.limit_eq_some (steady_answer env s)).2 ⟨n, ?_⟩
  show Hold.on s (means env n).force w = _
  unfold Hold.on
  rw [h]

/-- Settling an answer, without what is kept. -/
theorem on_settled (n : Nat) (a : Answer) : Hold.on a ((means env n).settled n) = (means env n).settleAnswer n a := by
  cases a <;> rfl

theorem settleAnswer_of_settled {a a' : Answer} {x : Except Fault Settled}
    (h : (means env n).settled n a w = (x.mapError .fault, a', w')) : settleAnswer env a w = some (x, w') := by
  have hon : (means env n).settleAnswer n a w = (x.mapError .fault, w') := by
    rw [← on_settled]
    unfold Hold.on
    rw [h]
  cases a with
  | success p => exact Course.ofRun_eq_some.2 hon
  | failure z message => exact Course.ofRun_eq_some.2 hon
  | committed inner => exact (Run.limit_eq_some (steady_settlement env inner)).2 ⟨n, hon⟩

/-- An answer that has settled keeps what it settled to. -/
theorem settled_keeps {a a' : Answer} {t : Settled} (h : (means env n).settled n a w = (.ok t, a', w')) :
    a' = t.under a.isCommitted := by
  cases a with
  | success p => cases h; rfl
  | failure z message => cases h; rfl
  | committed inner =>
    obtain ⟨k, inner', -, rfl, hsettle⟩ := settled_committed h
    rw [settle_keeps env n n hsettle]
    rfl

/-- Settling does not change the tag that shows. -/
theorem settled_tag {a a' : Answer} {r : Except Halt Settled} (h : (means env n).settled n a w = (r, a', w')) :
    a'.tag = a.tag := by
  cases a with
  | success p => cases h; rfl
  | failure z message => cases h; rfl
  | committed inner =>
    obtain ⟨inner', -, rfl⟩ := Hold.within_eq (s := .committed inner) h
    rfl

/-- A demand on an answer comes after the one for the answer. -/
theorem onAnswer_cases {α : Type} {f : Hold Answer α} {s s' : Suspended} {x : Except Fault α}
    (h : (means env n).onAnswer f s w = (x.mapError .fault, s', w')) :
    (∃ e, x = .error e ∧ answer env s w = some (.error e, w')) ∨
      ∃ a w₁ a', answer env s w = some (.ok a, w₁) ∧ f a w₁ = (x.mapError .fault, a', w') ∧ s' = .ready a' := by
  rcases Hold.bind_cases h with ⟨_, hx, hforce⟩ | ⟨a, s₁, w₁, hforce, hf⟩
  · obtain ⟨e, rfl, rfl⟩ := eq_error_of_mapError hx
    exact .inl ⟨e, rfl, answer_of_force (x := .error e) hforce⟩
  · obtain ⟨a', ha', rfl⟩ := Hold.within_eq hf
    exact .inr ⟨a, w₁, a', answer_of_force (x := .ok a) hforce, ha', rfl⟩

/-- A demand for a part of a success comes after the one for what the answer settles to. -/
theorem onPromise_cases {α : Type} {f : Hold Promise α} {a a' : Answer} {x : Except Fault (Option α)}
    (h : (means env n).onPromise n f a w = (x.mapError .fault, a', w')) :
    (∃ e, x = .error e ∧ settleAnswer env a w = some (.error e, w') ∧ a'.tag = a.tag) ∨
      (∃ z message, x = .ok none ∧ settleAnswer env a w = some (.ok (.failure z message), w') ∧
        a' = Settled.under a.isCommitted (.failure z message)) ∨
      ∃ q w₁ q', ∃ y : Except Fault α, settleAnswer env a w = some (.ok (.success q), w₁) ∧
        f q w₁ = (y.mapError .fault, q', w') ∧ x = y.map some ∧ a' = Settled.under a.isCommitted (.success q') := by
  rcases Hold.bind_cases h with ⟨_, hx, hsettled⟩ | ⟨t, a₁, w₁, hsettled, hpart⟩
  · obtain ⟨e, rfl, rfl⟩ := eq_error_of_mapError hx
    exact .inl ⟨e, rfl, settleAnswer_of_settled (x := .error e) hsettled, settled_tag hsettled⟩
  have hsettle := settleAnswer_of_settled (x := .ok t) hsettled
  cases settled_keeps hsettled
  right
  cases t with
  | failure z message =>
    left
    cases x with
    | error e => cases hpart
    | ok o =>
      cases hpart
      exact ⟨z, message, rfl, hsettle, rfl⟩
  | success q =>
    right
    -- the success is put back in its place, under the commitment or not
    have hwithin : (Hold.within (fun q => Settled.under a.isCommitted (.success q)) q f >>= fun b => pure (some b))
        (Settled.under a.isCommitted (.success q)) w₁ = (x.mapError .fault, a', w') := by
      cases hc : a.isCommitted <;> rw [hc] at hpart <;> exact hpart
    obtain ⟨y, hy, rfl⟩ := Hold.map_cases hwithin
    obtain ⟨q', hq', rfl⟩ := Hold.within_eq hy
    exact ⟨q, w₁, q', y, hsettle, hq', rfl, rfl⟩

/-- What is computed of something late. -/
theorem late_of_force {α : Type} {l l' : Late α} {y : Except Fault α}
    (h : l.force env (means env n).lists w = (y.mapError .fault, l', w')) : late env l w = some (y, w') := by
  refine (Run.limit_eq_some (steady_late env l)).2 ⟨n, ?_⟩
  show Hold.on l (Late.force env (means env n).lists) w = _
  unfold Hold.on
  rw [h]

/-- The same where `put` puts it back in its place. -/
theorem late_of_put {α : Type} (l : Late α) (put : Late α → Promise) {q' : Promise} {y : Except Fault α}
    (h : (match l.force env (means env n).lists w with | (r, l, w) => (r, put l, w)) = (y.mapError .fault, q', w')) :
    late env l w = some (y, w') ∧ ∀ a, y = .ok a → q' = put (.known a) := by
  rcases hl : l.force env (means env n).lists w with ⟨r, l', w₁⟩
  rw [hl] at h
  cases h
  refine ⟨late_of_force hl, ?_⟩
  rintro a rfl
  rw [Late.force_keeps hl]

/-- What a demand for a part of a success comes to; `put` puts the part back in its place. -/
theorem part_of_late {α : Type} (l : Late α) (put : Late α → Promise) {q' : Promise} {y : Except Fault α}
    (h : (match l.force env (means env n).lists w with | (r, l, w) => (r, put l, w)) = (y.mapError .fault, q', w')) :
    (late env l >>= fun a => pure (put (.known a))) w = some (y.map fun _ => q', w') ∧
      ∃ l', q' = put l' ∧ ∀ a, l = .known a → l' = .known a := by
  obtain ⟨hlate, hput⟩ := late_of_put l put h
  refine ⟨?_, ?_⟩
  · cases y with
    | error e => exact Course.bind_of_error hlate
    | ok a =>
      rw [hput a rfl]
      exact Course.bind_of_ok hlate
  · rcases hl : l.force env (means env n).lists w with ⟨r, l', w₁⟩
    rw [hl] at h
    cases h
    refine ⟨l', rfl, ?_⟩
    rintro a rfl
    cases (Prod.mk.inj hl).2
    rfl

/-- What a demand for a part of a success can do. -/
theorem step_of_part {d : Demand} (hd : d ≠ .force) {α : Type} {f : Hold Promise α} {s s' : Suspended}
    {x : Except Fault (Option α)} (hf : ∀ {q q' : Promise} {y : Except Fault α} {w w' : World},
      f q w = (y.mapError .fault, q', w') → d.part env q w = some (y.map fun _ => q', w') ∧ q.Keeps q')
    (h : (means env n).onAnswer ((means env n).onPromise n f) s w = (x.mapError .fault, s', w')) :
    d.Step env s w (x.map partTag) s' w' := by
  rcases onAnswer_cases h with ⟨e, rfl, ha⟩ | ⟨a, w₁, a', ha, hpart, rfl⟩
  · exact .unanswered ha
  rcases onPromise_cases hpart with ⟨e, rfl, hs, htag⟩ | ⟨z, message, rfl, hs, rfl⟩ | ⟨q, w₂, q', y, hs, hy, rfl, rfl⟩
  · exact .unsettled hd ha hs htag
  · exact .failed hd ha hs
  · obtain ⟨hpart, hkeeps⟩ := hf hy
    cases y with
    | error e => exact .unparted hd ha hs hpart hkeeps
    | ok v => exact .succeeded hd ha hs hpart hkeeps

end Fuel

/-- **All that a demand can do.** -/
theorem Demand.Meets.step {d : Demand} {s s' : Suspended} {w w' : World} {x : Except Fault Tag}
    (h : d.Meets env s w x s' w') : d.Step env s w x s' w' := by
  obtain ⟨n, hn⟩ := h
  cases d with
  | force =>
    obtain ⟨y, hforce, rfl⟩ := Hold.map_cases hn
    cases y with
    | error e => exact .unanswered (answer_of_force (x := .error e) hforce)
    | ok a =>
      cases force_keeps env n hforce
      exact .forced (answer_of_force (x := .ok a) hforce)
  | settle =>
    obtain ⟨y, hy, rfl⟩ := Hold.map_cases hn
    rcases onAnswer_cases hy with ⟨e, rfl, ha⟩ | ⟨a, w₁, a', ha, hsettled, rfl⟩
    · exact .unanswered ha
    have hsettle := settleAnswer_of_settled hsettled
    cases y with
    | error e => exact .unsettled nofun ha hsettle (settled_tag hsettled)
    | ok t =>
      cases settled_keeps hsettled
      cases t with
      | failure z message => exact .failed nofun ha hsettle
      | success q => exact .succeeded nofun ha hsettle rfl fun _ hknown => hknown
  | value =>
    obtain ⟨y, hy, rfl⟩ := Hold.map_cases hn
    refine step_of_part (d := .value) nofun (fun {q _ _ _ _} hq => ?_) hy
    obtain ⟨hpart, l', rfl, hl'⟩ := part_of_late q.value (fun l => { q with value := l }) hq
    refine ⟨hpart, fun d hd => ?_⟩
    cases d with
    | value =>
      obtain ⟨a, ha⟩ := hd
      exact ⟨a, hl' a ha⟩
    | force | settle | rest => exact hd
  | rest =>
    obtain ⟨y, hy, rfl⟩ := Hold.map_cases hn
    refine step_of_part (d := .rest) nofun (fun {q _ _ _ _} hq => ?_) hy
    obtain ⟨hpart, l', rfl, hl'⟩ := part_of_late q.rest (fun l => { q with rest := l }) hq
    refine ⟨hpart, fun d hd => ?_⟩
    cases d with
    | rest =>
      obtain ⟨a, ha⟩ := hd
      exact ⟨a, hl' a ha⟩
    | force | settle | value => exact hd

/-! ## What is left to do -/

theorem Settled.strict_under (c : Bool) (t : Settled) :
    (t.under c).strict env = Result.commitIf c <$> t.toAnswer.strict env := by
  cases c with
  | false => exact (id_map _).symm
  | true => rw [Settled.under, if_pos rfl, Answer.strict, Suspended.strict]; rfl

theorem Settled.streamFree_under {c : Bool} {t : Settled} : (t.under c).StreamFree ↔ t.toAnswer.StreamFree := by
  cases c <;> rfl

/-- What an answer settles to keeps the strict meaning. -/
theorem settleAnswer_follows (hg : ∀ name, (env.grammar name).StreamFree) {a : Answer} (ha : a.StreamFree) :
    (settleAnswer env a).Follows (fun t => t.toAnswer.StreamFree) (fun t => (t.under a.isCommitted).strict env)
      (a.strict env) := by
  cases a with
  | success q => exact .pure ha rfl
  | failure z message => exact .pure trivial rfl
  | committed inner =>
    rw [Answer.StreamFree] at ha
    have hcommit : ∀ x : Course Outcome, (Result.uncommitted <$> x) >>= (fun r => pure r.commit) = Result.commit <$> x := by
      intro x
      rw [bind_map_left, map_eq_pure_bind]
      rfl
    have hsettle : (settle env inner).Follows (fun t => t.toAnswer.StreamFree)
        (fun t => Result.uncommitted <$> t.toAnswer.strict env) (Result.uncommitted <$> inner.strict env) :=
      .sup (steady_settlement env inner).monotone fun n => settlement_strict (answer_strict hg n) n ha
    have h := hsettle.extend fun r => pure r.commit
    simp only [hcommit] at h
    rw [Answer.strict]
    exact h.of_eq fun t _ => (Settled.strict_under true t).symm

/-- Part of a success is computed as in the strict engine. -/
theorem part_follows (d : Demand) (c : Bool) {q : Promise} (hq : q.Prompt) :
    (d.part env q).Follows Promise.Prompt (fun q => (Settled.under c (.success q)).strict env)
      ((Settled.under c (.success q)).strict env) := by
  obtain ⟨z, l, rfl⟩ := hq
  have hstrict : ∀ l, (Settled.under c (.success { rest := .known z, value := l })).strict env =
      l.strict env >>= fun v => pure (Result.commitIf c (.success z v)) := by
    intro l
    rw [Settled.strict_under, Settled.toAnswer, Answer.strict_prompt, map_bind]
    simp only [map_pure]
  cases d with
  | force => exact .pure ⟨z, l, rfl⟩ rfl
  | settle => exact .pure ⟨z, l, rfl⟩ rfl
  | rest =>
    rw [Demand.part, late_known, pure_bind]
    exact .pure ⟨z, l, rfl⟩ rfl
  | value =>
    rw [hstrict]
    refine (late_follows l _).bind fun v _ => .pure ⟨z, _, rfl⟩ ?_
    rw [hstrict]
    exact (pure_bind _ _).symm

/-- The outcome in hand has no lists in it, and what is left to do for it is what is left of the strict run of `p` from the
world `w₀` on. -/
structure Held (env : Env) (p : Parser) (z : Context) (w₀ : World) (s : Suspended) (w : World) : Prop where
  lists : w.lists = #[]
  streamFree : s.StreamFree
  strict : s.strict env w = Strict.eval env p z w₀

section Held

variable (hg : ∀ name, (env.grammar name).StreamFree) {p : Parser} {z : Context} {w₀ : World}

include hg

/-- **A demand does the next part of the strict run.** One that stops with a fault stops where the strict run does. -/
theorem Held.step {s s' : Suspended} {w w' : World} {d : Demand} {x : Except Fault Tag} (h : Held env p z w₀ s w)
    (hd : d.Step env s w x s' w') :
    match x with
    | .ok _ => Held env p z w₀ s' w'
    | .error e => Strict.eval env p z w₀ = some (.error e, w') := by
  have hanswer := fun b => answer_follows hg h.streamFree w b h.lists
  rw [← h.strict]
  cases hd with
  | unanswered ha => exact (hanswer _ ha).2
  | forced ha =>
    obtain ⟨hlists, hfree, hstrict⟩ := hanswer _ ha
    exact ⟨hlists, hfree, hstrict.symm.trans h.strict⟩
  | unsettled hd ha ht _ =>
    obtain ⟨hlists, hfree, hstrict⟩ := hanswer _ ha
    rw [hstrict]
    exact (settleAnswer_follows hg hfree _ _ hlists ht).2
  | failed hd ha ht =>
    obtain ⟨hlists, hfree, hstrict⟩ := hanswer _ ha
    obtain ⟨hlists', hfree', hstrict'⟩ := settleAnswer_follows hg hfree _ _ hlists ht
    exact ⟨hlists', Settled.streamFree_under.2 hfree', (hstrict.trans hstrict').symm.trans h.strict⟩
  | succeeded hd ha ht hpart _ =>
    obtain ⟨hlists, hfree, hstrict⟩ := hanswer _ ha
    obtain ⟨hlists', hfree', hstrict'⟩ := settleAnswer_follows hg hfree _ _ hlists ht
    obtain ⟨hlists'', hprompt, hstrict''⟩ := part_follows d _ hfree' _ _ hlists' hpart
    exact ⟨hlists'', Settled.streamFree_under.2 hprompt,
      ((hstrict.trans hstrict').trans hstrict'').symm.trans h.strict⟩
  | unparted hd ha ht hpart _ =>
    obtain ⟨hlists, hfree, hstrict⟩ := hanswer _ ha
    obtain ⟨hlists', hfree', hstrict'⟩ := settleAnswer_follows hg hfree _ _ hlists ht
    rw [hstrict, hstrict']
    exact (part_follows d _ hfree' _ _ hlists' hpart).2

end Held

/-! ## What is known -/

/-- The outcome in hand knows what is asked for, and shows this tag. -/
def Demand.Met (d : Demand) (t : Tag) (s : Suspended) : Prop :=
  match d with
  | .force => ∃ a, s = .ready a ∧ a.tag = t
  | d => ∃ c u, s = .ready (Settled.under c u) ∧ u.toAnswer.tag = t ∧ ∀ q, u = .success q → d.Known q

theorem Demand.met_iff {d : Demand} (hd : d ≠ .force) {t : Tag} {s : Suspended} : d.Met t s ↔
    ∃ c u, s = .ready (Settled.under c u) ∧ u.toAnswer.tag = t ∧ ∀ q, u = .success q → d.Known q := by
  cases d <;> first | exact absurd rfl hd | rfl

/-- Every outcome of which something is known has answered. -/
theorem Demand.Met.ready {d : Demand} {t : Tag} {s : Suspended} (h : d.Met t s) : ∃ a, s = .ready a := by
  cases d with
  | force => exact ⟨_, h.choose_spec.1⟩
  | settle | value | rest => exact ⟨_, h.choose_spec.choose_spec.1⟩

/-- What has settled settles to the same. -/
theorem settled_under (n : Nat) (c : Bool) (t : Settled) (w : World) :
    (means env (n + 1)).settled (n + 1) (t.under c) w = (.ok t, t.under c, w) := by
  cases c with
  | false => cases t <;> rfl
  | true => exact settled_again env n n t w

/-- **Asking again changes nothing.** -/
theorem Demand.Met.meet {d : Demand} {t : Tag} {s : Suspended} (h : d.Met t s) (n : Nat) (w : World) :
    d.meet (means env (n + 1)) (n + 1) s w = (.ok t, s, w) := by
  have hanswer : ∀ {α : Type} {f : Hold Answer α} {a : Answer} {x : α}, f a w = (.ok x, a, w) →
      (means env (n + 1)).onAnswer f (.ready a) w = (.ok x, .ready a, w) := by
    intro α f a x hf
    refine (Hold.bind_of_ok (force_ready env n a w)).trans ?_
    unfold Hold.within
    rw [hf]
  have hpart : ∀ {α : Type} {f : Hold Promise α} {c : Bool} {u : Settled},
      (∀ q, u = .success q → ∃ v, f q w = (.ok v, q, w)) →
      ∃ o, (means env (n + 1)).onPromise (n + 1) f (u.under c) w = (.ok o, u.under c, w) ∧ partTag o = u.toAnswer.tag := by
    intro α f c u hf
    unfold Means.onPromise
    rw [Hold.bind_of_ok (settled_under n c u w)]
    cases u with
    | failure z message => exact ⟨none, rfl, rfl⟩
    | success q =>
      obtain ⟨v, hv⟩ := hf q rfl
      have hwithin : ∀ wrap : Promise → Answer, (some <$> Hold.within wrap q f) (wrap q) w = (.ok (some v), wrap q, w) := by
        intro wrap
        have hq : Hold.within wrap q f (wrap q) w = (.ok v, wrap q, w) := by
          unfold Hold.within
          rw [hv]
        exact Hold.bind_of_ok hq
      refine ⟨some v, ?_, rfl⟩
      cases c with
      | false => exact hwithin .success
      | true => exact hwithin fun q => .committed (.ready (.success q))
  cases d with
  | force =>
    obtain ⟨a, rfl, rfl⟩ := h
    exact Hold.bind_of_ok (force_ready env n a w)
  | settle =>
    obtain ⟨c, u, rfl, rfl, -⟩ := h
    exact Hold.bind_of_ok (hanswer (settled_under n c u w))
  | value =>
    obtain ⟨c, u, rfl, rfl, hknown⟩ := h
    obtain ⟨o, ho, htag⟩ := hpart (c := c) (f := Promise.forceValue env (means env (n + 1)).lists) fun q hq => by
      obtain ⟨v, hv⟩ := hknown q hq
      obtain ⟨rest, value, finish⟩ := q
      cases hv
      exact ⟨v, rfl⟩
    rw [← htag]
    exact Hold.bind_of_ok (hanswer ho)
  | rest =>
    obtain ⟨c, u, rfl, rfl, hknown⟩ := h
    obtain ⟨o, ho, htag⟩ := hpart (c := c) (f := Promise.forceRest env (means env (n + 1)).lists) fun q hq => by
      obtain ⟨z, hz⟩ := hknown q hq
      obtain ⟨rest, value, finish⟩ := q
      cases hz
      exact ⟨z, rfl⟩
    rw [← htag]
    exact Hold.bind_of_ok (hanswer ho)

theorem settleAnswer_under (c : Bool) (t : Settled) : settleAnswer env (t.under c) = pure t := by
  cases c with
  | false => cases t <;> rfl
  | true =>
    show settle env (.ready t.toAnswer) = _
    rw [settle_eq, answer_ready, pure_bind]
    cases t <;> rfl

/-- The tag of an answer that was settled. -/
theorem tag_of_settleAnswer {a : Answer} {u : Settled} {w w' : World} (h : settleAnswer env a w = some (.ok u, w'))
    (u' : Settled) (hu : u'.toAnswer.tag = u.toAnswer.tag) : (u'.under a.isCommitted).tag = a.tag := by
  cases a with
  | success q => cases h; exact hu
  | failure z message => cases h; exact hu
  | committed inner => rfl

section Part

variable {d d' : Demand} {q q' : Promise} {w w' : World}

/-- The part that was asked for is known. -/
theorem known_of_part (h : d.part env q w = some (.ok q', w')) : d.Known q' := by
  cases d with
  | force | settle => trivial
  | value | rest =>
    obtain ⟨v, _, -, hv⟩ := Course.bind_eq_ok h
    cases hv
    exact ⟨v, rfl⟩

end Part

/-- A demand that was answered is met. -/
theorem Demand.Step.met {d : Demand} {s s' : Suspended} {w w' : World} {t : Tag} (h : d.Step env s w (.ok t) s' w') :
    d.Met t s' := by
  cases h with
  | forced ha => exact ⟨_, rfl, rfl⟩
  | failed hd ha ht => exact (met_iff hd).2 ⟨_, _, rfl, rfl, nofun⟩
  | succeeded hd ha ht hpart _ =>
    refine (met_iff hd).2 ⟨_, _, rfl, rfl, fun q hq => ?_⟩
    cases hq
    exact known_of_part hpart

/-- **A demand that was met stays met**, whatever becomes of the next one. -/
theorem Demand.Met.step {d d' : Demand} {s s' : Suspended} {w w' : World} {t : Tag} {x : Except Fault Tag} (h : d.Met t s)
    (hd' : d'.Step env s w x s' w') : d.Met t s' := by
  obtain ⟨a₀, rfl⟩ := h.ready
  have hready : ∀ {y w₁}, answer env (.ready a₀) w = some (y, w₁) → y = .ok a₀ ∧ w₁ = w := by
    intro y w₁ ha
    rw [answer_ready] at ha
    cases ha
    exact ⟨rfl, rfl⟩
  -- what is settled already does not change, and of anything else only the tag was asked for
  have hsettled : ∀ {u w₁} (u' : Settled), settleAnswer env a₀ w = some (.ok u, w₁) → u'.toAnswer.tag = u.toAnswer.tag →
      (∀ q', u' = .success q' → ∃ q, u = .success q ∧ q.Keeps q') → d.Met t (.ready (u'.under a₀.isCommitted)) := by
    intro u w₁ u' hu htag' hkeeps
    by_cases hd : d = .force
    · subst hd
      obtain ⟨_, ⟨⟩, htag⟩ := h
      exact ⟨_, rfl, (tag_of_settleAnswer hu u' htag').trans htag⟩
    · obtain ⟨c, u₀, ⟨⟩, htag, hknown⟩ := (met_iff hd).1 h
      rw [settleAnswer_under] at hu
      cases hu
      rw [Settled.isCommitted_under]
      refine (met_iff hd).2 ⟨c, u', rfl, htag'.trans htag, fun q' hq' => ?_⟩
      obtain ⟨q, hq, hkeeps⟩ := hkeeps q' hq'
      exact hkeeps d (hknown q hq)
  cases hd' with
  | unanswered ha => cases (hready ha).1
  | forced ha =>
    cases (hready ha).1
    exact h
  | unsettled _ ha ht htag' =>
    obtain ⟨⟨⟩, rfl⟩ := hready ha
    by_cases hd : d = .force
    · subst hd
      obtain ⟨_, ⟨⟩, htag⟩ := h
      exact ⟨_, rfl, htag'.trans htag⟩
    · obtain ⟨c, u, ⟨⟩, -⟩ := (met_iff hd).1 h
      rw [settleAnswer_under] at ht
      cases ht
  | failed _ ha ht =>
    obtain ⟨⟨⟩, rfl⟩ := hready ha
    exact hsettled _ ht rfl nofun
  | succeeded _ ha ht _ hkeeps =>
    obtain ⟨⟨⟩, rfl⟩ := hready ha
    exact hsettled _ ht rfl fun q' hq' => by cases hq'; exact ⟨_, rfl, hkeeps⟩
  | unparted _ ha ht _ hkeeps =>
    obtain ⟨⟨⟩, rfl⟩ := hready ha
    exact hsettled _ ht rfl fun q' hq' => by cases hq'; exact ⟨_, rfl, hkeeps⟩

/-! ## Sessions -/

/-- Where a session has come to: nothing was asked for, only the answer was, or it was settled. -/
def Reached (env : Env) (p : Parser) (z : Context) (w₀ : World) (s : Suspended) (w : World) : Prop :=
  (s = .apply p z ∧ w = w₀) ∨ (∃ a, s = .ready a ∧ answer env (.apply p z) w₀ = some (.ok a, w)) ∨
    ∃ c t, s = .ready (Settled.under c t)

theorem Reached.step {p : Parser} {z : Context} {w₀ w w' : World} {s s' : Suspended} {d : Demand} {t : Tag}
    (h : Reached env p z w₀ s w) (hd : d.Step env s w (.ok t) s' w') : Reached env p z w₀ s' w' := by
  cases hd with
  | failed => exact .inr (.inr ⟨_, _, rfl⟩)
  | succeeded => exact .inr (.inr ⟨_, _, rfl⟩)
  | forced ha =>
    obtain ⟨rfl, rfl⟩ | ⟨a₀, rfl, ha₀⟩ | ⟨c, t, rfl⟩ := h
    · exact .inr (.inl ⟨_, rfl, ha⟩)
    · rw [answer_ready] at ha
      cases ha
      exact .inr (.inl ⟨_, rfl, ha₀⟩)
    · rw [answer_ready] at ha
      cases ha
      exact .inr (.inr ⟨c, t, rfl⟩)

namespace Session

variable {p : Parser} {z : Context} {w w' : World} {ds : Demands} {s : Suspended}

/-- What every answered demand keeps holds after a session in which all were answered. -/
theorem induct {P : Suspended → World → Prop} (hstart : P (.apply p z) w)
    (hstep : ∀ {d : Demand} {s w₁ t s' w'}, P s w₁ → d.Step env s w₁ (.ok t) s' w' → P s' w')
    (h : Session env p z w ds s w') (hds : ds.Answered) : P s w' := by
  induction h with
  | start h =>
    cases h
    exact hstart
  | @demand _ _ _ _ _ d x _ hd ih =>
    cases x with
    | error e => exact absurd List.mem_cons_self (hds d e)
    | ok t => exact hstep (ih fun d e hmem => hds d e (List.mem_cons_of_mem _ hmem)) hd.step

theorem reached (h : Session env p z w ds s w') (hds : ds.Answered) : Reached env p z w s w' :=
  h.induct (.inl ⟨rfl, rfl⟩) (fun hreached hd => hreached.step hd) hds

/-- All demands that were answered stay met. -/
theorem met (h : Session env p z w ds s w') : ∀ d t, (d, .ok t) ∈ ds → d.Met t s := by
  induction h with
  | start => nofun
  | demand _ hd ih =>
    intro d t hmem
    rcases List.mem_cons.1 hmem with heq | hmem
    · cases heq
      exact hd.step.met
    · exact (ih d t hmem).step hd.step

variable (hg : ∀ name, (env.grammar name).StreamFree) (hp : p.StreamFree) (hw : w.lists = #[])

include hg hp hw

/-- What is left to do after a session is what is left of the strict run. -/
theorem held (h : Session env p z w ds s w') (hds : ds.Answered) : Held env p z w s w' :=
  h.induct ⟨hw, hp, rfl⟩ (fun hheld hd => hheld.step hg hd) hds

/-- Where a session has settled the outcome, the strict run ends, and all that was done is what it does first. -/
theorem strict_ends {c : Bool} {t : Settled} (h : Session env p z w ds (.ready (Settled.under c t)) w')
    (hds : ds.Answered) :
    ∃ x wₑ, Strict.eval env p z w = some (x, wₑ) ∧ w'.journal <:+ wₑ.journal := by
  have hheld := h.held hg hp hw hds
  have hfree : t.toAnswer.StreamFree := Settled.streamFree_under.1 hheld.streamFree
  obtain ⟨x, wₑ, hx, -, hjournal⟩ := Settled.strict_ends hfree w'
  have hstrict := hheld.strict
  rw [Suspended.strict, Settled.strict_under, map_eq_pure_bind] at hstrict
  cases x with
  | error e => exact ⟨_, wₑ, hstrict.symm.trans (Course.bind_of_error hx), hjournal⟩
  | ok r => exact ⟨_, wₑ, hstrict.symm.trans (Course.bind_of_ok hx), hjournal⟩

/-- Where nothing is left to be computed, the strict run has ended. -/
theorem strict_over {c : Bool} {t : Settled} (h : Session env p z w ds (.ready (Settled.under c t)) w')
    (hds : ds.Answered) (ht : ∀ q, t = .success q → ∃ v, q.value = .known v) :
    ∃ r, Strict.eval env p z w = some (.ok r, w') := by
  have hheld := h.held hg hp hw hds
  have hstrict := hheld.strict
  rw [Suspended.strict, Settled.strict_under] at hstrict
  cases t with
  | failure z message => exact ⟨_, hstrict.symm⟩
  | success q =>
    obtain ⟨v, hv⟩ := ht q rfl
    obtain ⟨z', l, rfl⟩ : q.Prompt := Settled.streamFree_under.1 hheld.streamFree
    cases hv
    rw [Settled.toAnswer, Answer.strict_prompt, Late.strict, pure_bind] at hstrict
    exact ⟨_, hstrict.symm⟩

/-- Where the outcome was settled, and the value of a success was asked for, the strict run has ended. -/
theorem strict_done (h : Session env p z w ds s w') (hds : ds.Answered) {t : Tag} (hsettle : (.settle, .ok t) ∈ ds)
    (hvalue : t = .success → ∃ u, (.value, .ok u) ∈ ds) : ∃ r, Strict.eval env p z w = some (.ok r, w') := by
  obtain ⟨c, u, rfl, rfl, -⟩ := h.met .settle t hsettle
  cases u with
  | failure z message => exact h.strict_over hg hp hw hds nofun
  | success q =>
    obtain ⟨t, ht⟩ := hvalue rfl
    obtain ⟨c', u, hs, -, hknown⟩ := h.met .value t ht
    rw [hs] at h
    exact h.strict_over hg hp hw hds hknown

end Session

/-- A demand for the answer shows as much as there is of it. -/
theorem meets_force {s : Suspended} {w w' : World} :
    (∃ x s', Demand.force.Meets env s w x s' w') ↔ ∃ x, answer env s w = some (x, w') := by
  constructor
  · rintro ⟨x, s', h⟩
    cases h.step with
    | unanswered ha => exact ⟨_, ha⟩
    | forced ha => exact ⟨_, ha⟩
    | unsettled hd | failed hd | succeeded hd | unparted hd => exact absurd rfl hd
  · rintro ⟨x, h⟩
    obtain ⟨n, hn⟩ := (Run.limit_eq_some (steady_answer env s)).1 h
    change Hold.on s (means env n).force w = _ at hn
    unfold Hold.on at hn
    rcases hforce : (means env n).force s w with ⟨r, s', w₁⟩
    rw [hforce] at hn
    cases hn
    refine ⟨x.map Answer.tag, s', n, ?_⟩
    show Hold.bind (means env n).force _ s w = _
    unfold Hold.bind
    rw [hforce]
    cases x <;> rfl

end OnDemand

/-! ## The order of work -/

/-- Runs that have ended have ended with any more fuel. -/
theorem Run.Ends.eventually {α : Type} {f : Nat → Run α} (hf : Run.Steady f) {w w' : World} {x : Except Fault α}
    (h : Ends f w x w') : ∃ n, ∀ m, n ≤ m → f m w = (x.mapError .fault, w') := by
  obtain ⟨n, hn⟩ := h
  exact ⟨n, fun m hm => Course.ofRun_eq_some.1 (hf.monotone hm w _ (Course.ofRun_eq_some.2 hn))⟩

namespace Engine

open OnDemand

/-- A strict run is the same under the name of any engine. -/
theorem ends_run_scope {grammar : Grammar} {settings : Settings} (e e' : Engine) {p : Parser} {z : Context} {w w' : World}
    {x : Except Fault Outcome} (h : Ends (fun n => Strict.run (e.env grammar settings) n p z) w x w') :
    ∃ lines, Ends (fun n => Strict.run (e'.env grammar settings) n p z) w x { w' with console := lines } := by
  have hrelated : Strict.Related Run.Alike (e.env grammar settings) (e'.env grammar settings) :=
    Strict.related_alike rfl rfl
  exact Run.Alike.ends (fun n => hrelated.run (Nat.le_refl n) p z) h

variable {grammar : Grammar} (hg : ∀ name, (grammar name).StreamFree) (settings : Settings) (stateful : Bool)
  {p : Parser} (hp : p.StreamFree) (z : Context) {w : World} (hw : w.lists = #[])

include hg hp hw

/-- **What is done in a session is what the strict run does first.** -/
theorem session_precedes {w' : World} {ds : Demands} {s : Suspended}
    (h : Session ((lazy stateful).env grammar settings) p z w ds s w') (hds : ds.Answered) : ∃ n, ∀ m, n ≤ m →
      w'.journal <:+ (Strict.run ((strict stateful).env grammar settings) m p z w).2.journal := by
  have hsettled : ∀ c t, s = .ready (Settled.under c t) → ∃ n, ∀ m, n ≤ m →
      w'.journal <:+ (Strict.run ((strict stateful).env grammar settings) m p z w).2.journal := by
    rintro c t rfl
    obtain ⟨x, wₑ, hx, hjournal⟩ := h.strict_ends hg hp hw hds
    obtain ⟨lines, hends⟩ := ends_run_scope _ (strict stateful) (Strict.eval_eq_some.1 hx)
    obtain ⟨n, hn⟩ := hends.eventually (Strict.steady_run _ p z)
    exact ⟨n, fun m hm => by rw [hn m hm]; exact hjournal⟩
  obtain ⟨-, rfl⟩ | ⟨a, rfl, ha⟩ | ⟨c, t, hs⟩ := h.reached hds
  · exact ⟨0, fun m _ => (Strict.plain_run m p z).journal _⟩
  · cases a with
    | success q => exact hsettled false (.success q) rfl
    | failure z message => exact hsettled false (.failure z message) rfl
    | committed inner =>
      -- the strict run may not end, but it goes through the world in which the barred run stops
      have hstop := (answer_opening hg hp z hw ha).2 inner rfl
      obtain ⟨n, hn⟩ := (Strict.eval_eq_some.1 hstop).eventually (Strict.steady_run _ _ z)
      refine ⟨n, fun m hm => ?_⟩
      have hopens : Run.Opens (Strict.run ((strict stateful).env grammar settings) m p z)
          (Strict.run ((lazy stateful).env grammar settings).barred m p.barred z) := by
        refine Strict.run_opens ?_ ?_ m p z
        · rfl
        · rfl
      have hopened := hopens.opened w w.console
      rw [show ({ w with console := w.console } : World) = w from rfl, hn m hm] at hopened
      generalize Strict.run ((strict stateful).env grammar settings) m p z w = b at hopened ⊢
      cases hopened with
      | same lines => exact List.suffix_refl _
      | stopped _ hjournal _ => exact hjournal
  · exact hsettled c t hs

/-- **Asking for an answer reads what the strict run reads before it enters the body of a commitment.** -/
theorem force_reads (feed : Feed) :
    (∃ x s w', Demand.force.Meets ((lazy stateful).env grammar settings) (.apply p z) w x s w' ∧ w'.feed = feed) ↔
      ∃ y w', Ends (fun n => Strict.run ((strict stateful).env grammar settings).barred n p.barred z) w y w' ∧
        w'.feed = feed := by
  have hopening : ∀ {x w'}, answer ((lazy stateful).env grammar settings) (.apply p z) w = some (x, w') →
      ∃ y w₁, Strict.eval ((lazy stateful).env grammar settings).barred p.barred z w = some (y, w₁) ∧ w₁.feed = w'.feed :=
    fun h => (answer_opening hg hp z hw h).1
  constructor
  · rintro ⟨x, s, w', hforce, rfl⟩
    obtain ⟨x, hx⟩ := meets_force.1 ⟨x, s, hforce⟩
    obtain ⟨y, w₁, hy, hfeed⟩ := hopening hx
    obtain ⟨lines, hends⟩ := ends_run_scope (lazy stateful) (strict stateful) (Strict.eval_eq_some.1 hy)
    exact ⟨y, _, hends, hfeed⟩
  · rintro ⟨y, w₁, hy, rfl⟩
    obtain ⟨lines, hends⟩ := ends_run_scope (strict stateful) (lazy stateful) hy
    have heval : Strict.eval ((lazy stateful).env grammar settings).barred p.barred z w =
        some (y, { w₁ with console := lines }) := Strict.eval_eq_some.2 hends
    obtain ⟨x, w', hx⟩ := opening_answers hg hp z hw heval
    obtain ⟨y', w₂, hy', hfeed⟩ := hopening hx
    obtain ⟨x, s, hforce⟩ := meets_force.2 ⟨x, hx⟩
    cases heval.symm.trans hy'
    exact ⟨x, s, w', hforce, hfeed.symm⟩

/-- **Demands do the work of the strict run in its order.** For a parser without lists, nothing is read or noted before
anything is asked for. Asking for the answer reads of the source what the strict run reads before it enters the body of a
commitment, that is, all that the run of the barred term reads. In a session, a demand that was answered is answered again
without doing anything. As long as no demand has stopped with a fault, what was read and noted is what the strict run reads
and notes first, whether that ends or not; once the outcome was settled and the value of a success was asked for, the strict
run has ended there; and the first demand that stops with a fault stops where the strict run does, with the same fault. -/
theorem demands_in_order :
    (∃ s, evaluate p z w = (.ok s, w)) ∧
    ((∀ n, Run.Opens (Strict.run ((strict stateful).env grammar settings) n p z)
        (Strict.run ((strict stateful).env grammar settings).barred n p.barred z)) ∧
      ∀ feed, (∃ x s w', Demand.force.Meets ((lazy stateful).env grammar settings) (.apply p z) w x s w' ∧ w'.feed = feed) ↔
        ∃ y w', Ends (fun n => Strict.run ((strict stateful).env grammar settings).barred n p.barred z) w y w' ∧
          w'.feed = feed) ∧
    ∀ ds s w', Session ((lazy stateful).env grammar settings) p z w ds s w' →
      (∀ d t, (d, .ok t) ∈ ds → ∀ n,
        d.meet (means ((lazy stateful).env grammar settings) (n + 1)) (n + 1) s w' = (.ok t, s, w')) ∧
      (ds.Answered →
        (∃ n, ∀ m, n ≤ m → w'.journal <:+ (Strict.run ((strict stateful).env grammar settings) m p z w).2.journal) ∧
        (∀ t, (.settle, .ok t) ∈ ds → (t = .success → ∃ u, (.value, .ok u) ∈ ds) → ∃ r lines,
          Ends (fun n => Strict.run ((strict stateful).env grammar settings) n p z) w (.ok r)
            { w' with console := lines }) ∧
        ∀ (d : Demand) e s' w'', d.Meets ((lazy stateful).env grammar settings) s w' (.error e) s' w'' → ∃ lines,
          Ends (fun n => Strict.run ((strict stateful).env grammar settings) n p z) w (.error e)
            { w'' with console := lines }) := by
  refine ⟨⟨_, rfl⟩, ⟨fun n => ?_, force_reads hg settings stateful hp z hw⟩, fun ds s w' h => ⟨?_, fun hds => ⟨?_, ?_, ?_⟩⟩⟩
  · exact Strict.run_opens rfl rfl n p z
  · exact fun d t hmem n => (h.met d t hmem).meet n w'
  · exact session_precedes hg settings stateful hp z hw h hds
  · intro t hmem hvalue
    obtain ⟨r, hr⟩ := h.strict_done hg hp hw hds hmem hvalue
    obtain ⟨lines, hends⟩ := ends_run_scope _ (strict stateful) (Strict.eval_eq_some.1 hr)
    exact ⟨r, lines, hends⟩
  · intro d e s' w'' hd
    exact ends_run_scope _ (strict stateful) (Strict.eval_eq_some.1 ((h.held hg hp hw hds).step hg hd.step))

omit hg hp hw in
/-- A token that is read on demand, one after a commitment that is read when the outcome is settled, and a callback that
waits until the value is asked for. -/
theorem demands_in_order_committed :
    let p : Parser := .bind (.map .next fun v => .note "first" (.pure v)) fun _ =>
      .pure (.commit (.map .next fun v => .note "second" (.pure v)))
    let w : World := { feed := .ofTokens #[.text "a", .text "b"] #[] [] }
    let ds : Demands := [(.value, .ok .success), (.settle, .ok .success), (.force, .ok .committed)]
    ∃ s w' r lines, Session ((lazy true).env (fun _ => .eof) {}) p ⟨.ofFeed, .absent⟩ w ds s w' ∧ ds.Answered ∧
      w'.journal = [.noted "second", .called, .noted "first", .called] ∧
      Ends (fun n => Strict.run ((strict true).env (fun _ => .eof) {}) n p ⟨.ofFeed, .absent⟩) w (.ok r)
        { w' with console := lines } := by
  intro p w ds
  have hg : ∀ name, ((fun _ => .eof : Grammar) name).StreamFree := fun _ => rfl
  have hp : p.StreamFree := by
    simp [p, Parser.StreamFree, Parser.Throughout, Parser.Gives, Parser.isStream]
  have hsession : ∃ s w', Session ((lazy true).env (fun _ => .eof) {}) p ⟨.ofFeed, .absent⟩ w ds s w' ∧
      w'.journal = [.noted "second", .called, .noted "first", .called] :=
    ⟨_, _, .demand (.demand (.demand (.start rfl) ⟨12, rfl⟩) ⟨12, rfl⟩) ⟨12, rfl⟩, rfl⟩
  have hds : ds.Answered := by simp [ds, Demands.Answered]
  obtain ⟨s, w', hs, hjournal⟩ := hsession
  have hdone := (((demands_in_order hg {} true hp ⟨.ofFeed, .absent⟩ rfl).2.2 ds s w' hs).2 hds).2.1
  obtain ⟨r, lines, hends⟩ := hdone .success (by simp [ds]) fun _ => ⟨.success, by simp [ds]⟩
  exact ⟨s, w', r, lines, hs, hds, hjournal, hends⟩

omit hg hp hw in
/-- A demand that stops with a fault is not met, and asking again does the work again: here a token that no message can show
is tested twice, although neither the test nor the source stops. -/
theorem demand_again_tests_again :
    let p : Parser := .satisfy fun _ => .note "tested" (.pure false)
    let w : World := { feed := .ofTokens #[.array (.written 0) [.bigint 1, .symbol (.written 1) "s"]] #[] [] }
    p.StreamFree ∧ p.NonThrowing ∧ ∃ e s w₁ w₂,
      Session ((lazy false).env (fun _ => .eof) {}) p ⟨.ofFeed, .absent⟩ w [(.force, .error e)] s w₁ ∧
      Session ((lazy false).env (fun _ => .eof) {}) p ⟨.ofFeed, .absent⟩ w [(.force, .error e), (.force, .error e)] s w₂ ∧
      w₂.journal = .noted "tested" :: w₁.journal ∧
      ∀ n, ¬ w₂.journal <:+ (Strict.run ((strict false).env (fun _ => .eof) {}) n p ⟨.ofFeed, .absent⟩ w).2.journal := by
  intro p w
  have hstrict : ∀ n, (Strict.run ((strict false).env (fun _ => .eof) {}) n p ⟨.ofFeed, .absent⟩ w).2.journal.length ≤ 2
    | 0 => Nat.zero_le 2
    | _ + 1 => Nat.le_refl 2
  refine ⟨rfl, fun _ _ w => ⟨_, _, rfl⟩, _, _, _, _, .demand (.start rfl) ⟨2, rfl⟩,
    .demand (.demand (.start rfl) ⟨2, rfl⟩) ⟨2, rfl⟩, rfl, fun n h => ?_⟩
  exact absurd (h.length_le.trans (hstrict n)) (Nat.lt_irrefl 2)

end Engine

end CommittedChoice
