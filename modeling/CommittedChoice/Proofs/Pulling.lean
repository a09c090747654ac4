import CommittedChoice.Proofs.Opening
import CommittedChoice.Proofs.Streaming

/-!
# A run depends on what it pulled

No part of an engine looks further ahead than it has to: what a run does is decided by the answers of the source to the
calls that it makes. So a source may have no end, or fail later on, and all that was asked of it before is the same.

- `Run.Congruence.pulled`: the runs that depend on their calls alone are closed under all that the engines do
  (`means_pulled`, `Engine.pulled_parse`);
- `Reader.steps`: what a reader gets when it is asked a number of times, whatever becomes of single steps;
- `Engine.decided_by_calls`: parses and readers, with enough fuel.
-/

namespace CommittedChoice

open Run (Ends)

theorem Run.Congruence.pulled : Run.Congruence fun {α} (x _ : Run α) => x.Pulled where
  bind := .bind
  plain := Plain.pulled
  outOfFuel _ := .of_keeps (fun _ => rfl) fun _ _ => rfl
  makeList _ := .of_keeps (fun _ => rfl) fun _ _ => rfl

theorem Run.Pulled.ends {α : Type} {f : Nat → Run α} (h : ∀ n, (f n).Pulled) {w w' : World} {x : Except Fault α}
    {source : Nat → Pull} (hf : Ends f w x w') (hsource : ∀ k < w'.feed.calls, source k = w.feed.source k) :
    Ends f (w.withSource source) x (w'.withSource source) := by
  obtain ⟨n, hn⟩ := hf
  have hagrees := (h n).agrees w source
  rw [hn] at hagrees
  exact ⟨n, hagrees hsource⟩

/-- A run that goes on after a fault, and gives it as an answer. -/
def Run.attempt {α : Type} (x : Run α) : Run (Except Fault α) := fun w =>
  match x w with
  | (.ok a, w) => (.ok (.ok a), w)
  | (.error (.fault e), w) => (.ok (.error e), w)
  | (.error .outOfFuel, w) => (.error .outOfFuel, w)

theorem Run.Pulled.attempt {α : Type} {x : Run α} (h : x.Pulled) : x.attempt.Pulled where
  later w := by
    have hlater := h.later w
    unfold Run.attempt
    rcases hx : x w with ⟨(e | _) | a, w'⟩ <;> rw [hx] at hlater <;> exact hlater
  agrees w source hsource := by
    have hagrees := h.agrees w source
    unfold Run.attempt at hsource ⊢
    rcases hx : x w with ⟨(e | _) | a, w'⟩ <;>
      · rw [hx] at hagrees hsource
        rw [hagrees hsource]

namespace OnDemand

/-- Computing a node calls the source as its item does. -/
theorem force_node_pulled {l : Nat} {compute : Unparsed → Run Node} (hcompute : ∀ u, (compute u).Pulled) (k : Nat) :
    Run.Pulled ((World.listNodes l).force compute (.fault .reentered) k) where
  later w := by
    unfold Table.force
    split
    · exact .refl
    · rename_i u _
      have h := (hcompute u).later ((World.listNodes l).set k .forcing w)
      rcases hc : compute u ((World.listNodes l).set k .forcing w) with ⟨e | x, w₁⟩ <;> rw [hc] at h <;> exact h
    · exact .refl
    · exact .refl
  agrees w source h := by
    unfold Table.force at h ⊢
    rw [show (World.listNodes l).cells (w.withSource source) = (World.listNodes l).cells w from rfl]
    split at h
    · rfl
    · rename_i u _
      -- marking the node does not touch the feed
      have hmarked : (World.listNodes l).set k .forcing (w.withSource source) =
          ((World.listNodes l).set k .forcing w).withSource source := rfl
      have hagrees := (hcompute u).agrees ((World.listNodes l).set k .forcing w) source
      rw [hmarked]
      rcases hc : compute u ((World.listNodes l).set k .forcing w) with ⟨e | x, w₁⟩ <;>
        · rw [hc] at h hagrees
          rw [hagrees h]
          rfl
    · rfl
    · rfl

/-- **No part of the on-demand engine depends on calls that it does not make.** -/
theorem means_pulled (env : Env) : ∀ n, (means env n).Related (fun {α} (x _ : Run α) => x.Pulled) (means env n)
  | 0 => means_related_zero .pulled env 0
  | n + 1 => by
    have ih := means_pulled env n
    have hadd : ∀ l u, Run.Pulled (Means.addNode l u) := fun l u => .of_keeps (fun _ => rfl) fun _ _ => rfl
    refine means_related_succ .pulled (Nat.le_refl n) ih fun i => ?_
    have hforce := force_node_pulled (l := listOf i)
      (fun u => ih.computeNode .pulled (Nat.le_refl n) (hadd (listOf i)) u) (placeOf i)
    have hnode := congrFun (node_succ env n i)
    constructor
    · intro w
      rw [hnode]
      split
      · exact hforce.later w
      · exact .refl
    · intro w source h
      rw [hnode] at h ⊢
      rw [hnode, show (w.withSource source).nodesOf (listOf i) = w.nodesOf (listOf i) from rfl]
      by_cases hplace : placeOf i < (w.nodesOf (listOf i)).size
      · rw [if_pos hplace] at h ⊢
        rw [if_pos hplace]
        exact hforce.agrees w source h
      · rw [if_neg hplace, if_neg hplace]

/-! ## Readers -/

namespace Reader

variable (m : Means)

/-- One step of a reader: what it gets, be it a fault, and where it stands then. -/
def step (s : Reader) : Run (Except Fault Reading × Reader) := fun w =>
  match Reader.next m s w with
  | (.ok x, s, w) => (.ok (.ok x, s), w)
  | (.error (.fault e), s, w) => (.ok (.error e, s), w)
  | (.error .outOfFuel, _, w) => (.error .outOfFuel, w)

/-- What a reader gets when it is asked `k` times. -/
def steps : Nat → Reader → Run (List (Except Fault Reading))
  | 0, _ => pure []
  | k + 1, s => do
    let (x, s) ← step m s
    return x :: (← steps k s)

/-- What a reader makes of a node, and where it stands then. -/
def ofNode : Except Fault Node → Except Fault Reading × Reader
  | .error e => (.error e, .finished)
  | .ok (.item v next) => (.ok (.item v), .at next)
  | .ok (.ended e) => (e.reading (.leftover e.rest), .finished)

theorem step_finished : step m .finished = pure (.ok .over, .finished) := rfl

theorem step_at (i : Nat) : step m (.at i) = (m.lists.node i).attempt >>= fun x => pure (ofNode x) := by
  funext w
  show step m (.at i) w = Run.bind (m.lists.node i).attempt _ w
  unfold step Run.bind Run.attempt
  rw [show Reader.next m (.at i) w = Reader.read m i (.at i) w from rfl]
  unfold Reader.read
  rcases m.lists.node i w with ⟨(e | _) | (⟨v, next⟩ | e), w'⟩
  · rfl
  · rfl
  · rfl
  · unfold ofNode ListEnd.reading
    dsimp only
    cases e.fault? <;> rfl

theorem step_unstarted (p : Parser) (z : Context) :
    step m (.unstarted p z) = Means.makeList ⟨p, z, false⟩ >>= fun i => step m (.at i) := rfl

variable {m} in
theorem pulled_step (hnode : ∀ i, (m.lists.node i).Pulled) (s : Reader) : (step m s).Pulled := by
  have hR := Run.Congruence.pulled
  have hat : ∀ i, (step m (.at i)).Pulled := by
    intro i
    rw [step_at]
    exact (hnode i).attempt.bind fun x => hR.pure _
  cases s with
  | finished => exact hR.pure _
  | «at» i => exact hat i
  | unstarted p z => exact (hR.makeList ⟨p, z, false⟩).bind hat

variable {m} in
theorem pulled_steps (hnode : ∀ i, (m.lists.node i).Pulled) : ∀ (k : Nat) (s : Reader), (steps m k s).Pulled
  | 0, _ => Run.Congruence.pulled.pure _
  | k + 1, s => (pulled_step hnode s).bind fun (_, s) => (pulled_steps hnode k s).bind fun _ =>
      Run.Congruence.pulled.pure _

end Reader

end OnDemand

namespace Engine

open OnDemand

variable (e : Engine) (env : Env)

theorem pulled_parse (fuel : Nat) (p : Parser) (z : Context) : (e.parse env fuel p z).Pulled := by
  have hR := Run.Congruence.pulled
  rw [parse_eq]
  refine .bind ?_ fun v => ?_
  · unfold verdict
    cases e.onDemand with
    | true => exact (means_pulled env fuel).verdict hR (Nat.le_refl fuel) p z
    | false => exact (Strict.plain_run fuel p z).pulled.bind fun _ => hR.pure _
  · cases v with
    | success rest v => exact hR.pure _
    | failure rest message => exact (Run.Plain.print _).pulled.bind fun _ => hR.pure _

/-- **A run is decided by the calls of the source that it makes.** If another source answers those calls in the same way,
whatever it does afterwards, then a parse ends in the same verdict or fault, in the same world with that source, so after as
many calls; and a reader of items gets the same in each of its first `k` steps, after as many calls. -/
theorem decided_by_calls (p : Parser) (z : Context) (w : World) (source : Nat → Pull) :
    (∀ x w', Ends (fun n => e.parse env n p z) w x w' → (∀ k < w'.feed.calls, source k = w.feed.source k) →
      Ends (fun n => e.parse env n p z) (w.withSource source) x (w'.withSource source)) ∧
    ∀ k xs w', Ends (fun n => Reader.steps (means env n) k (.unstarted p z)) w (.ok xs) w' →
      (∀ k < w'.feed.calls, source k = w.feed.source k) →
      Ends (fun n => Reader.steps (means env n) k (.unstarted p z)) (w.withSource source) (.ok xs) (w'.withSource source) :=
  ⟨fun _ _ => Run.Pulled.ends fun n => e.pulled_parse env n p z,
    fun k _ _ => Run.Pulled.ends fun n => Reader.pulled_steps (means_pulled env n).node k _⟩

/-- A source that gives two tokens and then fails. -/
def twoTokens : World := { feed := .ofTokens #[.nat 0, .nat 1] #[] [3] }

/-- The first token of a source that counts up for ever, and its first two items. They are those of `twoTokens`. -/
theorem decided_by_calls_counting :
    (∃ w', w'.feed.calls = 1 ∧ Ends (fun n => (lazy false).parse ((lazy false).env (fun _ => .fail "") {}) n .next
      ⟨.ofFeed, .absent⟩) { feed := .counting (.whole 0) } (.ok (.success ⟨.fed 1, .absent⟩ (.nat 0))) w') ∧
    ∃ w', w'.feed.calls = 2 ∧ Ends (fun n => Reader.steps (means ((lazy false).env (fun _ => .fail "") {}) n) 2
      (.unstarted .next ⟨.ofFeed, .absent⟩)) { feed := .counting (.whole 0) }
      (.ok [.ok (.item (.nat 0)), .ok (.item (.nat 1))]) w' := by
  have hsource : ∀ k < 2, (Feed.counting (.whole 0)).source k = twoTokens.feed.source k := by
    intro k hk
    match k, hk with
    | 0, _ => rfl
    | 1, _ => rfl
  have hparse : Ends (fun n => (lazy false).parse ((lazy false).env (fun _ => .fail "") {}) n .next ⟨.ofFeed, .absent⟩)
      twoTokens (.ok (.success ⟨.fed 1, .absent⟩ (.nat 0))) ((lazy false).parse
        ((lazy false).env (fun _ => .fail "") {}) 6 .next ⟨.ofFeed, .absent⟩ twoTokens).2 := ⟨6, Prod.ext rfl rfl⟩
  have hsteps : Ends (fun n => Reader.steps (means ((lazy false).env (fun _ => .fail "") {}) n) 2
      (.unstarted .next ⟨.ofFeed, .absent⟩)) twoTokens (.ok [.ok (.item (.nat 0)), .ok (.item (.nat 1))])
      (Reader.steps (means ((lazy false).env (fun _ => .fail "") {}) 6) 2 (.unstarted .next ⟨.ofFeed, .absent⟩)
        twoTokens).2 := ⟨6, Prod.ext rfl rfl⟩
  obtain ⟨hparses, hreads⟩ := decided_by_calls (lazy false) ((lazy false).env (fun _ => .fail "") {}) .next
    ⟨.ofFeed, .absent⟩ twoTokens (Feed.counting (.whole 0)).source
  constructor
  · exact ⟨_, rfl, hparses _ _ hparse fun k hk => hsource k (Nat.lt_succ_of_lt hk)⟩
  · exact ⟨_, rfl, hreads _ _ _ hsteps hsource⟩

end Engine

end CommittedChoice
