import CommittedChoice.Proofs.Heap.Ranks

/-!
# Nothing is forced while it is being computed

A demand forces cells on its way, and computing one of them may force others, read lists, and make more cells. This module
follows the engine in cells, operation by operation, and shows that each of them forces only what it refers to, and leaves
behind only what refers to lower ranks.

- `Access.Guarded`: access by which whatever is below a bound is forced without meeting anything that is being computed. So is
  then all that is made of it: callbacks (`exec`), the application of parsers (`apply`), the algebra of outcomes (`settle`,
  `reveal`, `settleAll`, `resume`), and the tasks of cells (`compute`);
- `access_guarded`: the engine.
-/

namespace CommittedChoice

open OnDemand Given Heap

namespace Heap.Works

variable {σ : Ranking} {b : ℚ}

/-- A success all of whose parts are known. -/
theorem success {z : Context} (hz : Linked Contexts (σ.below b) z) {v : Value} (hv : Linked Values (σ.below b) v) :
    Works b Outcomes σ (Heap.success z v) := by
  refine (known (.rest hz)).bind fun τ hτ rest hrest => ?_
  refine (known (.value (linked_values (Ranking.below_mono hτ) _ hv))).bind fun υ hυ value hvalue => ?_
  exact .pure (.plain (.success (Ranking.below_mono hυ hrest) hvalue nofun))

/-- A commitment to what is in a cell. -/
theorem commit {i : Nat} (hi : .cell i ∈ σ.below b) : Works b Outcomes σ (Heap.commit i) := by
  have hwait : Works b Outcomes σ (do return .committed (← Heap.waiting (.settled i))) :=
    (waiting (.settled hi)).bind fun τ _ j hj => .pure (.committed hj)
  intro s hs
  show ∃ τ, Leads b σ s τ (Hold.bind Hold.get _ s.1 s.2).2 ∧ Comes _ _ (Hold.bind Hold.get _ s.1 s.2).1
  dsimp only [Hold.bind, Hold.get]
  rcases hcell : s.1.cells[i]? with _ | (_ | _ | c)
  · exact hwait s hs
  · exact hwait s hs
  · exact hwait s hs
  · -- what is in the cell is of a lower rank than the cell
    have hc : Contents (σ.below b) c := by
      cases hs.ranked.cells i _ hcell with
      | forced hc => exact monotone_contents (Ranking.below_subset (le_of_lt hi.2)) _ hc
    have hknown : Works b Outcomes σ (do return .committed (← Heap.known c)) :=
      (known hc).bind fun τ _ j hj => .pure (.committed hj)
    cases hc with
    | outcome ho =>
      cases ho with
      | committed hj => exact ⟨σ, .refl hs.ranked, .ok (.committed hj)⟩
      | plain hs' => exact hknown s hs
    | value _ => exact hknown s hs
    | rest _ => exact hknown s hs
    | finish _ => exact hknown s hs
    | ended _ => exact hknown s hs

/-- What a frame does, left for later. -/
theorem postpone {i : Nat} (hi : .cell i ∈ σ.below b) {f : Frame} (hf : Linked Frames (σ.below b) f) :
    Works b Outcomes σ (Heap.postpone i f) := (waiting (.framed true hi hf)).bind fun _ _ _ hj => commit hj

theorem change {f : Context → String → Act (Context × String)} (hf : Linked Changes (σ.below b) f) {finish : Option Nat}
    (hi : ∀ i ∈ finish, .cell i ∈ σ.below b) :
    Works b (fun K finish => ∀ i ∈ finish, .cell i ∈ K) σ (Heap.change f finish) := by
  cases finish with
  | none => exact .pure nofun
  | some i => exact (waiting (.changed (hi i rfl) hf)).bind fun _ _ j hj => .pure fun k hk => Option.some.inj hk ▸ hj

/-- A success of which the failure that it may turn out to be is changed. -/
theorem changed {f : Context → String → Act (Context × String)} (hf : Linked Changes (σ.below b) f) {r v : Nat}
    {finish : Option Nat} (hr : .cell r ∈ σ.below b) (hv : .cell v ∈ σ.below b) (hi : ∀ i ∈ finish, .cell i ∈ σ.below b) :
    Works b Outcomes σ (do return .plain (.success r v (← Heap.change f finish))) :=
  (change hf hi).bind fun _ hτ _ hfinish =>
    .pure (.plain (.success (Ranking.below_mono hτ hr) (Ranking.below_mono hτ hv) hfinish))

/-- The success of a list. -/
theorem list {p : Parser} (hp : Linked Parsers (σ.below b) p) {z : Context} (hz : Linked Contexts (σ.below b) z) :
    Works b Outcomes σ (Heap.list p z) := by
  have hu : Linked Waits (σ.below b) ⟨p, z, false⟩ := ⟨hp, hz⟩
  refine (makeList hu).bind fun τ _ i hi => ?_
  refine (waiting (.walked hi.1)).bind fun τ₁ h₁ ended hended => ?_
  refine (waiting (.restOf hended)).bind fun τ₂ h₂ rest hrest => ?_
  refine (waiting (.finishOf (Ranking.below_mono h₂ hended))).bind fun τ₃ h₃ finish hfinish => ?_
  have hlist := Ranking.below_mono (le_trans h₁ (le_trans h₂ h₃)) hi.2
  refine (known (.value (Values.list hlist))).bind fun τ₄ h₄ value hvalue => ?_
  exact .pure (.plain (.success (Ranking.below_mono (le_trans h₃ h₄) hrest) hvalue fun i hi =>
    Option.some.inj hi ▸ Ranking.below_mono h₄ hfinish))

/-- **Applying a parser** forces nothing. -/
theorem apply {grammar : Grammar} (hg : ∀ name, (grammar name).Closed) {K : Set Nat} {p : Parser} (hp : Parsers K p)
    (hK : K ⊆ {l | .links l ∈ σ.below b}) {z : Context} (hz : Linked Contexts (σ.below b) z) :
    Works b (fun K i => .cell i ∈ K) σ (Heap.apply grammar p z) := by
  have hframed : ∀ {σ : Ranking} {x : Hold Heap Nat} {f : Frame}, Works b (fun K i => .cell i ∈ K) σ x →
      Linked Frames (σ.below b) f →
      Works b (fun K i => .cell i ∈ K) σ (do Heap.waiting (.framed false (← x) f)) := fun hx hf =>
    hx.bind fun τ hτ i hi => waiting (.framed false hi (linked_frames (Ranking.below_mono hτ) _ hf))
  have hknown : ∀ {x : Hold Heap Outcome}, Works b Outcomes σ x →
      Works b (fun K i => .cell i ∈ K) σ (do Heap.known (.outcome (← x))) := fun hx =>
    hx.bind fun _ _ _ ho => known (.outcome ho)
  induction hp with
  | pure hv => exact hknown (success hz (hv.mono hK))
  | fail m => exact known (.outcome (.plain (.failure m hz)))
  | map _ hf ih => exact hframed (ih hK) (.map (hf.mono hK))
  | bind R _ hk hR ih => exact hframed (ih hK) (.bind ((hk.imp hR).mono hK))
  | orElse _ hq ih _ => exact hframed (ih hK) (.orElse (hq.mono hK) hz)
  | reword _ hf ih => exact hframed (ih hK) (.reword (hf.mono hK))
  | restoring _ ih => exact hframed (ih hK) (.restoring hz.state)
  | commit hp _ => exact hknown ((waiting (.afresh (hp.mono hK) hz)).bind fun _ _ _ hi => commit hi)
  | pushBack hts =>
    refine (waiting (.pushed hz fun t ht => (hts t ht).mono hK)).bind fun τ _ rest hrest => ?_
    refine (known (.value (Values.of_nil rfl))).bind fun υ hυ value hvalue => ?_
    exact known (.outcome (.plain (.success (Ranking.below_mono hυ hrest) hvalue nofun)))
  | position => exact hknown (success hz (Values.of_nil rfl))
  | get => exact hknown (success hz hz.state)
  | put hu => exact hknown (success (hz.withState (hu.mono hK)) (Values.of_nil rfl))
  | stream hp _ => exact hknown (list (hp.mono hK) hz)
  | rule name =>
    exact hframed (hknown (success hz (Values.of_nil rfl))) (.bind fun K' _ _ _ => .pure ((hg name).given K'))
  | loop R hinit hstep hR => exact waiting (.primitive (.loop R (hinit.mono hK) (hstep.mono hK) hR) hz)
  | choice hps _ => exact waiting (.primitive (.choice fun a ha => (hps a ha).mono hK) hz)
  | next => exact waiting (.primitive .next hz)
  | eof => exact waiting (.primitive .eof hz)
  | satisfy htest => exact waiting (.primitive (.satisfy (htest.mono hK)) hz)

end Heap.Works

/-! ## Access -/

/-- Access by which whatever is below a bound is forced without meeting anything that is being computed. -/
structure Access.Guarded (m : Access) : Prop where
  grammar : ∀ name, (m.env.grammar name).Closed
  force : ∀ {b σ i}, .cell i ∈ σ.below b → Works b Contents σ (m.force i)
  node : ∀ {b σ i}, .nodes (listOf i) ∈ σ.below b → Works b (Linked (Nodes (listOf i))) σ (m.node i)
  link : ∀ {b σ i}, .links (listOf i) ∈ σ.below b → Works b (Linked (Nodes (listOf i))) σ (m.link i)

namespace Access.Guarded

variable {α : Type} {m : Access} (h : m.Guarded) {b : ℚ} {σ : Ranking}

/-- Reading a list to its end. -/
theorem walk {node : Nat → Hold Heap Node} {at' : Nat → Tier}
    (hnode : ∀ {σ : Ranking} {i : Nat}, at' (listOf i) ∈ σ.below b → Works b (Linked (Nodes (listOf i))) σ (node i)) :
    ∀ (fuel : Nat) {σ : Ranking} {i : Nat}, at' (listOf i) ∈ σ.below b → ∀ {done : List Value},
      (∀ v ∈ done, Linked Values (σ.below b) v) →
        Works b (Linked fun K x => (∀ v ∈ x.1, Values K v) ∧ Given.Stops K x.2) σ (Access.walk node fuel i done)
  | 0, _, _, _, _, _ => .halt nofun
  | fuel + 1, σ, i, hi, done, hdone => by
    refine (hnode hi).bind fun τ hτ x hx => ?_
    have hdone : ∀ v ∈ done, Linked Values (τ.below b) v := fun v hv =>
      linked_values (Ranking.below_mono hτ) _ (hdone v hv)
    cases hx with
    | item hv hnext =>
      refine walk hnode fuel (hnext ▸ Ranking.below_mono hτ hi) fun u hu => ?_
      rcases List.mem_cons.1 hu with rfl | hu
      · exact hv
      · exact hdone u hu
    | ended he => exact .pure ⟨fun v hv => hdone v (List.mem_reverse.1 hv), he⟩

include h

/-- **Callbacks** read only lists that they are given. -/
theorem exec {A : Set Nat → α → Prop} (hA : Monotone A) {act : Act α} (hact : Linked (Acts A) (σ.below b) act) :
    Works b (Linked A) σ (m.exec act) := by
  -- as the run goes on, more lists are below the bound than the callback was given at first
  suffices hsuffices : ∀ {K}, Acts A K act → ∀ {σ : Ranking}, K ⊆ {l | .links l ∈ σ.below b} →
      Works b (Linked A) σ (m.exec act) from hsuffices hact subset_rfl
  clear hact
  intro K hact
  have hmore : ∀ {K : Set Nat} {σ τ : Ranking}, K ⊆ {l | .links l ∈ σ.below b} → σ ≤ τ → K ⊆ {l | .links l ∈ τ.below b} :=
    fun hK hτ l hl => Ranking.below_mono hτ (hK hl)
  induction hact with
  | pure ha => exact fun hK => .pure (hA hK _ ha)
  | throw he => exact fun _ => .halt fun h => he (Halt.fault.inj h)
  | note id _ ih => exact fun hK => (Works.note id).bind fun τ hτ _ _ => ih (hmore hK hτ)
  | width _ ih => exact ih _
  | count mark _ ih => exact fun hK => (Works.count mark).bind fun τ hτ n _ => ih n (hmore hK hτ)
  | fresh _ ih => exact fun hK => Works.identity.bind fun τ hτ id _ => ih id (hmore hK hτ)
  | node hi _ ih => exact fun hK => (h.link (hK hi)).bind fun τ hτ x hx => ih _ (hmore hK hτ) x hx subset_rfl
  | walk hi _ ih =>
    exact fun hK => (walk h.link m.fuel (hK hi) fun _ hv => absurd hv List.not_mem_nil).bind fun τ hτ x hx =>
      ih _ (hmore hK hτ) x.1 x.2 hx.1 hx.2 subset_rfl

/-! ### Parts -/

section Parts

variable {i : Nat} (hi : .cell i ∈ σ.below b)

include hi

/-- A part of what is in a cell. -/
theorem get {A : Set Tier → α → Prop} {part : Content → Option α}
    (hpart : ∀ {K c a}, Contents K c → part c = some a → A K a) : Works b A σ (m.get part i) := by
  refine (h.force hi).bind fun τ _ c hc => ?_
  cases ha : part c with
  | none => exact .halt nofun
  | some a => exact .pure (hpart hc ha)

theorem outcome : Works b Outcomes σ (m.get Content.outcome? i) :=
  h.get hi fun hc ha => by cases hc <;> cases ha; assumption

theorem value : Works b (Linked Values) σ (m.get Content.value? i) :=
  h.get hi fun hc ha => by cases hc <;> cases ha; assumption

theorem rest : Works b (Linked Contexts) σ (m.get Content.rest? i) :=
  h.get hi fun hc ha => by cases hc <;> cases ha; assumption

theorem finish : Works b (Linked Finishes) σ (m.get Content.finish? i) :=
  h.get hi fun hc ha => by cases hc <;> cases ha; assumption

theorem ended : Works b (Linked Given.Stops) σ (m.get Content.ended? i) :=
  h.get hi fun hc ha => by cases hc <;> cases ha; assumption

end Parts

/-! ### Outcomes -/

/-- The outcome of a parser that is applied anew. -/
theorem fresh {p : Parser} (hp : Linked Parsers (σ.below b) p) {z : Context} (hz : Linked Contexts (σ.below b) z) :
    Works b Outcomes σ (m.fresh p z) :=
  (Works.apply h.grammar hp subset_rfl hz).bind fun _ _ _ hi => h.outcome hi

/-- The outcome without its commitment. -/
theorem settle {o : Outcome} (ho : Outcomes (σ.below b) o) : Works b Settleds σ (m.settle o) := by
  cases ho with
  | plain hs => exact .pure hs
  | committed hi =>
    refine (h.outcome hi).bind fun τ _ o ho => ?_
    cases ho with
    | plain hs => exact .pure hs
    | committed _ => exact .halt nofun

/-- The outcome once it is known what a success turns out to be. -/
theorem reveal {o : Outcome} (ho : Outcomes (σ.below b) o) : Works b Outcomes σ (m.reveal o) := by
  have hcommit : ∀ {τ : Ranking} {s : Heap.Settled}, Settleds (τ.below b) s →
      Works b Outcomes τ (do Heap.commit (← Heap.known (.outcome (.plain s)))) := fun hs =>
    (Works.known (.outcome (.plain hs))).bind fun _ _ _ hi => .commit hi
  cases ho with
  | committed hi => exact .pure (.committed hi)
  | plain hs =>
    cases hs with
    | failure m hz => exact .pure (.plain (.failure m hz))
    | @success rest value finish hrest hvalue hfinish =>
      cases finish with
      | none => exact .pure (.plain (.success hrest hvalue nofun))
      | some i =>
        refine (h.finish (hfinish i rfl)).bind fun τ hτ f hf => ?_
        have hsuccess : Settleds (τ.below b) (.success rest value none) :=
          .success (Ranking.below_mono hτ hrest) (Ranking.below_mono hτ hvalue) nofun
        cases hf with
        | plain => exact .pure (.plain hsuccess)
        | committed => exact hcommit hsuccess
        | failed m hz => exact hcommit (.failure m hz)

/-- Both. -/
theorem settleAll {o : Outcome} (ho : Outcomes (σ.below b) o) : Works b Settleds σ (m.settleAll o) := by
  refine (h.settle ho).bind fun τ _ s hs => ?_
  cases hs with
  | failure m hz => exact .pure (.failure m hz)
  | @success rest value finish hrest hvalue hfinish =>
    cases finish with
    | none => exact .pure (.success hrest hvalue nofun)
    | some i => exact (h.reveal (.plain (.success hrest hvalue hfinish))).bind fun _ _ _ ho => h.settle ho

/-- Going on after a success. -/
theorem proceed {k : Value → Act Parser} (hk : Linked (Functions Parsers) (σ.below b) k) {o : Outcome}
    (ho : Outcomes (σ.below b) o) : Works b Outcomes σ (m.proceed k o) := by
  cases ho with
  | committed hi => exact .postpone hi (.bind hk)
  | plain hs =>
    cases hs with
    | failure m hz => exact .pure (.plain (.failure m hz))
    | success hrest hvalue _ =>
      refine (h.rest hrest).bind fun τ hτ z hz => ?_
      refine (h.value (Ranking.below_mono hτ hvalue)).bind fun υ hυ v hv => ?_
      have hk := linked_functions (Ranking.below_mono (le_trans hτ hυ)) _ hk
      refine (h.exec monotone_parsers (hk _ subset_rfl v hv)).bind fun φ hφ p hp => ?_
      exact h.fresh hp (linked_contexts (Ranking.below_mono (le_trans hυ hφ)) _ hz)

section Loop

variable {step : Value → Act Parser} (hstep : Linked (Functions Parsers) (σ.below b) step)

include hstep

/-- One turn of a loop. -/
theorem turn {again : Outcome → Hold Heap Outcome}
    (hagain : ∀ τ, σ ≤ τ → ∀ o, Outcomes (τ.below b) o → Works b Outcomes τ (again o)) {τ : Ranking} (hτ : σ ≤ τ)
    {s : Heap.Settled} (hs : Settleds (τ.below b) s) : Works b Outcomes τ (m.turn step again s) := by
  cases hs with
  | failure m hz => exact .pure (.plain (.failure m hz))
  | success hrest hvalue _ =>
    refine (h.value hvalue).bind fun τ₁ h₁ v hv => ?_
    have hrest := Ranking.below_mono h₁ hrest
    obtain ⟨u, hu, hgiven⟩ | ⟨u, hu, hgiven⟩ := Values.toStep hv
    · rw [hu]
      refine (h.rest hrest).bind fun τ₂ h₂ z hz => ?_
      have hle := le_trans hτ (le_trans h₁ h₂)
      have hstep := linked_functions (Ranking.below_mono hle) _ hstep
      have hgiven := linked_values (Ranking.below_mono h₂) _ hgiven
      refine (h.exec monotone_parsers (hstep _ subset_rfl u hgiven)).bind fun τ₃ h₃ p hp => ?_
      refine (h.fresh hp (linked_contexts (Ranking.below_mono h₃) _ hz)).bind fun τ₄ h₄ o ho => ?_
      exact hagain τ₄ (le_trans hle (le_trans h₃ h₄)) o ho
    · rw [hu]
      refine (Works.known (.value hgiven)).bind fun τ₂ h₂ value hvalue => ?_
      exact .pure (.plain (.success (Ranking.below_mono h₂ hrest) hvalue nofun))

/-- The turns of a loop. -/
theorem advance (committed : Bool) (fuel : Nat) : ∀ τ, σ ≤ τ → ∀ o, Outcomes (τ.below b) o →
    Works b Outcomes τ (m.advance step committed fuel o) := by
  induction fuel with
  | zero => exact fun _ _ _ _ => .halt nofun
  | succ fuel ih =>
    intro τ hτ o ho
    have hon : ∀ {υ : Ranking} {o : Outcome}, τ ≤ υ → Outcomes (υ.below b) o →
        Works b Outcomes υ (m.settleAll o >>= m.turn step (m.advance step committed fuel)) := fun hυ ho =>
      (h.settleAll ho).bind fun φ hφ _ hs => h.turn hstep ih (le_trans hτ (le_trans hυ hφ)) hs
    refine (h.reveal ho).bind fun υ hυ o ho => ?_
    cases ho with
    | plain hs => exact hon hυ (.plain hs)
    | committed hi =>
      cases committed with
      | true => exact hon hυ (.committed hi)
      | false => exact .postpone hi (.loop (linked_functions (Ranking.below_mono (le_trans hτ hυ)) _ hstep))

end Loop

/-- **What a frame does.** -/
theorem resume (under : Bool) {f : Frame} (hf : Linked Frames (σ.below b) f) {o : Outcome}
    (ho : Outcomes (σ.below b) o) : Works b Outcomes σ (m.resume under f o) := by
  cases hf with
  | bind hk =>
    have hon : ∀ τ, σ ≤ τ → ∀ o, Outcomes (τ.below b) o → Works b Outcomes τ (m.proceed _ o) := fun τ hτ o ho =>
      h.proceed (linked_functions (Ranking.below_mono hτ) _ hk) ho
    cases under with
    | true => exact ((h.settleAll ho).map fun _ _ _ hs => .plain hs).bind hon
    | false => exact (h.reveal ho).bind hon
  | map hg =>
    cases ho with
    | committed hi => exact .postpone hi (.map hg)
    | plain hs =>
      cases hs with
      | failure m hz => exact .pure (.plain (.failure m hz))
      | success hrest hvalue hfinish =>
        refine (Works.waiting (.mapped hvalue hg)).bind fun τ hτ value hvalue => ?_
        exact .pure (.plain (.success (Ranking.below_mono hτ hrest) hvalue fun i hi =>
          Ranking.below_mono hτ (hfinish i hi)))
  | reword hg =>
    cases ho with
    | committed hi => exact .postpone hi (.reword hg)
    | plain hs =>
      cases hs with
      | failure m hz =>
        refine (h.exec monotone_anything (hg m)).bind fun τ hτ m' _ => ?_
        exact .pure (.plain (.failure m' (linked_contexts (Ranking.below_mono hτ) _ hz)))
      | success hrest hvalue hfinish =>
        have hchange : Linked Changes (σ.below b) fun z message => do return (z, ← _) := fun K hK z m hz =>
          ((hg.mono hK) m).bind fun K' hK' m' _ => .pure (hz.mono hK')
        exact .changed hchange hrest hvalue hfinish
  | restoring hu =>
    cases ho with
    | committed hi => exact .postpone hi (.restoring hu)
    | plain hs =>
      cases hs with
      | failure m hz => exact .pure (.plain (.failure m (hz.withState hu)))
      | success hrest hvalue hfinish =>
        have hchange : Linked Changes (σ.below b) fun z message => .pure ({ z with state := _ }, message) :=
          fun K hK z m hz => .pure (hz.withState (hu.mono hK))
        exact .changed hchange hrest hvalue hfinish
  | orElse hq hz =>
    cases ho with
    | committed hi => exact .pure (.committed hi)
    | plain hs =>
      cases hs with
      | failure _ _ => exact h.fresh hq hz
      | success hrest hvalue hfinish => exact .pure (.plain (.success hrest hvalue hfinish))
  | loop hstep => exact h.advance hstep under m.fuel σ (le_refl σ) o ho

/-! ### Primitives and lists -/

theorem alternatives {z : Context} {ps : List (String × Parser)} : ∀ {σ : Ranking}, Linked Contexts (σ.below b) z →
    (∀ a ∈ ps, Linked Parsers (σ.below b) a.2) → ∀ failures, Works b Outcomes σ (m.alternatives z failures ps) := by
  induction ps with
  | nil =>
    intro σ hz _ failures
    exact (Works.report _ _).bind fun τ hτ m _ => .pure (.plain (.failure m (linked_contexts (Ranking.below_mono hτ) _ hz)))
  | cons a ps ih =>
    intro σ hz hps failures
    obtain ⟨label, p⟩ := a
    refine (h.fresh (hps _ (List.mem_cons_self ..)) hz).bind fun τ hτ o ho => ?_
    cases ho with
    | committed hi => exact .pure (.committed hi)
    | plain hs =>
      cases hs with
      | success hrest hvalue hfinish => exact .pure (.plain (.success hrest hvalue hfinish))
      | failure _ _ =>
        refine (Works.print _).bind fun υ hυ _ _ => ?_
        have hle := Ranking.below_mono (b := b) (le_trans hτ hυ)
        exact ih (linked_contexts hle _ hz) (fun a ha => linked_parsers hle _ (hps a (List.mem_cons_of_mem _ ha))) _

theorem primitive {p : Parser} (hp : Linked Parsers (σ.below b) p) {z : Context} (hz : Linked Contexts (σ.below b) z) :
    Works b Outcomes σ (m.primitive p z) := by
  have hfresh := h.fresh hp hz
  cases hp with
  | @loop _ init step R hinit hstep hR =>
    have hagain : Linked Values (σ.below b) (.step (.again init)) := fun l hl => by
      rw [Value.lists] at hl
      exact hinit l hl
    exact (Works.success hz hagain).bind (h.advance (hstep.imp hR) false m.fuel)
  | choice hps => exact h.alternatives hz hps []
  | next =>
    refine (Works.next? hz.input).bind fun τ hτ o ho => ?_
    have hz := linked_contexts (Ranking.below_mono hτ) _ hz
    cases ho with
    | ended => exact .pure (.plain (.failure _ hz))
    | token ht hrest => exact .success (hz.withInput hrest) ht
  | eof =>
    refine (Works.next? hz.input).bind fun τ hτ o ho => ?_
    have hz := linked_contexts (Ranking.below_mono hτ) _ hz
    cases ho with
    | ended => exact .success hz (Values.of_nil rfl)
    | token _ _ => exact .pure (.plain (.failure _ hz))
  | satisfy htest =>
    refine (Works.next? hz.input).bind fun τ hτ o ho => ?_
    have hz := linked_contexts (Ranking.below_mono hτ) _ hz
    cases ho with
    | ended => exact .pure (.plain (.failure _ hz))
    | @token t rest ht hrest =>
      have htest := linked_functions (Ranking.below_mono hτ) _ htest
      refine (h.exec monotone_anything (htest _ subset_rfl t ht)).bind fun υ hυ passed _ => ?_
      have hle := Ranking.below_mono (b := b) hυ
      have hz := linked_contexts hle _ hz
      cases passed with
      | true => exact .success (hz.withInput (hrest.mono fun _ hl => hle hl)) (linked_values hle _ ht)
      | false =>
        exact (Works.unexpected t).bind fun φ hφ m _ =>
          .pure (.plain (.failure m (linked_contexts (Ranking.below_mono hφ) _ hz)))
  | _ => exact hfresh

/-- **Parsing the item of a list,** below the list. -/
theorem computeNode {l : Nat} (hl : .nodes l ∈ σ.there) (hb : σ.rank (.nodes l) = b) {u : Unparsed}
    (hu : Linked Waits (σ.below b) u) : Works b (Linked (Nodes l)) σ (m.computeNode l u) := by
  have hended : ∀ {τ : Ranking}, σ ≤ τ → ∀ c : Bool,
      Linked (Nodes l) (τ.below b) (.ended ⟨u.start, if c then .committed else .plain⟩) := fun hτ c => by
    have hstart := (linked_waits (Ranking.below_mono hτ) _ hu).start
    cases c with
    | true => exact .ended ⟨hstart, .committed⟩
    | false => exact .ended ⟨hstart, .plain⟩
  refine (h.fresh hu.item hu.start).bind fun τ₁ h₁ o ho => ?_
  refine (h.reveal ho).bind fun τ₂ h₂ o ho => ?_
  refine (h.settleAll ho).bind fun τ₃ h₃ s hs => ?_
  have hle := le_trans h₁ (le_trans h₂ h₃)
  cases hs with
  | failure message hz =>
    refine .pure ?_
    split
    · exact .ended ⟨(linked_waits (Ranking.below_mono hle) _ hu).start, .failed message hz⟩
    · exact hended hle _
  | success hrest hvalue _ =>
    refine (h.rest hrest).bind fun τ₄ h₄ z hz => ?_
    split
    · exact .pure (hended (le_trans hle h₄) _)
    refine (h.value (Ranking.below_mono h₄ hvalue)).bind fun τ₅ h₅ v hv => ?_
    have hz := linked_contexts (Ranking.below_mono h₅) _ hz
    have hle := le_trans hle (le_trans h₄ h₅)
    have hnext : ∀ c, Linked Waits (τ₅.below b) ⟨u.item, z, c⟩ := fun _ =>
      ⟨(linked_waits (Ranking.below_mono hle) _ hu).item, hz⟩
    refine (Works.addNode ((hle _ hl).2.trans hb) (hnext _)).bind fun τ₆ h₆ i hi => ?_
    refine .pure (.item ?_ hi)
    split
    · exact .record (linked_values (Ranking.below_mono h₆) _ hv) (linked_contexts (Ranking.below_mono h₆) _ hz).state
    · exact linked_values (Ranking.below_mono h₆) _ hv

/-- **What the task of a cell comes to.** -/
theorem compute {t : Task} (ht : Tasks (σ.below b) t) : Works b Contents σ (m.compute t) := by
  cases ht with
  | primitive hp hz => exact (h.primitive hp hz).map fun _ _ _ => .outcome
  | afresh hp hz => exact (h.fresh hp hz).map fun _ _ _ => .outcome
  | framed under hi hf =>
    refine (h.outcome hi).bind fun τ hτ o ho => ?_
    exact (h.resume under (linked_frames (Ranking.below_mono hτ) _ hf) ho).map fun _ _ _ => .outcome
  | settled hi =>
    refine (h.outcome hi).bind fun τ _ o ho => ?_
    exact (h.settle ho).bind fun υ _ s hs => .pure (.outcome (.plain hs))
  | pushed hz hts => exact .pure (.rest (hz.withInput (hz.input.push hts)))
  | mapped hi hf =>
    refine (h.value hi).bind fun τ hτ v hv => ?_
    have hf := linked_functions (Ranking.below_mono hτ) _ hf
    exact (h.exec monotone_values (hf _ subset_rfl v hv)).map fun _ _ _ => .value
  | changed hi hf =>
    refine (h.finish hi).bind fun τ hτ f hfinish => ?_
    cases hfinish with
    | plain => exact .pure (.finish .plain)
    | committed => exact .pure (.finish .committed)
    | failed m hz =>
      have hf := linked_changes (Ranking.below_mono hτ) _ hf
      refine (h.exec (fun _ _ hK _ hz => hz.mono hK) (hf _ subset_rfl _ m hz)).bind fun υ _ x hx => ?_
      exact .pure (.finish (.failed x.2 hx))
  | walked hi => exact (walk h.node m.fuel hi fun _ hv => absurd hv List.not_mem_nil).bind fun τ _ x hx => .pure (.ended hx.2)
  | restOf hi => exact (h.ended hi).bind fun τ _ e he => .pure (.rest he.rest)
  | finishOf hi => exact (h.ended hi).bind fun τ _ e he => .pure (.finish he.finish)

/-- **A parse.** -/
theorem verdict {p : Parser} (hp : Linked Parsers (σ.below b) p) {z : Context} (hz : Linked Contexts (σ.below b) z) :
    Works b (Linked Anything) σ (m.verdict p z) := by
  refine (h.fresh hp hz).bind fun τ _ o ho => ?_
  refine (h.settleAll ho).bind fun υ _ s hs => ?_
  cases hs with
  | failure m hz => exact .pure trivial
  | success hrest hvalue _ =>
    dsimp only
    split
    · refine (h.rest hrest).bind fun φ hφ z _ => ?_
      exact (h.value (Ranking.below_mono hφ hvalue)).bind fun _ _ _ _ => .pure trivial
    · refine (h.value hvalue).bind fun φ hφ v _ => ?_
      exact (h.rest (Ranking.below_mono hφ hrest)).bind fun _ _ _ _ => .pure trivial

/-- What following a link is stopped by: what a demand may be stopped by, or the failure of a list. -/
def Thrown (K : Set Tier) : Halt ⊕ ListEnd → Prop
  | .inl e => e ≠ .fault .reentered
  | .inr e => Linked Given.Stops K e

omit h in
theorem monotone_thrown : Monotone Thrown := fun _ _ hK x hx => by
  cases x with
  | inl e => exact hx
  | inr e => exact Linked.mono (fun _ _ hK _ he => he.mono hK) hK _ hx

/-- Following a link. The node is below the links of its list. -/
theorem follow {i : Nat} (hi : .nodes (listOf i) ∈ σ.below b) :
    Does b (Linked (Nodes (listOf i))) Thrown σ (m.follow i) := by
  intro s hs
  obtain ⟨τ, hlead, hcomes⟩ := h.node hi s hs
  unfold Access.follow
  rcases hrun : m.node i s.1 s.2 with ⟨e | x, h₁, w₁⟩
  · simp only [hrun] at hlead hcomes
    cases hcomes with
    | error he => exact ⟨τ, hlead, .error he⟩
  · simp only [hrun] at hlead hcomes
    cases hcomes with
    | ok hx =>
      cases hx with
      | item hv hnext => exact ⟨τ, hlead, .ok (.item hv hnext)⟩
      | @ended e he =>
        dsimp only
        split
        · exact ⟨τ, hlead, .error he⟩
        · exact ⟨τ, hlead, .ok (.ended he)⟩

end Access.Guarded

namespace Heap

/-- **The engine** forces only what it refers to, and never what is being computed. -/
theorem access_guarded {env : Env} (hg : ∀ name, (env.grammar name).Closed) : ∀ n, (access env n).Guarded
  | 0 => ⟨hg, fun _ => .halt nofun, fun _ => .halt nofun, fun _ => .halt nofun⟩
  | n + 1 => by
    have ih := access_guarded hg n
    have hkeep : ∀ {ε : Type} {E : ε → Prop}, Monotone fun _ : Set Tier => E := fun _ _ => id
    refine ⟨hg, fun {b σ i} hi s hs => ?_, fun {b σ i} hi s hs => ?_, fun {b σ i} hi s hs => ?_⟩
    · show ∃ τ, Leads b σ s τ (force env (n + 1) i s.1 s.2).2 ∧ Comes _ _ (force env (n + 1) i s.1 s.2).1
      rw [force_succ]
      split
      · exact Does.force (keeps_cell i) monotone_tasks monotone_contents hkeep hi _ (fun t ht => ih.compute ht) s hs ‹_›
      · exact ⟨σ, .refl hs.ranked, .error nofun⟩
    · show ∃ τ, Leads b σ s τ (node env (n + 1) i s.1 s.2).2 ∧ Comes _ _ (node env (n + 1) i s.1 s.2).1
      rw [node_succ]
      split
      · exact Does.force (keeps_node (listOf i) (placeOf i)) linked_waits (linked_nodes _) hkeep hi _
          (fun u hu => ih.computeNode hi.1 rfl hu) s hs ‹_›
      · exact ⟨σ, .refl hs.ranked, .error nofun⟩
    · show ∃ τ, Leads b σ s τ (link env (n + 1) i s.1 s.2).2 ∧ Comes _ _ (link env (n + 1) i s.1 s.2).1
      rw [link_succ]
      split
      · obtain ⟨τ, hlead, hcomes⟩ := Does.force (keeps_link (listOf i) (placeOf i)) (Linked.mono monotone_anything)
          (linked_nodes _) Access.Guarded.monotone_thrown hi (.inl (.fault .reentered))
          (fun _ _ => ih.follow (hs.ranked.linked _ hi.1)) s hs ‹_›
        rcases hrun : (linkTable (listOf i)).force (fun _ => (access env n).follow i) (.inl (.fault .reentered))
          (placeOf i) s with ⟨(e | e) | x, s'⟩
        all_goals
          rw [hrun] at hlead hcomes
          cases hcomes
        · exact ⟨τ, hlead, .error ‹_›⟩
        · exact ⟨τ, hlead, .ok (.ended ‹_›)⟩
        · exact ⟨τ, hlead, .ok ‹_›⟩
      · exact ⟨σ, .refl hs.ranked, .error nofun⟩

end Heap

end CommittedChoice
