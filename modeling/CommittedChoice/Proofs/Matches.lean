import CommittedChoice.Proofs.Stopping
import CommittedChoice.Proofs.Tags

/-!
# The longest chain of matches

`many` applies its parser as long as that succeeds and consumes something. The applications form a chain, of which there is
one only, and the last of them, which failed or consumed nothing, says what becomes of the values: a committed failure is
the result of `many`; after anything else the values are, in order.

- `Engine.consumed_le`: what was consumed before a parser is no more than what was consumed after it;
- `Engine.Chain`: the matches from a context on, and the application that ends them (`Chain.unique`);
- `Engine.chain_of_folded`: the turns of the loop are the matches of a chain;
- `Engine.many_longest`: what `many` makes of the chain.
-/

namespace CommittedChoice

open Run (Ends)
open Strict (Outcome)
open Relation (ReflTransGen)

/-! ## What was consumed -/

/-- Reading a token adds to what was consumed. -/
theorem Remainder.consumed_lt_of_next : ∀ {s s' : Remainder} {feed feed' : Feed} {t : Value},
    s.next? feed = (.ok (some (t, s')), feed') → s.consumed < s'.consumed := by
  intro s
  induction s with
  | tokens left n => intro s' feed feed' t h; cases left <;> cases h; exact Nat.lt_succ_self n
  | chars left n => intro s' feed feed' t h; cases left <;> cases h; exact Nat.lt_succ_self n
  | fed n =>
    intro s' feed feed' t h
    rw [next?] at h
    split at h <;> cases h
    exact Nat.lt_succ_self n
  | pushed u more base c =>
    intro s' feed feed' t h
    cases more with
    | nil =>
      cases h
      rw [consumed_shift]
      show c < _
      omega
    | cons u' us => cases h; exact Nat.lt_succ_self c
  | shifted base extra ih =>
    intro s' feed feed' t h
    rw [next?] at h
    split at h <;> cases h
    rename_i hbase
    rw [consumed_shift, consumed]
    exact Nat.add_lt_add_right (ih hbase) extra

/-- The remainders at which at least `n` tokens were consumed. -/
def consumedFrom (n : Nat) : Domain where
  holds _ s := n ≤ s.consumed
  later _ h := h
  next h hnext := Nat.le_of_lt (Nat.lt_of_le_of_lt h (Remainder.consumed_lt_of_next hnext))

theorem admits_consumedFrom (n : Nat) (p : Parser) : (consumedFrom n).Admits p := by
  rintro us rfl feed s h
  show n ≤ (s.push us).consumed
  rw [Remainder.consumed_push]
  exact h

/-! ## Results -/

namespace Result

variable {ζ α : Type}

@[simp] theorem verdict_commitIf (b : Bool) (r : Result ζ α) : (r.commitIf b).verdict = r.verdict := by cases b <;> rfl

@[simp] theorem isCommitted_commitIf (b : Bool) (r : Result ζ α) :
    (r.commitIf b).isCommitted = (b || r.isCommitted) := by cases b <;> rfl

end Result

/-- The context after the application that ends a repetition: a failure has left the context `z` before it. -/
def leftBy (z : Context) (last : Outcome) : Context :=
  match last.verdict with
  | .success rest _ => rest
  | .failure _ _ => z

theorem foldResult_eq {c : Bool} {acc : Value} {z : Context} {last : Outcome} (h : last.isFatal = false) :
    foldResult c acc z last = (Result.success (leftBy z last) acc).commitIf (c || last.isCommitted) := by
  match last, h with
  | .plain (.success _ _), _ | .committed (.success _ _), _ => rfl
  | .plain (.failure _ _), _ => exact congrArg (Result.commitIf · _) (Bool.or_false c).symm

/-- Values that are kept one after the other, the newest first. -/
theorem items_foldl_keep (vs : List Value) (acc : Value) :
    (vs.foldl (fun acc v => .keep v acc) acc).items = vs.reverse ++ acc.items := by
  induction vs generalizing acc with
  | nil => rfl
  | cons v vs ih =>
    rw [List.foldl_cons, ih, List.reverse_cons, List.append_assoc]
    rfl

namespace Engine

variable {e : Engine} {env : Env} {p : Parser}

theorem consumed_le {z : Context} {w w' : World} {r : Outcome}
    (h : (e.semantics env).eval p z w = some (.ok r, w')) : z.input.consumed ≤ r.verdict.rest.input.consumed :=
  have hall : ∀ q : Parser, q.Throughout (consumedFrom z.input.consumed).Admits :=
    Parser.throughout_of_forall (admits_consumedFrom _)
  (eval_within (D := consumedFrom z.input.consumed) (fun _ => hall _) (hall p) (Nat.le_refl _) h).2

/-! ## Chains -/

/-- A match: whether it is committed, its value, and the context after it. -/
structure Match where
  committed : Bool
  value : Value
  after : Context

/-- The result that is a match. -/
def Match.result (m : Match) : Outcome := (Result.success m.after m.value).commitIf m.committed

/-- The context after some matches. -/
def endOf (z : Context) : List Match → Context
  | [] => z
  | m :: ms => endOf m.after ms

theorem endOf_append (z : Context) (ms ms' : List Match) : endOf z (ms ++ ms') = endOf (endOf z ms) ms' := by
  induction ms generalizing z with
  | nil => rfl
  | cons m ms ih => exact ih m.after

variable (e env p) in
/-- The matches of a parser from a context on, each of which consumed something, up to an application of the parser that
fails or consumes nothing. -/
inductive Chain : Context → World → List Match → Outcome → World → Prop
  | stop {z : Context} {w w' : World} {last : Outcome} (hlast : Ends (fun n => e.result env n p z) w (.ok last) w')
      (hstop : OnDemand.Stops z last) : Chain z w [] last w'
  | link {z : Context} {w w₁ w' : World} {m : Match} {ms : List Match} {last : Outcome}
      (hm : Ends (fun n => e.result env n p z) w (.ok m.result) w₁)
      (hlarger : z.input.consumed < m.after.input.consumed) (hrest : Chain m.after w₁ ms last w') :
      Chain z w (m :: ms) last w'

theorem Match.result_verdict (m : Match) : m.result.verdict = .success m.after m.value := Result.verdict_commitIf _ _

theorem Match.result_isCommitted (m : Match) : m.result.isCommitted = m.committed :=
  (Result.isCommitted_commitIf _ _).trans (Bool.or_false _)

theorem Match.not_stops {m : Match} {z : Context} (h : z.input.consumed < m.after.input.consumed) :
    ¬ OnDemand.Stops z m.result := by
  rw [OnDemand.Stops, m.result_verdict]
  exact Nat.ne_of_gt h

/-- A success is a match. -/
theorem exists_match {r : Outcome} {z : Context} {v : Value} (h : r.verdict = .success z v) :
    ∃ m : Match, m.result = r ∧ m.after = z ∧ m.value = v := by
  refine ⟨⟨r.isCommitted, v, z⟩, ?_, rfl, rfl⟩
  match r, h with
  | .plain _, rfl | .committed _, rfl => rfl

theorem Match.result_injective {m m' : Match} (h : m.result = m'.result) : m = m' := by
  have hcommitted := (m.result_isCommitted.symm.trans (congrArg _ h)).trans m'.result_isCommitted
  have hverdict := (m.result_verdict.symm.trans (congrArg _ h)).trans m'.result_verdict
  obtain ⟨b, v, z⟩ := m
  obtain ⟨b', v', z'⟩ := m'
  cases hcommitted
  cases hverdict
  rfl

theorem Match.bind_result (m : Match) (k : Context → Value → Course Outcome) :
    m.result.bind k = Result.commitIf m.committed <$> k m.after m.value := by
  obtain ⟨_ | _, v, z⟩ := m
  · exact (id_map _).symm
  · exact (map_eq_pure_bind _ _).symm

theorem Match.map_result (m : Match) (f : Value → Course Value) :
    m.result.map f = (fun v => Match.result ⟨m.committed, v, m.after⟩) <$> f m.value := by
  obtain ⟨_ | _, v, z⟩ := m <;> exact (map_eq_pure_bind _ _).symm

theorem bind_failed {r : Outcome} {rest : Context} {message : String} (h : r.verdict = .failure rest message)
    (k : Context → Value → Course Outcome) : r.bind k = pure r := by
  match r, h with
  | .plain _, rfl | .committed _, rfl => rfl

theorem map_failed {r : Outcome} {rest : Context} {message : String} (h : r.verdict = .failure rest message)
    (f : Value → Course Value) : r.map f = pure r := by
  match r, h with
  | .plain _, rfl | .committed _, rfl => rfl

/-- A parser and another one that depends on its value: the first fails, or it matches and the second one goes on. -/
theorem bind_pure_cases {q : Value → Parser} {z : Context} {w w' : World} {r : Outcome}
    (h : (e.semantics env).eval (.bind p fun v => .pure (q v)) z w = some (.ok r, w')) :
    ((e.semantics env).eval p z w = some (.ok r, w') ∧ ∃ rest message, r.verdict = .failure rest message) ∨
    ∃ m w₁ r₁, (e.semantics env).eval p z w = some (.ok (Match.result m), w₁) ∧
      (e.semantics env).eval (q m.value) m.after w₁ = some (.ok r₁, w') ∧ r = r₁.commitIf m.committed := by
  rw [eval_bind_pure] at h
  obtain ⟨r₁, w₁, hr₁, hbind⟩ := Course.bind_eq_ok h
  cases hv : r₁.verdict with
  | failure rest message =>
    rw [bind_failed hv] at hbind
    cases hbind
    exact .inl ⟨hr₁, rest, message, hv⟩
  | success z₁ v =>
    obtain ⟨m, rfl, -⟩ := exists_match hv
    rw [m.bind_result, map_eq_pure_bind] at hbind
    obtain ⟨r, w₂, hr, hpure⟩ := Course.bind_eq_ok hbind
    cases hpure
    exact .inr ⟨m, w₁, r, hr₁, hr, rfl⟩

/-- The value of a parser, changed by a callback: the parser fails, or it matches and the callback answers. -/
theorem map_cases {f : Value → Act Value} {z : Context} {w w' : World} {r : Outcome}
    (h : (e.semantics env).eval (.map p f) z w = some (.ok r, w')) :
    ((e.semantics env).eval p z w = some (.ok r, w') ∧ ∃ rest message, r.verdict = .failure rest message) ∨
    ∃ m w₁ v, (e.semantics env).eval p z w = some (.ok (Match.result m), w₁) ∧
      (e.semantics env).exec (f m.value) w₁ = some (.ok v, w') ∧ r = Match.result ⟨m.committed, v, m.after⟩ := by
  rw [(e.compositional env).eval_map] at h
  obtain ⟨r₁, w₁, hr₁, hmap⟩ := Course.bind_eq_ok h
  cases hv : r₁.verdict with
  | failure rest message =>
    rw [map_failed hv] at hmap
    cases hmap
    exact .inl ⟨hr₁, rest, message, hv⟩
  | success z₁ v =>
    obtain ⟨m, rfl, -⟩ := exists_match hv
    rw [m.map_result, map_eq_pure_bind] at hmap
    obtain ⟨v, w₂, hv, hpure⟩ := Course.bind_eq_ok hmap
    cases hpure
    exact .inr ⟨m, w₁, v, hr₁, hv, rfl⟩

/-- There is one chain at most. -/
theorem Chain.unique {z : Context} {w w' w'' : World} {ms ms' : List Match} {last last' : Outcome}
    (h : Chain e env p z w ms last w') (h' : Chain e env p z w ms' last' w'') : ms' = ms ∧ last' = last ∧ w'' = w' := by
  -- an application has one result
  have hone : ∀ {z w r r' w₁ w₂}, Ends (fun n => e.result env n p z) w (.ok r) w₁ →
      Ends (fun n => e.result env n p z) w (.ok r') w₂ → r' = r ∧ w₂ = w₁ := by
    intro z w r r' w₁ w₂ h h'
    cases (ends_result.1 h).symm.trans (ends_result.1 h')
    exact ⟨rfl, rfl⟩
  induction h generalizing ms' last' w'' with
  | stop hlast hstop =>
    cases h' with
    | stop hlast' _ =>
      obtain ⟨rfl, rfl⟩ := hone hlast hlast'
      exact ⟨rfl, rfl, rfl⟩
    | link hm hlarger _ =>
      obtain ⟨rfl, -⟩ := hone hlast hm
      exact absurd hstop (Match.not_stops hlarger)
  | link hm hlarger _ ih =>
    cases h' with
    | stop hlast' hstop =>
      obtain ⟨rfl, -⟩ := hone hm hlast'
      exact absurd hstop (Match.not_stops hlarger)
    | link hm' _ hrest' =>
      obtain ⟨hresult, rfl⟩ := hone hm hm'
      cases Match.result_injective hresult
      obtain ⟨rfl, rfl, rfl⟩ := ih hrest'
      exact ⟨rfl, rfl, rfl⟩

/-- The application that ends the matches. -/
theorem Chain.last_ends {z : Context} {w w' : World} {ms : List Match} {last : Outcome}
    (h : Chain e env p z w ms last w') :
    OnDemand.Stops (endOf z ms) last ∧ ∃ w₀, Ends (fun n => e.result env n p (endOf z ms)) w₀ (.ok last) w' := by
  induction h with
  | stop hlast hstop => exact ⟨hstop, _, hlast⟩
  | link _ _ _ ih => exact ih

/-! ## The loop -/

section Fold

variable {f : Value → Value → Act Value} {g : Value → Value → Value}

/-- The turns of a fold whose function does nothing but answer are the matches of a chain. -/
theorem chain_of_turns (hf : ∀ {z w m w₁ acc acc' w'}, (e.semantics env).eval p z w = some (.ok (Match.result m), w₁) →
      (e.semantics env).exec (f acc m.value) w₁ = some (.ok acc', w') → acc' = g acc m.value ∧ w' = w₁)
    {s s' : FoldState} {last : Outcome} {w' : World} (hturns : ReflTransGen (Folded e env p f) s s')
    (hlast : (e.semantics env).eval p s'.context s'.world = some (.ok last, w')) (hstop : OnDemand.Stops s'.context last) :
    ∃ ms, Chain e env p s.context s.world ms last w' ∧ s'.context = endOf s.context ms ∧
      s'.acc = (ms.map Match.value).foldl g s.acc ∧ s'.committed = (s.committed || ms.any Match.committed) := by
  -- the induction is on the turns, from the last one back
  induction hturns using ReflTransGen.head_induction_on with
  | refl => exact ⟨[], .stop (ends_result.2 hlast) hstop, rfl, rfl, (Bool.or_false _).symm⟩
  | head hturn _ ih =>
    obtain ⟨ms, hchain, hcontext, hacc, hcommitted⟩ := ih
    cases hturn with
    | @turn c acc z w r w₁ z' v acc' w₂ hr hv hconsumed hexec =>
      obtain ⟨m, rfl, rfl, rfl⟩ := exists_match hv
      obtain ⟨rfl, rfl⟩ := hf hr hexec
      have hle := consumed_le hr
      rw [m.result_verdict] at hle
      refine ⟨m :: ms, .link (ends_result.2 hr) (Nat.lt_of_le_of_ne hle (Ne.symm hconsumed)) hchain, hcontext, hacc, ?_⟩
      rw [hcommitted, m.result_isCommitted, List.any_cons, Bool.or_assoc]

/-- The matches of a chain are turns of a fold whose function always answers. -/
theorem turns_of_chain (hf : ∀ {z w m w₁} acc, (e.semantics env).eval p z w = some (.ok (Match.result m), w₁) →
      (e.semantics env).exec (f acc m.value) = pure (g acc m.value))
    {z : Context} {w w' : World} {ms : List Match} {last : Outcome} (h : Chain e env p z w ms last w')
    (c : Bool) (acc : Value) : ∃ w₁, ReflTransGen (Folded e env p f) ⟨c, acc, z, w⟩
      ⟨c || ms.any Match.committed, (ms.map Match.value).foldl g acc, endOf z ms, w₁⟩ ∧
      (e.semantics env).eval p (endOf z ms) w₁ = some (.ok last, w') ∧ OnDemand.Stops (endOf z ms) last := by
  induction h generalizing c acc with
  | stop hlast hstop =>
    rw [List.any_nil, Bool.or_false]
    exact ⟨_, .refl, ends_result.1 hlast, hstop⟩
  | @link z w w₁ w' m ms last hm hlarger hrest ih =>
    have hr := ends_result.1 hm
    obtain ⟨w₂, hturns, hlast⟩ := ih (c || m.committed) (g acc m.value)
    have hturn : Folded e env p f ⟨c, acc, z, w⟩ ⟨c || m.result.isCommitted, g acc m.value, m.after, w₁⟩ :=
      .turn hr m.result_verdict (Nat.ne_of_gt hlarger) (congrFun (hf acc hr) w₁)
    rw [m.result_isCommitted] at hturn
    rw [List.any_cons, ← Bool.or_assoc]
    exact ⟨w₂, .head hturn hturns, hlast⟩

variable {init : Value} {z : Context} {w w' : World} {r : Outcome}

/-- **A fold whose function does nothing but answer** goes through a chain of matches and folds their values. -/
theorem chain_of_repeatFold (hf : ∀ {z w m w₁ acc acc' w'}, (e.semantics env).eval p z w = some (.ok (Match.result m), w₁) →
      (e.semantics env).exec (f acc m.value) w₁ = some (.ok acc', w') → acc' = g acc m.value ∧ w' = w₁)
    (h : (e.semantics env).eval (.repeatFold p init f) z w = some (.ok r, w')) :
    ∃ ms last, Chain e env p z w ms last w' ∧
      r = foldResult (ms.any Match.committed) ((ms.map Match.value).foldl g init) (endOf z ms) last := by
  obtain ⟨s, last, hturns, hlast, hstop, rfl⟩ := fold_stops.1 h
  obtain ⟨ms, hchain, hcontext, hacc, hcommitted⟩ := chain_of_turns hf hturns hlast hstop
  exact ⟨ms, last, hchain, by rw [hcontext, hacc, hcommitted, Bool.false_or]⟩

/-- **A fold whose function always answers** ends where there is a chain of matches. -/
theorem repeatFold_of_chain (hf : ∀ {z w m w₁} acc, (e.semantics env).eval p z w = some (.ok (Match.result m), w₁) →
      (e.semantics env).exec (f acc m.value) = pure (g acc m.value)) {ms : List Match} {last : Outcome}
    (h : Chain e env p z w ms last w') : (e.semantics env).eval (.repeatFold p init f) z w =
      some (.ok (foldResult (ms.any Match.committed) ((ms.map Match.value).foldl g init) (endOf z ms) last), w') := by
  obtain ⟨w₁, hturns, hlast, hstop⟩ := turns_of_chain hf h false init
  exact fold_stops.2 ⟨_, last, hturns, hlast, hstop, rfl⟩

end Fold

section Collect

variable {z : Context} {w w' : World} {r : Outcome}

/-- Keeping a value does nothing but answer. -/
theorem exec_collecting {acc v acc' : Value} {w w' : World}
    (h : (e.semantics env).exec (collecting acc v) w = some (.ok acc', w')) : acc' = .keep v acc ∧ w' = w := by
  rw [collecting, exec_pure] at h
  cases h
  exact ⟨rfl, rfl⟩

theorem foldl_keep (vs us : List Value) :
    vs.foldl (fun acc v => Value.keep v acc) (Value.kept us) = Value.kept (vs.reverse ++ us) := by
  induction vs generalizing us with
  | nil => rfl
  | cons v vs ih =>
    rw [List.foldl_cons, Value.keep_kept, ih, List.reverse_cons, List.append_assoc]
    rfl

/-- **A fold that collects** keeps the values of a chain of matches, the newest first. -/
theorem collect_eq_ok : (e.semantics env).eval (.repeatFold p (.kept []) collecting) z w = some (.ok r, w') ↔
    ∃ ms last, Chain e env p z w ms last w' ∧
      r = foldResult (ms.any Match.committed) (.kept (ms.map Match.value).reverse) (endOf z ms) last := by
  constructor
  · intro h
    obtain ⟨ms, last, hchain, hr⟩ := chain_of_repeatFold (g := fun acc v => .keep v acc) (fun _ => exec_collecting) h
    rw [foldl_keep, List.append_nil] at hr
    exact ⟨ms, last, hchain, hr⟩
  · rintro ⟨ms, last, hchain, rfl⟩
    rw [repeatFold_of_chain (g := fun acc v => .keep v acc) (fun _ _ => exec_pure _) hchain, foldl_keep, List.append_nil]

end Collect

/-- What became of a fold does not depend on what was folded. -/
theorem foldResult_of_match {c : Bool} {acc v : Value} {z : Context} {last : Outcome} {m : Match}
    (h : m.result = foldResult c acc z last) :
    m.value = acc ∧ Match.result ⟨m.committed, v, m.after⟩ = foldResult c v z last := by
  cases hfatal : last.isFatal with
  | true =>
    match last, hfatal with
    | .committed (.failure rest message), _ => cases m.result_verdict.symm.trans (congrArg Result.verdict h)
  | false =>
    rw [foldResult_eq hfatal] at h ⊢
    cases Match.result_injective (h.trans (show _ = Match.result ⟨_, acc, _⟩ from rfl))
    exact ⟨rfl, rfl⟩

/-- The turns of a fold that collects are the matches of a chain. -/
theorem chain_of_folded {s s' : FoldState} {last : Outcome} {w' : World}
    (hturns : ReflTransGen (Folded e env p collecting) s s')
    (hlast : (e.semantics env).eval p s'.context s'.world = some (.ok last, w')) (hstop : OnDemand.Stops s'.context last) :
    ∃ ms, Chain e env p s.context s.world ms last w' ∧ s'.context = endOf s.context ms ∧
      s'.acc.items = (ms.map Match.value).reverse ++ s.acc.items ∧
      s'.committed = (s.committed || ms.any Match.committed) := by
  obtain ⟨ms, hchain, hcontext, hacc, hcommitted⟩ :=
    chain_of_turns (g := fun acc v => .keep v acc) (fun _ => exec_collecting) hturns hlast hstop
  exact ⟨ms, hchain, hcontext, by rw [hacc, items_foldl_keep], hcommitted⟩

/-- What is shown of `many` at first is the tag of its result. -/
theorem ends_rawTag_many {z : Context} {w w' : World} {r : Outcome}
    (h : (e.semantics env).eval (.many p) z w = some (.ok r, w')) :
    ∃ w₁, Ends (fun n => e.rawTag env n (.many p) z) w (.ok r.tag) w₁ :=
  ends_rawTag_of_outright (fun _ _ _ _ => OnDemand.many_finish) h

/-- What `many` makes of the result of its loop. -/
theorem map_foldResult {s : FoldState} {last r : Outcome} {w w' : World}
    (h : ((foldResult s.committed s.acc s.context last).map fun acc =>
      (e.semantics env).exec (Act.array acc.items.reverse)) w = some (.ok r, w')) :
    (last.isFatal = true ∧ r = last) ∨ (last.isFatal = false ∧ ∃ id,
      r = (Result.success (leftBy s.context last) (.array id s.acc.items.reverse)).commitIf
        (s.committed || last.isCommitted)) := by
  cases hfatal : last.isFatal with
  | true =>
    match last, hfatal with
    | .committed (.failure rest message), _ => cases h; exact .inl ⟨rfl, rfl⟩
  | false =>
    rw [foldResult_eq hfatal] at h
    refine .inr ⟨rfl, ?_⟩
    cases hb : s.committed || last.isCommitted <;> rw [hb] at h
    · obtain ⟨v, w₁, hv, h⟩ := Course.bind_eq_ok h
      obtain ⟨id, rfl⟩ := exec_array hv
      cases h
      exact ⟨id, rfl⟩
    · obtain ⟨v, w₁, hv, h⟩ := Course.bind_eq_ok h
      obtain ⟨id, rfl⟩ := exec_array hv
      cases h
      exact ⟨id, rfl⟩

/-- **`many` is the longest chain of matches.** Where `many` ends in a result, there is one chain of matches that each
consumed something, up to an application that fails or consumes nothing. If that is a committed failure, it is the result.
Otherwise the result is a success with the values of the matches, in order, at the context which the last application has
left, and that is the context before it if it failed. The result is committed exactly if one of the applications was,
which shows at once, and it is no plain failure. -/
theorem many_longest {z : Context} {w w' : World} {r : Outcome}
    (h : Ends (fun n => e.result env n (.many p) z) w (.ok r) w') :
    ∃ ms last w₁, Chain e env p z w ms last w₁ ∧
      (∀ ms' last' w₁', Chain e env p z w ms' last' w₁' → ms' = ms ∧ last' = last ∧ w₁' = w₁) ∧
      (match last with
        | .committed (.failure _ _) => r = last
        | _ => ∃ id rest, r.verdict = .success rest (.array id (ms.map Match.value)) ∧
            rest = match last.verdict with
              | .success rest _ => rest
              | .failure _ _ => endOf z ms) ∧
      r.isCommitted = (ms.any Match.committed || last.isCommitted) ∧ r.isFailure = false ∧
      ∃ w₂, Ends (fun n => e.rawTag env n (.many p) z) w (.ok r.tag) w₂ := by
  have heval := ends_result.1 h
  have htag := ends_rawTag_many heval
  rw [Parser.many, eval_meaning rfl] at heval
  obtain ⟨r₁, w₁, hr₁, hmap⟩ := Course.bind_eq_ok heval
  obtain ⟨s, last, hturns, hlast, hstop, rfl⟩ := fold_stops.1 hr₁
  obtain ⟨ms, hchain, hcontext, hitems, hcommitted⟩ := chain_of_folded hturns hlast hstop
  rw [Bool.false_or] at hcommitted
  refine ⟨ms, last, w₁, hchain, fun _ _ _ h' => hchain.unique h', ?_⟩
  obtain ⟨hfatal, rfl⟩ | ⟨hfatal, id, rfl⟩ := map_foldResult hmap
  · match r, hfatal with
    | .committed (.failure rest message), _ => exact ⟨rfl, (Bool.or_true _).symm, rfl, htag⟩
  · rw [hitems, show (Value.kept []).items = [] from rfl, List.append_nil, List.reverse_reverse, hcommitted, hcontext] at *
    refine ⟨?_, by rw [Result.isCommitted_commitIf]; exact Bool.or_false _, ?_, htag⟩
    · match last, hfatal with
      | .plain (.success _ _), _ | .committed (.success _ _), _ | .plain (.failure _ _), _ =>
        exact ⟨id, _, Result.verdict_commitIf _ _, rfl⟩
    · cases ms.any Match.committed || last.isCommitted <;> rfl

theorem many_longest_decided : ∃ ms last w₁,
    Chain (lazy true) ((lazy true).env (fun _ => .fail "") {}) decided ⟨.ofList [.text "a", .text "b"], .absent⟩ {} ms
      last w₁ ∧ ms.map Match.value = [.text "a", .text "b"] := by
  have hmany : Ends (fun n => (lazy true).result ((lazy true).env (fun _ => .fail "") {}) n (.many decided)
      ⟨.ofList [.text "a", .text "b"], .absent⟩) {}
      (.ok (.committed (.success ⟨.tokens [] 2, .absent⟩ (.array (.made 0) [.text "a", .text "b"])))) { made := 1 } :=
    ⟨20, rfl⟩
  obtain ⟨ms, last, w₁, hchain, -, hvalues, -⟩ := many_longest hmany
  refine ⟨ms, last, w₁, hchain, ?_⟩
  match last, hvalues with
  | .committed (.failure _ _), h => cases h
  | .plain (.success _ _), h | .plain (.failure _ _), h | .committed (.success _ _), h =>
    obtain ⟨id, rest, hv, -⟩ := h
    injection hv with _ harray
    injection harray with _ hitems
    exact hitems.symm

end Engine

end CommittedChoice
