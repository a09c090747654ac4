import CommittedChoice.Proofs.Halting
import CommittedChoice.Proofs.Streaming

/-!
# Lists end

A list goes on only after an item that consumed a token, so reading the list of a parser that ends on finitely many tokens
comes to an end, and there are no more items than tokens.

- `OnDemand.exists_reads`: a list whose first node waits is read to its end;
- `Remainder.Finite`, `Engine.Halts`: inputs of finitely many tokens, and parsers whose parses of such inputs end;
- `Engine.repetition_halts`: repetitions of such parsers end, and so do lists.
-/

namespace CommittedChoice

open Run (limit Ends)
open Strict (Outcome)

/-! ## Reading a list to its end -/

/-- A list that has a node was made. -/
theorem World.lt_of_node {w : World} {l k : Nat} {c : Cell Unparsed Node} (h : (w.nodesOf l)[k]? = some c) :
    l < w.lists.size := by
  by_contra hl
  rw [World.nodesOf, Array.getElem?_eq_none (Nat.le_of_not_lt hl)] at h
  cases h

/-- A node that was added waits, whatever becomes of the nodes before it. -/
theorem World.addNode_waits {w : World} {l k : Nat} (hl : l < w.lists.size) (hk : k < (w.nodesOf l).size) (u : Unparsed)
    (c : Cell Unparsed Node) :
    (((World.listNodes l).set k c (OnDemand.Means.addNode l u w).2).nodesOf l)[(w.nodesOf l).size]? =
      some (.pending u) := by
  rw [World.nodesOf_set_of_ne (fun h => Nat.ne_of_lt hk h.2), World.nodesOf_addNode, if_pos ⟨rfl, hl⟩,
    Array.getElem?_push_size]

/-- The first node of a list that was made waits. -/
theorem World.makeList_waits (w : World) (u : Unparsed) :
    ((OnDemand.Means.makeList u w).2.nodesOf w.lists.size)[0]? = some (.pending u) := by
  rw [World.nodesOf_makeList, if_pos rfl]
  rfl

namespace OnDemand

variable {env : Env} {ts : List Value} {p : Parser} {stateful : Bool}

/-- What a parser that ends shows: a fault, a failure, or a success whose value is asked for and has an end. -/
theorem reveal_of_orderly (hg : ∀ name, (env.grammar name).PushFree) (hp : (Engine.lazy stateful).Orderly env ts p)
    {z : Context} {w : World} (hz : z.input.Fits ts w.feed) :
    (∃ e w', reveal env (.apply p z) w = some (.error e, w')) ∨
      (∃ c rest message w', reveal env (.apply p z) w = some (.ok ⟨c, .failure rest message⟩, w')) ∨
      ∃ c q w' z' x w'', reveal env (.apply p z) w = some (.ok ⟨c, .success q⟩, w') ∧ w.Before w' ∧
        late env q.rest w' = some (.ok z', w') ∧ late env q.value w' = some (x, w'') ∧
        z'.input.Fits ts w'.feed ∧ z.input.Accounts ts False z'.input := by
  obtain ⟨b, hb⟩ := hp.halts z w hz
  change (reveal env (.apply p z) >>= Revealed.read env) w = some b at hb
  rcases Course.bind_eq_some hb with ⟨⟨c, q | ⟨rest, message⟩⟩, w', hreveal, hread⟩ | ⟨e, w', hreveal, -⟩
  · have hadmits : ∀ q : Parser, q.PushFree → q.Throughout (accounts ts False z.input).Admits :=
      fun q hq => Parser.Throughout.weaken admits_accounts q (.inr hq)
    have hs : (accounts ts False z.input).Suspends w (.apply p z) := by
      rw [Domain.Suspends]
      exact ⟨hadmits p hp.pushFree, hz, .refl z.input⟩
    obtain ⟨hbefore, z', hanchored, hfits, haccounts⟩ := Domain.reveal_within (fun name => hadmits _ (hg name)) hs hreveal
    rw [read_anchored hanchored] at hread
    have hvalue : ∃ x w'', late env q.value w' = some (x, w'') := by
      rcases Course.bind_eq_some hread with ⟨v, w'', hv, -⟩ | ⟨e, w'', hv, -⟩
      · exact ⟨_, _, hv⟩
      · exact ⟨_, _, hv⟩
    obtain ⟨x, w'', hx⟩ := hvalue
    exact .inr (.inr ⟨c, q, w', z', x, w'', hreveal, hbefore, hanchored.late, hx, hfits, haccounts⟩)
  · exact .inr (.inl ⟨c, rest, message, w', hreveal⟩)
  · exact .inl ⟨e, w', hreveal⟩

/-- **A list whose first node waits is read to its end,** and it has no more items than there are tokens. -/
theorem exists_reads (hg : ∀ name, (env.grammar name).PushFree) (hp : (Engine.lazy stateful).Orderly env ts p)
    {l k : Nat} {c : Bool} {z : Context} {w : World} (hcell : (w.nodesOf l)[k]? = some (.pending ⟨p, z, c⟩))
    (hz : z.input.Fits ts w.feed) :
    ∃ vs x w', Reads (nodeAt env) (nodeNumber l k) w vs x w' ∧ vs.length ≤ Engine.tokensLeft ts z := by
  -- the induction is on the number of tokens that are left before the item
  induction hleft : Engine.tokensLeft ts z using Nat.strong_induction_on generalizing k c z w with
  | _ left ih =>
    have hstop : ∀ {x : Except Fault Node} {w' : World}, (∀ v next, x ≠ .ok (.item v next)) →
        (reveal env (.apply p z) >>= nodeOf env l ⟨p, z, c⟩) ((World.listNodes l).set k .forcing w) = some (x, w') →
        ∃ vs x w', Reads (nodeAt env) (nodeNumber l k) w vs x w' ∧ vs.length ≤ left := by
      intro x w' hitem hx
      have hnode := nodeAt_pending hcell hx
      match x, hitem with
      | .error e, _ => exact ⟨[], _, _, .fault hnode, Nat.zero_le _⟩
      | .ok (.ended e), _ => exact ⟨[], _, _, .ended hnode, Nat.zero_le _⟩
      | .ok (.item v next), hitem => exact absurd rfl (hitem v next)
    rcases reveal_of_orderly hg hp (w := (World.listNodes l).set k .forcing w) hz with ⟨e, w', hreveal⟩ |
      ⟨d, rest, message, w', hreveal⟩ | ⟨d, q, w₂, z', x, w₃, hreveal, hbefore, hrest, hvalue, hfits, haccounts⟩
    · exact hstop (fun _ _ h => by cases h) (Course.bind_of_error hreveal)
    · exact hstop (fun _ _ h => by cases h) (Course.bind_of_ok hreveal)
    · by_cases hconsumed : z'.input.consumed = z.input.consumed
      · have hended : (reveal env (.apply p z) >>= nodeOf env l ⟨p, z, c⟩) ((World.listNodes l).set k .forcing w) =
            some (.ok (.ended ⟨z, if c || d then .committed else .plain⟩), w₂) := by
          rw [Course.bind_of_ok hreveal]
          refine (Course.bind_of_ok hrest).trans ?_
          rw [if_pos hconsumed]
          rfl
        exact hstop (fun _ _ h => by cases h) hended
      · have hbind : (reveal env (.apply p z) >>= nodeOf env l ⟨p, z, c⟩) ((World.listNodes l).set k .forcing w) =
            (late env q.value >>= fun v => Course.ofRun (Means.addNode l ⟨p, z', c || d⟩) >>= fun next =>
              pure (.item (itemOf env v z' next) next)) w₂ := by
          rw [Course.bind_of_ok hreveal]
          refine (Course.bind_of_ok hrest).trans ?_
          rw [if_neg hconsumed]
        cases x with
        | error e => exact hstop (x := .error e) (fun _ _ h => by cases h) (hbind.trans (Course.bind_of_error hvalue))
        | ok v =>
          have hnode := nodeAt_pending hcell (hbind.trans (Course.bind_of_ok hvalue))
          have hgrown := hbefore.trans (late_before hvalue)
          obtain ⟨us, hdropped, -, hcount⟩ := haccounts.dropped id
          have hlt : Engine.tokensLeft ts z' < left := by
            rw [← hleft, Engine.tokensLeft, Engine.tokensLeft, hdropped, List.length_append]
            omega
          have hplace : k < (w₃.nodesOf l).size := by
            refine Nat.lt_of_lt_of_le ?_ (hgrown.nodes l)
            rw [World.size_nodesOf_set]
            exact (Array.getElem?_eq_some_iff.1 hcell).1
          have hlist : l < w₃.lists.size := by
            refine Nat.lt_of_lt_of_le (World.lt_of_node hcell) (Nat.le_trans ?_ hgrown.lists)
            exact Nat.le_of_eq (Array.size_modify).symm
          have hfits' : z'.input.Fits ts w₃.feed := hfits.later (late_before hvalue).feed
          -- the next node waits for the item after this one
          obtain ⟨vs, y, w', hreads, hle⟩ := ih _ hlt (World.addNode_waits hlist hplace _ _) hfits' rfl
          exact ⟨_ :: vs, y, w', .item hnode hreads, by simp only [List.length_cons]; omega⟩

/-- The list of a parser is read to its end, as a whole or item by item, and gives these items. The end is that of the list
or a fault on the way. -/
structure ReadOut (env : Env) (p : Parser) (z : Context) (w : World) (vs : List Value) : Prop where
  whole : ∃ i w₁ x w₂, Ends (fun n => (means env n).fresh (.stream p) z) w (.ok (.ofList i)) w₁ ∧
    Ends (fun n => (means env n).exec (Act.toArray i)) w₁ x w₂ ∧ ∀ vs', x = .ok vs' → vs' = vs
  items : ∃ n x w', Yields (means env n) (.unstarted p z) w vs x w'

theorem Reads.readOut {z : Context} {w w₁ w₂ : World} {i : Nat} {vs : List Value} {x : Except Fault ListEnd}
    (hi : Means.makeList ⟨p, z, false⟩ w = (.ok i, w₁)) (h : Reads (nodeAt env) i w₁ vs x w₂) : ReadOut env p z w vs where
  whole := by
    refine ⟨i, w₁, x.bind fun e => e.reading vs, w₂, ?_, ?_, fun vs' hvs' => ?_⟩
    · exact (Run.limit_eq_some (steady_answer env _)).1 (answer_stream_eq hi)
    · exact (Run.limit_eq_some (steady_exec env _)).1 h.array
    · cases x with
      | error err => cases hvs'
      | ok e =>
        rw [Except.bind, ListEnd.reading] at hvs'
        cases hfault : e.fault? with
        | some err => rw [hfault] at hvs'; cases hvs'
        | none => rw [hfault] at hvs'; cases hvs'; rfl
  items := by
    obtain ⟨n, hn⟩ := h.fuel
    exact ⟨n, _, w₂, hn.yields.unstarted hi⟩

end OnDemand

/-! ## Finite inputs -/

/-- The remainder can be read to its end, and these are its tokens. -/
def Remainder.Finite (s : Remainder) (w : World) (us : List Value) : Prop :=
  s.WellFormed w.feed ∧ ∃ w', Ends (fun n => Run.drain n s []) w (.ok us) w'

theorem Remainder.Finite.fits {s : Remainder} {w : World} {us : List Value} (h : s.Finite w us) :
    ∃ ts, s.Fits ts w.feed ∧ us = s.left ts := by
  obtain ⟨hs, w', n, hn⟩ := h
  exact Run.exists_fits hs hn

theorem Remainder.Fits.finite {s : Remainder} {w : World} {ts : List Value} (h : s.Fits ts w.feed) :
    s.Finite w (s.left ts) :=
  ⟨h.wellFormed, Run.ends_drain h []⟩

namespace Engine

variable {e : Engine} {env : Env} {p : Parser}

variable (e env) in
/-- Every parse of a finite input ends, in a verdict or in a fault. -/
def Halts (p : Parser) : Prop :=
  ∀ z w us, z.input.Finite w us → ∃ x w', Ends (fun n => e.parse env n p z) w x w'

/-- A parse ends where the parser does. -/
theorem ends_parse_iff_halts {z : Context} {w : World} :
    (∃ x w', Ends (fun n => e.parse env n p z) w x w') ↔ ((e.semantics env).eval p z).Halts w := by
  have hlimit : (limit fun n => e.parse env n p z) =
      (e.semantics env).eval p z >>= fun r => Course.ofRun (traced env r.verdict) := by
    rw [limit_parse_eq, limit_verdict_eval, bind_map_left]
  constructor
  · rintro ⟨x, w', h⟩
    rw [← Run.limit_eq_some (steady_parse _ _ p z), hlimit] at h
    rcases Course.bind_eq_some h with ⟨r, w₁, hr, -⟩ | ⟨err, w₁, hr, -⟩
    · exact ⟨_, hr⟩
    · exact ⟨_, hr⟩
  · intro h
    obtain ⟨⟨x, w'⟩, hx⟩ : ((e.semantics env).eval p z >>= fun r => Course.ofRun (traced env r.verdict)).Halts w :=
      h.bind fun r w₁ _ => (traced_eq env r.verdict w₁).elim fun lines hv => ⟨_, hv⟩
    rw [← hlimit] at hx
    exact ⟨x, w', (Run.limit_eq_some (steady_parse _ _ p z)).1 hx⟩

theorem Halts.orderly (h : e.Halts env p) (hfree : p.PushFree) (ts : List Value) : e.Orderly env ts p where
  halts z w hz := ends_parse_iff_halts.1 (h z w _ hz.finite)
  pushFree := hfree

theorem halts_of_orderly (h : ∀ ts, e.Orderly env ts p) : e.Halts env p := by
  intro z w us hz
  obtain ⟨ts, hfits, -⟩ := hz.fits
  exact ends_parse_iff_halts.2 ((h ts).halts z w hfits)

/-! ## Repetitions end -/

/-- No more items than tokens. -/
theorem items_le (hg : ∀ name, (env.grammar name).PushFree) (hp : p.PushFree) {z rest : Context} {w w' : World}
    {us : List Value} {v : Value} (hz : z.input.Finite w us)
    (hv : Ends (fun n => e.parse env n (.many p) z) w (.ok (.success rest v)) w') :
    ∃ id vs, v = .array id vs ∧ vs.length ≤ us.length := by
  obtain ⟨ts, hfits, rfl⟩ := hz.fits
  obtain ⟨r, lines, hr, hverdict⟩ := eval_of_ends hv
  obtain ⟨id, vs, rfl, hle⟩ := meets_many hg hp z w r _ rest v hfits hr hverdict
  exact ⟨id, vs, rfl, Nat.le_trans (Nat.le_add_right _ _) hle⟩

/-- The list of a parser is read to its end. -/
theorem list_ends {stateful : Bool} (hg : ∀ name, (env.grammar name).PushFree) (hfree : p.PushFree)
    (hp : (lazy stateful).Halts env p) {z : Context} {w : World} {us : List Value} (hz : z.input.Finite w us) :
    ∃ vs, OnDemand.ReadOut env p z w vs ∧ vs.length ≤ us.length := by
  obtain ⟨ts, hfits, rfl⟩ := hz.fits
  obtain ⟨vs, x, w₂, hreads, hle⟩ := OnDemand.exists_reads hg (hp.orderly hfree ts) (w.makeList_waits ⟨p, z, false⟩) hfits
  exact ⟨vs, hreads.readOut rfl, hle⟩

/-- **Repetitions of parsers that end come to an end.** Wherever the parses of a finite input end for some parsers that put
no tokens back, they end for every repetition of these parsers, with or without separators, operators and brackets. The
functions that operators stand for are those of a program whose definitions read no lists. The list
of such a parser is read to its end, as a whole or item by item. Neither has more items than the input has tokens. -/
theorem repetition_halts (hg : ∀ name, (env.grammar name).PushFree) {sep op opening closing terminator : Parser}
    {ds : Definitions} (hds : ds.Listless)
    (hfree : ∀ q ∈ [p, sep, op, opening, closing, terminator], q.PushFree)
    (hhalts : ∀ q ∈ [p, sep, op, opening, closing, terminator], e.Halts env q) :
    (∀ q ∈ [.many p, .many1 p, .skipMany p, .sepBy p sep, .sepBy1 p sep, .manyUntil p terminator,
      .listBetween opening sep closing p, .chainl1 p op ds, .chainr1 p op ds], e.Halts env q) ∧
    ∀ z w us, z.input.Finite w us →
      (∀ rest v w', Ends (fun n => e.parse env n (.many p) z) w (.ok (.success rest v)) w' →
        ∃ id vs, v = .array id vs ∧ vs.length ≤ us.length) ∧
      (e.onDemand = true → ∃ vs, OnDemand.ReadOut env p z w vs ∧ vs.length ≤ us.length) := by
  have horderly : ∀ ts, ∀ q ∈ [p, sep, op, opening, closing, terminator], e.Orderly env ts q :=
    fun ts q hq => (hhalts q hq).orderly (hfree q hq) ts
  simp only [List.forall_mem_cons, List.not_mem_nil, false_implies, implies_true, and_true] at horderly hfree hhalts ⊢
  refine ⟨⟨?_, ?_, ?_, ?_, ?_, ?_, ?_, ?_, ?_⟩, fun z w us hz => ⟨fun rest v w' hv => items_le hg hfree.1 hz hv, fun he => ?_⟩⟩
  all_goals try
    refine halts_of_orderly fun ts => ?_
    obtain ⟨hp, hsep, hop, hopening, hclosing, hterminator⟩ := horderly ts
  · exact hp.many hg
  · exact hp.many1 hg
  · exact hp.skipMany hg
  · exact hp.sepBy hg hsep
  · exact hp.sepBy1 hg hsep
  · exact hp.manyUntil hg hterminator
  · exact hopening.listBetween hg hsep hclosing hp
  · exact hp.chainl1 hg hds hop
  · exact hp.chainr1 hg hds hop
  · obtain ⟨onDemand, stateful⟩ := e
    cases he
    exact list_ends hg hfree.1 hhalts.1 hz

theorem repetition_halts_next : (lazy true).Halts ((lazy true).env (fun _ => .fail "") {}) (.chainr1 .next .next) ∧
    ∃ vs, OnDemand.ReadOut ((lazy true).env (fun _ => .fail "") {}) .next ⟨.ofList [.text "a", .text "b"], .absent⟩ {} vs ∧
      vs.length ≤ 2 := by
  have hhalts : (lazy true).Halts ((lazy true).env (fun _ => .fail "") {}) .next := halts_of_orderly fun ts => .next
  have hz : (Remainder.ofList [.text "a", .text "b"]).Finite {} [.text "a", .text "b"] := ⟨trivial, _, 3, rfl⟩
  have hg : ∀ name, (((lazy true).env (fun _ => .fail "") {}).grammar name).PushFree := fun _ => rfl
  have hfree : ∀ q ∈ [Parser.next, .next, .next, .next, .next, .next], q.PushFree := by
    simp only [List.forall_mem_cons, List.not_mem_nil, false_implies, implies_true, and_true]
    exact ⟨rfl, rfl, rfl, rfl, rfl, rfl⟩
  have hall : ∀ q ∈ [Parser.next, .next, .next, .next, .next, .next],
      (lazy true).Halts ((lazy true).env (fun _ => .fail "") {}) q := by
    simp only [List.forall_mem_cons, List.not_mem_nil, false_implies, implies_true, and_self, hhalts]
  have h := repetition_halts hg Definitions.listless_none hfree hall
  exact ⟨h.1 _ (by simp), (h.2 ⟨_, .absent⟩ {} _ hz).2 rfl⟩

end Engine

end CommittedChoice
