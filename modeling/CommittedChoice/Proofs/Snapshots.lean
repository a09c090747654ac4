import CommittedChoice.Proofs.Configuration
import CommittedChoice.Proofs.OnDemand.Heedless
import CommittedChoice.Proofs.Sequences
import CommittedChoice.Proofs.Stretches

/-!
# Snapshots

An item of a stateful list comes with the state in which it was produced. That is the state after as many matches of the
parser, one after the other, and the strict engine comes to the same state when it counts these matches. So the snapshots
of a list are those of a counted repetition, in whatever order the list is read. What is left after a list is what is left
after the matches: an application of the parser that ends the list may change the state, but that does not show.

- `Engine.CountsTo`, `Engine.Snapshot`: what the strict engine makes of so many matches, and the item that shows the last
  of them;
- `Engine.item_matched`: a node is computed from a match of the strict engine;
- `OnDemand.Stretch.matched`: leading items come from a succession of matches, by induction on their number;
- `OnDemand.Stretch.snapshot`, `OnDemand.Stretch.counts`: so an item is a snapshot, and a list ends after its last match;
- `OnDemand.Reader.read_of_steps`: what a reader gets, in terms of the list;
- `Engine.snapshots_exact`: all of it.
-/

namespace CommittedChoice

open Run (limit Ends)
open OnDemand
open Strict (Outcome)

namespace Engine

/-- A parse gives the verdict of the result. -/
theorem ends_parse_of_result {e : Engine} {env : Env} {p : Parser} {z rest : Context} {v : Value} {r : Outcome}
    {w w' : World} (h : Ends (fun n => e.result env n p z) w (.ok r) w') (hr : r.verdict = .success rest v) :
    Ends (fun n => e.parse env n p z) w (.ok (.success rest v)) w' := by
  rw [← Run.limit_eq_some (steady_parse _ _ p z), limit_parse_eq, limit_verdict_eval, bind_map_left,
    Course.bind_of_ok (ends_result.1 h), hr]
  rfl

/-! ## Counting matches -/

section Counting

variable (grammar : Grammar) (settings : Settings) (p : Parser) (z : Context) (w : World)

/-- The strict engine with a state matches the parser from `z` on as many times as there are values, gives them and stops
at `rest`: as a sequence of copies of the parser, and as a repetition that counts down, as far as integers are doubles. -/
def CountsTo (vs : List Value) (rest : Context) : Prop :=
  ∀ q, q = .sequence (.replicate vs.length p) ∨ vs.length ≤ Number.exactBound ∧ q = .times (.ofNat vs.length) p →
    ∃ id w', Ends (fun n => (strict true).parse ((strict true).env grammar settings) n q z) w
      (.ok (.success rest (.array id vs))) w'

/-- The item has the last value of `k` matches and the state after them. -/
def Snapshot (k : Nat) (item : Value) : Prop :=
  ∃ vs v rest next, (vs ++ [v]).length = k ∧ CountsTo grammar settings p z w (vs ++ [v]) rest ∧
    item = .record (.item next) [("value", v), ("state", rest.state)]

end Counting

variable {grammar : Grammar} {settings : Settings} {p : Parser} {z : Context} {w w' : World}

/-- Matches one after the other are counted. The name of an engine makes no difference to that. -/
theorem countsTo_of_succession {ms : List Match} {k : Nat}
    (h : Succession (strict true) ((lazy true).env grammar settings) (.replicate k p) z w ms none w') :
    CountsTo grammar settings p z w (ms.map Match.value) (endOf z ms) := by
  have hk : ms.length = k := (h.length_eq.2.1 rfl).trans List.length_replicate
  intro q hq
  rw [List.length_map, hk] at hq
  have hresult : Ends (fun n => (strict true).result ((lazy true).env grammar settings) n q z) w
      (gathered z ms none w').1 (gathered z ms none w').2 := by
    rcases hq with rfl | ⟨hbound, rfl⟩
    · exact sequence_ends.2 ⟨ms, none, w', h, rfl⟩
    · exact (times_ends hbound).2 ⟨ms, none, w', h, rfl⟩
  obtain ⟨lines, hparse⟩ := ends_parse_scope settings true z (lazy true) (strict true)
    (ends_parse_of_result hresult (Result.verdict_commitIf _ _))
  exact ⟨_, _, hparse⟩

/-- There is one way to count so many matches. -/
theorem CountsTo.eq {vs vs' : List Value} {rest rest' : Context} (h : CountsTo grammar settings p z w vs rest)
    (h' : CountsTo grammar settings p z w vs' rest') (hlength : vs.length = vs'.length) : vs = vs' ∧ rest = rest' := by
  obtain ⟨id, w₁, hparse⟩ := h _ (.inl rfl)
  obtain ⟨id', w₂, hparse'⟩ := h' _ (.inl rfl)
  rw [← Run.limit_eq_some (steady_parse _ _ _ _)] at hparse hparse'
  rw [← hlength] at hparse'
  cases hparse.symm.trans hparse'
  exact ⟨rfl, rfl⟩

/-- Where nothing is counted, nothing has changed. -/
theorem CountsTo.rest_eq {rest : Context} (h : CountsTo grammar settings p z w [] rest) : rest = z :=
  (h.eq (countsTo_of_succession (k := 0) (.done z w)) rfl).2

section Heedless

variable (hg : ∀ name, (grammar name).Heedless) (hp : p.Heedless)

include hg hp

/-- **A node is computed from a match of the strict engine,** and the next node waits for what comes after it. -/
theorem item_matched {l k next : Nat} {c : Bool} {v : Value} (hcell : (w.nodesOf l)[k]? = some (.pending ⟨p, z, c⟩))
    (h : nodeAt ((lazy true).env grammar settings) (nodeNumber l k) w = some (.ok (.item v next), w'))
    (lists : Array (Array (Cell Unparsed Node))) :
    ∃ (m : Match) (k' : Nat) (c' : Bool),
      Ends (fun n => (strict true).result ((lazy true).env grammar settings) n p z) { w with lists := lists }
        (.ok m.result) { w' with lists := lists } ∧
      v = .record (.item next) [("value", m.value), ("state", m.after.state)] ∧ next = nodeNumber l k' ∧
      (w'.nodesOf l)[k']? = some (.pending ⟨p, m.after, c'⟩) := by
  obtain ⟨d, z', a, w₁, k', lists', heval, -, rfl, rfl, hnext, hwaits⟩ := item_computed hcell h
  refine ⟨⟨d, a, z'⟩, k', _, ends_result.2 ?_, rfl, hnext, hwaits⟩
  -- the match does not depend on the lists of the world, so it is also one without the mark on the node
  rw [eval_eq_strict_of_heedless hg hp] at heval
  exact (Strict.eval_heedless p z _ _ heval).1 lists

end Heedless

end Engine

open Engine

namespace OnDemand

section Leading

variable {grammar : Grammar} {settings : Settings} {p : Parser} {z : Context} {w : World} {vs : List Value}

namespace Stretch

variable {l k : Nat} {c : Bool} (hg : ∀ name, (grammar name).Heedless) (hp : p.Heedless)
  (t : Stretch ((lazy true).env grammar settings) (nodeNumber l k) w vs)
  (hcell : (w.nodesOf l)[k]? = some (.pending ⟨p, z, c⟩)) (lists : Array (Array (Cell Unparsed Node)))

include hg hp hcell

/-- **Leading items come from a succession of matches,** and the node after them waits where the last match stopped. -/
theorem matched : ∀ n, n ≤ vs.length → ∃ (ms : List Match) (k' : Nat) (c' : Bool),
    Succession (strict true) ((lazy true).env grammar settings) (.replicate n p) z { w with lists := lists } ms none
      { t.world n with lists := lists } ∧
    ms.map Match.value = (vs.take n).map (produced ((lazy true).env grammar settings)) ∧ t.node n = nodeNumber l k' ∧
    ((t.world n).nodesOf l)[k']? = some (.pending ⟨p, endOf z ms, c'⟩)
  | 0, _ => by
    rw [t.world_zero, t.node_zero]
    exact ⟨[], k, c, .done _ _, rfl, rfl, hcell⟩
  | n + 1, hn => by
    obtain ⟨ms, k', c', hms, hvalues, hnode, hwaits⟩ := matched n (Nat.le_of_succ_le hn)
    have hitem := t.item n vs[n] (List.getElem?_eq_getElem hn)
    rw [hnode] at hitem
    obtain ⟨m, k'', c'', hm, hv, hnext, hwaits'⟩ := item_matched hg hp hwaits hitem lists
    have hone : Succession (strict true) ((lazy true).env grammar settings) [p] (endOf z ms)
        { t.world n with lists := lists } [m] none { t.world (n + 1) with lists := lists } := .next hm (.done _ _)
    refine ⟨ms ++ [m], k'', c'', ?_, ?_, hnext, ?_⟩
    · rw [List.replicate_succ']
      exact hms.append rfl hone
    · rw [List.take_succ_eq_append_getElem hn, List.map_append, List.map_append, hvalues, hv]
      rfl
    · rw [endOf_append]
      exact hwaits'

/-- **An item is a snapshot.** -/
theorem snapshot {n next : Nat} {v : Value} {w' : World} (hn : n ≤ vs.length)
    (h : nodeAt ((lazy true).env grammar settings) (t.node n) (t.world n) = some (.ok (.item v next), w')) :
    Snapshot grammar settings p z { w with lists := lists } (n + 1) v := by
  obtain ⟨ms, k', c', hms, -, hnode, hwaits⟩ := t.matched hg hp hcell lists n hn
  rw [hnode] at h
  obtain ⟨m, -, -, hm, rfl, -, -⟩ := item_matched hg hp hwaits h lists
  have hlength : ms.length = n := (hms.length_eq.2.1 rfl).trans List.length_replicate
  have hall := hms.append rfl (.next hm (.done _ _))
  rw [← List.replicate_succ'] at hall
  have hcounts := countsTo_of_succession hall
  rw [endOf_append, List.map_append] at hcounts
  refine ⟨ms.map Match.value, m.value, m.after, next, ?_, hcounts, rfl⟩
  rw [List.length_append, List.length_map, hlength]
  rfl

/-- **A list ends after its last match.** -/
theorem counts {e : ListEnd} {w' : World}
    (h : nodeAt ((lazy true).env grammar settings) (t.node vs.length) (t.world vs.length) =
      some (.ok (.ended e), w')) :
    CountsTo grammar settings p z { w with lists := lists } (vs.map (produced ((lazy true).env grammar settings)))
      e.rest := by
  obtain ⟨ms, k', c', hms, hvalues, hnode, hwaits⟩ := t.matched hg hp hcell lists vs.length (Nat.le_refl _)
  rw [hnode] at h
  have hcounts := countsTo_of_succession hms
  rw [hvalues, List.take_length] at hcounts
  rwa [rest_of_ended hwaits h]

end Stretch

end Leading

/-! ## Readers -/

namespace Reader

/-- A reader that starts makes the list. -/
theorem steps_unstarted (m : Means) (n : Nat) (p : Parser) (z : Context) (w : World) :
    steps m (n + 1) (.unstarted p z) w =
      steps m (n + 1) (.at (nodeNumber w.lists.size 0)) (Means.makeList ⟨p, z, false⟩ w).2 := rfl

/-- **What a reader gets at its step `k`:** nothing more, or what it makes of the node after `k` items. -/
theorem read_of_steps {env : Env} {m n i k : Nat} {w w' : World} {xs : List (Except Fault Reading)} {x : Reading}
    (h : steps (means env m) n (.at i) w = (.ok xs, w')) (hx : xs[k]? = some (.ok x)) : x = .over ∨
      ∃ vs, ∃ t : Stretch env i w vs, vs.length = k ∧ xs.take k = vs.map (fun v => .ok (.item v)) ∧
        ∃ y w₁, nodeAt env (t.node k) (t.world k) = some (.ok y, w₁) ∧ (ofNode (.ok y)).1 = .ok x := by
  have hover : ∀ {j k : Nat}, (List.replicate j (Except.ok Reading.over : Except Fault Reading))[k]? = some (.ok x) →
      x = .over := by
    intro j k hk
    have hmem := List.eq_of_mem_replicate (List.mem_of_getElem? hk)
    cases hmem
    rfl
  induction n generalizing i k w xs with
  | zero => cases h; cases hx
  | succ n ih =>
    rw [steps_at] at h
    split at h
    · rename_i y w₁ hnode
      have hnode : nodeAt env i w = some (.ok y, w₁) := (Run.limit_eq_some (steady_node env i)).2 ⟨m, hnode⟩
      obtain ⟨ys, w₂, hys, h⟩ := Run.bind_eq_ok h
      cases h
      cases k with
      | zero =>
        exact .inr ⟨[], .nil i w, rfl, rfl, y, w₁, hnode, Option.some.inj hx⟩
      | succ k =>
        rw [List.getElem?_cons_succ] at hx
        cases y with
        | ended e =>
          rw [show (ofNode (.ok (.ended e))).2 = .finished from rfl, steps_finished] at hys
          cases hys
          exact .inl (hover hx)
        | item v next =>
          obtain hx | ⟨vs, t, hlength, htake, y, w₃, hy, hread⟩ := ih hys hx
          · exact .inl hx
          · refine .inr ⟨v :: vs, t.cons hnode, congrArg (· + 1) hlength, ?_, y, w₃, hy, hread⟩
            rw [List.take_succ_cons, htake]
            rfl
    · cases h
      cases k with
      | zero => cases hx
      | succ k => exact .inl (hover hx)
    · cases h

/-- A reader that gets an item has come to one. -/
theorem node_of_item {y : Node} {v : Value} (h : (ofNode (.ok y)).1 = .ok (.item v)) : ∃ next, y = .item v next := by
  cases y with
  | item v' next => cases h; exact ⟨next, rfl⟩
  | ended e =>
    rw [ofNode, ListEnd.reading] at h
    cases hfault : e.fault? with
    | some fault => rw [hfault] at h; cases h
    | none => rw [hfault] at h; cases h

/-- A reader that gets what is left has come to the end. -/
theorem node_of_leftover {y : Node} {rest : Context} (h : (ofNode (.ok y)).1 = .ok (.leftover rest)) :
    ∃ e, y = .ended e ∧ rest = e.rest := by
  cases y with
  | item v next => cases h
  | ended e =>
    rw [ofNode, ListEnd.reading] at h
    cases hfault : e.fault? with
    | some fault => rw [hfault] at h; cases h
    | none => rw [hfault] at h; cases h; exact ⟨e, rfl, rfl⟩

end Reader

end OnDemand

namespace Engine

/-- **Snapshots are exact.** However many items can be read of the list of a parser, each of them is a snapshot: the value
and the state after as many matches of the parser, counted by the strict engine from the same start. In every visit of the
list, whatever is asked before or after, these are the items that are given in their places, and they are given when they
are asked for. Where the list can be walked to its end, what is left after it is what is left after as many matches as it
has items, which is the start if it has none; this too is given in every visit. A reader of items gets snapshots, and then
what is left after the last of them. -/
theorem snapshots_exact {grammar : Grammar} (hg : ∀ name, (grammar name).Heedless) {p : Parser} (hp : p.Heedless)
    (settings : Settings) (z : Context) (w : World) :
    let env := (lazy true).env grammar settings
    (∃ i w₁, Ends (fun n => (means env n).fresh (.stream p) z) w (.ok (.ofList i)) w₁ ∧
      (∀ vs w₂, Ends (fun n => (means env n).exec (Act.take vs.length i)) w₁ (.ok vs) w₂ →
        (∀ k v, vs[k]? = some v → Snapshot grammar settings p z w (k + 1) v) ∧
        ∀ asks tails q w', Visit env i w₁ asks tails q w' →
          (∀ a r, (a, .ok r) ∈ asks → Agrees vs a.depth r.given) ∧
          ∀ n, ∀ s ∈ tails, s.depth + n ≤ vs.length →
            ∃ w'', (Ask.take n s).Meets env q w' (.ok (.items ((vs.drop s.depth).take n))) q w'') ∧
      ∀ vs e w₂, Ends (fun n => (means env n).lists.walk i) w₁ (.ok (vs, e)) w₂ →
        (∃ w₃, Ends (fun n => (means env n).exec (Act.take vs.length i)) w₁ (.ok vs) w₃) ∧
        CountsTo grammar settings p z w (vs.map (produced env)) e.rest ∧ (vs = [] → e.rest = z) ∧
        ∀ asks tails q w', Visit env i w₁ asks tails q w' →
          (∀ x, (.rest, x) ∈ asks → x = .ok (.context e.rest)) ∧
          ∃ q' w'', Ask.rest.Meets env q w' (.ok (.context e.rest)) q' w'') ∧
    ∀ n xs w', Ends (fun m => Reader.steps (means env m) n (.unstarted p z)) w (.ok xs) w' →
      (∀ k v, xs[k]? = some (.ok (.item v)) → Snapshot grammar settings p z w (k + 1) v) ∧
      ∀ k rest, xs[k]? = some (.ok (.leftover rest)) → ∃ vs, xs.take k = vs.map (fun v => .ok (.item v)) ∧
        CountsTo grammar settings p z w (vs.map (produced env)) rest ∧ (vs = [] → rest = z) := by
  intro env
  have hcell := w.makeList_waits ⟨p, z, false⟩
  have hfresh : Ends (fun n => (means env n).fresh (.stream p) z) w (.ok (.ofList (nodeNumber w.lists.size 0)))
      (Means.makeList ⟨p, z, false⟩ w).2 := (Run.limit_eq_some (steady_answer env _)).1 (answer_stream_eq rfl)
  refine ⟨⟨_, _, hfresh, fun vs w₂ htake => ?_, fun vs e w₂ hwalk => ?_⟩, fun n xs w' hsteps => ?_⟩
  · obtain ⟨t⟩ := exists_stretch ((Run.limit_eq_some (OnDemand.steady_exec env _)).2 htake) rfl
    refine ⟨fun k v hv => ?_, fun asks tails q w' hvisit => ⟨(t.seen hvisit).items, fun n s hs hn => ?_⟩⟩
    · exact t.snapshot hg hp hcell w.lists (List.getElem?_eq_some_iff.1 hv).1.le (t.item k v hv)
    · exact t.meets_take hvisit hs hn
  · obtain ⟨t, -, hvisits⟩ := read_in_any_order hfresh hwalk
    have hcounts := t.stretch.counts hg hp hcell w.lists t.ended
    refine ⟨?_, hcounts, ?_, fun asks tails q w' hvisit => ?_⟩
    · obtain ⟨w₃, -, hexec⟩ := t.stretch.exec_take_within t.stretch.reached_zero (Nat.le_refl 0) (Nat.zero_add _).le
      rw [t.stretch.node_zero, List.drop_zero, List.take_length] at hexec
      exact ⟨w₃, (Run.limit_eq_some (OnDemand.steady_exec env _)).1 hexec⟩
    · rintro rfl
      exact hcounts.rest_eq
    · obtain ⟨-, hreplies, hmeets, -⟩ := hvisits asks tails q w' hvisit
      obtain ⟨q', hq'⟩ := hmeets .rest trivial
      exact ⟨fun x hx => hreplies _ x hx, q', _, hq'⟩
  · obtain ⟨m, hm⟩ := hsteps
    cases n with
    | zero =>
      cases hm
      exact ⟨nofun, nofun⟩
    | succ n =>
      replace hm := (Reader.steps_unstarted (means env m) n p z w).symm.trans hm
      refine ⟨fun k v hv => ?_, fun k rest hrest => ?_⟩
      · obtain hover | ⟨vs, t, rfl, -, y, w₁, hy, hread⟩ := Reader.read_of_steps hm hv
        · cases hover
        · obtain ⟨next, rfl⟩ := Reader.node_of_item hread
          exact t.snapshot hg hp hcell w.lists (Nat.le_refl _) hy
      · obtain hover | ⟨vs, t, rfl, htake, y, w₁, hy, hread⟩ := Reader.read_of_steps hm hrest
        · cases hover
        · obtain ⟨e, rfl, rfl⟩ := Reader.node_of_leftover hread
          have hcounts := t.counts hg hp hcell w.lists hy
          refine ⟨vs, htake, hcounts, ?_⟩
          rintro rfl
          exact hcounts.rest_eq

/-- A token that is counted in the state, before it is known whether there is one. -/
def tallied : Parser :=
  .bind .get fun s => .pure (.bind (.put (.number (.ofInt (s.integer + 1)))) fun _ => .pure .next)

/-- One token. The attempt that ends the list counts a second one, which does not show. -/
theorem snapshots_exact_tallied :
    Snapshot (fun _ => .fail "") {} tallied ⟨.ofList [.text "a"], .nat 0⟩ {} 1
      (.record (.item (nodeNumber 0 1)) [("value", .text "a"), ("state", .nat 1)]) ∧
    CountsTo (fun _ => .fail "") {} tallied ⟨.ofList [.text "a"], .nat 0⟩ {} [.text "a"] ⟨.tokens [] 1, .nat 1⟩ := by
  have hg : ∀ name, ((fun _ => .fail "" : Grammar) name).Heedless := fun _ => ⟨rfl, trivial⟩
  have hp : tallied.Heedless :=
    ⟨⟨rfl, fun _ _ _ => rfl⟩, ⟨rfl, trivial⟩, fun _ => ⟨⟨rfl, fun _ _ _ => rfl⟩, ⟨rfl, trivial⟩, fun _ => ⟨rfl, trivial⟩⟩⟩
  have hsteps : Ends (fun m => Reader.steps (means ((lazy true).env (fun _ => .fail "") {}) m) 2
      (.unstarted tallied ⟨.ofList [.text "a"], .nat 0⟩)) {}
      (.ok [.ok (.item (.record (.item (nodeNumber 0 1)) [("value", .text "a"), ("state", .nat 1)])),
        .ok (.leftover ⟨.tokens [] 1, .nat 1⟩)]) _ := ⟨10, rfl⟩
  obtain ⟨hitems, hleftover⟩ := (snapshots_exact hg hp {} _ {}).2 2 _ _ hsteps
  obtain ⟨vs, htake, hcounts, -⟩ := hleftover 1 _ rfl
  match vs, htake with
  | [_], rfl => exact ⟨hitems 0 _ rfl, hcounts⟩

end Engine

end CommittedChoice
