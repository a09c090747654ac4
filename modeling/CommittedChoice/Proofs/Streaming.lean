import CommittedChoice.Proofs.Engines
import CommittedChoice.Proofs.OnDemand.Repetition

/-!
# Lists and repetition

A list that is parsed on demand gives what `many` gives: the same items, the same commitment and the same failure.

- `World.reserve`: lists are numbered in the order in which they are made, and making a list takes a number. So `many`
  is run where that number is taken as well, by a list that nobody can read; then everything that is made while an item
  is parsed has one number in both;
- `Yields`: what a reader of items gets, one item after the other;
- `Streamed`: the items of a list and where it ends, as every way to read it shows them;
- `Engine.stream_many`: a list against `many`.
-/

namespace CommittedChoice

open Run (limit Steady Ends)
open Strict (Outcome)

/-! ## Numbers -/

namespace World

/-- The world in which the number of the next list is taken, by a list without nodes. -/
def reserve (w : World) : World := { w with lists := w.lists.push #[] }

theorem reserved_reserve (w : World) : w.reserve.Reserved w.lists.size := Array.getElem?_push_size

/-- A list is made under the number that is taken. -/
theorem makeList_reserve (w : World) (u : Unparsed) : OnDemand.Means.makeList u w =
    (.ok (nodeNumber w.lists.size 0), w.reserve.withNodes w.lists.size #[.pending u]) := by
  have hlists : w.lists.push #[.pending u] = (w.lists.push #[]).setIfInBounds w.lists.size #[.pending u] := by
    apply Array.ext_getElem?
    intro i
    grind
  exact congrArg (fun lists => (Except.ok (nodeNumber w.lists.size 0), ({ w with lists := lists } : World))) hlists

end World

/-! ## Readers -/

/-- What is read of a list: an answer, or the fault in which the list ends. -/
def ListEnd.reading {α : Type} (e : ListEnd) (a : α) : Except Fault α :=
  match e.fault? with
  | some fault => .error fault
  | none => .ok a

namespace OnDemand

variable {env : Env}

/-- A reader gets items one after the other, and at last what is left after them or a fault. -/
inductive Yields (m : Means) : Reader → World → List Value → Except Fault Context → World → Prop
  | leftover {s w z s' w'} : Reader.next m s w = (.ok (.leftover z), s', w') → Yields m s w [] (.ok z) w'
  | fault {s w e s' w'} : Reader.next m s w = (.error (.fault e), s', w') → Yields m s w [] (.error e) w'
  | item {s w v s' w₁ vs x w'} : Reader.next m s w = (.ok (.item v), s', w₁) → Yields m s' w₁ vs x w' →
      Yields m s w (v :: vs) x w'

/-- A reader gets the items of the list. -/
theorem Reads.yields {n i : Nat} {w w' : World} {vs : List Value} {x : Except Fault ListEnd}
    (h : Reads (fun i => Course.ofRun (node env n i)) i w vs x w') :
    Yields (means env n) (.at i) w vs (x.bind fun e => e.reading e.rest) w' := by
  have hread : ∀ {i w x w'}, Course.ofRun (node env n i) w = some (x, w') →
      (means env n).lists.node i w = (x.mapError .fault, w') := Course.ofRun_eq_some.1
  induction h with
  | @ended i w e w' hnode =>
    have hnext : Reader.next (means env n) (.at i) w = match e.fault? with
        | some err => (.error (.fault err), .finished, w')
        | none => (.ok (.leftover e.rest), .finished, w') := by
      show Reader.read (means env n) i (.at i) w = _
      unfold Reader.read
      rewrite [hread hnode]
      rfl
    rw [Except.bind, ListEnd.reading]
    cases he : e.fault? with
    | some err => rw [he] at hnext; exact .fault hnext
    | none => rw [he] at hnext; exact .leftover hnext
  | @fault i w e w' hnode =>
    have hnext : Reader.next (means env n) (.at i) w = (.error (.fault e), .finished, w') := by
      show Reader.read (means env n) i (.at i) w = _
      unfold Reader.read
      rewrite [hread hnode]
      rfl
    exact .fault hnext
  | @item i w v next w₁ vs e w' hnode _ ih =>
    have hnext : Reader.next (means env n) (.at i) w = (.ok (.item v), .at next, w₁) := by
      show Reader.read (means env n) i (.at i) w = _
      unfold Reader.read
      rewrite [hread hnode]
      rfl
    exact .item hnext ih

/-- A reader that has not started makes its list first. -/
theorem Yields.unstarted {m : Means} {p : Parser} {z : Context} {i : Nat} {w w₁ w' : World} {vs : List Value}
    {x : Except Fault Context} (hi : Means.makeList ⟨p, z, false⟩ w = (.ok i, w₁)) (h : Yields m (.at i) w₁ vs x w') :
    Yields m (.unstarted p z) w vs x w' := by
  have hnext : Reader.next m (.unstarted p z) w = Reader.next m (.at i) w₁ := by
    show Hold.bind (Hold.lift (Means.makeList ⟨p, z, false⟩)) (Reader.read m) (.unstarted p z) w = _
    unfold Hold.bind Hold.lift
    rw [hi]
    rfl
  cases h with
  | leftover h => exact .leftover (hnext.trans h)
  | fault h => exact .fault (hnext.trans h)
  | item h h' => exact .item (hnext.trans h) h'

/-- Reading the list of a parser from a context on gives these items and this end: one node after the other, as a whole
by a callback, and item by item by a reader. -/
structure Streamed (env : Env) (p : Parser) (z : Context) (w : World) (vs : List Value) (e : ListEnd) : Prop where
  list : ∃ i w₁ w₂, Ends (fun n => (means env n).fresh (.stream p) z) w (.ok (.ofList i)) w₁ ∧
    (∃ n, Reads (fun i => Course.ofRun (node env n i)) i w₁ vs (.ok e) w₂) ∧
    Ends (fun n => (means env n).exec (Act.toArray i)) w₁ (e.reading vs) w₂
  reader : ∃ n w₂, Yields (means env n) (.unstarted p z) w vs (e.reading e.rest) w₂

theorem answer_stream_eq {p : Parser} {z : Context} {i : Nat} {w w₁ : World}
    (hi : Means.makeList ⟨p, z, false⟩ w = (.ok i, w₁)) :
    answer env (.apply (.stream p) z) w = some (.ok (.ofList i), w₁) := by
  rw [answer_stream, Course.bind_of_ok (Course.ofRun_eq_some.2 hi)]
  rfl

/-- A list that is read as a whole. -/
theorem Reads.array {i : Nat} {w w' : World} {vs : List Value} {x : Except Fault ListEnd}
    (h : Reads (nodeAt env) i w vs x w') :
    exec env (Act.toArray i) w = some (x.bind fun e => e.reading vs, w') := by
  have hwalk := h.walkFrom []
  rw [Act.toArray, exec_walk]
  cases x with
  | error e => exact Course.bind_of_error hwalk
  | ok e =>
    rw [Course.bind_of_ok hwalk, Except.bind, ListEnd.reading]
    dsimp only
    cases e.fault? with
    | some err => exact congrFun (exec_throw err) w'
    | none => exact congrFun (exec_pure _) w'

/-- Whatever the nodes of a list give is what every reader gets. -/
theorem Reads.streamed {p : Parser} {z : Context} {i : Nat} {w w₁ w₂ : World} {vs : List Value} {e : ListEnd}
    (hi : Means.makeList ⟨p, z, false⟩ w = (.ok i, w₁)) (h : Reads (nodeAt env) i w₁ vs (.ok e) w₂) :
    Streamed env p z w vs e := by
  obtain ⟨n, hn⟩ := h.fuel
  have hanswer : answer env (.apply (.stream p) z) w = some (.ok (.ofList i), w₁) := answer_stream_eq hi
  have harray : exec env (Act.toArray i) w₁ = some (e.reading vs, w₂) := h.array
  exact ⟨⟨i, w₁, w₂, (Run.limit_eq_some (steady_answer env _)).1 hanswer, ⟨n, hn⟩,
    (Run.limit_eq_some (steady_exec env _)).1 harray⟩, n, w₂, hn.yields.unstarted hi⟩

/-! ## Disclosing a list -/

/-- The answer of a parser with its finish disclosed. -/
def disclosedAnswer (env : Env) (fuel : Nat) (p : Parser) (z : Context) : Run Answer :=
  Hold.on (.apply p z) ((means env fuel).onAnswer (means env fuel).disclosed)

theorem ends_disclosedAnswer {p : Parser} {z : Context} {w w' : World} {a : Answer}
    (h : (answer env (.apply p z) >>= disclose env) w = some (.ok a, w')) :
    Ends (fun n => disclosedAnswer env n p z) w (.ok a) w' := by
  have hon : ∀ n, disclosedAnswer env n p z = (means env n).answer (.apply p z) >>= fun a =>
      Hold.on a (means env n).disclosed := fun n => Means.on_onAnswer _ _ _
  simp only [hon]
  refine (Run.limit_eq_some (.bind (steady_answer env _) steady_disclosed)).1 ?_
  rw [Run.limit_bind (steady_answer env _) steady_disclosed, ← h]
  exact congrFun (bind_congr fun a => limit_disclosed a) w

/-- The list of a parser was made and read to its end: its answer shows what the list turned out to be. -/
theorem Reads.disclosed {p : Parser} {z : Context} {i : Nat} {w w₁ w₂ : World} {vs : List Value} {e : ListEnd}
    (hi : Means.makeList ⟨p, z, false⟩ w = (.ok i, w₁)) (h : Reads (nodeAt env) i w₁ vs (.ok e) w₂) :
    ∃ q, answer env (.apply (.stream p) z) w = some (.ok (.success q), w₁) ∧
      finish env q w₁ = some (.ok e.finish, w₂) := by
  refine ⟨_, answer_stream_eq hi, ?_⟩
  rw [finish_of_some rfl, late_later, exec_bind, Act.endOf, exec_walk, bind_assoc, Course.bind_of_ok (h.walkFrom []),
    exec_pure, pure_bind]
  exact congrFun (exec_pure _) w₂

theorem disclosed_of_finish {p : Parser} {z : Context} {w w₁ w₂ : World} {q : Promise} {f : Finish}
    (hq : answer env (.apply p z) w = some (.ok (.success q), w₁)) (hfinish : finish env q w₁ = some (.ok f, w₂)) :
    (answer env (.apply p z) >>= disclose env) w = some (.ok (q.disclosedAs f), w₂) := by
  rw [Course.bind_of_ok hq, disclose, map_eq_pure_bind, Course.bind_of_ok hfinish]
  rfl

/-- A success that turns out to be a failure is one for whatever goes on after it. -/
theorem failed_of_finish {p : Parser} {z rest : Context} {w w₁ w₂ : World} {q : Promise} {message : String}
    (hq : answer env (.apply p z) w = some (.ok (.success q), w₁))
    (hfinish : finish env q w₁ = some (.ok (.failed rest message), w₂)) :
    (answer env (.apply p z) >>= disclose env) w = some (.ok (.committed (.ready (.failure rest message))), w₂) ∧
      reveal env (.apply p z) w = some (.ok ⟨true, .failure rest message⟩, w₂) ∧
      ∀ k, answer env (.apply (.bind p k) z) w = some (.ok (.committed (.ready (.failure rest message))), w₂) ∧
        reveal env (.apply (.bind p k) z) w = some (.ok ⟨true, .failure rest message⟩, w₂) := by
  have hreveal : reveal env (.apply p z) w = some (.ok ⟨true, .failure rest message⟩, w₂) := by
    rw [reveal_eq, Course.bind_of_ok hq, revealing, map_eq_pure_bind, Course.bind_of_ok hfinish]
    rfl
  refine ⟨disclosed_of_finish hq hfinish, hreveal, fun k => ⟨?_, ?_⟩⟩
  · rw [answer_apply_framed rfl, answer_framed, Course.bind_of_ok hq, resume_bind_success, Course.bind_of_ok hfinish]
    rfl
  · rw [reveal_bind, Course.bind_of_ok hreveal]
    rfl

/-! ## What shows of a loop at first -/

/-- A turn that ends a loop in a success leaves nothing to be disclosed. -/
theorem turnAnswer_finish {step : Value → Act Parser} {c : Bool} {a : Answer} {q : Promise} {w w' : World}
    (h : turnAnswer step env c a w = some (.ok (.finished (.success q)), w')) : q.finish = none := by
  have hvalue : ∀ {p w}, turnValue env p w = some (.ok (.finished (.success q)), w') → q.finish = none := by
    intro p w h
    obtain ⟨v, w₁, -, h⟩ := Course.bind_eq_ok h
    cases hv : v.toStep with
    | done value => rw [hv] at h; cases h; rfl
    | again state =>
      rw [hv] at h
      obtain ⟨_, _, -, h⟩ := Course.bind_eq_ok h
      cases h
  have hsuccess : ∀ {p w}, turnAnswer step env c (.success p) w = some (.ok (.finished (.success q)), w') →
      q.finish = none := by
    intro p w h
    rw [turnAnswer_success] at h
    obtain ⟨finish, w₁, -, h⟩ := Course.bind_eq_ok h
    cases finish with
    | plain => rw [turnFinished_plain] at h; exact hvalue h
    | committed =>
      cases c with
      | true => rw [turnFinished_committed_true] at h; exact hvalue h
      | false => rw [turnFinished_committed_false] at h; cases h
    | failed z message => rw [turnFinished_failed] at h; cases c <;> cases h
  cases a with
  | success p => exact hsuccess h
  | failure z message => rw [turnAnswer_failure] at h; cases h
  | committed inner =>
    cases c with
    | false => rw [turnAnswer_committed_false] at h; cases h
    | true =>
      rw [turnAnswer_committed_true] at h
      obtain ⟨t, w₁, -, h⟩ := Course.bind_eq_ok h
      cases t with
      | success p => exact hsuccess h
      | failure z message => rw [Settled.toAnswer, turnAnswer_failure] at h; cases h

/-- A loop that answers with a success leaves nothing to be disclosed. -/
theorem turns_finish {step : Value → Act Parser} {c : Bool} {state : Value} {z : Context} {q : Promise} {w w' : World}
    (h : turns env step c state z w = some (.ok (.success q), w')) : q.finish = none := by
  have hfuel : ∀ n k, k ≤ n → ∀ {state z w},
      Course.ofRun ((means env n).turns step c k state z) w = some (.ok (.success q), w') → q.finish = none := by
    intro n k
    induction k with
    | zero => exact fun _ _ _ _ h => by cases h
    | succ k ih =>
      intro hk state z w h
      obtain ⟨p, w₁, -, h⟩ := Course.bind_eq_ok (ofRun_turns_le n hk c state z w _ h)
      obtain ⟨a, w₂, -, h⟩ := Course.bind_eq_ok h
      obtain ⟨t, w₃, ht, h⟩ := Course.bind_eq_ok h
      cases t with
      | finished a => cases h; exact turnAnswer_finish ht
      | again state z => exact ih (Nat.le_of_succ_le hk) h
  obtain ⟨n, hn⟩ := (Course.sup_eq_some (steady_turns env step c state z).monotone).1 h
  exact hfuel n n (Nat.le_refl n) hn

/-- So does `many`. -/
theorem many_finish {p : Parser} {z : Context} {w w' : World} {q : Promise}
    (h : answer env (.apply (Parser.many p) z) w = some (.ok (.success q), w')) : q.finish = none := by
  rw [many_eq, answer_apply_framed rfl, answer_framed, answer_loop] at h
  obtain ⟨b, w₁, hb, h⟩ := Course.bind_eq_ok h
  match b with
  | .success q' => rw [resume_map_success] at h; cases h; exact turns_finish (q := q') hb
  | .failure _ _ => rw [resume_map_failure] at h; cases h
  | .committed _ => rw [resume_map_committed] at h; cases h

/-- The tag of what is revealed. -/
def Revealed.tag (r : Revealed) : Tag :=
  if r.committed then .committed
  else match r.settled with
    | .success _ => .success
    | .failure _ _ => .failure

theorem Revealed.tag_eq_committed (r : Revealed) : r.tag = .committed ↔ r.committed = true := by
  obtain ⟨_ | _, _ | _⟩ := r <;> simp [tag]

/-- Where nothing of a success is to be disclosed, the answer shows the tag of what is revealed. -/
theorem tag_of_reveal {s : Suspended} {w w' : World} {r : Revealed}
    (hfinish : ∀ q w₁, answer env s w = some (.ok (.success q), w₁) → q.finish = none)
    (h : reveal env s w = some (.ok r, w')) : ∃ a w₁, answer env s w = some (.ok a, w₁) ∧ a.tag = r.tag := by
  rw [reveal_eq] at h
  obtain ⟨a, w₁, ha, h⟩ := Course.bind_eq_ok h
  refine ⟨a, w₁, ha, ?_⟩
  match a with
  | .success q =>
    rw [revealing, finish_of_none (hfinish q w₁ ha), map_pure] at h
    cases h
    rfl
  | .failure _ _ => cases h; rfl
  | .committed inner =>
    rw [revealing, map_eq_pure_bind] at h
    obtain ⟨r', w₂, -, h⟩ := Course.bind_eq_ok h
    cases h
    rfl

/-- `many` shows at once the tag of what it reveals. -/
theorem answer_many_tag {p : Parser} {z : Context} {w w' : World} {r : Revealed}
    (h : reveal env (.apply (Parser.many p) z) w = some (.ok r, w')) :
    ∃ a w₁, answer env (.apply (Parser.many p) z) w = some (.ok a, w₁) ∧ a.tag = r.tag :=
  tag_of_reveal (fun _ _ => many_finish) h

end OnDemand

/-! ## A list against `many` -/

namespace Engine

open OnDemand

section Parse

variable {env : Env} {p : Parser} {z : Context}

/-- A parse that ends reads what the parser reveals. -/
theorem reveal_of_ends {stateful : Bool} {v : Verdict Context Value} {w w' : World}
    (h : Ends (fun n => (lazy stateful).parse env n p z) w (.ok v) w') :
    ∃ r w₁ w₂, OnDemand.reveal env (.apply p z) w = some (.ok r, w₁) ∧
      OnDemand.readAll env r.settled w₁ = some (.ok v, w₂) := by
  rw [← Run.limit_eq_some (steady_parse _ _ p z), limit_parse_eq] at h
  obtain ⟨v', w₂, hverdict, htraced⟩ := Course.bind_eq_ok h
  obtain ⟨lines, hv⟩ := traced_eq env v' w₂
  rw [hv] at htraced
  cases htraced
  have hreveal := (congrFun (OnDemand.limit_verdict p z) w).symm.trans hverdict
  obtain ⟨r, w₁, hr, hread⟩ := Course.bind_eq_ok hreveal
  exact ⟨r, w₁, w₂, hr, hread⟩

/-- A parser that reveals a failure gives it to every parse, in a world that depends on nothing else. -/
theorem ends_of_reveal_failure (env : Env) (rest : Context) (message : String) (w₁ : World) :
    ∃ w', ∀ (stateful c : Bool) (p : Parser) (z : Context) (w : World),
      OnDemand.reveal env (.apply p z) w = some (.ok ⟨c, .failure rest message⟩, w₁) →
      Ends (fun n => (lazy stateful).parse env n p z) w (.ok (.failure rest message)) w' := by
  obtain ⟨lines, hw'⟩ := traced_eq env (.failure rest message) w₁
  refine ⟨{ w₁ with console := lines }, fun stateful c p z w h => ?_⟩
  rw [← Run.limit_eq_some (steady_parse _ _ p z), limit_parse_eq]
  refine (Course.bind_of_ok ?_).trans hw'
  refine (congrFun (OnDemand.limit_verdict p z) w).trans ?_
  rw [Course.bind_of_ok h]
  rfl

/-- What is read of a success whose value is an array that is still to be made. -/
theorem readAll_array {rest : Context} {acc : Value} {v : Verdict Context Value} {w w' : World}
    (h : readAll env (.success ⟨.known rest, .mapped (.known acc) fun acc => .array acc.items.reverse, none⟩) w =
      some (.ok v, w')) : ∃ id, v = .success rest (.array id acc.items.reverse) := by
  have harray : ∀ w, late env (.mapped (.known acc) fun acc => .array acc.items.reverse) w =
      some (.ok (.array (.made w.made) acc.items.reverse), { w with made := w.made + 1 }) := by
    intro w
    rw [late_mapped, late_known, pure_bind]
    exact congrFun (Run.limit_const ((Act.array acc.items.reverse).exec env .none)) w
  unfold readAll at h
  simp only [late_known] at h
  cases hs : env.stateful with
  | true =>
    rw [hs, if_pos rfl, pure_bind, Course.bind_of_ok (harray w)] at h
    cases h
    exact ⟨_, rfl⟩
  | false =>
    rw [hs, if_neg Bool.false_ne_true, Course.bind_of_ok (harray w)] at h
    cases h
    exact ⟨_, rfl⟩

/-- The tag that shows at first is that of the answer. -/
theorem ends_rawTag_committed {stateful : Bool} {a : Answer} {w w' : World}
    (ha : answer env (.apply p z) w = some (.ok a, w')) :
    (∃ w₂, Ends (fun n => (lazy stateful).rawTag env n p z) w (.ok .committed) w₂) ↔ a.tag = .committed := by
  constructor
  · rintro ⟨w₂, h⟩
    obtain ⟨b, hb, htag⟩ := Run.ends_map.1 h
    have hb' := ha.symm.trans ((Run.limit_eq_some (steady_answer env _)).2 hb)
    cases hb'
    exact htag
  · exact fun htag => ⟨w', Run.ends_map.2 ⟨a, (Run.limit_eq_some (steady_answer env _)).1 ha, htag⟩⟩

end Parse

/-- **A list gives what `many` gives.** Where `many` succeeds, the list has its items, ends without a failure, and
turns out to be a success that is committed where that of `many` is. Where `many` fails, the list has the items matched
before the failure and ends in it; the failure is that of the list and of every parser that goes on after the list, and
nothing of what would go on is run. -/
theorem stream_many {stateful : Bool} {env : Env} {p : Parser} {z : Context} {w w' : World} {v : Verdict Context Value}
    (h : Ends (fun n => (lazy stateful).parse env n (.many p) z) w.reserve (.ok v) w') :
    match v with
    | .success _ xs => ∃ vs e id a w₁, Streamed env p z w vs e ∧ e.fault? = none ∧
        xs = .array id (vs.map (produced env)) ∧
        Ends (fun n => disclosedAnswer env n (.stream p) z) w (.ok a) w₁ ∧
        (∃ q, a = .success q ∨ a = .committed (.ready (.success q))) ∧
        (a.tag = .committed ↔ ∃ w₂, Ends (fun n => (lazy stateful).rawTag env n (.many p) z) w.reserve (.ok .committed) w₂)
    | .failure rest message => ∃ items c w₁ vs e,
        Repeats env p false z w.reserve items c (.committed (.failure rest message)) w₁ ∧
        Streamed env p z w vs e ∧ e.fault? = some (.parse message (.whole rest.input.offset)) ∧
        vs.map (produced env) = items.map Prod.fst ∧
        ∃ w₂ w₃, Ends (fun n => disclosedAnswer env n (.stream p) z) w (.ok (.committed (.ready (.failure rest message)))) w₂ ∧
          Ends (fun n => (lazy stateful).parse env n (.stream p) z) w (.ok (.failure rest message)) w₃ ∧
          ∀ k, Ends (fun n => (means env n).answer (.apply (.bind (.stream p) k) z)) w
              (.ok (.committed (.ready (.failure rest message)))) w₂ ∧
            Ends (fun n => (lazy stateful).parse env n (.bind (.stream p) k) z) w (.ok (.failure rest message)) w₃ := by
  obtain ⟨r, w₁, w₂, hreveal, hread⟩ := reveal_of_ends h
  obtain ⟨items, c, last, r₁, hrepeats, hcollected, rfl⟩ := many_repeats p hreveal
  obtain ⟨vs, rest, w₃, hreads, hvs⟩ := hrepeats.reads w.reserved_reserve #[]
  have hmake := w.makeList_reserve ⟨p, z, false⟩
  obtain ⟨q, hq, hfinish⟩ := Reads.disclosed hmake hreads
  have hstreamed := Reads.streamed hmake hreads
  obtain ⟨rest', message, rfl, rfl⟩ | ⟨hlast, rest', rfl⟩ := hcollected.cases
  · cases hread
    obtain ⟨hdisclosed, hstream, hbind⟩ := failed_of_finish hq hfinish
    obtain ⟨w₄, hparse⟩ := ends_of_reveal_failure env rest' message w₃
    refine ⟨items, c, w₁, vs, _, hrepeats, hstreamed, rfl, hvs, w₃, w₄, ends_disclosedAnswer hdisclosed,
      hparse stateful true _ z w hstream, fun k => ⟨?_, hparse stateful true _ z w (hbind k).2⟩⟩
    exact (Run.limit_eq_some (steady_answer env _)).1 (hbind k).1
  · obtain ⟨a, w₄, ha, htag⟩ := answer_many_tag hreveal
    have htag' : (∃ w₂, Ends (fun n => (lazy stateful).rawTag env n (.many p) z) w.reserve (.ok .committed) w₂) ↔
        c = true := (ends_rawTag_committed ha).trans (htag ▸ Revealed.tag_eq_committed _)
    obtain ⟨id, rfl⟩ := readAll_array hread
    refine ⟨vs, _, id, _, w₃, hstreamed, ?_, ?_, ends_disclosedAnswer (disclosed_of_finish hq hfinish), ?_⟩
    · rw [ListEnd.fault?, hlast]
      cases c <;> rfl
    · rw [hvs, List.append_nil]
      exact congrArg _ (List.reverse_reverse _)
    · rw [hlast, htag']
      cases c with
      | true => exact ⟨⟨_, .inr rfl⟩, iff_of_true rfl rfl⟩
      | false => exact ⟨⟨_, .inl rfl⟩, ⟨(nomatch ·), (nomatch ·)⟩⟩

/-- A token that no choice may give back. -/
def decided : Parser := .bind .next fun t => .pure (.commit (.pure t))

theorem stream_many_decided : ∃ vs e, Streamed ((lazy true).env (fun _ => .fail "") {}) decided
      ⟨.ofList [.text "a", .text "b"], .absent⟩ {} vs e ∧ e.fault? = none ∧
    vs.map (produced ((lazy true).env (fun _ => .fail "") {})) = [.text "a", .text "b"] := by
  have hmany : Ends (fun n => (lazy true).parse ((lazy true).env (fun _ => .fail "") {}) n (.many decided)
      ⟨.ofList [.text "a", .text "b"], .absent⟩) (World.reserve {})
      (.ok (.success ⟨.tokens [] 2, .absent⟩ (.array (.made 0) [.text "a", .text "b"])))
      { World.reserve {} with made := 1 } := ⟨20, rfl⟩
  obtain ⟨vs, e, id, -, -, hstreamed, hend, hvs, -⟩ := stream_many hmany
  injection hvs with _ hvs
  exact ⟨vs, e, hstreamed, hend, hvs.symm⟩

end Engine

end CommittedChoice
