import CommittedChoice.Proofs.OnDemand.Related
import CommittedChoice.Proofs.Meaning
import CommittedChoice.Proofs.Terms

/-!
# Demands keep the strict meaning

Whatever the on-demand engine holds of a parser without lists, done or suspended, has a strict meaning: what the strict
engine would make of the work that is left. A demand does some of that work and leaves the rest with the same meaning.

- `Suspended.strict`, `Answer.strict`, `Frame.strict`: the strict meaning of what is held;
- `Suspended.StreamFree`, `Answer.StreamFree`: what can be held of a parser without lists. Its successes know where they
  end and turn out to be nothing else;
- `Follows x G K y`: wherever the run `x` answers, its answer is as `G` says and goes on by `K` as `y` does; wherever `x`
  faults, so does `y`;
- `answer_strict`: a demand keeps the strict meaning, by induction on its fuel.
-/

namespace CommittedChoice

open Strict (Outcome)

/-! ## Following -/

/-- Where no list was made, the course `x` gives what `G` asks for, and going on from there by `K` is the course `y`. -/
def Course.Follows {α β : Type} (x : Course α) (G : α → Prop) (K : α → Course β) (y : Course β) : Prop :=
  ∀ w b, w.lists = #[] → x w = some b → b.2.lists = #[] ∧
    match b.1 with
    | .ok a => G a ∧ y w = K a b.2
    | .error e => y w = some (.error e, b.2)

/-- The same for a run. -/
def Follows {α β : Type} (x : Run α) (G : α → Prop) (K : α → Course β) (y : Course β) : Prop :=
  (Course.ofRun x).Follows G K y

namespace Course.Follows

variable {α β γ : Type} {x : Course α} {G : α → Prop} {K : α → Course β} {y : Course β}

theorem never : (Course.never : Course α).Follows G K y := fun _ _ _ h => by cases h

theorem pure {a : α} (h : G a) (hy : y = K a) : (Pure.pure a : Course α).Follows G K y := by
  rintro w b hw ⟨⟩
  exact ⟨hw, h, congrFun hy w⟩

theorem bind {f : α → Course γ} {G' : γ → Prop} {K' : γ → Course β} (h : x.Follows G K y)
    (hf : ∀ a, G a → (f a).Follows G' K' (K a)) : (x >>= f).Follows G' K' y := by
  intro w b hw hb
  rcases Course.bind_eq_some hb with ⟨a, w', hx, ha⟩ | ⟨e, w', hx, rfl⟩
  · obtain ⟨hw', hG, hy⟩ := h w _ hw hx
    rw [hy]
    exact hf a hG w' b hw' ha
  · exact h w _ hw hx

/-- Going on the same way on both sides. -/
theorem extend (h : x.Follows G K y) (g : β → Course γ) : x.Follows G (fun a => K a >>= g) (y >>= g) := by
  rintro w ⟨e | a, w'⟩ hw hb
  · obtain ⟨hw', hy⟩ := h w _ hw hb
    exact ⟨hw', Course.bind_of_error hy⟩
  · obtain ⟨hw', hG, hy⟩ := h w _ hw hb
    refine ⟨hw', hG, ?_⟩
    rw [Course.bind_apply, hy]
    rfl

theorem of_eq {K' : α → Course β} (h : x.Follows G K y) (hK : ∀ a, G a → K a = K' a) : x.Follows G K' y := by
  rintro w ⟨e | a, w'⟩ hw hb
  · exact h w _ hw hb
  · obtain ⟨hw', hG, hy⟩ := h w _ hw hb
    exact ⟨hw', hG, hy.trans (congrFun (hK a hG) w')⟩

/-- Something that holds of every answer. -/
theorem and_of {G' : α → Prop} (h : x.Follows G K y) (hG : ∀ w a w', x w = some (.ok a, w') → G' a) :
    x.Follows G' K y := by
  rintro w ⟨e | a, w'⟩ hw hb
  · exact h w _ hw hb
  · obtain ⟨hw', -, hy⟩ := h w _ hw hb
    exact ⟨hw', hG w a w' hb, hy⟩

theorem sup {f : Nat → Course α} (hf : Monotone f) (h : ∀ n, (f n).Follows G K y) : (Course.sup f).Follows G K y := by
  intro w b hw hb
  obtain ⟨n, hn⟩ := (Course.sup_eq_some hf).1 hb
  exact h n w b hw hn

theorem listFree {x : Run α} (h : x.ListFree) (K : α → Course β) :
    (Course.ofRun x).Follows (fun _ => True) K (Course.ofRun x >>= K) := by
  rintro w ⟨e | a, w'⟩ hw hb
  all_goals
    have hlists : w'.lists = #[] := by
      rw [← hw, ← h.lists_eq w, Course.ofRun_eq_some.1 hb]
  · exact ⟨hlists, Course.bind_of_error hb⟩
  · exact ⟨hlists, trivial, Course.bind_of_ok hb⟩

end Course.Follows

namespace Follows

variable {α β γ : Type} {x : Run α} {G : α → Prop} {K : α → Course β} {y : Course β}

theorem outOfFuel : Follows (Run.halt .outOfFuel) G K y := Course.Follows.never

theorem pure {a : α} (h : G a) : Follows (pure a) G K (K a) := Course.Follows.pure h rfl

theorem of_pure {a : α} (h : G a) (hy : y = K a) : Follows (Pure.pure a) G K y := Course.Follows.pure h hy

theorem bind {f : α → Run γ} {G' : γ → Prop} {K' : γ → Course β} (h : Follows x G K y)
    (hf : ∀ a, G a → Follows (f a) G' K' (K a)) : Follows (x >>= f) G' K' y := by
  unfold Follows
  rw [Course.ofRun_bind]
  exact Course.Follows.bind h hf

theorem extend (h : Follows x G K y) (g : β → Course γ) : Follows x G (fun a => K a >>= g) (y >>= g) :=
  Course.Follows.extend h g

theorem listFree (h : x.ListFree) (K : α → Course β) : Follows x (fun _ => True) K (Course.ofRun x >>= K) :=
  Course.Follows.listFree h K

end Follows

namespace OnDemand

variable (env : Env)

/-! ## The strict meaning of what is held -/

/-- The value of something late. -/
noncomputable def Late.strict {α : Type} : Late α → Course α
  | .known a => pure a
  | .later act => (Strict.semantics env).exec act
  | .mapped l f => l.strict >>= fun a => (Strict.semantics env).exec (f a)

/-- What a turn of a loop leads to. The turns after a commitment stand under it, and do not say so themselves. -/
noncomputable def strictTurn (step : Value → Act Parser) (c : Bool) (r : Outcome) : Course Outcome :=
  if c then Result.uncommitted <$> Semantics.turn.after ((Strict.semantics env).loop step) true r
  else Semantics.turn.after ((Strict.semantics env).loop step) false r

/-- What the turns of a loop come to. -/
noncomputable def strictTurns (step : Value → Act Parser) (c : Bool) (s : Value) (z : Context) : Course Outcome :=
  if c then Result.uncommitted <$> (Strict.semantics env).loop step true s z else (Strict.semantics env).loop step false s z

/-- What a frame makes of a result. -/
noncomputable def Frame.strict (f : Frame) (r : Outcome) : Course Outcome :=
  match f with
  | .map f => r.map fun v => (Strict.semantics env).exec (f v)
  | .bind k => r.bind fun z v => (Strict.semantics env).exec (k v) >>= fun q => Strict.eval env q z
  | .reword f => r.adjust fun message => (Strict.semantics env).exec (f message)
  | .restoring state => pure (r.onFailureRest fun z => { z with state := state })
  | .orElse q z => Semantics.orElse r (Strict.eval env q z)
  | .loop step => strictTurn env step true r

mutual

/-- What an answer comes to. -/
noncomputable def Answer.strict : Answer → Course Outcome
  | .success p => p.rest.strict env >>= fun z => p.value.strict env >>= fun v => pure (.success z v)
  | .failure z message => pure (.failure z message)
  | .committed inner => Result.commit <$> inner.strict

/-- What a suspended parser comes to. -/
noncomputable def Suspended.strict : Suspended → Course Outcome
  | .ready a => a.strict
  | .apply p z => Strict.eval env p z
  | .afresh p z => Strict.eval env p z
  | .after act s => (Strict.semantics env).exec act >>= fun _ => s.strict
  | .framed s f => s.strict >>= f.strict env

end

/-! ## What is held of parsers without lists -/

/-- The success knows where it ends, and turns out to be nothing else. -/
def Promise.Prompt (p : Promise) : Prop := ∃ z l, p = { rest := .known z, value := l }

/-- No list is made by a frame. -/
def Frame.StreamFree : Frame → Prop
  | .bind k => ∀ v, Parser.GivesStreamFree (k v)
  | .orElse q _ => q.StreamFree
  | .loop step => ∀ v, Parser.GivesStreamFree (step v)
  | _ => True

mutual

/-- No list is part of an answer. -/
def Answer.StreamFree : Answer → Prop
  | .success p => p.Prompt
  | .failure _ _ => True
  | .committed inner => inner.StreamFree

/-- No list is part of a suspended parser. -/
def Suspended.StreamFree : Suspended → Prop
  | .ready a => a.StreamFree
  | .apply p _ => p.StreamFree
  | .afresh p _ => p.StreamFree
  | .after _ s => s.StreamFree
  | .framed s f => s.StreamFree ∧ f.StreamFree

end

variable {env}

theorem Answer.strict_prompt (z : Context) (l : Late Value) :
    (Answer.success { rest := .known z, value := l }).strict env = l.strict env >>= fun v => pure (.success z v) := by
  rw [Answer.strict, Late.strict, pure_bind]

theorem Answer.strict_known (z : Context) (v : Value) : (Answer.known z v).strict env = pure (.success z v) := by
  rw [Answer.known, Answer.strict_prompt, Late.strict, pure_bind]

/-- A frame that is moved under a commitment. -/
theorem Frame.strict_commit {f : Frame} (hf : ∀ q z, f ≠ .orElse q z) (hf' : ∀ step, f ≠ .loop step) (r : Outcome) :
    f.strict env r.commit = Result.commit <$> f.strict env r := by
  cases f with
  | orElse q z => exact absurd rfl (hf q z)
  | loop step => exact absurd rfl (hf' step)
  | map f => exact r.map_commit _
  | bind k => exact r.bind_commit _
  | reword f => exact r.adjust_commit _
  | restoring state =>
    show (pure (r.commit.onFailureRest _) : Course Outcome) = Result.commit <$> pure (r.onFailureRest _)
    rw [map_pure, r.onFailureRest_commit]

/-! ## Callbacks and parts of a success -/

section Parts

variable (n : Nat) {α β : Type}

/-- Without lists there is no node to read. -/
theorem node_missing {w : World} (hw : w.lists = #[]) (i : Nat) :
    node env (n + 1) i w = (.error (.fault Lists.missing), w) := by
  have hnodes : w.nodesOf (listOf i) = #[] := by rw [World.nodesOf, hw]; rfl
  rw [node_succ]
  exact if_neg (by rw [hnodes]; exact Nat.not_lt_zero _)

theorem node_strict (i : Nat) (K : Node → Course β) :
    Follows (node env n i) (fun _ => False) K (Course.fault Lists.missing) := by
  cases n with
  | zero => exact .outOfFuel
  | succ n =>
    intro w b hw hb
    cases (Course.ofRun_eq_some (a := .error Lists.missing)).2 (node_missing n hw i) ▸ hb
    exact ⟨hw, rfl⟩

theorem walk_strict (i : Nat) (K : List Value × ListEnd → Course β) :
    Follows ((means env n).lists.walk i) (fun _ => False) K (Course.fault Lists.missing) := by
  show Follows (walk (node env n) n i []) _ _ _
  cases n with
  | zero => exact .outOfFuel
  | succ n => exact (node_strict (n + 1) i fun _ => .fault Lists.missing).bind fun _ h => h.elim

theorem exec_strict (act : Act α) (K : α → Course β) :
    Follows ((means env n).exec act) (fun _ => True) K ((Strict.semantics env).exec act >>= K) := by
  unfold Means.exec
  induction act with
  | pure a => exact .of_pure trivial rfl
  | throw e =>
    rintro w b hw ⟨⟩
    exact ⟨hw, rfl⟩
  | note id next ih => exact fun w b hw => ih _ b hw
  | width k ih => exact ih _
  | count mark k ih => exact fun w b hw => ih _ _ b hw
  | fresh k ih => exact fun w b hw => ih _ _ b hw
  | node i k ih =>
    rw [Act.exec_node]
    exact (node_strict n i fun _ => Course.fault Lists.missing).bind fun _ h => h.elim
  | walk i k ih =>
    rw [Act.exec_walk]
    exact (walk_strict n i fun _ => Course.fault Lists.missing).bind fun _ h => h.elim

/-- The parser that a callback gives. -/
theorem exec_parser_strict {act : Act Parser} (h : Parser.GivesStreamFree act) (K : Parser → Course β) :
    Follows ((means env n).exec act) Parser.StreamFree K ((Strict.semantics env).exec act >>= K) :=
  Course.Follows.and_of (exec_strict n act K) fun _ _ _ hq => h.exec (Course.ofRun_eq_some.1 hq)

theorem late_strict (l : Late α) (K : α → Course β) :
    Follows ((means env n).late l) (fun _ => True) K (l.strict env >>= K) := by
  induction l generalizing K with
  | known a => exact .pure trivial
  | later act =>
    rw [Means.late_later]
    exact exec_strict n act K
  | mapped l f ih =>
    rw [Means.late_mapped, Late.strict, bind_assoc]
    exact (ih _).bind fun a _ => exec_strict n (f a) K

end Parts

/-! ## Loops -/

section Demands

variable {n : Nat} (ih : ∀ s : Suspended, s.StreamFree →
  Follows ((means env n).answer s) Answer.StreamFree (Answer.strict env) (s.strict env))

include ih

theorem settlement_strict : ∀ (k : Nat) {s : Suspended}, s.StreamFree →
    Follows ((means env n).settlement k s) (fun t => t.toAnswer.StreamFree)
      (fun t => Result.uncommitted <$> t.toAnswer.strict env) (Result.uncommitted <$> s.strict env)
  | 0, _, _ => .outOfFuel
  | k + 1, s, hs => by
    rw [Means.settlement_succ, map_eq_pure_bind]
    refine ((ih s hs).extend _).bind fun a ha => ?_
    rw [← map_eq_pure_bind]
    cases a with
    | success p => exact .pure ha
    | failure z message => exact .pure trivial
    | committed inner =>
      rw [Answer.strict, ← comp_map]
      rw [Answer.StreamFree] at ha
      exact settlement_strict k ha

/-- No list is part of what a turn leads to. -/
def TurnStreamFree : Means.Turn → Prop
  | .finished a => a.StreamFree
  | .again _ _ => True

variable (env) in
/-- What a turn leads to, in strict terms. -/
noncomputable def turnStrict (step : Value → Act Parser) (c : Bool) : Means.Turn → Course Outcome
  | .finished a => a.strict env
  | .again s z => strictTurns env step c s z

variable {step : Value → Act Parser}

omit ih in
theorem strictTurns_unfold (c : Bool) (s : Value) (z : Context) :
    strictTurns env step c s z =
      (Strict.semantics env).exec (step s) >>= fun q => Strict.eval env q z >>= strictTurn env step c := by
  unfold strictTurns strictTurn
  cases c with
  | true =>
    simp only [if_true]
    rw [Semantics.loop, Course.Turn.loop_unfold, Semantics.body, bind_assoc, map_bind]
    exact bind_congr fun q => map_bind _ _ _
  | false =>
    simp only [Bool.false_eq_true, if_false]
    rw [Semantics.loop, Course.Turn.loop_unfold, Semantics.body, bind_assoc]
    rfl

omit ih in
theorem strictTurn_success (c : Bool) (z : Context) (v : Value) :
    strictTurn env step c (.success z v) =
      match v.toStep with
      | .done value => pure (.success z value)
      | .again s => strictTurns env step c s z := by
  unfold strictTurn strictTurns
  cases c <;> simp only [Semantics.turn, Result.success, Result.verdict, Result.isCommitted] <;> cases v.toStep <;> rfl

omit ih in
/-- A turn that succeeded. -/
theorem turnValue_strict (c : Bool) (z : Context) (l : Late Value) :
    Follows ((means env n).turnValue { rest := .known z, value := l }) TurnStreamFree (turnStrict env step c)
      (l.strict env >>= fun v => strictTurn env step c (.success z v)) := by
  refine (late_strict n l _).bind fun v _ => ?_
  rw [strictTurn_success]
  cases v.toStep with
  | done value =>
    exact .of_pure ⟨z, .known value, rfl⟩ (Answer.strict_known z value).symm
  | again s => exact .pure trivial

omit ih in
theorem strictTurn_commit (r : Outcome) : strictTurn env step true r.commit = strictTurn env step true r := by
  unfold strictTurn
  simp only [if_true, Semantics.after_true_commit]

omit ih in
theorem strictTurn_uncommitted (r : Outcome) : strictTurn env step true r.uncommitted = strictTurn env step true r := by
  rw [← strictTurn_commit, ← strictTurn_commit r]
  rfl

/-- A turn of a loop. -/
theorem turnAnswer_strict (k : Nat) (c : Bool) {a : Answer} (ha : a.StreamFree) (hstep : ∀ v, Parser.GivesStreamFree (step v)) :
    Follows ((means env n).turnAnswer k step c a) TurnStreamFree (turnStrict env step c)
      (a.strict env >>= strictTurn env step c) := by
  have hsettled : ∀ (c : Bool) (t : Settled), t.toAnswer.StreamFree →
      Follows ((means env n).turnAnswer k step c t.toAnswer) TurnStreamFree (turnStrict env step c)
        (t.toAnswer.strict env >>= strictTurn env step c) := by
    intro c t ht
    cases t with
    | failure z message =>
      refine .of_pure trivial ?_
      rw [Settled.toAnswer, Answer.strict, pure_bind]
      cases c <;> rfl
    | success p =>
      obtain ⟨z, l, rfl⟩ := ht
      rw [Settled.toAnswer, Answer.strict_prompt, bind_assoc]
      exact turnValue_strict c z l
  cases a with
  | success p => exact hsettled c (.success p) ha
  | failure z message => exact hsettled c (.failure z message) trivial
  | committed inner =>
    rw [Answer.StreamFree] at ha
    rw [Answer.strict, bind_map_left]
    cases c with
    | false =>
      refine .of_pure ⟨ha, hstep⟩ ?_
      rw [turnStrict, Answer.strict, Suspended.strict, map_bind]
      refine bind_congr fun r => ?_
      -- the turns after this one are committed anyway
      show Semantics.turn.after _ false r.commit = Result.commit <$> Result.uncommitted <$> Semantics.turn.after _ true r
      rw [← comp_map, Semantics.after_true_commit]
      exact (Semantics.commit_after (Semantics.commit_loop step) true r).symm
    | true =>
      rw [Means.turnAnswer_committed]
      have hinner : inner.strict env >>= (fun r => strictTurn env step true r.commit) =
          Result.uncommitted <$> inner.strict env >>= strictTurn env step true := by
        rw [bind_map_left]
        exact bind_congr fun r => by rw [strictTurn_commit, strictTurn_uncommitted]
      rw [hinner]
      refine ((settlement_strict ih k ha).extend _).bind fun t ht => ?_
      have ht' : Result.uncommitted <$> t.toAnswer.strict env >>= strictTurn env step true =
          t.toAnswer.strict env >>= strictTurn env step true := by
        rw [bind_map_left]
        exact bind_congr fun r => strictTurn_uncommitted r
      rw [ht']
      exact hsettled true t ht

/-- The turns of a loop. -/
theorem turns_strict (c : Bool) (hstep : ∀ v, Parser.GivesStreamFree (step v)) : ∀ (k : Nat) (s : Value) (z : Context),
    Follows ((means env n).turns step c k s z) Answer.StreamFree (Answer.strict env) (strictTurns env step c s z)
  | 0, _, _ => .outOfFuel
  | k + 1, s, z => by
    rw [Means.turns_succ, strictTurns_unfold]
    refine (exec_parser_strict n (hstep s) _).bind fun q hq => ?_
    refine ((ih (.apply q z) hq).extend _).bind fun a ha => ?_
    refine (turnAnswer_strict ih k c ha hstep).bind fun t ht => ?_
    cases t with
    | finished a => exact .pure ht
    | again s z => exact turns_strict c hstep k s z

/-! ## Frames -/

/-- What a frame makes of an answer. -/
theorem resumption_strict (k : Nat) {f : Frame} (hf : f.StreamFree) {a : Answer} (ha : a.StreamFree) :
    Follows ((means env n).resumption k f a) Answer.StreamFree (Answer.strict env) (a.strict env >>= f.strict env) := by
  -- a frame that is moved under a commitment
  have hcommitted : ∀ {inner : Suspended}, (∀ q z, f ≠ .orElse q z) → (∀ step, f ≠ .loop step) → inner.StreamFree →
      (Answer.committed inner).strict env >>= f.strict env = (Answer.committed (.framed inner f)).strict env := by
    intro inner h₁ h₂ _
    rw [Answer.strict, Answer.strict, Suspended.strict, bind_map_left, map_bind]
    exact bind_congr fun r => Frame.strict_commit h₁ h₂ r
  cases f with
  | bind k =>
    cases a with
    | success p =>
      obtain ⟨z, l, rfl⟩ := ha
      rw [Means.resumption_bind_success, Answer.strict_prompt, bind_assoc]
      show Follows ((means env n).late l >>= fun v => (means env n).exec (k v) >>= fun q =>
        (means env n).answer (.apply q z)) _ _ _
      refine (late_strict n l _).bind fun v _ => ?_
      refine (exec_parser_strict n (hf v) _).bind fun q hq => ?_
      exact ih (.apply q z) hq
    | failure z message =>
      rw [Means.resumption_bind_failure]
      exact .of_pure trivial (pure_bind _ _)
    | committed inner =>
      rw [Means.resumption_bind_committed]
      exact .of_pure ⟨ha, hf⟩ (hcommitted (fun _ _ h => by cases h) (fun _ h => by cases h) ha)
  | map f =>
    cases a with
    | success p =>
      obtain ⟨z, l, rfl⟩ := ha
      rw [Means.resumption_map_success]
      refine .of_pure ⟨z, _, rfl⟩ ?_
      rw [Answer.strict_prompt, Answer.strict_prompt, Late.strict, bind_assoc, bind_assoc]
      exact bind_congr fun v => pure_bind _ _
    | failure z message =>
      rw [Means.resumption_map_failure]
      exact .of_pure trivial (pure_bind _ _)
    | committed inner =>
      rw [Means.resumption_map_committed]
      exact .of_pure ⟨ha, hf⟩ (hcommitted (fun _ _ h => by cases h) (fun _ h => by cases h) ha)
  | reword f =>
    cases a with
    | success p =>
      obtain ⟨z, l, rfl⟩ := ha
      rw [Means.resumption_reword_success]
      refine .of_pure ⟨z, l, rfl⟩ ?_
      show _ = (Answer.success { rest := .known z, value := l }).strict env
      rw [Answer.strict_prompt, bind_assoc]
      exact bind_congr fun v => pure_bind _ _
    | failure z message =>
      rw [Means.resumption_reword_failure, Answer.strict, pure_bind]
      exact (exec_strict n _ _).bind fun _ _ => .pure trivial
    | committed inner =>
      rw [Means.resumption_reword_committed]
      exact .of_pure ⟨ha, hf⟩ (hcommitted (fun _ _ h => by cases h) (fun _ h => by cases h) ha)
  | restoring state =>
    cases a with
    | success p =>
      obtain ⟨z, l, rfl⟩ := ha
      rw [Means.resumption_restoring_success]
      refine .of_pure ⟨z, l, rfl⟩ ?_
      show _ = (Answer.success { rest := .known z, value := l }).strict env
      rw [Answer.strict_prompt, bind_assoc]
      exact bind_congr fun v => pure_bind _ _
    | failure z message =>
      rw [Means.resumption_restoring_failure]
      exact .of_pure trivial (pure_bind _ _)
    | committed inner =>
      rw [Means.resumption_restoring_committed]
      exact .of_pure ⟨ha, hf⟩ (hcommitted (fun _ _ h => by cases h) (fun _ h => by cases h) ha)
  | orElse q z =>
    cases a with
    | success p =>
      obtain ⟨z, l, rfl⟩ := ha
      rw [Means.resumption_orElse_success]
      refine .of_pure ⟨z, l, rfl⟩ ?_
      rw [Answer.strict_prompt, bind_assoc]
      exact bind_congr fun v => pure_bind _ _
    | failure rest message =>
      rw [Means.resumption_orElse_failure, Answer.strict, pure_bind]
      exact ih (.apply q z) hf
    | committed inner =>
      rw [Means.resumption_orElse_committed]
      refine .of_pure ha ?_
      rw [Answer.strict, bind_map_left, map_eq_pure_bind]
      rfl
  | loop step =>
    rw [Means.resumption_loop]
    refine (turnAnswer_strict ih k true ha hf).bind fun t ht => ?_
    cases t with
    | finished a => exact .pure ht
    | again s z => exact turns_strict ih true hf k s z

/-! ## Primitives -/

/-- A labelled choice. -/
theorem alternatives_strict (z : Context) : ∀ (failures : List (String × String)) {ps : List (String × Parser)},
    Parser.Each (fun q => q.isStream = false) ps →
    Follows ((means env n).alternatives z failures ps) Answer.StreamFree (Answer.strict env)
      ((Strict.semantics env).alternatives env z failures ps)
  | failures, [], _ => by
    unfold Means.alternatives Semantics.alternatives
    exact (Follows.listFree (.ofExcept _) _).bind fun _ _ => .pure trivial
  | failures, (label, p) :: rest, hps => by
    rw [Parser.Each] at hps
    unfold Means.alternatives Semantics.alternatives
    refine ((ih (.apply p z) hps.1).extend _).bind fun a ha => ?_
    cases a with
    | failure _ message =>
      rw [Answer.strict, pure_bind]
      exact (Follows.listFree (.print _) _).bind fun _ _ => alternatives_strict z _ hps.2
    | success q =>
      obtain ⟨z, l, rfl⟩ := ha
      refine .of_pure ⟨z, l, rfl⟩ ?_
      rw [Answer.strict_prompt, bind_assoc]
      exact bind_congr fun v => pure_bind _ _
    | committed inner =>
      refine .of_pure ha ?_
      rw [Answer.strict, bind_map_left, map_eq_pure_bind]
      rfl

omit ih in
theorem known_strict (z : Context) (v : Value) :
    Follows (pure (.known z v)) Answer.StreamFree (Answer.strict env) (pure (.success z v)) :=
  .of_pure ⟨z, .known v, rfl⟩ (Answer.strict_known z v).symm

/-- A parser that is not made of frames. -/
theorem primitive_strict (hg : ∀ name, (env.grammar name).StreamFree) (k : Nat) {p : Parser} (hp : p.StreamFree)
    (z : Context) (hframe : frame? z p = none) :
    Follows ((means env n).primitive k p z) Answer.StreamFree (Answer.strict env)
      ((Strict.semantics env).meaning env p z) := by
  cases p with
  | map | bind | orElse | reword | restoring => cases hframe
  | loop init step =>
    rw [Parser.StreamFree, Parser.Throughout] at hp
    exact turns_strict ih false hp.2 k init z
  | choice ps =>
    rw [Parser.StreamFree, Parser.Throughout] at hp
    exact alternatives_strict ih z [] hp.2
  | commit p =>
    rw [Parser.StreamFree, Parser.Throughout] at hp
    refine .of_pure (a := Answer.committed (.afresh p z)) hp.2 ?_
    exact (map_eq_pure_bind _ _).symm
  | rule name => exact ih (.apply (env.grammar name) z) (hg name)
  | stream p =>
    rw [Parser.StreamFree, Parser.Throughout] at hp
    cases hp.1
  | next =>
    refine (Follows.listFree (.next? _) _).bind fun answer _ => ?_
    match answer with
    | none => exact .pure trivial
    | some (t, rest) => exact known_strict _ t
  | eof =>
    refine (Follows.listFree (.next? _) _).bind fun answer _ => ?_
    match answer with
    | none => exact known_strict _ _
    | some (t, rest) => exact .pure trivial
  | satisfy test =>
    refine (Follows.listFree (.next? _) _).bind fun answer _ => ?_
    match answer with
    | none => exact .pure trivial
    | some (t, rest) =>
      refine (exec_strict n _ _).bind fun b _ => ?_
      cases b with
      | true => exact known_strict _ t
      | false => exact (Follows.listFree (.ofExcept _) _).bind fun _ _ => .pure trivial
  | fail message => exact .of_pure (a := Answer.failure z message) trivial rfl
  | pure v => exact known_strict _ _
  | pushBack ts => exact known_strict _ _
  | position => exact known_strict _ _
  | get => exact known_strict _ _
  | put state => exact known_strict _ _

end Demands

/-! ## Demands -/

/-- The parts of a parser that is made of a frame. -/
theorem frame_strict {p q : Parser} {z : Context} {f : Frame} (h : frame? z p = some (q, f)) (hp : p.StreamFree) :
    q.StreamFree ∧ f.StreamFree ∧ Strict.eval env p z = Strict.eval env q z >>= f.strict env := by
  rw [Parser.StreamFree] at hp
  cases p with
  | map p f =>
    rw [Parser.Throughout] at hp
    cases h
    exact ⟨hp.2, trivial, Strict.eval_eq _ z⟩
  | bind p k =>
    rw [Parser.Throughout] at hp
    cases h
    exact ⟨hp.2.1, hp.2.2, Strict.eval_eq _ z⟩
  | orElse p q =>
    rw [Parser.Throughout] at hp
    cases h
    exact ⟨hp.2.1, hp.2.2, Strict.eval_eq _ z⟩
  | reword p f =>
    rw [Parser.Throughout] at hp
    cases h
    exact ⟨hp.2, trivial, Strict.eval_eq _ z⟩
  | restoring p =>
    rw [Parser.Throughout] at hp
    cases h
    exact ⟨hp.2, trivial, Strict.eval_eq _ z⟩
  | _ => cases h

/-- **A demand keeps the strict meaning.** -/
theorem answer_strict (hg : ∀ name, (env.grammar name).StreamFree) : ∀ (n : Nat) (s : Suspended), s.StreamFree →
    Follows ((means env n).answer s) Answer.StreamFree (Answer.strict env) (s.strict env)
  | 0, _, _ => .outOfFuel
  | n + 1, s, hs => by
    have ih := answer_strict hg n
    match s with
    | .ready a =>
      rw [means_answer_ready]
      exact .pure hs
    | .afresh p z =>
      rw [means_answer_afresh]
      exact ih (.apply p z) hs
    | .after act s =>
      rw [means_answer_after]
      exact (exec_strict n act _).bind fun _ _ => ih s hs
    | .framed s f =>
      rw [means_answer_framed]
      exact ((ih s hs.1).extend _).bind fun a ha => resumption_strict ih n hs.2 ha
    | .apply p z =>
      rw [means_answer_apply]
      split
      · rename_i q f hframe
        obtain ⟨hq, hf, heval⟩ := frame_strict hframe hs
        rw [Suspended.strict, heval]
        exact ih (.framed (.apply q z) f) ⟨hq, hf⟩
      · rename_i hframe
        rw [Suspended.strict, Strict.eval_eq]
        exact primitive_strict ih hg n hs z hframe

end OnDemand

end CommittedChoice
