import CommittedChoice.Proofs.OnDemand.Agreement
import CommittedChoice.Proofs.Opening

/-!
# Terms that look at no lists

A parser that makes no list, and whose callbacks read none, does not touch the lists of the world. So the engine on demand
does in every world what it does where there are no lists, and that is what the strict engine does.

- `Act.Heedless`: a callback that reads no list, as one that answers where there are none (`Act.Answers.heedless`);
- `Parser.Heedless`: such a parser; `Answer.Heedless`, `Suspended.Heedless`: what can be held of one;
- `Course.Heedless`: courses that neither look at lists nor change them, with what is known of their answers;
- `OnDemand.answer_heedless`: a demand on what is held is such a course, by induction on its fuel;
- `OnDemand.eval_eq_strict_of_heedless`: both engines give the same results, in every world.
-/

namespace CommittedChoice

open Strict (Outcome)

/-! ## Terms and callbacks -/

namespace Parser

variable {P Q : Parser → Prop}

/-- What follows from a property holds wherever the property does. -/
theorem Throughout.imp {p : Parser} (hp : p.Throughout P) (h : ∀ q, P q → Q q) : p.Throughout Q :=
  Throughout.weaken (A := False) (fun q hq => h q (hq.resolve_left id)) p (.inr hp)

mutual

/-- Two properties that hold throughout a parser hold together. -/
theorem Throughout.and : ∀ p : Parser, p.Throughout P → p.Throughout Q → p.Throughout fun q => P q ∧ Q q
  | .map p _, hp, hq | .commit p, hp, hq | .reword p _, hp, hq | .restoring p, hp, hq | .stream p, hp, hq =>
    ⟨⟨hp.1, hq.1⟩, Throughout.and p hp.2 hq.2⟩
  | .bind p k, hp, hq =>
    ⟨⟨hp.1, hq.1⟩, Throughout.and p hp.2.1 hq.2.1, fun v => Gives.and (k v) (hp.2.2 v) (hq.2.2 v)⟩
  | .orElse p q, hp, hq => ⟨⟨hp.1, hq.1⟩, Throughout.and p hp.2.1 hq.2.1, Throughout.and q hp.2.2 hq.2.2⟩
  | .loop _ step, hp, hq => ⟨⟨hp.1, hq.1⟩, fun v => Gives.and (step v) (hp.2 v) (hq.2 v)⟩
  | .choice ps, hp, hq => ⟨⟨hp.1, hq.1⟩, Each.and ps hp.2 hq.2⟩
  | .pure _, hp, hq | .fail _, hp, hq | .next, hp, hq | .eof, hp, hq | .satisfy _, hp, hq | .pushBack _, hp, hq
  | .position, hp, hq | .get, hp, hq | .put _, hp, hq | .rule _, hp, hq => ⟨hp, hq⟩

theorem Gives.and : ∀ act : Act Parser, Gives P act → Gives Q act → Gives (fun q => P q ∧ Q q) act
  | .pure p, hp, hq => Throughout.and p hp hq
  | .throw _, _, _ => trivial
  | .note _ act, hp, hq => Gives.and act hp hq
  | .width k, hp, hq => fun w => Gives.and (k w) (hp w) (hq w)
  | .count _ k, hp, hq => fun c => Gives.and (k c) (hp c) (hq c)
  | .fresh k, hp, hq => fun id => Gives.and (k id) (hp id) (hq id)
  | .node _ k, hp, hq => fun x => Gives.and (k x) (hp x) (hq x)
  | .walk _ k, hp, hq => fun xs e => Gives.and (k xs e) (hp xs e) (hq xs e)

theorem Each.and : ∀ ps : List (String × Parser), Each P ps → Each Q ps → Each (fun q => P q ∧ Q q) ps
  | [], _, _ => trivial
  | (_, p) :: ps, hp, hq => ⟨Throughout.and p hp.1 hq.1, Each.and ps hp.2 hq.2⟩

end

end Parser

/-- The callback reads no list. -/
def Act.Heedless {α : Type} (act : Act α) : Prop := ∀ env lists, act.exec env lists = act.exec env .none

namespace Act

variable {env : Env} {α : Type} {act : Act α}

/-- A callback that answers without lists has not looked at any. -/
theorem exec_of_none {w w' : World} {a : α} (h : act.exec env .none w = (.ok a, w')) (lists : Lists) :
    act.exec env lists w = (.ok a, w') := by
  induction act generalizing w with
  | pure a => exact h
  | throw e => exact h
  | note id next ih => exact ih h
  | width k ih => exact ih _ h
  | count mark k ih => exact ih _ h
  | fresh k ih => exact ih _ h
  | node i k ih => cases h
  | walk i k ih => cases h

theorem Answers.heedless (h : act.Answers) : act.Heedless := by
  intro env lists
  funext w
  obtain ⟨a, w', ha⟩ := h env w
  rw [exec_of_none ha, ha]

theorem Heedless.listFree (h : act.Heedless) (lists : Lists) : (act.exec env lists).ListFree := by
  rw [h]
  exact act.listFree_exec_none

end Act

namespace Parser

/-- The callbacks of the parser itself read no list. -/
def callbacksHeedless : Parser → Prop
  | .map _ f => ∀ v, (f v).Heedless
  | .bind _ k => ∀ v, (k v).Heedless
  | .loop _ step => ∀ v, (step v).Heedless
  | .reword _ f => ∀ m, (f m).Heedless
  | .satisfy test => ∀ t, (test t).Heedless
  | _ => True

theorem callbacksHeedless_of_answer : ∀ {p : Parser}, p.callbacksAnswer → p.callbacksHeedless
  | .map _ _, h | .bind _ _, h | .loop _ _, h | .reword _ _, h | .satisfy _, h => fun v => (h v).heedless
  | .pure _, _ | .fail _, _ | .orElse _ _, _ | .commit _, _ | .choice _, _ | .restoring _, _ | .next, _ | .eof, _
  | .pushBack _, _ | .position, _ | .get, _ | .put _, _ | .stream _, _ | .rule _, _ => trivial

/-- The parser itself makes no list and reads none. -/
def listless (p : Parser) : Prop := p.isStream = false ∧ p.callbacksHeedless

/-- No list is made anywhere in the parser, and none is read by its callbacks. -/
def Heedless (p : Parser) : Prop := p.Throughout listless

theorem heedless {p : Parser} (hp : p.StreamFree) (hcalls : p.NonThrowing) : p.Heedless :=
  (Throughout.and p hp hcalls).imp fun _ h => ⟨h.1, callbacksHeedless_of_answer h.2⟩

theorem Heedless.streamFree {p : Parser} (h : p.Heedless) : p.StreamFree := Throughout.imp h fun _ h => h.1

end Parser

/-! ## Courses that look at no lists -/

/-- Whatever lists there are, the course does the same and leaves them as they are, and its answers satisfy `G`. -/
def Course.Heedless {α : Type} (x : Course α) (G : α → Prop) : Prop :=
  ∀ w b, x w = some b → (∀ lists, x { w with lists := lists } = some (b.1, { b.2 with lists := lists })) ∧
    ∀ a, b.1 = .ok a → G a

/-- The same for a run. -/
def Run.Heedless {α : Type} (x : Run α) (G : α → Prop) : Prop := (Course.ofRun x).Heedless G

namespace Course.Heedless

variable {α β : Type} {x : Course α} {G : α → Prop} {G' : β → Prop}

theorem never : (Course.never : Course α).Heedless G := fun _ _ h => by cases h

theorem pure {a : α} (h : G a) : (Pure.pure a : Course α).Heedless G := by
  rintro w b ⟨⟩
  exact ⟨fun _ => rfl, fun _ ha => by cases ha; exact h⟩

theorem bind {f : α → Course β} (h : x.Heedless G) (hf : ∀ a, G a → (f a).Heedless G') : (x >>= f).Heedless G' := by
  intro w b hb
  obtain ⟨a, w', hx, ha⟩ | ⟨e, w', hx, rfl⟩ := Course.bind_eq_some hb
  · obtain ⟨hlists, hG⟩ := h w _ hx
    obtain ⟨hlists', hG'⟩ := hf a (hG a rfl) w' b ha
    refine ⟨fun lists => ?_, hG'⟩
    rw [Course.bind_of_ok (hlists lists)]
    exact hlists' lists
  · exact ⟨fun lists => Course.bind_of_error ((h w _ hx).1 lists), fun _ ha => by cases ha⟩

theorem sup {f : Nat → Course α} (hf : Monotone f) (h : ∀ n, (f n).Heedless G) : (Course.sup f).Heedless G := by
  intro w b hb
  obtain ⟨n, hn⟩ := (Course.sup_eq_some hf).1 hb
  obtain ⟨hlists, hG⟩ := h n w b hn
  exact ⟨fun lists => (Course.sup_eq_some hf).2 ⟨n, hlists lists⟩, hG⟩

theorem map {f : α → β} (h : x.Heedless G) (hf : ∀ a, G a → G' (f a)) : (f <$> x).Heedless G' := by
  rw [map_eq_pure_bind]
  exact h.bind fun a ha => pure (hf a ha)

/-- What such a course comes to does not depend on the lists. -/
theorem eq_some_iff (h : x.Heedless G) {w : World} {b : Except Fault α × World} {lists} :
    x { w with lists := lists } = some b ↔ ∃ b', x w = some b' ∧ b = (b'.1, { b'.2 with lists := lists }) := by
  constructor
  · intro hb
    have hb' := (h _ _ hb).1 w.lists
    refine ⟨_, hb', ?_⟩
    have hback := (h _ _ hb').1 lists
    exact Option.some.inj (hb.symm.trans hback)
  · rintro ⟨b', hb', rfl⟩
    exact (h _ _ hb').1 lists

end Course.Heedless

namespace Run.Heedless

variable {α β : Type} {x : Run α} {G : α → Prop} {G' : β → Prop}

theorem outOfFuel : (Run.halt .outOfFuel : Run α).Heedless G := Course.Heedless.never

theorem pure {a : α} (h : G a) : (Pure.pure a : Run α).Heedless G := Course.Heedless.pure h

theorem bind {f : α → Run β} (h : x.Heedless G) (hf : ∀ a, G a → (f a).Heedless G') : (x >>= f).Heedless G' := by
  unfold Run.Heedless
  rw [Course.ofRun_bind]
  exact Course.Heedless.bind h hf

theorem of_listFree (h : x.ListFree) (hG : ∀ w a w', x w = (.ok a, w') → G a) : x.Heedless G := by
  rintro w ⟨y, w'⟩ hb
  have hx := Course.ofRun_eq_some.1 hb
  refine ⟨fun lists => Course.ofRun_eq_some.2 ?_, fun a ha => ?_⟩
  · rw [h w lists, hx]
  · cases ha
    exact hG w a w' hx

theorem listFree (h : x.ListFree) : x.Heedless fun _ => True := of_listFree h fun _ _ _ _ => trivial

end Run.Heedless

namespace OnDemand

/-! ## What is held of such terms -/

/-- The callbacks that something late waits for read no list. -/
def Late.Heedless {α : Type} : Late α → Prop
  | .known _ => True
  | .later act => act.Heedless
  | .mapped l f => l.Heedless ∧ ∀ a, (f a).Heedless

/-- The success knows where it ends and turns out to be nothing else, and its value can be computed without lists. -/
def Promise.Heedless (p : Promise) : Prop := ∃ z l, p = { rest := .known z, value := l } ∧ l.Heedless

/-- The frame makes no list, and its callbacks read none. -/
def Frame.Heedless : Frame → Prop
  | .bind k => ∀ v, (k v).Heedless ∧ Parser.Gives Parser.listless (k v)
  | .map f => ∀ v, (f v).Heedless
  | .reword f => ∀ m, (f m).Heedless
  | .restoring _ => True
  | .orElse q _ => q.Heedless
  | .loop step => ∀ v, (step v).Heedless ∧ Parser.Gives Parser.listless (step v)

mutual

/-- No list is part of an answer, and its callbacks read none. -/
def Answer.Heedless : Answer → Prop
  | .success p => p.Heedless
  | .failure _ _ => True
  | .committed inner => inner.Heedless

/-- The same for a suspended parser. -/
def Suspended.Heedless : Suspended → Prop
  | .ready a => a.Heedless
  | .apply p _ => p.Heedless
  | .afresh p _ => p.Heedless
  | .after act s => act.Heedless ∧ s.Heedless
  | .framed s f => s.Heedless ∧ f.Heedless

end

/-- What a turn leads to can be held of such a term. -/
def TurnHeedless : Means.Turn → Prop
  | .finished a => a.Heedless
  | .again _ _ => True

variable {env : Env} {n : Nat}

/-! ## Parts of a success -/

section Parts

variable {α : Type}

theorem exec_heedless {act : Act α} (h : act.Heedless) : ((means env n).exec act).Heedless fun _ => True :=
  .listFree (h.listFree _)

/-- The parser that a callback gives. -/
theorem exec_parser_heedless {act : Act Parser} (h : act.Heedless ∧ Parser.Gives Parser.listless act) :
    ((means env n).exec act).Heedless Parser.Heedless :=
  .of_listFree (h.1.listFree _) fun _ _ _ hq => h.2.exec hq

theorem late_heedless {l : Late α} (h : l.Heedless) : ((means env n).late l).Heedless fun _ => True := by
  induction l with
  | known a => exact .pure trivial
  | later act =>
    rw [Means.late_later]
    exact exec_heedless h
  | mapped l f ih =>
    rw [Means.late_mapped]
    exact (ih h.1).bind fun a _ => exec_heedless (h.2 a)

theorem known_heedless (z : Context) (v : Value) : (pure (.known z v) : Run Answer).Heedless Answer.Heedless :=
  .pure ⟨z, .known v, rfl, trivial⟩

end Parts

/-! ## Loops -/

section Demands

variable (ih : ∀ s : Suspended, s.Heedless → ((means env n).answer s).Heedless Answer.Heedless)

include ih

theorem settlement_heedless : ∀ (k : Nat) {s : Suspended}, s.Heedless →
    ((means env n).settlement k s).Heedless fun t => t.toAnswer.Heedless
  | 0, _, _ => .outOfFuel
  | k + 1, s, hs => by
    rw [Means.settlement_succ]
    refine (ih s hs).bind fun a ha => ?_
    cases a with
    | success p => exact .pure ha
    | failure z message => exact .pure trivial
    | committed inner =>
      rw [Answer.Heedless] at ha
      exact settlement_heedless k ha

omit ih in
/-- A turn that succeeded. -/
theorem turnValue_heedless (z : Context) {l : Late Value} (hl : l.Heedless) :
    ((means env n).turnValue { rest := .known z, value := l }).Heedless TurnHeedless := by
  refine (late_heedless hl).bind fun v _ => ?_
  cases v.toStep with
  | done value => exact .pure ⟨z, .known value, rfl, trivial⟩
  | again s => exact .pure trivial

variable {step : Value → Act Parser} (hstep : ∀ v, (step v).Heedless ∧ Parser.Gives Parser.listless (step v))

include hstep

/-- A turn of a loop. -/
theorem turnAnswer_heedless (k : Nat) (c : Bool) {a : Answer} (ha : a.Heedless) :
    ((means env n).turnAnswer k step c a).Heedless TurnHeedless := by
  have hsettled : ∀ (c : Bool) (t : Settled), t.toAnswer.Heedless →
      ((means env n).turnAnswer k step c t.toAnswer).Heedless TurnHeedless := by
    intro c t ht
    cases t with
    | failure z message => exact .pure trivial
    | success p =>
      obtain ⟨z, l, rfl, hl⟩ := ht
      exact turnValue_heedless z hl
  cases a with
  | success p => exact hsettled c (.success p) ha
  | failure z message => exact hsettled c (.failure z message) trivial
  | committed inner =>
    rw [Answer.Heedless] at ha
    cases c with
    | false => exact .pure ⟨ha, hstep⟩
    | true =>
      rw [Means.turnAnswer_committed]
      exact (settlement_heedless ih k ha).bind fun t ht => hsettled true t ht

/-- The turns of a loop. -/
theorem turns_heedless (c : Bool) : ∀ (k : Nat) (s : Value) (z : Context),
    ((means env n).turns step c k s z).Heedless Answer.Heedless
  | 0, _, _ => .outOfFuel
  | k + 1, s, z => by
    rw [Means.turns_succ]
    refine (exec_parser_heedless (hstep s)).bind fun q hq => ?_
    refine (ih (.apply q z) hq).bind fun a ha => ?_
    refine (turnAnswer_heedless ih hstep k c ha).bind fun t ht => ?_
    cases t with
    | finished a => exact .pure ht
    | again s z => exact turns_heedless c k s z

omit hstep

/-! ## Frames -/

/-- What a frame makes of an answer. -/
theorem resumption_heedless (k : Nat) {f : Frame} (hf : f.Heedless) {a : Answer} (ha : a.Heedless) :
    ((means env n).resumption k f a).Heedless Answer.Heedless := by
  cases f with
  | bind k =>
    cases a with
    | success p =>
      obtain ⟨z, l, rfl, hl⟩ := ha
      rw [Means.resumption_bind_success]
      show Run.Heedless ((means env n).late l >>= fun v => (means env n).exec (k v) >>= fun q =>
        (means env n).answer (.apply q z)) _
      exact (late_heedless hl).bind fun v _ => (exec_parser_heedless (hf v)).bind fun q hq => ih (.apply q z) hq
    | failure z message => rw [Means.resumption_bind_failure]; exact .pure trivial
    | committed inner => rw [Means.resumption_bind_committed]; exact .pure ⟨ha, hf⟩
  | map f =>
    cases a with
    | success p =>
      obtain ⟨z, l, rfl, hl⟩ := ha
      rw [Means.resumption_map_success]
      exact .pure ⟨z, _, rfl, hl, hf⟩
    | failure z message => rw [Means.resumption_map_failure]; exact .pure trivial
    | committed inner => rw [Means.resumption_map_committed]; exact .pure ⟨ha, hf⟩
  | reword f =>
    cases a with
    | success p =>
      obtain ⟨z, l, rfl, hl⟩ := ha
      rw [Means.resumption_reword_success]
      exact .pure ⟨z, l, rfl, hl⟩
    | failure z message =>
      rw [Means.resumption_reword_failure]
      exact (exec_heedless (hf _)).bind fun _ _ => .pure trivial
    | committed inner => rw [Means.resumption_reword_committed]; exact .pure ⟨ha, hf⟩
  | restoring state =>
    cases a with
    | success p =>
      obtain ⟨z, l, rfl, hl⟩ := ha
      rw [Means.resumption_restoring_success]
      exact .pure ⟨z, l, rfl, hl⟩
    | failure z message => rw [Means.resumption_restoring_failure]; exact .pure trivial
    | committed inner => rw [Means.resumption_restoring_committed]; exact .pure ⟨ha, hf⟩
  | orElse q z =>
    cases a with
    | success p => rw [Means.resumption_orElse_success]; exact .pure ha
    | failure rest message => rw [Means.resumption_orElse_failure]; exact ih (.apply q z) hf
    | committed inner => rw [Means.resumption_orElse_committed]; exact .pure ha
  | loop step =>
    rw [Means.resumption_loop]
    refine (turnAnswer_heedless ih hf k true ha).bind fun t ht => ?_
    cases t with
    | finished a => exact .pure ht
    | again s z => exact turns_heedless ih hf true k s z

/-! ## Primitives -/

/-- A labelled choice. -/
theorem alternatives_heedless (z : Context) : ∀ (failures : List (String × String)) {ps : List (String × Parser)},
    Parser.Each Parser.listless ps → ((means env n).alternatives z failures ps).Heedless Answer.Heedless
  | failures, [], _ => by
    unfold Means.alternatives
    exact (Run.Heedless.listFree (.ofExcept _)).bind fun _ _ => .pure trivial
  | failures, (label, p) :: rest, hps => by
    rw [Parser.Each] at hps
    unfold Means.alternatives
    refine (ih (.apply p z) hps.1).bind fun a ha => ?_
    cases a with
    | failure _ message =>
      exact (Run.Heedless.listFree (.print _)).bind fun _ _ => alternatives_heedless z _ hps.2
    | success q => exact .pure ha
    | committed inner => exact .pure ha

/-- A parser that is not made of frames. -/
theorem primitive_heedless (hg : ∀ name, (env.grammar name).Heedless) (k : Nat) {p : Parser} (hp : p.Heedless)
    (z : Context) (hframe : frame? z p = none) : ((means env n).primitive k p z).Heedless Answer.Heedless := by
  cases p with
  | map | bind | orElse | reword | restoring => cases hframe
  | loop init step =>
    rw [Parser.Heedless, Parser.Throughout] at hp
    exact turns_heedless ih (fun v => ⟨hp.1.2 v, hp.2 v⟩) false k init z
  | choice ps =>
    rw [Parser.Heedless, Parser.Throughout] at hp
    exact alternatives_heedless ih z [] hp.2
  | commit p =>
    rw [Parser.Heedless, Parser.Throughout] at hp
    exact .pure hp.2
  | rule name => exact ih (.apply (env.grammar name) z) (hg name)
  | stream p =>
    rw [Parser.Heedless, Parser.Throughout] at hp
    cases hp.1.1
  | next =>
    refine (Run.Heedless.listFree (.next? _)).bind fun answer _ => ?_
    obtain _ | ⟨t, rest⟩ := answer
    · exact .pure trivial
    · exact known_heedless _ t
  | eof =>
    refine (Run.Heedless.listFree (.next? _)).bind fun answer _ => ?_
    obtain _ | ⟨t, rest⟩ := answer
    · exact known_heedless _ _
    · exact .pure trivial
  | satisfy test =>
    have hcalls : ∀ t, (test t).Heedless := (show Parser.listless (.satisfy test) from hp).2
    refine (Run.Heedless.listFree (.next? _)).bind fun answer _ => ?_
    obtain _ | ⟨t, rest⟩ := answer
    · exact .pure trivial
    · refine (exec_heedless (hcalls t)).bind fun b _ => ?_
      cases b with
      | true => exact known_heedless _ t
      | false => exact (Run.Heedless.listFree (.ofExcept _)).bind fun _ _ => .pure trivial
  | fail message => exact .pure trivial
  | pure v => exact known_heedless _ _
  | pushBack ts => exact known_heedless _ _
  | position => exact known_heedless _ _
  | get => exact known_heedless _ _
  | put state => exact known_heedless _ _

end Demands

/-! ## Demands -/

/-- The parts of a parser that is made of a frame. -/
theorem frame_heedless {p q : Parser} {z : Context} {f : Frame} (h : frame? z p = some (q, f)) (hp : p.Heedless) :
    q.Heedless ∧ f.Heedless := by
  rw [Parser.Heedless] at hp
  cases p with
  | map p f | reword p f =>
    rw [Parser.Throughout] at hp
    cases h
    exact ⟨hp.2, hp.1.2⟩
  | bind p k =>
    rw [Parser.Throughout] at hp
    cases h
    exact ⟨hp.2.1, fun v => ⟨hp.1.2 v, hp.2.2 v⟩⟩
  | orElse p q =>
    rw [Parser.Throughout] at hp
    cases h
    exact ⟨hp.2.1, hp.2.2⟩
  | restoring p =>
    rw [Parser.Throughout] at hp
    cases h
    exact ⟨hp.2, trivial⟩
  | _ => cases h

section Grammar

variable (hg : ∀ name, (env.grammar name).Heedless)

include hg

/-- **A demand on such a term looks at no lists.** -/
theorem answer_heedless : ∀ (n : Nat) (s : Suspended), s.Heedless →
    ((means env n).answer s).Heedless Answer.Heedless
  | 0, _, _ => .outOfFuel
  | n + 1, s, hs => by
    have ih := answer_heedless n
    match s with
    | .ready a =>
      rw [means_answer_ready]
      exact .pure hs
    | .afresh p z =>
      rw [means_answer_afresh]
      exact ih (.apply p z) hs
    | .after act s =>
      rw [means_answer_after]
      exact (exec_heedless hs.1).bind fun _ _ => ih s hs.2
    | .framed s f =>
      rw [means_answer_framed]
      exact (ih s hs.1).bind fun a ha => resumption_heedless ih n hs.2 ha
    | .apply p z =>
      rw [means_answer_apply]
      split
      · rename_i q f hframe
        exact ih (.framed (.apply q z) f) (frame_heedless hframe hs)
      · rename_i hframe
        exact primitive_heedless ih hg n hs z hframe

/-! ## With enough fuel -/

/-- So is what is revealed of it. -/
theorem reveal_heedless {s : Suspended} (hs : s.Heedless) :
    (reveal env s).Heedless fun r => r.settled.toAnswer.Heedless := by
  refine .sup (monotone_revealUpTo s) fun k => ?_
  induction k generalizing s with
  | zero => exact .never
  | succ k ih =>
    have hanswer : (answer env s).Heedless Answer.Heedless :=
      .sup (steady_answer env s).monotone fun n => answer_heedless hg n s hs
    refine hanswer.bind fun a ha => ?_
    cases a with
    | failure z message => exact .pure trivial
    | success p =>
      obtain ⟨z, l, rfl, hl⟩ := ha
      rw [revealing, finish_of_none rfl, map_pure]
      exact .pure ⟨z, l, rfl, hl⟩
    | committed inner =>
      rw [Answer.Heedless] at ha
      exact (ih ha).map fun r hr => hr

omit hg in
theorem lateValue_heedless {α : Type} {l : Late α} (h : l.Heedless) : (late env l).Heedless fun _ => True :=
  .sup (steady_late env l).monotone fun _ => late_heedless h

theorem eval_heedless {p : Parser} (hp : p.Heedless) (z : Context) : (eval env p z).Heedless fun _ => True := by
  refine (reveal_heedless hg (s := .apply p z) hp).bind fun r hr => ?_
  obtain ⟨c, q | ⟨z, message⟩⟩ := r
  · obtain ⟨z, l, rfl, hl⟩ := hr
    rw [Revealed.read_prompt]
    exact (lateValue_heedless hl).bind fun v _ => .pure trivial
  · exact .pure trivial

end Grammar

end OnDemand

/-- The strict engine knows no lists. -/
theorem Strict.eval_heedless {env : Env} (p : Parser) (z : Context) : (Strict.eval env p z).Heedless fun _ => True :=
  .sup (Strict.steady_run env p z).monotone fun n => Run.Heedless.listFree (Strict.plain_run n p z).listFree

/-- **In every world, both engines give the same results** of a parser that looks at no lists. -/
theorem OnDemand.eval_eq_strict_of_heedless {env : Env} (hg : ∀ name, (env.grammar name).Heedless) {p : Parser}
    (hp : p.Heedless) (z : Context) : OnDemand.eval env p z = Strict.eval env p z := by
  refine Course.ext fun w => Option.ext fun b => ?_
  have hlists : ({ ({ w with lists := #[] } : World) with lists := w.lists } : World) = w := rfl
  rw [← hlists, (OnDemand.eval_heedless hg hp z).eq_some_iff, (Strict.eval_heedless p z).eq_some_iff,
    OnDemand.eval_eq_strict (fun name => (hg name).streamFree) hp.streamFree z rfl]

end CommittedChoice
