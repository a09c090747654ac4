import CommittedChoice.Proofs.Until

/-!
# Lists in brackets

`listBetween` tries the empty list first, and goes back to where it began if that is not there. It commits itself to the
closing bracket only: up to the first item everything that fails is a plain failure, and after it nothing is.

- `Engine.Uncommitting`: parsers without committed results, and what they give under a headline (`Uncommitting.headed_ok`);
- `Engine.emptyBrackets_ok`: the empty list;
- `Engine.items_ok`: the items after the first one, up to the closing bracket;
- `Engine.listBetween_decided`: all of it.
-/

namespace CommittedChoice

open Run (Ends)
open Strict (Outcome)

namespace Engine

variable {e : Engine} {env : Env} {p q opening sep closing : Parser}

/-! ## Parsers that do not commit -/

variable (e env) in
/-- Wherever the parser ends in a result, that is not committed. -/
def Uncommitting (p : Parser) : Prop :=
  ∀ z w r w', Ends (fun n => e.result env n p z) w (.ok r) w' → r.isCommitted = false

namespace Uncommitting

theorem eval_ok (hp : e.Uncommitting env p) {z : Context} {w w' : World} {r : Outcome}
    (h : (e.semantics env).eval p z w = some (.ok r, w')) : ∃ v, r = .plain v := by
  have hplain := hp z w r w' (ends_result.2 h)
  match r, hplain with
  | .plain v, _ => exact ⟨v, rfl⟩

theorem bind (hp : e.Uncommitting env p) {f : Value → Parser} (hf : ∀ a, e.Uncommitting env (f a)) :
    e.Uncommitting env (.bind p fun a => .pure (f a)) := by
  intro z w r w' h
  have heval := ends_result.1 h
  rw [eval_bind_pure] at heval
  obtain ⟨r₁, w₁, hr₁, hbind⟩ := Course.bind_eq_ok heval
  obtain ⟨v, rfl⟩ := hp.eval_ok hr₁
  cases v with
  | success z₁ a => exact hf a z₁ w₁ r w' (ends_result.2 hbind)
  | failure z₁ m => cases hbind; rfl

theorem seqRight (hp : e.Uncommitting env p) (hq : e.Uncommitting env q) : e.Uncommitting env (.seqRight p q) :=
  hp.bind fun _ => hq

end Uncommitting

theorem uncommitting_pure (v : Value) : e.Uncommitting env (.pure v) := by
  intro z w r w' h
  cases (congrFun ((e.compositional env).eval_pure z v) w).symm.trans (ends_result.1 h)
  rfl

theorem uncommitting_fail (message : String) : e.Uncommitting env (.fail message) := by
  intro z w r w' h
  cases (congrFun ((e.compositional env).eval_fail z message) w).symm.trans (ends_result.1 h)
  rfl

theorem uncommitting_next : e.Uncommitting env .next := by
  intro z w r w' h
  have heval := ends_result.1 h
  rw [eval_meaning rfl] at heval
  obtain ⟨next, w₁, -, hnext⟩ := Course.bind_eq_ok heval
  cases next <;> · cases hnext; rfl

/-! ## Headlines -/

/-- Putting a message under a headline changes nothing else. -/
theorem exec_under {headline message m : String} {w w' : World}
    (h : (e.semantics env).exec (.width fun n => .ofExcept (Message.under headline n message)) w = some (.ok m, w')) :
    w' = w ∧ Message.under headline env.settings.indent message = .ok m := by
  have hexec : ∀ lists : Lists, Act.exec env lists (.width fun n => .ofExcept (Message.under headline n message)) w =
      (.ok m, w') → w' = w ∧ Message.under headline env.settings.indent message = .ok m := by
    intro lists h
    rw [Act.exec] at h
    generalize Message.under headline env.settings.indent message = x at h ⊢
    cases x with
    | ok m' => cases h; exact ⟨rfl, rfl⟩
    | error e => cases h
  unfold semantics at h
  cases he : e.onDemand with
  | true =>
    rw [he] at h
    obtain ⟨n, hn⟩ := (Run.limit_eq_some (OnDemand.steady_exec env _)).1 h
    exact hexec _ hn
  | false =>
    rw [he] at h
    exact hexec _ (Course.ofRun_eq_some.1 h)

/-- Under a headline, a parser gives what it gives without it, but for the message. -/
theorem Uncommitting.headed_ok (hp : e.Uncommitting env p) {headline : String} {z : Context} {w w' : World} {r : Outcome}
    (h : (e.semantics env).eval (.headed headline p) z w = some (.ok r, w')) :
    ∃ v, (e.semantics env).eval p z w = some (.ok (.plain v), w') ∧
      match v with
      | .success _ _ => r = .plain v
      | .failure rest message =>
        ∃ m, r = .plain (.failure rest m) ∧ Message.under headline env.settings.indent message = .ok m := by
  rw [Parser.headed, (e.compositional env).eval_reword] at h
  obtain ⟨r₀, w₁, hr₀, hadjust⟩ := Course.bind_eq_ok h
  obtain ⟨v, rfl⟩ := hp.eval_ok hr₀
  cases v with
  | success rest a =>
    cases hadjust
    exact ⟨_, hr₀, rfl⟩
  | failure rest message =>
    obtain ⟨m, w₂, hm, hpure⟩ := Course.bind_eq_ok hadjust
    obtain ⟨rfl, hunder⟩ := exec_under hm
    cases hpure
    exact ⟨_, hr₀, m, rfl, hunder⟩

/-- Two parsers under headlines, one after the other. -/
theorem headed_seqRight_ok (hp : e.Uncommitting env p) (hq : e.Uncommitting env q) {headline headline' : String}
    {z : Context} {w w' : World} {r : Outcome}
    (h : (e.semantics env).eval (.seqRight (.headed headline p) (.headed headline' q)) z w = some (.ok r, w')) :
    ∃ v, (e.semantics env).eval (.seqRight p q) z w = some (.ok (.plain v), w') ∧
      match v with
      | .success _ _ => r = .plain v
      | .failure rest _ => ∃ m, r = .plain (.failure rest m) := by
  rw [Parser.seqRight, eval_bind_pure] at h
  obtain ⟨r₁, w₁, hr₁, hbind⟩ := Course.bind_eq_ok h
  obtain ⟨v, hv, hr₁⟩ := hp.headed_ok hr₁
  rw [Parser.seqRight, eval_bind_pure, Course.bind_of_ok hv]
  cases v with
  | success z₁ a =>
    subst hr₁
    obtain ⟨v', hv', hr⟩ := hq.headed_ok (show (e.semantics env).eval (.headed headline' q) z₁ w₁ = _ from hbind)
    refine ⟨v', hv', ?_⟩
    cases v' with
    | success rest b => exact hr
    | failure rest message =>
      obtain ⟨m, rfl, -⟩ := hr
      exact ⟨m, rfl⟩
  | failure z₁ message =>
    obtain ⟨m, rfl, -⟩ := hr₁
    cases hbind
    exact ⟨_, rfl, m, rfl⟩

/-! ## The two attempts -/

/-- Nothing between the brackets: a list without items, where both are there. -/
theorem emptyBrackets_ok (hopening : e.Uncommitting env opening) (hclosing : e.Uncommitting env closing) {xs : Value}
    {z : Context} {w w' : World} {r : Outcome}
    (h : (e.semantics env).eval (.seqRight opening (.seqRight closing (.pure xs))) z w = some (.ok r, w')) :
    ∃ v, (e.semantics env).eval (.seqRight opening closing) z w = some (.ok (.plain v), w') ∧
      match v with
      | .success rest _ => r = .plain (.success rest xs)
      | .failure _ _ => r = .plain v := by
  have hS := e.compositional env
  -- sequencing associates
  have hassoc : (e.semantics env).eval (.seqRight (.seqRight opening closing) (.pure xs)) z w = some (.ok r, w') :=
    (congrFun (hS.bind_bind z opening (fun _ => .pure closing) fun _ => .pure (.pure xs)) w).trans h
  rw [Parser.seqRight, eval_bind_pure] at hassoc
  obtain ⟨r₁, w₁, hr₁, hbind⟩ := Course.bind_eq_ok hassoc
  obtain ⟨v, rfl⟩ := (hopening.seqRight hclosing).eval_ok hr₁
  cases v with
  | success rest a =>
    cases (congrFun (hS.eval_pure rest xs).symm w₁).trans hbind
    exact ⟨_, hr₁, rfl⟩
  | failure rest message =>
    cases hbind
    exact ⟨_, hr₁, rfl⟩

/-- **The items after the first one, up to the closing bracket.** -/
theorem items_ok (hsep : e.Uncommitting env sep) (hclosing : e.Uncommitting env closing) (hp : e.Uncommitting env p)
    {x : Value} {z : Context} {w w' : World} {r : Outcome} (h : (e.semantics env).eval (.map (.manyUntil (.seqRight sep p)
      (.commit (.headed "When looking for closing bracket" closing))) fun xs => .array (x :: xs.items)) z w =
        some (.ok r, w')) :
    ∃ ms last w₁ w₂ v w₃, Chain e env (.seqRight sep p) z w ms (.plain last) w₁ ∧
      env.trace (Message.alternativeFailed "item in a sequence" last.lack) w₁ = (.ok (), w₂) ∧
      Ends (fun n => e.result env n closing (endOf z ms)) w₂ (.ok (.plain v)) w₃ ∧
      match v with
      | .success rest _ => ∃ id, r = .committed (.success rest (.array id (x :: ms.map Match.value)))
      | .failure rest message => ∃ m, r = .committed (.failure rest m) ∧
          Message.under "When looking for closing bracket" env.settings.indent message = .ok m := by
  have hS := e.compositional env
  rw [hS.eval_map] at h
  obtain ⟨r₁, w₁, hr₁, hmap⟩ := Course.bind_eq_ok h
  obtain ⟨ms, last, w₂, hchain, hending⟩ := until_stops.1 hr₁
  obtain ⟨last, rfl⟩ : ∃ v, last = .plain v := by
    obtain ⟨-, w₀, hlast⟩ := hchain.last_ends
    exact (hsep.seqRight hp).eval_ok (ends_result.1 hlast)
  obtain ⟨w₃, rt, w₄, htrace, hrt, hcommitted, hcases⟩ := closing_cases hending
  -- the closing bracket is committed to
  rw [ends_result, hS.eval_commit, map_eq_pure_bind] at hrt
  obtain ⟨r₂, w₅, hr₂, hpure⟩ := Course.bind_eq_ok hrt
  cases hpure
  obtain ⟨v, hv, hr₂⟩ := hclosing.headed_ok hr₂
  refine ⟨ms, last, w₂, w₃, v, _, hchain, htrace, ends_result.2 hv, ?_⟩
  cases v with
  | success rest b =>
    subst hr₂
    obtain ⟨id, hverdict⟩ := hcases
    obtain rfl : r₁ = .committed (.success rest (.array id (ms.map Match.value).reverse.reverse)) := by
      match r₁, hcommitted, hverdict with
      | .plain _, hcommitted, _ => exact absurd (hcommitted.trans (Bool.or_true _)) Bool.false_ne_true
      | .committed _, _, rfl => rfl
    obtain ⟨v, w₅, hv, hpure⟩ := Course.bind_eq_ok hmap
    obtain ⟨id', rfl⟩ := exec_array hv
    cases hpure
    rw [List.reverse_reverse]
    exact ⟨id', rfl⟩
  | failure rest message =>
    obtain ⟨m, rfl, hunder⟩ := hr₂
    obtain rfl : r₁ = .committed (.failure rest m) := hcases
    cases hmap
    exact ⟨m, rfl, hunder⟩

/-! ## The list -/

theorem outright_listBetween (opening sep closing p : Parser) :
    OnDemand.Outright env (.listBetween opening sep closing p) :=
  .orElse (.seqRight (.seqRight (OnDemand.outright_pure _)))
    (.seqRight (.bind fun _ => (OnDemand.outright_loop _ _).map _))

/-- **A list in brackets.** Let none of the four parsers commit. If the opening and the closing bracket match one after the
other, the result is a list without items, which is not committed. Otherwise the opening bracket and an item are tried from
where the list began. If they fail, so does the list, plainly. If they match, there is one chain of matches of a separator
and an item from there on, each of which consumed something; the closing bracket is applied where the chain ends. If it
matches, the result is a committed success with the items in order; if it fails, the result is a committed failure that
left what the closing bracket left, and whose message stands below a headline. Whether the result is committed shows at
once. -/
theorem listBetween_decided (hopening : e.Uncommitting env opening) (hsep : e.Uncommitting env sep)
    (hclosing : e.Uncommitting env closing) (hp : e.Uncommitting env p) {z : Context} {w w' : World} {r : Outcome}
    (h : Ends (fun n => e.result env n (.listBetween opening sep closing p) z) w (.ok r) w') :
    (∃ v w₁, Ends (fun n => e.result env n (.seqRight opening closing) z) w (.ok (.plain v)) w₁ ∧
      match v with
      | .success rest _ => r = .plain (.success rest (.array .constant []))
      | .failure _ _ => ∃ v₁ w₂, Ends (fun n => e.result env n (.seqRight opening p) z) w₁ (.ok (.plain v₁)) w₂ ∧
          match v₁ with
          | .failure rest _ => ∃ message, r = .plain (.failure rest message)
          | .success rest x => ∃ ms last w₃ w₄ v₂ w₅, Chain e env (.seqRight sep p) rest w₂ ms (.plain last) w₃ ∧
              (∀ ms' last' w₃', Chain e env (.seqRight sep p) rest w₂ ms' last' w₃' →
                ms' = ms ∧ last' = .plain last ∧ w₃' = w₃) ∧
              env.trace (Message.alternativeFailed "item in a sequence" last.lack) w₃ = (.ok (), w₄) ∧
              Ends (fun n => e.result env n closing (endOf rest ms)) w₄ (.ok (.plain v₂)) w₅ ∧
              match v₂ with
              | .success rest' _ => ∃ id, r = .committed (.success rest' (.array id (x :: ms.map Match.value)))
              | .failure rest' message => ∃ m, r = .committed (.failure rest' m) ∧
                  Message.under "When looking for closing bracket" env.settings.indent message = .ok m) ∧
    ∃ w₁, Ends (fun n => e.rawTag env n (.listBetween opening sep closing p) z) w (.ok r.tag) w₁ := by
  have hS := e.compositional env
  have heval := ends_result.1 h
  refine ⟨?_, ends_rawTag_of_outright (outright_listBetween opening sep closing p) heval⟩
  rw [Parser.listBetween, hS.eval_orElse] at heval
  obtain ⟨r₁, w₁, hr₁, horElse⟩ := Course.bind_eq_ok heval
  obtain ⟨v, hv, hr₁⟩ := emptyBrackets_ok hopening hclosing hr₁
  refine ⟨v, w₁, ends_result.2 hv, ?_⟩
  cases v with
  | success rest a =>
    subst hr₁
    cases horElse
    rfl
  | failure rest₀ message₀ =>
    subst hr₁
    -- the second attempt, from where the list began
    have hassoc : (e.semantics env).eval (.bind (.seqRight (.headed "Missing opening bracket" opening)
        (.headed "After first bracket in a group" p)) fun x => .pure (.map (.manyUntil (.seqRight sep p)
          (.commit (.headed "When looking for closing bracket" closing))) fun xs => .array (x :: xs.items))) z w₁ =
        some (.ok r, w') := (congrFun (hS.bind_bind z _ (fun _ => .pure _) _) w₁).trans horElse
    rw [eval_bind_pure] at hassoc
    obtain ⟨r₂, w₂, hr₂, hitems⟩ := Course.bind_eq_ok hassoc
    obtain ⟨v₁, hv₁, hr₂⟩ := headed_seqRight_ok hopening hp hr₂
    refine ⟨v₁, w₂, ends_result.2 hv₁, ?_⟩
    cases v₁ with
    | failure rest message =>
      obtain ⟨m, rfl⟩ := hr₂
      cases hitems
      exact ⟨m, rfl⟩
    | success rest x =>
      subst hr₂
      obtain ⟨ms, last, w₃, w₄, v₂, w₅, hchain, htrace, hv₂, hr⟩ := items_ok hsep hclosing hp hitems
      exact ⟨ms, last, w₃, w₄, v₂, w₅, hchain, fun _ _ _ h' => hchain.unique h', htrace, hv₂, hr⟩

/-- This token and no other. -/
def exactly (v : Value) : Parser := .bind .next fun t => .pure (if t.same v then .pure t else .fail "")

theorem uncommitting_exactly (v : Value) : e.Uncommitting env (exactly v) := by
  refine uncommitting_next.bind fun t => ?_
  cases t.same v
  · exact uncommitting_fail ""
  · exact uncommitting_pure t

theorem listBetween_decided_items : ∃ rest w ms last w', Chain (lazy true) ((lazy true).env (fun _ => .fail "") {})
    (.seqRight (exactly (.nat 1)) (exactly (.nat 5))) rest w ms last w' ∧ ms.map Match.value = [.nat 5] := by
  have hlist : Ends (fun n => (lazy true).result ((lazy true).env (fun _ => .fail "") {}) n
      (.listBetween (exactly (.nat 0)) (exactly (.nat 1)) (exactly (.nat 2)) (exactly (.nat 5)))
      ⟨.ofList [.nat 0, .nat 5, .nat 1, .nat 5, .nat 2], .absent⟩) {}
      (.ok (.committed (.success ⟨.tokens [] 5, .absent⟩ (.array (.made 1) [.nat 5, .nat 5])))) { made := 2 } :=
    ⟨19, by cbv⟩
  obtain ⟨⟨v, w₁, -, hv⟩, -⟩ := listBetween_decided (uncommitting_exactly _) (uncommitting_exactly _)
    (uncommitting_exactly _) (uncommitting_exactly _) hlist
  cases v with
  | success _ _ => cases hv
  | failure _ _ =>
    obtain ⟨⟨_, _⟩ | ⟨_, _⟩, w₂, -, hopened⟩ := hv
    · obtain ⟨ms, last, w₃, w₄, ⟨_, _⟩ | ⟨_, _⟩, w₅, hchain, -, -, -, hclosed⟩ := hopened
      · obtain ⟨_, h⟩ := hclosed
        refine ⟨_, w₂, ms, _, w₃, hchain, ?_⟩
        injection h with hverdict
        injection hverdict with _ harray
        injection harray with _ hitems
        injection hitems with _ hmore
        exact hmore.symm
      · obtain ⟨_, h, -⟩ := hclosed
        cases h
    · obtain ⟨_, h⟩ := hopened
      cases h

end Engine

end CommittedChoice
