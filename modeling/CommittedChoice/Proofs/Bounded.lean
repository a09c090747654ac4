import CommittedChoice.Proofs.Matches

/-!
# At most so many matches

`atMost` counts down from a number, which is a double, and tries a match for each step. It stops when the number is used up
or its parser fails, so up to there it goes through the chain of matches that `many` goes through. But a match that consumed
nothing does not stop it: that counts as an item like any other.

- `Number.countdown`: so many steps down, and how far the numbers below `2 ^ 53` and above reach;
- `Engine.atMostLoop_unfold`: a turn is an application of the parser, as long as the number is positive;
- `Engine.atMostLoop_chain`: the turns are the matches of the chain;
- `Engine.atMost_cuts`: what `atMost` makes of the chain.
-/

namespace CommittedChoice

open Run (Ends)
open Strict (Outcome)

/-! ## Counting down -/

namespace Number

/-- The number after one was taken off it so many times. -/
def countdown (n : Number) : Nat → Number
  | 0 => n
  | k + 1 => (n.sub (.whole 1)).countdown k

theorem countdown_sub_one (n : Number) (k : Nat) : (n.countdown k).sub (.whole 1) = n.countdown (k + 1) := by
  induction k generalizing n with
  | zero => rfl
  | succ k ih => exact ih _

theorem atMost_zero (m : Nat) : (Number.whole m).atMost (.whole 0) = decide (m = 0) := by
  rw [Bool.eq_iff_iff, atMost, less, same, Bool.or_eq_true, decide_eq_true_iff, decide_eq_true_iff, beq_iff_eq]
  omega

theorem sub_one {n : Nat} (h : 0 < n) : (Number.whole n).sub (.whole 1) = ofInt (n - 1 : Nat) := by
  rw [sub]
  congr 1
  omega

/-- Up to the bound, numbers are counted down one by one. -/
theorem countdown_small {n k : Nat} (hn : n ≤ exactBound) (hk : k ≤ n) :
    (Number.whole n).countdown k = .whole (n - k : Nat) := by
  induction k generalizing n with
  | zero => rfl
  | succ k ih =>
    rw [countdown, sub_one (by omega), ofInt_of_small (by omega), ih (by omega) (by omega), Nat.sub_sub, Nat.add_comm]

theorem lt_pow2 {n k : Nat} (hn : n ≠ 0) : n.log2 < k ↔ n < pow2 k := Nat.log2_lt hn

theorem pow2_pos (k : Nat) : 0 < pow2 k := Nat.two_pow_pos k

theorem pow2_le {j k : Nat} (h : j ≤ k) : pow2 j ≤ pow2 k := Nat.pow_le_pow_right (by decide) h

theorem pow2_dvd {j k : Nat} (h : j ≤ k) : pow2 j ∣ pow2 k := Nat.pow_dvd_pow 2 h

theorem pow2_add (j k : Nat) : pow2 (j + k) = pow2 j * pow2 k := Nat.pow_add 2 j k

/-- Above the bound, rounding is between the neighbouring multiples of a power of two, of which the number has less than
`2 ^ 53`. -/
theorem roundNat_between {n : Nat} (h : exactBound ≤ n) : ∃ k u, n.log2 = k + 53 ∧ u = pow2 (k + 1) ∧ pow2 52 * u ≤ n ∧
    n < pow2 53 * u ∧ u ∣ roundNat n ∧ (∀ m, u ∣ m → n ≤ m → roundNat n ≤ m) ∧ ∀ m, u ∣ m → m ≤ n → m ≤ roundNat n := by
  have hn : n ≠ 0 := by rintro rfl; exact absurd h (by decide)
  have hlog : 53 ≤ n.log2 := (Nat.le_log2 hn).2 h
  obtain ⟨k, hk⟩ : ∃ k, n.log2 = k + 53 := ⟨n.log2 - 53, by omega⟩
  refine ⟨k, _, hk, rfl, ?_⟩
  rw [roundNat, if_neg (Nat.not_lt.2 h), hk, show k + 53 - 52 = k + 1 by omega, ← pow2_add, ← pow2_add]
  refine ⟨?_, ?_, ?_⟩
  · rw [show 52 + (k + 1) = n.log2 by omega]
    exact Nat.log2_self_le hn
  · rw [show 53 + (k + 1) = n.log2 + 1 by omega]
    exact Nat.lt_log2_self
  have hu := pow2_pos (k + 1)
  dsimp only
  generalize pow2 (k + 1) = u at hu ⊢
  have hbelow : ∀ m, u ∣ m → m ≤ n → m ≤ n / u * u := by
    rintro _ ⟨c, rfl⟩ hm
    rw [Nat.mul_comm u c] at hm ⊢
    exact Nat.mul_le_mul_right u ((Nat.le_div_iff_mul_le hu).2 hm)
  split
  · rename_i hup
    refine ⟨Nat.dvd_mul_left _ _, ?_, fun m hdvd hm => (hbelow m hdvd hm).trans (Nat.mul_le_mul_right u (Nat.le_succ _))⟩
    -- something was dropped, so the multiple above the number is the next one
    rintro _ ⟨c, rfl⟩ hm
    have hdropped : n / u * u < n := by
      have := Nat.div_add_mod' n u
      omega
    rw [Nat.mul_comm u c] at hm ⊢
    exact Nat.mul_le_mul_right u (Nat.lt_of_mul_lt_mul_right (hdropped.trans_le hm))
  · exact ⟨Nat.dvd_mul_left _ _, fun m _ hm => (Nat.div_mul_le_self n u).trans hm, hbelow⟩

/-- The greatest double. -/
def greatest : Nat := (pow2 53 - 1) * pow2 971

theorem log2_lt_of_le_greatest {n : Nat} (h : n ≤ greatest) : n.log2 < 1024 := by
  have hgreatest : greatest < pow2 (53 + 971) := by
    rw [pow2_add]
    exact Nat.mul_lt_mul_of_pos_right (by decide) (pow2_pos _)
  by_cases hn : n = 0
  · subst hn
    decide
  · exact (lt_pow2 hn).2 (h.trans_lt hgreatest)

/-- Rounding stays at the bound or above it, and does not pass the greatest double. -/
theorem roundNat_mem {n : Nat} (h : exactBound ≤ n) (hn : n ≤ greatest) :
    exactBound ≤ roundNat n ∧ roundNat n ≤ greatest := by
  obtain ⟨k, u, hk, rfl, hlow, -, -, habove, hbelow⟩ := roundNat_between h
  have hlog := log2_lt_of_le_greatest hn
  constructor
  · refine le_trans ?_ (hbelow _ (Nat.dvd_mul_left _ _) hlow)
    rw [← pow2_add]
    exact pow2_le (by omega)
  · exact habove _ (Nat.dvd_mul_left_of_dvd (pow2_dvd (by omega)) _) hn

/-- A natural number that is a double is not above the greatest one. -/
theorem le_greatest {n : Nat} (h : ofNat n = .whole n) : n ≤ greatest := by
  obtain ⟨hround, hlog⟩ : roundNat n = n ∧ n.log2 < 1024 := by
    rw [ofNat, ofInt, Int.natAbs_natCast] at h
    split at h
    · rename_i hlog
      injection h with h
      have hround : roundNat n = n := by split at h <;> omega
      exact ⟨hround, hround ▸ hlog⟩
    · cases h
  have hmul : ∀ {j : Nat}, j ≤ 971 → (pow2 53 - 1) * pow2 j ≤ greatest := fun hj => Nat.mul_le_mul_left _ (pow2_le hj)
  by_cases hsmall : n < exactBound
  · exact (Nat.le_sub_one_of_lt hsmall).trans (hmul (Nat.zero_le _))
  · obtain ⟨k, u, hk, hu, -, hhigh, hdvd, -⟩ := roundNat_between (Nat.le_of_not_lt hsmall)
    rw [hround] at hdvd
    obtain ⟨c, rfl⟩ := hdvd
    rw [Nat.mul_comm u c] at hhigh ⊢
    have hc : c < pow2 53 := Nat.lt_of_mul_lt_mul_right hhigh
    rw [hu]
    exact (Nat.mul_le_mul_right _ (Nat.le_sub_one_of_lt hc)).trans (hmul (by omega))

/-- From the bound on, fewer than `2 ^ 53` steps down do not use a number up. -/
theorem countdown_large {n k i : Nat} (hn : exactBound ≤ n + k) (hgreatest : n ≤ greatest) (hi : i + k < exactBound) :
    ∃ m : Nat, (Number.whole n).countdown i = .whole m ∧ 0 < m := by
  -- `k` steps were made below the bound
  induction i generalizing n k with
  | zero => exact ⟨n, rfl, by omega⟩
  | succ i ih =>
    rw [countdown, sub_one (by omega)]
    by_cases hsmall : n - 1 < exactBound
    · rw [ofInt_of_small (i := (n - 1 : Nat)) hsmall]
      exact ih (k := k + 1) (by omega) (by omega) (by omega)
    · obtain ⟨hlow, hhigh⟩ := roundNat_mem (Nat.le_of_not_lt hsmall) (by omega)
      have hround : ofInt (n - 1 : Nat) = .whole (roundNat (n - 1)) := by
        rw [ofInt, Int.natAbs_natCast, if_pos (log2_lt_of_le_greatest hhigh), if_neg (by omega)]
      rw [hround]
      exact ih (k := k + 1) (by omega) hhigh (by omega)

/-- A natural number that is a double is not used up before it was counted down, if that takes fewer than `2 ^ 53` steps. -/
theorem countdown_pos {n i : Nat} (hn : ofNat n = .whole n) (hi : i < n) (hsmall : i < exactBound) :
    ((ofNat n).countdown i).atMost (.whole 0) = false := by
  obtain ⟨m, hm, hpos⟩ : ∃ m : Nat, (Number.whole n).countdown i = .whole m ∧ 0 < m := by
    by_cases hle : n ≤ exactBound
    · exact ⟨n - i, countdown_small hle hi.le, by omega⟩
    · exact countdown_large (k := 0) (by omega) (le_greatest hn) hsmall
  rw [hn, hm, atMost_zero, decide_eq_false (by omega)]

end Number

namespace Value

/-- An array with more items before its own. -/
def prepend (items : List Value) : Value → Value
  | .array id xs => .array id (items ++ xs)
  | v => v

end Value

namespace Engine

variable {e : Engine} {env : Env} {p : Parser}

/-! ## One turn -/

/-- The turn of `atMost`. -/
def atMostTurn (p : Parser) (s : Value) : Act Parser :=
  match s.fst with
  | .number left =>
    if left.atMost (.whole 0) then Parser.ended s.snd
    else
      .pure <| .orElse
        (.map p fun a => .pure (.again (.both (.number (left.sub (.whole 1))) (.keep a s.snd))))
        (.bind (.pure .absent) fun _ => Parser.ended s.snd)
  | _ => Parser.ended s.snd

theorem atMost_eq (n : Number) (p : Parser) :
    Parser.atMost n p = .loop (.both (.number n) (.kept [])) (atMostTurn p) := rfl

theorem atMostTurn_eq (left : Number) (vs : List Value) : atMostTurn p (.both (.number left) (.kept vs)) =
    if left.atMost (.whole 0) then Parser.ended (.kept vs)
    else
      .pure <| .orElse (.map p fun a => .pure (.again (.both (.number (left.sub (.whole 1))) (.kept (a :: vs)))))
        (.bind (.pure .absent) fun _ => Parser.ended (.kept vs)) := rfl

variable (e env) in
/-- The end of the loop. -/
noncomputable def finishing (c : Bool) (vs : List Value) (z : Context) : Course Outcome := do
  return (Result.success z (← (e.semantics env).exec (Act.array vs.reverse))).commitIf c

variable (e env) in
/-- What an application of the parser means for the repetition. -/
noncomputable def atMostAfter (next : Bool → Value → Context → Course Outcome) (c : Bool) (left : Number) (vs : List Value)
    (z : Context) (r : Outcome) : Course Outcome :=
  match r.verdict with
  | .success rest v => next (c || r.isCommitted) (.both (.number (left.sub (.whole 1))) (.kept (v :: vs))) rest
  | .failure _ _ => if r.isCommitted then pure r else finishing e env c vs z

/-- The end of the loop as a turn. -/
theorem ended_after (next : Bool → Value → Context → Course Outcome) (c : Bool) (vs : List Value) (z : Context) :
    ((e.semantics env).exec (Parser.ended (.kept vs)) >>= fun q => (e.semantics env).eval q z) >>=
      Semantics.turn.after next c = finishing e env c vs z := by
  have hS := e.compositional env
  rw [Parser.ended, exec_bind, bind_assoc, bind_assoc, finishing]
  refine bind_congr fun v => ?_
  rw [show (pure (Parser.pure (.done v)) : Act Parser) = .pure _ from rfl, exec_pure, pure_bind, hS.eval_pure, pure_bind,
    Semantics.turn_after]
  exact congrArg (fun b => pure (Result.commitIf b (Result.success z v))) (Bool.or_false c)

/-- **A turn is an application of the parser, as long as the number is positive.** -/
theorem atMostTurn_after (next : Bool → Value → Context → Course Outcome) (c : Bool) (left : Number) (vs : List Value)
    (z : Context) :
    (e.semantics env).body (atMostTurn p) (.both (.number left) (.kept vs)) z >>= Semantics.turn.after next c =
      if left.atMost (.whole 0) then finishing e env c vs z
      else (e.semantics env).eval p z >>= atMostAfter e env next c left vs z := by
  have hS := e.compositional env
  rw [Semantics.body, atMostTurn_eq]
  cases hleft : left.atMost (.whole 0) with
  | true => exact ended_after next c vs z
  | false =>
    simp only [Bool.false_eq_true, if_false, exec_pure, pure_bind]
    rw [hS.eval_orElse, hS.eval_map, bind_assoc, bind_assoc]
    refine bind_congr fun r => ?_
    rcases r with ⟨⟨rest, v⟩ | ⟨rest, message⟩⟩ | ⟨⟨rest, v⟩ | ⟨rest, message⟩⟩
    all_goals simp only [Result.map, exec_pure, pure_bind, Semantics.orElse, atMostAfter, Result.verdict, Result.isCommitted]
    · rfl
    · rw [hS.eval_bind, hS.eval_pure, pure_bind]
      exact ended_after next c vs z
    · rfl
    · cases c <;> rfl

/-! ## All turns -/

variable (e env p) in
/-- The loop of `atMost`: so many are still allowed, and there are these values, the newest first. -/
noncomputable def atMostLoop (c : Bool) (left : Number) (vs : List Value) : Context → Course Outcome :=
  (e.semantics env).loop (atMostTurn p) c (.both (.number left) (.kept vs))

theorem eval_atMost (n : Number) (z : Context) :
    (e.semantics env).eval (.atMost n p) z = atMostLoop e env p false n [] z := by
  rw [atMost_eq, eval_meaning rfl]
  rfl

/-- A number that is used up. -/
theorem atMostLoop_ended {c : Bool} {left : Number} {vs : List Value} {z : Context}
    (h : left.atMost (.whole 0) = true) : atMostLoop e env p c left vs z = finishing e env c vs z := by
  rw [atMostLoop, Semantics.loop, Course.Turn.loop_unfold, atMostTurn_after, if_pos h]

section Turn

variable {c : Bool} {left : Number} {vs : List Value} {z : Context} {w w₁ : World}
  (h : left.atMost (.whole 0) = false)

include h

theorem atMostLoop_eq : atMostLoop e env p c left vs z =
    (e.semantics env).eval p z >>= atMostAfter e env ((e.semantics env).loop (atMostTurn p)) c left vs z := by
  rw [atMostLoop, Semantics.loop, Course.Turn.loop_unfold, atMostTurn_after, h, if_neg Bool.false_ne_true]

/-- A success is an item, whatever it consumed. -/
theorem atMostLoop_match {m : Match} (hm : (e.semantics env).eval p z w = some (.ok m.result, w₁)) :
    atMostLoop e env p c left vs z w =
      atMostLoop e env p (c || m.committed) (left.sub (.whole 1)) (m.value :: vs) m.after w₁ := by
  rw [atMostLoop_eq h, Course.bind_of_ok hm, atMostAfter, m.result_verdict, m.result_isCommitted]
  rfl

theorem atMostLoop_failure {rest : Context} {message : String}
    (hp : (e.semantics env).eval p z w = some (.ok (.plain (.failure rest message)), w₁)) :
    atMostLoop e env p c left vs z w = finishing e env c vs z w₁ := by
  rw [atMostLoop_eq h, Course.bind_of_ok hp]
  rfl

end Turn

/-- **The turns are the matches of the chain,** as long as the number lasts. -/
theorem atMostLoop_chain {z : Context} {w w₁ : World} {ms : List Match} {last : Outcome}
    (h : Chain e env p z w ms last w₁) {k : Nat} (hk : k ≤ ms.length) (c : Bool) (left : Number) (vs : List Value)
    (hleft : ∀ i < k, (left.countdown i).atMost (.whole 0) = false) :
    ∃ w₂, Chain e env p (endOf z (ms.take k)) w₂ (ms.drop k) last w₁ ∧ atMostLoop e env p c left vs z w =
      atMostLoop e env p (c || (ms.take k).any Match.committed) (left.countdown k)
        (((ms.take k).map Match.value).reverse ++ vs) (endOf z (ms.take k)) w₂ := by
  induction k generalizing z w ms c left vs with
  | zero => exact ⟨w, h, by rw [List.take_zero, List.any_nil, Bool.or_false]; rfl⟩
  | succ k ih =>
    cases h with
    | stop => cases hk
    | @link _ _ w₃ _ m ms _ hm hlarger hrest =>
      obtain ⟨w₂, hchain, hloop⟩ := ih hrest (Nat.le_of_succ_le_succ hk) (c || m.committed)
        (left.sub (.whole 1)) (m.value :: vs) fun i hi => hleft (i + 1) (Nat.succ_lt_succ hi)
      refine ⟨w₂, hchain, (atMostLoop_match (hleft 0 (Nat.succ_pos k)) (ends_result.1 hm)).trans ?_⟩
      rw [List.take_succ_cons, List.any_cons, List.map_cons, List.reverse_cons, List.append_assoc, ← Bool.or_assoc]
      exact hloop

/-! ## Items before others -/

/-- What a repetition makes of its result if some items, of which `c` says whether one was committed, come before. -/
def behind (c : Bool) (items : List Value) (r : Outcome) : Outcome :=
  match r.verdict with
  | .success rest v => (Result.success rest (v.prepend items)).commitIf (c || r.isCommitted)
  | .failure _ _ => r

theorem behind_success (c c₀ : Bool) (items xs : List Value) (z : Context) (id : Identity) :
    behind c items ((Result.success z (.array id xs)).commitIf c₀) =
      (Result.success z (.array id (items ++ xs))).commitIf (c || c₀) := by
  cases c₀ <;> cases c <;> rfl

/-- A new array is the next one that is made. -/
theorem exec_array_eq (items : List Value) (w : World) : (e.semantics env).exec (Act.array items) w =
    some (.ok (.array (.made w.made) items), { w with made := w.made + 1 }) := by
  unfold semantics
  cases e.onDemand with
  | true => exact (Run.limit_eq_some (OnDemand.steady_exec env _)).2 ⟨0, rfl⟩
  | false => rfl

theorem finishing_eq (c : Bool) (vs : List Value) (z : Context) (w : World) : finishing e env c vs z w =
    some (.ok ((Result.success z (.array (.made w.made) vs.reverse)).commitIf c), { w with made := w.made + 1 }) := by
  rw [finishing, Course.bind_of_ok (exec_array_eq _ w)]
  rfl

/-- **The values so far stay in front.** -/
theorem atMostLoop_behind {c₀ : Bool} {left : Number} {vs : List Value} {z : Context} {w w' : World} {r : Outcome}
    (h : atMostLoop e env p c₀ left vs z w = some (.ok r, w')) (c : Bool) (us : List Value) :
    atMostLoop e env p (c || c₀) left (vs ++ us) z w = some (.ok (behind c us.reverse r), w') := by
  refine Course.Turn.loop_induction (R := fun c₀ s z w b => ∀ left vs r w', s = .both (.number left) (.kept vs) →
    b = (.ok r, w') → atMostLoop e env p (c || c₀) left (vs ++ us) z w = some (.ok (behind c us.reverse r), w'))
    ?_ h left vs r w' rfl rfl
  rintro next hnext c₀ _ z w _ hb left vs r w' rfl rfl
  rw [atMostTurn_after] at hb
  have hfinishing : ∀ {w₁}, finishing e env c₀ vs z w₁ = some (.ok r, w') →
      finishing e env (c || c₀) (vs ++ us) z w₁ = some (.ok (behind c us.reverse r), w') := by
    intro w₁ h
    rw [finishing_eq] at h ⊢
    cases h
    rw [behind_success, List.reverse_append]
  cases hleft : left.atMost (.whole 0) with
  | true =>
    rw [hleft, if_pos rfl] at hb
    rw [atMostLoop_ended hleft]
    exact hfinishing hb
  | false =>
    rw [hleft, if_neg Bool.false_ne_true] at hb
    obtain ⟨r₁, w₁, hr₁, hafter⟩ := Course.bind_eq_ok hb
    cases hv : r₁.verdict with
    | success rest v =>
      obtain ⟨m, rfl, -⟩ := exists_match hv
      rw [atMostAfter, m.result_verdict, m.result_isCommitted] at hafter
      rw [atMostLoop_match hleft hr₁, Bool.or_assoc]
      exact hnext _ _ _ _ _ hafter _ (m.value :: vs) r w' rfl rfl
    | failure rest message =>
      match r₁, hv with
      | .plain (.failure _ _), rfl =>
        rw [atMostLoop_failure hleft hr₁]
        exact hfinishing hafter
      | .committed (.failure _ _), rfl =>
        cases hafter
        rw [atMostLoop_eq hleft, Course.bind_of_ok hr₁]
        rfl

/-- Where `many` does not fail for good, it goes through a chain of matches and gives their values. -/
theorem many_chain {z : Context} {w w' : World} {r : Outcome} (h : (e.semantics env).eval (.many p) z w = some (.ok r, w'))
    (hr : r.isFatal = false) : ∃ ms last w₁ id, Chain e env p z w ms last w₁ ∧ last.isFatal = false ∧
      r = (Result.success (leftBy (endOf z ms) last) (.array id (ms.map Match.value))).commitIf
        (ms.any Match.committed || last.isCommitted) := by
  rw [Parser.many, eval_meaning rfl] at h
  obtain ⟨r₁, w₁, hr₁, hmap⟩ := Course.bind_eq_ok h
  obtain ⟨ms, last, hchain, rfl⟩ := collect_eq_ok.1 hr₁
  obtain ⟨hfatal, rfl⟩ | ⟨hfatal, id, rfl⟩ := map_foldResult (s := ⟨_, _, _, w₁⟩) hmap
  · cases hfatal.symm.trans hr
  · refine ⟨ms, last, w₁, id, hchain, hfatal, ?_⟩
    show (Result.success _ (Value.array id (ms.map Match.value).reverse.reverse)).commitIf _ = _
    rw [List.reverse_reverse]

/-! ## The chain cut off -/

section Cut

variable {n : Nat} (hn : Number.ofNat n = .whole n) {z : Context} {w w₁ : World} {ms : List Match} {last : Outcome}
  (hchain : Chain e env p z w ms last w₁)

include hn hchain

/-- As many matches as are allowed. -/
theorem atMost_first (hle : n ≤ ms.length) (hbound : n < Number.exactBound) :
    ∃ id w₂, Ends (fun k => e.result env k (.atMost (.ofNat n) p) z) w
      (.ok ((Result.success (endOf z (ms.take n)) (.array id ((ms.take n).map Match.value))).commitIf
        ((ms.take n).any Match.committed))) w₂ := by
  obtain ⟨w₂, -, hloop⟩ := atMostLoop_chain hchain hle false (.ofNat n) []
    fun i hi => Number.countdown_pos hn hi (hi.trans hbound)
  have hended : ((Number.ofNat n).countdown n).atMost (.whole 0) = true := by
    rw [hn, Number.countdown_small hbound.le (Nat.le_refl n), Number.atMost_zero, Nat.sub_self]
    rfl
  rw [atMostLoop_ended hended, finishing_eq, Bool.false_or, List.append_nil, List.reverse_reverse, ← eval_atMost] at hloop
  exact ⟨_, _, ends_result.2 hloop⟩

variable (hlt : ms.length < n) (hbound : ms.length < Number.exactBound)

include hlt hbound

/-- If there are fewer matches, `atMost` comes to the application that ends them. -/
theorem atMost_reaches : ∃ w₂, Ends (fun k => e.result env k p (endOf z ms)) w₂ (.ok last) w₁ ∧
    (e.semantics env).eval (.atMost (.ofNat n) p) z w = atMostLoop e env p (ms.any Match.committed)
      ((Number.ofNat n).countdown ms.length) (ms.map Match.value).reverse (endOf z ms) w₂ := by
  obtain ⟨w₂, hstop, hloop⟩ := atMostLoop_chain hchain (Nat.le_refl _) false (.ofNat n) []
    fun i hi => Number.countdown_pos hn (hi.trans hlt) (hi.trans hbound)
  rw [List.take_length, List.append_nil, Bool.false_or, ← eval_atMost] at hloop
  rw [List.take_length, List.drop_length] at hstop
  cases hstop with
  | stop hlast => exact ⟨w₂, hlast, hloop⟩

/-- All matches, if a failure ends them. -/
theorem atMost_all {rest : Context} {message : String} (hlast : last = .plain (.failure rest message)) :
    ∃ id w₂, Ends (fun k => e.result env k (.atMost (.ofNat n) p) z) w
      (.ok ((Result.success (endOf z ms) (.array id (ms.map Match.value))).commitIf (ms.any Match.committed))) w₂ := by
  subst hlast
  obtain ⟨w₂, hlast, hloop⟩ := atMost_reaches hn hchain hlt hbound
  rw [atMostLoop_failure (Number.countdown_pos hn hlt hbound) (ends_result.1 hlast), finishing_eq, List.reverse_reverse]
    at hloop
  exact ⟨_, _, ends_result.2 hloop⟩

/-- A match that consumed nothing counts, and the repetition goes on after it. -/
theorem atMost_onward {m : Match} (hlast : last = m.result) {r : Outcome} {w₂ : World}
    (hrest : Ends (fun k => e.result env k (.atMost ((Number.ofNat n).countdown (ms.length + 1)) p) m.after) w₁ (.ok r) w₂) :
    Ends (fun k => e.result env k (.atMost (.ofNat n) p) z) w
      (.ok (behind (ms.any Match.committed || m.committed) (ms.map Match.value ++ [m.value]) r)) w₂ := by
  subst hlast
  obtain ⟨w₂, hlast, hloop⟩ := atMost_reaches hn hchain hlt hbound
  rw [ends_result, eval_atMost] at hrest
  have hbehind := atMostLoop_behind hrest (ms.any Match.committed || m.committed) (m.value :: (ms.map Match.value).reverse)
  rw [Bool.or_false, List.nil_append, List.reverse_cons, List.reverse_reverse] at hbehind
  rw [atMostLoop_match (Number.countdown_pos hn hlt hbound) (ends_result.1 hlast), Number.countdown_sub_one] at hloop
  exact ends_result.2 (hloop.trans hbehind)

end Cut

/-- **At most so many matches.** Let `n` be a natural number that is a double, and let `many` end without a committed
failure. Then there is one chain of matches that each consumed something, whose values, in order, are the items of `many`.
If it has at least `n` matches, `atMost` succeeds with the values of the first `n` of them at the context after these. If it
has fewer, what `atMost` makes of them depends on the application that ends the chain. If that failed, `atMost` stops there
as `many` does, and is committed if `many` is. If it succeeded, without having consumed anything, its value is an item as
well, and `atMost` goes on from there with the matches that are still allowed. -/
theorem atMost_cuts {n : Nat} (hn : Number.ofNat n = .whole n) {z : Context} {w w' : World} {r : Outcome}
    (h : Ends (fun k => e.result env k (.many p) z) w (.ok r) w') (hr : r.isFatal = false) :
    ∃ ms last w₁ id, Chain e env p z w ms last w₁ ∧
      (∀ ms' last' w₁', Chain e env p z w ms' last' w₁' → ms' = ms ∧ last' = last ∧ w₁' = w₁) ∧
      r = (Result.success (leftBy (endOf z ms) last) (.array id (ms.map Match.value))).commitIf
        (ms.any Match.committed || last.isCommitted) ∧
      (min n ms.length < Number.exactBound →
        (n ≤ ms.length → ∃ id w₂, Ends (fun k => e.result env k (.atMost (.ofNat n) p) z) w
          (.ok ((Result.success (endOf z (ms.take n)) (.array id ((ms.take n).map Match.value))).commitIf
            ((ms.take n).any Match.committed))) w₂) ∧
        (ms.length < n → match last.verdict with
          | .failure _ _ => ∃ id w₂, Ends (fun k => e.result env k (.atMost (.ofNat n) p) z) w
              (.ok ((Result.success (endOf z ms) (.array id (ms.map Match.value))).commitIf r.isCommitted)) w₂
          | .success rest v => ∀ r' w₂,
              Ends (fun k => e.result env k (.atMost ((Number.ofNat n).countdown (ms.length + 1)) p) rest) w₁ (.ok r') w₂ →
              Ends (fun k => e.result env k (.atMost (.ofNat n) p) z) w
                (.ok (behind (ms.any Match.committed || last.isCommitted) (ms.map Match.value ++ [v]) r')) w₂)) := by
  obtain ⟨ms, last, w₁, id, hchain, hfatal, rfl⟩ := many_chain (ends_result.1 h) hr
  refine ⟨ms, last, w₁, id, hchain, fun _ _ _ h' => hchain.unique h', rfl, fun hsmall => ⟨fun hle => ?_, fun hlt => ?_⟩⟩
  · exact atMost_first hn hchain hle (Nat.min_eq_left hle ▸ hsmall)
  · have hbound : ms.length < Number.exactBound := Nat.min_eq_right hlt.le ▸ hsmall
    cases hv : last.verdict with
    | failure rest message =>
      match last, hv with
      | .plain (.failure _ _), rfl =>
        rw [Result.isCommitted_commitIf, show Result.isCommitted (.plain (.failure rest message) : Outcome) = false from rfl,
          Bool.or_false]
        exact (Bool.or_false (ms.any Match.committed)).symm ▸ atMost_all hn hchain hlt hbound rfl
      | .committed (.failure _ _), rfl => cases hfatal
    | success rest v =>
      obtain ⟨m, rfl, rfl, rfl⟩ := exists_match hv
      rw [m.result_isCommitted]
      exact fun r' w₂ hrest => atMost_onward hn hchain hlt hbound rfl hrest

theorem atMost_cuts_one : ∃ rest id c w, Ends (fun k => (lazy true).result ((lazy true).env (fun _ => .fail "") {}) k
    (.atMost (.ofNat 1) decided) ⟨.ofList [.text "a", .text "b"], .absent⟩) {}
    (.ok ((Result.success rest (.array id [.text "a"])).commitIf c)) w := by
  have hmany : Ends (fun k => (lazy true).result ((lazy true).env (fun _ => .fail "") {}) k (.many decided)
      ⟨.ofList [.text "a", .text "b"], .absent⟩) {}
      (.ok (.committed (.success ⟨.tokens [] 2, .absent⟩ (.array (.made 0) [.text "a", .text "b"])))) { made := 1 } :=
    ⟨20, rfl⟩
  obtain ⟨ms, last, w₁, id, -, -, hr, hcut⟩ := atMost_cuts (n := 1) (Number.ofInt_of_small (by decide)) hmany rfl
  have hvalues : ms.map Match.value = [.text "a", .text "b"] := by
    have hverdict := (congrArg Result.verdict hr).trans (Result.verdict_commitIf _ _)
    injection hverdict with _ harray
    injection harray with _ hitems
    exact hitems.symm
  have hlength : ms.length = 2 := by rw [← List.length_map (f := Match.value), hvalues]; rfl
  obtain ⟨id, w₂, hends⟩ := (hcut (by rw [hlength]; decide)).1 (by omega)
  rw [List.map_take, hvalues] at hends
  exact ⟨_, id, _, w₂, hends⟩

/-- A parser that always matches and never consumes anything gives as many items as are allowed. -/
theorem atMost_pure {n : Nat} (hn : n < Number.exactBound) (v : Value) (z : Context) (w : World) :
    Ends (fun k => e.result env k (.atMost (.ofNat n) (.pure v)) z) w
      (.ok (.plain (.success z (.array (.made w.made) (List.replicate n v))))) { w with made := w.made + 1 } := by
  have hloop : ∀ k ≤ n, ∀ vs, atMostLoop e env (.pure v) false (.whole k) vs z w =
      finishing e env false (List.replicate k v ++ vs) z w := by
    intro k hk
    induction k with
    | zero => exact fun vs => congrFun (atMostLoop_ended (Number.atMost_zero 0)) w
    | succ k ih =>
      intro vs
      have hpos : (Number.whole (k + 1 : Nat)).atMost (.whole 0) = false := Number.atMost_zero (k + 1)
      have hmatch : (e.semantics env).eval (.pure v) z w = some (.ok (Match.result ⟨false, v, z⟩), w) :=
        congrFun ((e.compositional env).eval_pure z v) w
      rw [atMostLoop_match hpos hmatch, Number.sub_one (Nat.succ_pos k), Number.ofInt_of_small (by omega)]
      refine (ih (by omega) _).trans ?_
      rw [List.replicate_succ', List.append_assoc]
      rfl
  rw [ends_result, eval_atMost, show Number.ofNat n = .whole n from Number.ofInt_of_small hn, hloop n (Nat.le_refl n),
    finishing_eq, List.append_nil, List.reverse_replicate]
  rfl

/-- Where a match consumes nothing, `many` leaves it out, and `atMost` makes it an item as often as it may. -/
theorem atMost_counts_empty :
    (∃ w, Ends (fun k => (strict false).result ((strict false).env (fun _ => .fail "") {}) k
      (.many (.pure (.nat 1))) ⟨.ofList [.text "a"], .null⟩) {}
      (.ok (.plain (.success ⟨.ofList [.text "a"], .null⟩ (.array (.made 0) [])))) w) ∧
    (∃ w, Ends (fun k => (strict false).result ((strict false).env (fun _ => .fail "") {}) k
      (.atMost (.ofNat 2) (.pure (.nat 1))) ⟨.ofList [.text "a"], .null⟩) {}
      (.ok (.plain (.success ⟨.ofList [.text "a"], .null⟩ (.array (.made 0) [.nat 1, .nat 1])))) w) ∧
    (∃ w, Ends (fun k => (lazy false).result ((lazy false).env (fun _ => .fail "") {}) k
      (.many (.pure (.nat 1))) ⟨.ofList [.text "a"], .null⟩) {}
      (.ok (.plain (.success ⟨.ofList [.text "a"], .null⟩ (.array (.made 0) [])))) w) ∧
    (∃ w, Ends (fun k => (lazy false).result ((lazy false).env (fun _ => .fail "") {}) k
      (.atMost (.ofNat 2) (.pure (.nat 1))) ⟨.ofList [.text "a"], .null⟩) {}
      (.ok (.plain (.success ⟨.ofList [.text "a"], .null⟩ (.array (.made 0) [.nat 1, .nat 1])))) w) :=
  ⟨⟨_, 20, by cbv⟩, ⟨_, atMost_pure (by decide) _ _ _⟩, ⟨_, 20, by cbv⟩, ⟨_, atMost_pure (by decide) _ _ _⟩⟩

end Engine

end CommittedChoice
