import CommittedChoice.Proofs.OnDemand.Reveal
import CommittedChoice.Proofs.Terms

/-!
# Results on demand

What a parser reveals, read to the end, is what the parser means in terms of results read to the end. So the on-demand
engine has the equation of the strict one, for every term that makes no list itself and is no loop. (A loop asks for the
value of a turn before its remainder, other terms the other way round; without lists in a turn that is no matter.)

- `Revealed.read_map`, `read_bind`, ...: reading goes through what is done with a result;
- `eval_eq`: the equation.
-/

namespace CommittedChoice.OnDemand

variable {env : Env}

namespace Revealed

theorem read_commitIf (b : Bool) (r : Revealed) : (r.commitIf b).read env = Result.commitIf b <$> r.read env := by
  have hor : ∀ (c : Bool) (o : Strict.Outcome), o.commitIf (b || c) = (o.commitIf c).commitIf b := by
    intro c o
    cases b <;> cases c <;> rfl
  obtain ⟨c, p | ⟨z, message⟩⟩ := r
  · simp only [read, commitIf, map_bind, map_pure, hor]
  · simp only [read, commitIf, map_pure, hor]

theorem read_commit (r : Revealed) : r.commit.read env = Result.commit <$> r.read env := read_commitIf true r

theorem read_map (f : Value → Act Value) (r : Revealed) :
    (r.map f).read env = r.read env >>= fun o => o.map fun v => exec env (f v) := by
  obtain ⟨c, p | ⟨z, message⟩⟩ := r
  · simp only [read, map, bind_assoc, pure_bind, late_mapped]
    refine bind_congr fun z => bind_congr fun v => ?_
    cases c <;> rfl
  · simp only [read, map, pure_bind]
    cases c <;> rfl

theorem read_bind (k : Value → Act Parser) (r : Revealed) :
    r.bind env k >>= read env =
      r.read env >>= fun o => o.bind fun z v => exec env (k v) >>= fun q => eval env q z := by
  obtain ⟨c, p | ⟨z, message⟩⟩ := r
  · simp only [read, bind, bind_assoc, pure_bind]
    refine bind_congr fun z => bind_congr fun v => ?_
    have hcommit : ∀ q, Revealed.commitIf c <$> reveal env (.apply q z) >>= read env =
        Result.commitIf c <$> eval env q z := by
      intro q
      rw [bind_map_left, eval, map_bind]
      exact bind_congr fun r => read_commitIf c r
    simp only [hcommit]
    cases c with
    | false => exact bind_congr fun q => id_map _
    | true =>
      show _ = (exec env (k v) >>= fun q => eval env q z) >>= fun r => pure r.commit
      rw [bind_assoc]
      exact bind_congr fun q => map_eq_pure_bind _ _
  · simp only [read, bind, pure_bind]
    cases c <;> rfl

theorem read_reword (f : String → Act String) (r : Revealed) :
    r.reword env f >>= read env = r.read env >>= fun o => o.adjust fun message => exec env (f message) := by
  obtain ⟨c, p | ⟨z, message⟩⟩ := r
  · simp only [read, reword, bind_assoc, pure_bind]
    refine bind_congr fun z => bind_congr fun v => ?_
    cases c <;> rfl
  · simp only [read, reword, pure_bind, bind_map_left]
    cases c <;> rfl

theorem read_restore (state : Value) (r : Revealed) :
    (r.restore state).read env = (fun o => o.onFailureRest fun z => { z with state := state }) <$> r.read env := by
  obtain ⟨c, p | ⟨z, message⟩⟩ := r
  · simp only [read, restore, map_bind, map_pure]
    refine bind_congr fun z => bind_congr fun v => ?_
    cases c <;> rfl
  · simp only [read, restore, map_pure]
    cases c <;> rfl

theorem read_orElse (second : Course Revealed) (r : Revealed) :
    r.orElse second >>= read env = r.read env >>= fun o => Semantics.orElse o (second >>= read env) := by
  obtain ⟨c, p | ⟨z, message⟩⟩ := r
  · cases c <;> simp only [orElse, read, pure_bind, bind_assoc] <;> rfl
  · cases c <;> rfl

end Revealed

/-! ## The equation -/

theorem read_revealAlternatives (z : Context) : ∀ (failures : List (String × String)) (ps : List (String × Parser)),
    revealAlternatives env z failures ps >>= Revealed.read env = (semantics env).alternatives env z failures ps
  | failures, [] => by
    unfold revealAlternatives Semantics.alternatives
    rw [bind_assoc]
    rfl
  | failures, (label, p) :: rest => by
    unfold revealAlternatives Semantics.alternatives
    show _ = eval env p z >>= _
    rw [eval, bind_assoc, bind_assoc]
    refine bind_congr fun r => ?_
    obtain ⟨_ | _, q | ⟨z', message⟩⟩ := r
    · simp only [Revealed.read, pure_bind, bind_assoc]
      rfl
    · simp only [Revealed.read, pure_bind, bind_assoc, read_revealAlternatives z _ rest]
      rfl
    · simp only [Revealed.read, pure_bind, bind_assoc]
      rfl
    · rfl

/-- **The equation of the on-demand engine.** -/
theorem eval_eq {p : Parser} (hp : ∀ init step, p ≠ .loop init step) (hs : p.isStream = false) (z : Context) :
    eval env p z = (semantics env).meaning env p z := by
  have hleaf : ∀ {p : Parser}, p.isLeaf → eval env p z = (semantics env).meaning env p z := by
    intro p hp
    rw [eval, reveal_leaf hp, bind_map_left]
    simp only [Revealed.read_ofResult, bind_pure]
  cases p with
  | loop init step => exact absurd rfl (hp init step)
  | stream p => cases hs
  | map p f =>
    rw [eval, reveal_map, bind_map_left]
    simp only [Revealed.read_map]
    exact (bind_assoc _ _ _).symm
  | bind p k =>
    rw [eval, reveal_bind, bind_assoc]
    simp only [Revealed.read_bind]
    exact (bind_assoc _ _ _).symm
  | orElse p q =>
    rw [eval, reveal_orElse, bind_assoc]
    simp only [Revealed.read_orElse]
    exact (bind_assoc _ _ _).symm
  | commit p =>
    rw [eval, reveal_commit, bind_map_left]
    simp only [Revealed.read_commit]
    rw [← map_bind]
    exact map_eq_pure_bind _ _
  | reword p f =>
    rw [eval, reveal_reword, bind_assoc]
    simp only [Revealed.read_reword]
    exact (bind_assoc _ _ _).symm
  | choice ps =>
    rw [eval, reveal_choice]
    exact read_revealAlternatives z [] ps
  | restoring p =>
    rw [eval, reveal_restoring, bind_map_left]
    simp only [Revealed.read_restore]
    rw [← map_bind]
    exact map_eq_pure_bind _ _
  | rule name =>
    rw [eval, reveal_rule]
    rfl
  | _ => exact hleaf rfl

end CommittedChoice.OnDemand
