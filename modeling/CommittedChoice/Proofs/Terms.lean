import CommittedChoice.Run

/-!
# Properties of whole terms

A property that a parser has and that all parsers inside it have, those given by its callbacks included.

- `Parser.Throughout P`: the parser and everything in it satisfies `P`;
- `Parser.Gives P`: whatever parser a callback gives does;
- `Gives.exec`: so does the parser that a run of the callback has given;
- `Parser.Throughout.weaken`: a weaker property holds throughout as well;
- `Parser.StreamFree`: no list is made anywhere in the term;
- `Parser.PushFree`: no token is put back anywhere in the term;
- `Parser.NonThrowing`: no callback in the term throws.
-/

namespace CommittedChoice

/-- The callback answers in every world, without looking at lists. -/
def Act.Answers {α : Type} (act : Act α) : Prop := ∀ env w, ∃ a w', act.exec env .none w = (.ok a, w')

namespace Parser

mutual

/-- The parser and all parsers in it satisfy `P`. -/
def Throughout (P : Parser → Prop) : Parser → Prop
  | .map p f => P (.map p f) ∧ Throughout P p
  | .bind p k => P (.bind p k) ∧ Throughout P p ∧ ∀ v, Gives P (k v)
  | .orElse p q => P (.orElse p q) ∧ Throughout P p ∧ Throughout P q
  | .loop init step => P (.loop init step) ∧ ∀ v, Gives P (step v)
  | .commit p => P (.commit p) ∧ Throughout P p
  | .reword p f => P (.reword p f) ∧ Throughout P p
  | .choice ps => P (.choice ps) ∧ Each P ps
  | .restoring p => P (.restoring p) ∧ Throughout P p
  | .stream p => P (.stream p) ∧ Throughout P p
  | p => P p

/-- Every parser that a callback can give is one throughout which `P` holds. -/
def Gives (P : Parser → Prop) : Act Parser → Prop
  | .pure p => Throughout P p
  | .throw _ => True
  | .note _ act => Gives P act
  | .width k => ∀ w, Gives P (k w)
  | .count _ k => ∀ c, Gives P (k c)
  | .fresh k => ∀ id, Gives P (k id)
  | .node _ k => ∀ x, Gives P (k x)
  | .walk _ k => ∀ xs e, Gives P (k xs e)

/-- The same for labelled alternatives. -/
def Each (P : Parser → Prop) : List (String × Parser) → Prop
  | [] => True
  | (_, p) :: ps => Throughout P p ∧ Each P ps

end

variable {P : Parser → Prop}

section Weaken

variable {A : Prop} {Q : Parser → Prop}

mutual

/-- A weaker property holds throughout a parser as well; so does one that holds of all parsers anyway. -/
theorem Throughout.weaken (h : ∀ p, A ∨ P p → Q p) : ∀ p : Parser, A ∨ Throughout P p → Throughout Q p
  | .map p f, hp => ⟨h (.map p f) (hp.imp_right And.left), Throughout.weaken h p (hp.imp_right And.right)⟩
  | .bind p k, hp => ⟨h (.bind p k) (hp.imp_right And.left), Throughout.weaken h p (hp.imp_right (·.2.1)),
      fun v => Gives.weaken h (k v) (hp.imp_right (·.2.2 v))⟩
  | .orElse p q, hp => ⟨h (.orElse p q) (hp.imp_right And.left), Throughout.weaken h p (hp.imp_right (·.2.1)),
      Throughout.weaken h q (hp.imp_right (·.2.2))⟩
  | .loop init step, hp =>
    ⟨h (.loop init step) (hp.imp_right And.left), fun v => Gives.weaken h (step v) (hp.imp_right (·.2 v))⟩
  | .commit p, hp => ⟨h (.commit p) (hp.imp_right And.left), Throughout.weaken h p (hp.imp_right And.right)⟩
  | .reword p f, hp => ⟨h (.reword p f) (hp.imp_right And.left), Throughout.weaken h p (hp.imp_right And.right)⟩
  | .choice ps, hp => ⟨h (.choice ps) (hp.imp_right And.left), Each.weaken h ps (hp.imp_right And.right)⟩
  | .restoring p, hp => ⟨h (.restoring p) (hp.imp_right And.left), Throughout.weaken h p (hp.imp_right And.right)⟩
  | .stream p, hp => ⟨h (.stream p) (hp.imp_right And.left), Throughout.weaken h p (hp.imp_right And.right)⟩
  | .pure v, hp => h (.pure v) hp
  | .fail message, hp => h (.fail message) hp
  | .next, hp => h .next hp
  | .eof, hp => h .eof hp
  | .satisfy test, hp => h (.satisfy test) hp
  | .pushBack ts, hp => h (.pushBack ts) hp
  | .position, hp => h .position hp
  | .get, hp => h .get hp
  | .put state, hp => h (.put state) hp
  | .rule name, hp => h (.rule name) hp

theorem Gives.weaken (h : ∀ p, A ∨ P p → Q p) : ∀ act : Act Parser, A ∨ Gives P act → Gives Q act
  | .pure p, hact => Throughout.weaken h p hact
  | .throw _, _ => trivial
  | .note _ act, hact => Gives.weaken h act hact
  | .width k, hact => fun w => Gives.weaken h (k w) (hact.imp_right (· w))
  | .count _ k, hact => fun c => Gives.weaken h (k c) (hact.imp_right (· c))
  | .fresh k, hact => fun id => Gives.weaken h (k id) (hact.imp_right (· id))
  | .node _ k, hact => fun x => Gives.weaken h (k x) (hact.imp_right (· x))
  | .walk _ k, hact => fun xs e => Gives.weaken h (k xs e) (hact.imp_right (· xs e))

theorem Each.weaken (h : ∀ p, A ∨ P p → Q p) : ∀ ps : List (String × Parser), A ∨ Each P ps → Each Q ps
  | [], _ => trivial
  | (_, p) :: ps, hps => ⟨Throughout.weaken h p (hps.imp_right And.left), Each.weaken h ps (hps.imp_right And.right)⟩

end

/-- What holds of all parsers holds throughout every one. -/
theorem throughout_of_forall (h : ∀ p, Q p) (p : Parser) : Throughout Q p :=
  Throughout.weaken (A := True) (P := fun _ => True) (fun p _ => h p) p (.inl trivial)

end Weaken

/-- The parser that a callback has given. -/
theorem Gives.exec {env : Env} {lists : Lists} {act : Act Parser} (h : Gives P act) {w w' : World} {q : Parser}
    (hq : act.exec env lists w = (.ok q, w')) : Throughout P q := by
  induction act generalizing w with
  | pure p =>
    rw [Gives] at h
    cases hq
    exact h
  | throw e => cases hq
  | note id next ih => rw [Gives] at h; exact ih h hq
  | width k ih => rw [Gives] at h; exact ih _ (h _) hq
  | count mark k ih => rw [Gives] at h; exact ih _ (h _) hq
  | fresh k ih => rw [Gives] at h; exact ih _ (h _) hq
  | node i k ih =>
    rw [Gives] at h
    rw [Act.exec] at hq
    dsimp only at hq
    split at hq
    · exact ih _ (h _) hq
    · cases hq
  | walk i k ih =>
    rw [Gives] at h
    rw [Act.exec] at hq
    dsimp only at hq
    split at hq
    · exact ih _ _ (h _ _) hq
    · cases hq

/-- Whether a parser makes a list. -/
def isStream : Parser → Bool
  | .stream _ => true
  | _ => false

/-- No list is made anywhere in the parser. -/
def StreamFree (p : Parser) : Prop := p.Throughout fun q => q.isStream = false

/-- No list is made by a parser that the callback gives. -/
def GivesStreamFree (act : Act Parser) : Prop := Gives (fun q => q.isStream = false) act

/-- Whether a parser puts tokens back. -/
def isPushBack : Parser → Bool
  | .pushBack _ => true
  | _ => false

/-- No token is put back anywhere in the parser. -/
def PushFree (p : Parser) : Prop := p.Throughout fun q => q.isPushBack = false

/-- The callbacks of the parser itself answer. -/
def callbacksAnswer : Parser → Prop
  | .map _ f => ∀ v, (f v).Answers
  | .bind _ k => ∀ v, (k v).Answers
  | .loop _ step => ∀ v, (step v).Answers
  | .reword _ f => ∀ m, (f m).Answers
  | .satisfy test => ∀ t, (test t).Answers
  | _ => True

/-- No callback anywhere in the parser throws. -/
def NonThrowing (p : Parser) : Prop := p.Throughout callbacksAnswer

end Parser

end CommittedChoice
