import CommittedChoice.Deferred
import CommittedChoice.Proofs.Relocation
import Mathlib.Data.Finset.Card

/-!
# Deferred values over whole runs

A recipe may demand other cells, or its own, and may go on after a demand that failed. So a cell is demanded in the middle
of the computations of others, some of which fail later, and what becomes of it cannot be read off one demand.

- `Shelf.Does`: what a shelf does when a recipe is followed or a cell is demanded, with a log of the computations that were
  started, were completed and were stopped;
- `Shelf.Life`: what may happen to a cell: attempts that fail and leave it as it was, at most one that gives it its value,
  and nothing after that;
- `Shelf.Does.lives`: this is what happens to each cell, at any point of a run;
- `Shelf.demand_adequate`: a demand does what the relation says, unless more demands are nested than there is fuel, and
  no more are than there are cells that wait;
- `Shelf.cells_over_runs`: sequences of demands.
-/

namespace CommittedChoice.Shelf

/-! ## What is done -/

/-- A stage in the computation of a cell. -/
inductive Stage where
  | started
  | completed (v : Value)
  | stopped (e : Fault)

/-- A stage, and the cell that reached it. -/
structure Event where
  cell : Nat
  stage : Stage

/-- What a log says of one cell. -/
def stagesOf (j : Nat) (log : List Event) : List Stage :=
  log.filterMap fun ev => if ev.cell = j then some ev.stage else none

/-- What can be asked of a shelf. -/
inductive Job where
  | follow (r : Recipe)
  | demand (i : Nat)

/-- Doing a job, with the log of what was computed for it. -/
inductive Does (env : Env) : Job → Shelf → List Event → Except Fault Value → Shelf → Prop
  | answer {act s x s'} : s.exec env act = (x.mapError .fault, s') → Does env (.follow (.answer act)) s [] x s'
  | first {act k v s s₁ log x s'} : s.exec env act = (.ok v, s₁) → Does env (.follow (k v)) s₁ log x s' →
      Does env (.follow (.first act k)) s log x s'
  | halts {act k e s s'} : s.exec env act = (.error (.fault e), s') →
      Does env (.follow (.first act k)) s [] (.error e) s'
  | goesOn {i k s log x s₁ log' x' s'} : Does env (.demand i) s log x s₁ → Does env (.follow (k x)) s₁ log' x' s' →
      Does env (.follow (.demand i k)) s (log ++ log') x' s'
  | missing {i s} : s.cells[i]? = none → Does env (.demand i) s [] (.error missing) s
  | known {i v s} : s.cells[i]? = some (.forced v) → Does env (.demand i) s [] (.ok v) s
  | busy {i s} : s.cells[i]? = some .forcing → Does env (.demand i) s [] (.error .reentered) s
  | completes {i r s log v s'} : s.cells[i]? = some (.pending r) →
      Does env (.follow r) (table.set i .forcing s) log (.ok v) s' →
      Does env (.demand i) s (⟨i, .started⟩ :: log ++ [⟨i, .completed v⟩]) (.ok v) (table.set i (.forced v) s')
  | stops {i r s log e s'} : s.cells[i]? = some (.pending r) →
      Does env (.follow r) (table.set i .forcing s) log (.error e) s' →
      Does env (.demand i) s (⟨i, .started⟩ :: log ++ [⟨i, .stopped e⟩]) (.error e) (table.set i (.pending r) s')

/-- Demands that are made one after the other, whatever comes of each. -/
def demandAll (env : Env) : List Nat → Shelf → List (Except Halt Value) × Shelf
  | [], s => ([], s)
  | i :: is, s =>
    match demand env s.depth i s with
    | (x, s) =>
      match demandAll env is s with
      | (xs, s) => (x :: xs, s)

/-- Doing a sequence of demands. -/
inductive Serves (env : Env) : List Nat → Shelf → List Event → List (Except Fault Value) → Shelf → Prop
  | done {s} : Serves env [] s [] [] s
  | next {i is s log x s₁ log' xs s'} : Does env (.demand i) s log x s₁ → Serves env is s₁ log' xs s' →
      Serves env (i :: is) s (log ++ log') (x :: xs) s'

section Logs

variable (j : Nat) (log log' : List Event)

theorem stagesOf_append : stagesOf j (log ++ log') = stagesOf j log ++ stagesOf j log' := List.filterMap_append

/-- The computation of one cell around what else was computed. -/
theorem stagesOf_around (i : Nat) (a b : Stage) :
    stagesOf j (⟨i, a⟩ :: log ++ [⟨i, b⟩]) = if i = j then a :: stagesOf j log ++ [b] else stagesOf j log := by
  rw [stagesOf_append]
  by_cases hij : i = j <;> simp [stagesOf, hij]

end Logs

/-! ## The life of a cell -/

/-- What may happen to a cell. -/
inductive Life : Cell Recipe Value → List Stage → Cell Recipe Value → Prop
  | same (c) : Life c [] c
  | stopped {r l c} (e : Fault) : Life (.pending r) l c → Life (.pending r) (.started :: .stopped e :: l) c
  | completed (r v) : Life (.pending r) [.started, .completed v] (.forced v)

/-- The stages of attempts that failed. -/
def failures (es : List Fault) : List Stage := es.flatMap fun e => [.started, .stopped e]

namespace Life

variable {c c₁ c' : Cell Recipe Value} {l l' : List Stage} {r : Recipe} {v : Value}

theorem trans (h : Life c l c₁) (h' : Life c₁ l' c') : Life c (l ++ l') c' := by
  induction h with
  | same => exact h'
  | stopped e _ ih => exact .stopped e (ih h')
  | completed r v =>
    cases h' with
    | same => exact .completed r v

theorem forcing (h : Life .forcing l c') : l = [] ∧ c' = .forcing := by
  cases h with
  | same => exact ⟨rfl, rfl⟩

theorem forced (h : Life (.forced v) l c') : l = [] ∧ c' = .forced v := by
  cases h with
  | same => exact ⟨rfl, rfl⟩

theorem pending (h : Life (.pending r) l c') :
    ∃ es, (c' = .pending r ∧ l = failures es) ∨ ∃ v, c' = .forced v ∧ l = failures es ++ [.started, .completed v] := by
  generalize hc : (Cell.pending r : Cell Recipe Value) = c at h
  induction h with
  | same => exact ⟨[], .inl ⟨rfl, rfl⟩⟩
  | stopped e _ ih =>
    obtain ⟨es, ⟨hc', rfl⟩ | ⟨v, hc', rfl⟩⟩ := ih hc
    · exact ⟨e :: es, .inl ⟨hc', rfl⟩⟩
    · exact ⟨e :: es, .inr ⟨v, hc', rfl⟩⟩
  | completed _ v => exact ⟨[], .inr ⟨v, rfl, rfl⟩⟩

/-- A cell that waits has never done anything else. -/
theorem eq_of_pending (h : Life c l (.pending r)) : c = .pending r := by
  generalize hc : (Cell.pending r : Cell Recipe Value) = c' at h
  induction h with
  | same => rfl
  | stopped e _ ih => exact ih hc
  | completed => cases hc

theorem eq_of_forcing (h : Life c l .forcing) : c = .forcing := by
  generalize hc : (Cell.forcing : Cell Recipe Value) = c' at h
  induction h with
  | same => rfl
  | stopped e _ ih => exact ih hc
  | completed => cases hc

end Life

/-- No cell is being computed. -/
def AtRest (s : Shelf) : Prop := ∀ j : Nat, s.cells[j]? ≠ some .forcing

/-- All cells of a shelf live, and none is added or lost. -/
structure Lives (s : Shelf) (log : List Event) (s' : Shelf) : Prop where
  size : s'.cells.size = s.cells.size
  life : ∀ {j c}, s.cells[j]? = some c → ∃ c', s'.cells[j]? = some c' ∧ Life c (stagesOf j log) c'

variable {env : Env} {s s₁ s' : Shelf} {log log' : List Event} {i j : Nat} {r : Recipe} {x : Except Fault Value}

theorem getElem?_set (i j : Nat) (c : Cell Recipe Value) (s : Shelf) :
    (table.set i c s).cells[j]? = if i = j then (s.cells[j]?).map fun _ => c else s.cells[j]? := by
  show (s.cells.setIfInBounds i c)[j]? = _
  rw [Array.getElem?_setIfInBounds]
  by_cases hij : i = j
  · subst hij
    by_cases hi : i < s.cells.size <;> simp [hi]
  · rw [if_neg hij, if_neg hij]

namespace Lives

theorem of_cells (h : s'.cells = s.cells) : Lives s [] s' :=
  ⟨congrArg Array.size h, fun {_ c} hc => ⟨c, h ▸ hc, .same c⟩⟩

theorem trans (h : Lives s log s₁) (h' : Lives s₁ log' s') : Lives s (log ++ log') s' where
  size := h'.size.trans h.size
  life hc := by
    obtain ⟨c₁, hc₁, hlife⟩ := h.life hc
    obtain ⟨c', hc', hlife'⟩ := h'.life hc₁
    exact ⟨c', hc', stagesOf_append .. ▸ hlife.trans hlife'⟩

/-- The computation of a cell that waits. Until it has ended, nothing else happens to the cell. -/
theorem around {a b : Stage} {c : Cell Recipe Value} (hi : s.cells[i]? = some (.pending r))
    (h : Lives (table.set i .forcing s) log s') (hlife : Life (.pending r) [a, b] c) :
    Lives s (⟨i, a⟩ :: log ++ [⟨i, b⟩]) (table.set i c s') where
  size := (Array.size_setIfInBounds ..).trans (h.size.trans (Array.size_setIfInBounds ..))
  life {j d} hd := by
    have hset := getElem?_set i j .forcing s
    rw [stagesOf_around, getElem?_set]
    by_cases hij : i = j
    · subst hij
      rw [if_pos rfl, hi, Option.map_some] at hset
      -- inside, the cell is being computed, and nothing happens to a cell that is
      obtain ⟨d', hd', hlife'⟩ := h.life hset
      obtain ⟨hnone, -⟩ := hlife'.forcing
      rw [hi, Option.some.injEq] at hd
      rw [if_pos rfl, if_pos rfl, hd', hnone, ← hd]
      exact ⟨c, rfl, hlife⟩
    · rw [if_neg hij] at hset
      rw [if_neg hij, if_neg hij]
      exact h.life (hset.trans hd)

/-- Where a cell comes from. -/
theorem before (h : Lives s log s') {c' : Cell Recipe Value} (hc' : s'.cells[j]? = some c') :
    ∃ c, s.cells[j]? = some c ∧ Life c (stagesOf j log) c' := by
  have hlt : j < s.cells.size := h.size ▸ (Array.getElem?_eq_some_iff.1 hc').1
  obtain ⟨d, hd, hlife⟩ := h.life (Array.getElem?_eq_getElem hlt)
  obtain rfl := Option.some.inj (hd.symm.trans hc')
  exact ⟨s.cells[j], Array.getElem?_eq_getElem hlt, hlife⟩

theorem atRest (h : Lives s log s') (hs : s.AtRest) : s'.AtRest := by
  intro j hj
  obtain ⟨c, hc, hlife⟩ := h.before hj
  exact hs j (hlife.eq_of_forcing ▸ hc)

/-- No cell starts to wait. -/
theorem pending_before (h : Lives s log s') (hj : s'.cells[j]? = some (.pending r)) : s.cells[j]? = some (.pending r) := by
  obtain ⟨c, hc, hlife⟩ := h.before hj
  exact hlife.eq_of_pending ▸ hc

theorem forced {v : Value} (h : Lives s log s') (hj : s.cells[j]? = some (.forced v)) :
    s'.cells[j]? = some (.forced v) ∧ stagesOf j log = [] := by
  obtain ⟨c', hc', hlife⟩ := h.life hj
  obtain ⟨hnone, rfl⟩ := hlife.forced
  exact ⟨hc', hnone⟩

end Lives

/-- A callback leaves the cells as they are, and does not run out of fuel. -/
theorem exec_cases {α : Type} (env : Env) (act : Act α) (s : Shelf) :
    ∃ (x : Except Fault α) (s' : Shelf), s.exec env act = (x.mapError .fault, s') ∧ s'.cells = s.cells := by
  have hsame : s.world.SameForCallbacks s.world := ⟨rfl, rfl⟩
  obtain ⟨x, w', -, hexec, -⟩ := act.exec_same env hsame
  refine ⟨x, { s with world := w' }, ?_, rfl⟩
  rw [exec, hexec]

theorem cells_of_exec {α : Type} {act : Act α} {y : Except Halt α} (h : s.exec env act = (y, s')) :
    s'.cells = s.cells := by
  obtain ⟨x, s₁, hexec, hcells⟩ := exec_cases env act s
  obtain ⟨-, rfl⟩ := Prod.mk.inj (h.symm.trans hexec)
  exact hcells

/-- **Each cell lives, whatever is done.** -/
theorem Does.lives {job : Job} (h : Does env job s log x s') : Lives s log s' := by
  induction h with
  | answer hexec => exact .of_cells (cells_of_exec hexec)
  | first hexec _ ih => exact (Lives.of_cells (cells_of_exec hexec)).trans ih
  | halts hexec => exact .of_cells (cells_of_exec hexec)
  | goesOn _ _ ihDemand ihFollow => exact ihDemand.trans ihFollow
  | missing | known | busy => exact .of_cells rfl
  | completes hi _ ih => exact ih.around hi (.completed _ _)
  | stops hi _ ih => exact ih.around hi (.stopped _ (.same _))

/-! ## How deep demands are nested -/

/-- Whether a cell waits. -/
def waits : Option (Cell Recipe Value) → Bool
  | some (.pending _) => true
  | _ => false

/-- The cells that wait. -/
def waiting (s : Shelf) : Finset Nat := (Finset.range s.cells.size).filter fun i => waits s.cells[i]?

theorem mem_waiting : i ∈ s.waiting ↔ ∃ r, s.cells[i]? = some (.pending r) := by
  rw [waiting, Finset.mem_filter, Finset.mem_range]
  constructor
  · rintro ⟨-, hi⟩
    cases hc : s.cells[i]? with
    | none => rw [hc] at hi; cases hi
    | some c =>
      rw [hc] at hi
      cases c with
      | pending r => exact ⟨r, rfl⟩
      | forcing | forced => cases hi
  · rintro ⟨r, hi⟩
    exact ⟨(Array.getElem?_eq_some_iff.1 hi).1, by rw [hi]; rfl⟩

theorem card_waiting_lt_depth (s : Shelf) : s.waiting.card < s.depth := by
  have hle := Finset.card_filter_le (Finset.range s.cells.size) fun i => waits s.cells[i]?
  rw [Finset.card_range] at hle
  exact Nat.lt_succ_of_le hle

theorem Lives.waiting_subset (h : Lives s log s') : s'.waiting ⊆ s.waiting := by
  intro i hi
  obtain ⟨r, hi⟩ := mem_waiting.1 hi
  exact mem_waiting.2 ⟨r, h.pending_before hi⟩

/-- While it is computed, a cell does not wait. -/
theorem card_waiting_forcing (hi : s.cells[i]? = some (.pending r)) :
    (table.set i .forcing s).waiting.card < s.waiting.card := by
  refine Finset.card_lt_card (Finset.ssubset_iff_of_subset ?_ |>.2 ⟨i, mem_waiting.2 ⟨r, hi⟩, ?_⟩)
  · intro j hj
    obtain ⟨r', hj⟩ := mem_waiting.1 hj
    rw [getElem?_set] at hj
    split at hj
    · obtain ⟨_, -, hforcing⟩ := Option.map_eq_some_iff.1 hj
      cases hforcing
    · exact mem_waiting.2 ⟨r', hj⟩
  · intro hmem
    obtain ⟨r', hforcing⟩ := mem_waiting.1 hmem
    rw [getElem?_set, if_pos rfl, hi] at hforcing
    cases hforcing

/-- A way to do a job that gives up only if no fewer cells wait than `n`. -/
def Adequate (env : Env) (n : Nat) (job : Job) (run : Shelf → Except Halt Value × Shelf) : Prop :=
  ∀ s, (∃ log x s', Does env job s log x s' ∧ run s = (x.mapError .fault, s')) ∨
    (n ≤ s.waiting.card ∧ ∃ s', run s = (.error .outOfFuel, s'))

variable {n : Nat}

/-- The relation decides what `follow` gives for a recipe if it decides it for the demands in it. -/
theorem follow_adequate (h : ∀ i, Adequate env n (.demand i) (demand env n i)) (r : Recipe) :
    Adequate env n (.follow r) (follow env (demand env n) r) := by
  induction r with
  | answer act =>
    intro s
    obtain ⟨x, s', hexec, -⟩ := exec_cases env act s
    exact .inl ⟨[], x, s', .answer hexec, hexec⟩
  | first act k ih =>
    intro s
    rw [follow]
    obtain ⟨e | v, s₁, hexec, hcells⟩ := exec_cases env act s
    · exact .inl ⟨[], .error e, s₁, .halts hexec, by rw [hexec]; rfl⟩
    · have hwaiting : s₁.waiting = s.waiting := by rw [waiting, waiting, hcells]
      rw [hexec]
      obtain ⟨log, x, s', hdoes, hfollow⟩ | hout := ih v s₁
      · exact .inl ⟨log, x, s', .first hexec hdoes, hfollow⟩
      · exact .inr (hwaiting ▸ hout)
  | demand i k ih =>
    intro s
    rw [follow]
    obtain ⟨log, x, s₁, hdoes, hdemand⟩ | ⟨hn, s', hout⟩ := h i s
    · have hgoes : follow env (demand env n) (.demand i k) s = follow env (demand env n) (k x) s₁ := by
        rw [follow, hdemand]
        cases x <;> rfl
      rw [← follow, hgoes]
      -- no more cells wait after the demand than before it, so the bound of the rest is one of the whole
      obtain ⟨log', x', s', hdoes', hfollow⟩ | ⟨hn, hout⟩ := ih x s₁
      · exact .inl ⟨log ++ log', x', s', .goesOn hdoes hdoes', hfollow⟩
      · exact .inr ⟨hn.trans (Finset.card_le_card hdoes.lives.waiting_subset), hout⟩
    · exact .inr ⟨hn, s', by rw [hout]⟩

section Demands

variable (n)

theorem demand_none (hi : s.cells[i]? = none) : demand env (n + 1) i s = (.error (.fault Shelf.missing), s) := by
  rw [demand, if_neg (Nat.not_lt.2 (Array.getElem?_eq_none_iff.1 hi))]

theorem demand_some {c : Cell Recipe Value} (hi : s.cells[i]? = some c) :
    demand env (n + 1) i s = table.force (follow env (demand env n)) (.fault .reentered) i s := by
  rw [demand, if_pos (Array.getElem?_eq_some_iff.1 hi).1]

theorem demand_forced {v : Value} (hi : s.cells[i]? = some (.forced v)) : demand env (n + 1) i s = (.ok v, s) := by
  rw [demand_some n hi, Table.force, show table.cells s = s.cells from rfl, hi]

theorem demand_forcing (hi : s.cells[i]? = some .forcing) :
    demand env (n + 1) i s = (.error (.fault .reentered), s) := by
  rw [demand_some n hi, Table.force, show table.cells s = s.cells from rfl, hi]

theorem demand_pending (hi : s.cells[i]? = some (.pending r)) : demand env (n + 1) i s =
    match follow env (demand env n) r (table.set i .forcing s) with
    | (.ok v, s') => (.ok v, table.set i (.forced v) s')
    | (.error e, s') => (.error e, table.set i (.pending r) s') := by
  rw [demand_some n hi, Table.force, show table.cells s = s.cells from rfl, hi]
  dsimp only
  rcases follow env (demand env n) r (table.set i .forcing s) with ⟨_ | _, _⟩ <;> rfl

end Demands

/-- **Demands do what the relation says,** or are nested deeper than there is fuel. -/
theorem demand_adequate (env : Env) : ∀ n i, Adequate env n (.demand i) (demand env n i)
  | 0, _ => fun s => .inr ⟨Nat.zero_le _, s, rfl⟩
  | n + 1, i => by
    intro s
    cases hi : s.cells[i]? with
    | none => exact .inl ⟨[], .error Shelf.missing, s, .missing hi, demand_none n hi⟩
    | some c =>
      cases c with
      | forced v => exact .inl ⟨[], .ok v, s, .known hi, demand_forced n hi⟩
      | forcing => exact .inl ⟨[], .error .reentered, s, .busy hi, demand_forcing n hi⟩
      | pending r =>
        rw [demand_pending n hi]
        obtain ⟨log, e | v, s', hdoes, hfollow⟩ | ⟨hn, s', hout⟩ :=
          follow_adequate (demand_adequate env n) r (table.set i .forcing s)
        · exact .inl ⟨_, .error e, _, .stops hi hdoes, by rw [hfollow]; rfl⟩
        · exact .inl ⟨_, .ok v, _, .completes hi hdoes, by rw [hfollow]; rfl⟩
        · exact .inr ⟨Nat.succ_le_of_lt (hn.trans_lt (card_waiting_forcing hi)), _, by rw [hout]⟩

/-! ## Sequences of demands -/

variable {is : List Nat} {xs : List (Except Fault Value)}

theorem Serves.lives (h : Serves env is s log xs s') : Lives s log s' := by
  induction h with
  | done => exact .of_cells rfl
  | next hdoes _ ih => exact hdoes.lives.trans ih

theorem exists_serves (env : Env) (is : List Nat) (s : Shelf) :
    ∃ log xs s', Serves env is s log xs s' ∧ demandAll env is s = (xs.map (Except.mapError .fault), s') := by
  induction is generalizing s with
  | nil => exact ⟨[], [], s, .done, rfl⟩
  | cons i is ih =>
    obtain ⟨log, x, s₁, hdoes, hdemand⟩ | ⟨hn, -⟩ := demand_adequate env s.depth i s
    · obtain ⟨log', xs, s', hserves, hall⟩ := ih s₁
      exact ⟨log ++ log', x :: xs, s', .next hdoes hserves, by rw [demandAll, hdemand]; simp only [hall, List.map_cons]⟩
    · exact absurd hn (Nat.not_le.2 (card_waiting_lt_depth s))

/-- A demand that ends has done what the relation says. -/
theorem exists_does_of_demand (h : demand env n i s = (x.mapError .fault, s')) : ∃ log, Does env (.demand i) s log x s' := by
  obtain ⟨log, y, s₁, hdoes, hdemand⟩ | ⟨-, s₁, hout⟩ := demand_adequate env n i s
  · obtain ⟨hxy, rfl⟩ := Prod.mk.inj (hdemand.symm.trans h)
    obtain rfl : y = x := by cases x <;> cases y <;> cases hxy <;> rfl
    exact ⟨log, hdoes⟩
  · obtain ⟨hx, -⟩ := Prod.mk.inj (hout.symm.trans h)
    cases x <;> cases hx

/-- What a demand leaves of the cell that it was for. -/
theorem Does.cell {r : Recipe} (h : Does env (.demand i) s log x s') (hi : s.cells[i]? = some (.pending r)) :
    s'.cells[i]? = some (match x with | .ok v => .forced v | .error _ => .pending r) := by
  cases h with
  | missing hi' | known hi' | busy hi' => cases hi.symm.trans hi'
  | completes hi' hdoes | stops hi' hdoes =>
    cases hi.symm.trans hi'
    have hset := getElem?_set i i .forcing s
    rw [if_pos rfl, hi, Option.map_some] at hset
    obtain ⟨c, hc, -⟩ := hdoes.lives.life hset
    rw [getElem?_set, if_pos rfl, hc]
    rfl

/-- **Cells over whole runs.** The recipes of a shelf may demand any cells, fail, and go on after failures, and any cells are
demanded from outside, one after the other. Each demand ends. Then no cell is being computed. A cell that had its value has
kept it, and its computation was not started. A cell that waited has been computed a number of times in vain, and either it
waits with the same recipe, or one more computation was completed, the last one, and the cell has the value of that one.
In the middle of all this, a demand for a cell that is being computed is refused and changes nothing, a cell that has its
value keeps it, and a cell whose computation fails waits with the recipe it had. -/
theorem cells_over_runs (env : Env) {s : Shelf} (hs : s.AtRest) (is : List Nat) :
    (∃ log xs s', Serves env is s log xs s' ∧ demandAll env is s = (xs.map (Except.mapError .fault), s')) ∧
    (∀ log xs s', Serves env is s log xs s' →
      s'.AtRest ∧
      (∀ (j : Nat) v, s.cells[j]? = some (.forced v) → s'.cells[j]? = some (.forced v) ∧ stagesOf j log = []) ∧
      ∀ (j : Nat) r, s.cells[j]? = some (.pending r) → ∃ es,
        (s'.cells[j]? = some (.pending r) ∧ stagesOf j log = failures es) ∨
        ∃ v, s'.cells[j]? = some (.forced v) ∧ stagesOf j log = failures es ++ [.started, .completed v]) ∧
    ∀ n i t,
      (t.cells[i]? = some .forcing → demand env (n + 1) i t = (.error (.fault .reentered), t)) ∧
      ∀ (x : Except Fault Value) t', demand env n i t = (x.mapError .fault, t') →
        (∀ (j : Nat) v, t.cells[j]? = some (.forced v) → t'.cells[j]? = some (.forced v)) ∧
        ∀ r e, t.cells[i]? = some (.pending r) → x = .error e → t'.cells[i]? = some (.pending r) := by
  refine ⟨exists_serves env is s, fun log xs s' hserves => ⟨hserves.lives.atRest hs, ?_, ?_⟩,
    fun n i t => ⟨demand_forcing n, fun x t' hdemand => ?_⟩⟩
  · exact fun j v hj => hserves.lives.forced hj
  · intro j r hj
    obtain ⟨c', hc', hlife⟩ := hserves.lives.life hj
    obtain ⟨es, ⟨rfl, hlog⟩ | ⟨v, rfl, hlog⟩⟩ := hlife.pending
    · exact ⟨es, .inl ⟨hc', hlog⟩⟩
    · exact ⟨es, .inr ⟨v, hc', hlog⟩⟩
  · obtain ⟨log, hdoes⟩ := exists_does_of_demand hdemand
    refine ⟨fun j v hj => (hdoes.lives.forced hj).1, ?_⟩
    rintro r e hi rfl
    exact hdoes.cell hi

/-- A cell that is not ready at first, one that catches what that one throws, one that asks for itself, and one that catches
that. -/
def tangled : Shelf where
  cells := #[.pending (.flaky 0 "a" (.text "A") 1), .pending (.guarded "b" 0), .pending (.mapped 2 .pure),
    .pending (.guarded "d" 3)]

/-- All of these are computed, as far as they can be. -/
def untangling : List (Except Halt Value) × Shelf :=
  demandAll ⟨fun _ => .fail "", {}, "", false⟩ [1, 2, 0, 3, 1] tangled

theorem cells_over_runs_tangled :
    tangled.AtRest ∧
      untangling.1 = [.ok (.text "a not ready"), .error (.fault .reentered), .ok (.text "A"),
        .ok (.text "Lazy value forced again while it was being computed"), .ok (.text "a not ready")] ∧
      untangling.2.AtRest ∧
      ∃ log xs, Serves ⟨fun _ => .fail "", {}, "", false⟩ [1, 2, 0, 3, 1] tangled log xs untangling.2 ∧
        ∃ es v, stagesOf 0 log = failures es ++ [.started, .completed v] := by
  have hs : tangled.AtRest := by
    intro j hj
    have hmem := Array.mem_of_getElem? hj
    simp [tangled] at hmem
  have hforced : untangling.2.cells[0]? = some (.forced (.text "A")) := rfl
  obtain ⟨⟨log, xs, s', hserves, hall⟩, hcells, -⟩ := cells_over_runs ⟨fun _ => .fail "", {}, "", false⟩ hs [1, 2, 0, 3, 1]
  obtain ⟨hrest, -, hpending⟩ := hcells log xs s' hserves
  obtain rfl : untangling.2 = s' := congrArg Prod.snd hall
  obtain ⟨es, ⟨hwaits, -⟩ | ⟨v, -, hlog⟩⟩ := hpending 0 _ rfl
  · cases hwaits.symm.trans hforced
  · exact ⟨hs, rfl, hrest, log, xs, hserves, es, v, hlog⟩

end CommittedChoice.Shelf
