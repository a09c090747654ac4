import CommittedChoice.Proofs.Matches
import CommittedChoice.Proofs.OnDemand.Heedless
import CommittedChoice.Proofs.Pulling
import CommittedChoice.Proofs.Renamed
import CommittedChoice.Proofs.Resumption
import CommittedChoice.Proofs.Tags

/-!
# Operands joined by operators

`chainl1` and `chainr1` match an operand, and then an operator with an operand as often as they can. The first joins the
operands as it goes, the second collects the links and joins them from the last one back. Both go through the same matches,
so nothing but the value differs. What a function makes while it joins two operands, the first chain makes between two
links and the second one after them, so the names of what the links make may differ.

- `Definitions.Heedless`: functions that look at no lists;
- `Value.GroupsLeft`, `Value.GroupsRight`: operands joined in both ways;
- `Engine.Abreast`: two runs side by side, in which functions change nothing that matters to the links;
- `Engine.Abreast.beside_chain`: the turns of `chainl1` beside the links of `chainr1`;
- `Engine.Abreast.same`, `Engine.Abreast.renamed`: functions that do nothing but answer, and any functions with pure parsers;
- `Engine.chains_alike`: both chains.
-/

namespace CommittedChoice

open Run (Ends)
open Strict (Outcome)
open Relation (ReflTransGen)

/-! ## Calling functions -/

theorem Act.heedless_text (s : String) : (Act.text s).Heedless := by
  intro env lists
  unfold text
  split <;> rfl

/-- The functions that a program defines look at no lists. -/
def Definitions.Heedless (ds : Definitions) : Prop := ∀ n held args, (ds n held args).Heedless

/-- Then calling a function looks at no list. -/
theorem Act.heedless_call {ds : Definitions} (hds : ds.Heedless) (name : String) (f : Value) (args : List Value) :
    (Act.call ds name f args).Heedless := by
  have happly : ∀ (op : Operation) (l r : Value), (op.apply l r).Heedless := by
    intro op l r
    cases op with
    | cat => exact heedless_text _
    | _ => exact fun _ _ => rfl
  intro env lists
  cases f with
  | function f =>
    cases f with
    | maximum =>
      unfold call
      cases args.mapM Value.asNumber <;> rfl
    | operation op noting =>
      cases noting with
      | none => exact happly op _ _ env lists
      | some id => exact congrArg (Run.note id >>= fun _ => ·) (happly op _ _ env lists)
    | enclosing id middle => exact heedless_text _ env lists
    | applied id op l => exact happly op _ _ env lists
    | defined id n held => exact hds n held args env lists
  | _ => rfl

namespace Value

section Functions

variable (ds : Definitions)

/-- A function that does nothing but answer for two arguments, or stop. Such a function is one of values alone: it may be
any one that gives a value for every two of them. -/
def Direct (f : Value) : Prop :=
  ∀ name x y, (∃ v, Act.call ds name f [x, y] = .pure v) ∨ ∃ e, Act.call ds name f [x, y] = .throw e

/-- What a function answers for two arguments. -/
def join (f x y : Value) : Value :=
  match Act.call ds "f" f [x, y] with
  | .pure v => v
  | _ => .absent

variable {ds}

/-- A function that a program defines as one of values. -/
theorem direct_defined {id : Identity} {n : Nat} {held : Value} {g : Value → Value → Value}
    (h : ∀ x y, ds n held [x, y] = .pure (g x y)) : Direct ds (.function (.defined id n held)) :=
  fun _ x y => .inl ⟨g x y, h x y⟩

/-- The name of a function does not show in its answer. -/
theorem join_eq {name : String} {f x y v : Value} (h : Act.call ds name f [x, y] = .pure v) : f.join ds x y = v := by
  have hname : Act.call ds "f" f [x, y] = Act.call ds name f [x, y] := by
    cases f with
    | function f => cases f <;> rfl
    | _ => cases h
  rw [join, hname, h]

variable (ds) in
/-- What a function may answer for two arguments: a value that it makes has a name of its own every time. -/
def Answers (f x y v : Value) : Prop := ∃ env name w w', (Act.call ds name f [x, y]).exec env .none w = (.ok v, w')

end Functions

/-! ## Joining -/

section Groups

variable (joins : Value → Value → Value → Value → Prop)

/-- `v` is `x` and the operands of the links after it, grouped to the left: `fₙ(… f₂(f₁(x, x₁), x₂) …, xₙ)`. -/
def GroupsLeft : Value → List Value → Value → Prop
  | x, [], v => v = x
  | x, link :: links, v => ∃ y, joins link.fst x link.snd y ∧ GroupsLeft y links v

/-- `v` is `x` and the operands of the links after it, grouped to the right: `f₁(x, f₂(x₁, … fₙ(xₙ₋₁, xₙ)))`. -/
def GroupsRight : Value → List Value → Value → Prop
  | x, [], v => v = x
  | x, link :: links, v => ∃ y, GroupsRight link.snd links y ∧ joins link.fst x y v

variable {joins}

theorem groupsRight_both {x link v : Value} {links : List Value}
    (h : GroupsRight joins x (links ++ [.both link.fst link.snd]) v) : GroupsRight joins x (links ++ [link]) v := by
  induction links generalizing x v with
  | nil => exact h
  | cons l links ih =>
    obtain ⟨y, hy, hv⟩ := h
    exact ⟨y, ih hy, hv⟩

/-- The last link may be joined with the operand before it first. -/
theorem groupsRight_concat {x before link y v : Value} {links : List Value} (hy : joins link.fst before.snd link.snd y)
    (h : GroupsRight joins x (links ++ [.both before.fst y]) v) : GroupsRight joins x (links ++ [before, link]) v := by
  induction links generalizing x v with
  | nil =>
    obtain ⟨u, rfl, hv⟩ := h
    exact ⟨u, ⟨link.snd, rfl, hy⟩, hv⟩
  | cons l links ih =>
    obtain ⟨u, hu, hv⟩ := h
    exact ⟨u, ih hu, hv⟩

end Groups

end Value

/-- Verdicts that are alike have left what is alike. -/
theorem Verdict.Alike.rest {ζ ζ' α β : Type} {C : ζ → ζ' → Prop} {V : α → β → Prop} {v : Verdict ζ α} {v' : Verdict ζ' β}
    (h : v.Alike C V v') : C v.rest v'.rest := by cases h <;> assumption

/-- What `chainr1` makes of the links that it kept. -/
def Parser.joinKept (ds : Definitions) (x kept : Value) : Act Value :=
  match kept.items with
  | link :: more => Parser.groupRight ds x link.snd (link :: more)
  | [] => .pure x

namespace Engine

variable {e : Engine} {env : Env} {p op : Parser}

/-- A callback that reads no list does what it does where there are none. -/
theorem exec_of_heedless {α : Type} {act : Act α} (h : act.Heedless) :
    (e.semantics env).exec act = Course.ofRun (act.exec env .none) := by
  unfold semantics
  cases e.onDemand with
  | true =>
    show Run.limit _ = _
    exact Run.limit_of_forall fun n => h env _
  | false => rfl

/-! ## Links -/

variable (e env) in
/-- The values of the parser are of this kind. -/
def Gives (kind : Value → Prop) (op : Parser) : Prop :=
  ∀ z w r w' rest f, Ends (fun n => e.result env n op z) w (.ok r) w' → r.verdict = .success rest f → kind f

/-- A link is an operator and an operand. -/
theorem pair_match {kind : Value → Prop} (hop : e.Gives env kind op) {z : Context} {w w' : World} {m : Match}
    (h : (e.semantics env).eval (.pair op p) z w = some (.ok m.result, w')) :
    ∃ id f y, m.value = .array id [f, y] ∧ kind f := by
  obtain ⟨-, rest, message, hv⟩ | ⟨m₁, w₁, r, hm₁, hr, hresult⟩ := bind_pure_cases h
  · cases hv.symm.trans m.result_verdict
  · have hverdict : r.verdict = .success m.after m.value := by
      rw [← Result.verdict_commitIf m₁.committed, ← hresult, m.result_verdict]
    obtain ⟨-, rest, message, hv⟩ | ⟨m₂, w₂, v, -, hv, rfl⟩ := map_cases hr
    · cases hv.symm.trans hverdict
    · obtain ⟨id, rfl⟩ := exec_array hv
      rw [Match.result_verdict] at hverdict
      injection hverdict with _ hvalue
      exact ⟨id, _, _, hvalue.symm, hop _ _ _ _ _ _ (ends_result.2 hm₁) m₁.result_verdict⟩

/-- The links of a chain. -/
theorem links_of_chain {kind : Value → Prop} (hop : e.Gives env kind op) {z : Context} {w w' : World} {ms : List Match}
    {last : Outcome} (h : Chain e env (.pair op p) z w ms last w') :
    ∀ v ∈ ms.map Match.value, ∃ id f y, v = .array id [f, y] ∧ kind f := by
  induction h with
  | stop => exact fun _ h => absurd h List.not_mem_nil
  | link hm _ _ ih => exact List.forall_mem_cons.2 ⟨pair_match hop (ends_result.1 hm), ih⟩

/-! ## Runs side by side -/

variable (e env) in
/-- Two runs side by side, and what is the same in both at a stage. Functions of a kind are called in either run alone:
they answer what `joins` says, and the worlds stay the same. -/
structure Abreast (ds : Definitions) where
  Stage : Type
  preorder : Preorder Stage
  worlds : Stage → World → World → Prop
  contexts : Stage → Context → Context → Prop
  values : Stage → Value → Value → Prop
  kind : Value → Prop
  joins : Value → Value → Value → Value → Prop
  contexts_mono : ∀ {i j z z'}, i ≤ j → contexts i z z' → contexts j z z'
  values_mono : ∀ {i j v v'}, i ≤ j → values i v v' → values j v v'
  consumed : ∀ {i z z'}, contexts i z z' → z.input.consumed = z'.input.consumed
  call : ∀ {name f x y v w w₁}, kind f → (e.semantics env).exec (Act.call ds name f [x, y]) w = some (.ok v, w₁) →
    joins f x y v ∧ ∀ i u, (worlds i w u → worlds i w₁ u) ∧ (worlds i u w → worlds i u w₁)

attribute [instance] Abreast.preorder

namespace Abreast

variable {ds : Definitions} (B : Abreast e env ds)

/-- Results of both runs. -/
def Outcomes (i : B.Stage) : Outcome → Outcome → Prop := Result.Alike (B.contexts i) (B.values i)

/-- The parser does the same in both runs. -/
def Runs (q : Parser) : Prop :=
  ∀ {i z z' w w' r r' w₁ w₁'}, B.contexts i z z' → B.worlds i w w' → (e.semantics env).eval q z w = some (.ok r, w₁) →
    (e.semantics env).eval q z' w' = some (.ok r', w₁') → ∃ j, i ≤ j ∧ B.Outcomes j r r' ∧ B.worlds j w₁ w₁'

variable {B} {i : B.Stage}

/-- A repetition stops in both runs or in neither. -/
theorem stops_iff {z z' : Context} {r r' : Outcome} {j : B.Stage} (hz : B.contexts i z z') (hr : B.Outcomes j r r') :
    OnDemand.Stops z r ↔ OnDemand.Stops z' r' := by
  have hverdict := hr.verdict
  unfold OnDemand.Stops
  generalize r.verdict = v at hverdict ⊢
  generalize r'.verdict = v' at hverdict ⊢
  cases hverdict with
  | failure _ _ => exact Iff.rfl
  | success hrest _ =>
    show _ = _ ↔ _ = _
    rw [B.consumed hz, B.consumed hrest]

/-- What becomes of a fold in both runs. -/
theorem foldResult_alike {c : Bool} {acc acc' : Value} {z z' : Context} {last last' : Outcome} (hz : B.contexts i z z')
    (hlast : B.Outcomes i last last') :
    Result.Alike (B.contexts i) (fun v v' => v = acc ∧ v' = acc') (foldResult c acc z last) (foldResult c acc' z' last') := by
  cases hlast with
  | plain hv =>
    cases hv with
    | success hrest _ => exact Result.Alike.commitIf (.plain (.success hrest ⟨rfl, rfl⟩)) _
    | failure _ _ => exact Result.Alike.commitIf (.plain (.success hz ⟨rfl, rfl⟩)) _
  | committed hv =>
    cases hv with
    | success hrest _ => exact Result.Alike.commitIf (.plain (.success hrest ⟨rfl, rfl⟩)) _
    | failure hrest message => exact .committed (.failure hrest message)

/-- **The turns of `chainl1` beside the links of `chainr1`.** -/
theorem beside_chain (hlink : B.Runs (.pair op p)) (hop : e.Gives env B.kind op) {s s' : FoldState} {last : Outcome}
    {w₁ : World}
    (hturns : ReflTransGen (Folded e env (.pair op p) fun acc link => Act.call ds "f" link.fst [acc, link.snd]) s s')
    (hlast : (e.semantics env).eval (.pair op p) s'.context s'.world = some (.ok last, w₁))
    (hstop : OnDemand.Stops s'.context last) {z : Context} {w w' : World} {ms : List Match} {last' : Outcome}
    (hz : B.contexts i s.context z) (hw : B.worlds i s.world w) (hchain : Chain e env (.pair op p) z w ms last' w') :
    ∃ j links, i ≤ j ∧ B.Outcomes j last last' ∧ B.worlds j w₁ w' ∧ B.contexts j s'.context (endOf z ms) ∧
      List.Forall₂ (B.values j) links (ms.map Match.value) ∧ Value.GroupsLeft B.joins s.acc links s'.acc ∧
      s'.committed = (s.committed || ms.any Match.committed) := by
  -- the induction is on the turns, from the last one back; the chain has a link for each of them
  induction hturns using ReflTransGen.head_induction_on generalizing i z w ms with
  | refl =>
    cases hchain with
    | stop hlast' _ =>
      obtain ⟨j, hij, hr, hw₁⟩ := hlink hz hw hlast (ends_result.1 hlast')
      exact ⟨j, [], hij, hr, hw₁, B.contexts_mono hij hz, .nil, rfl, (Bool.or_false _).symm⟩
    | link hm hlarger _ =>
      obtain ⟨j, -, hr, -⟩ := hlink hz hw hlast (ends_result.1 hm)
      exact absurd ((stops_iff hz hr).1 hstop) (Match.not_stops hlarger)
  | head hturn _ ih =>
    cases hturn with
    | @turn c acc z₀ w₀ r w₂ z₁ v acc' w₃ hr hv hconsumed hexec =>
      obtain ⟨m, rfl, rfl, rfl⟩ := exists_match hv
      cases hchain with
      | stop hlast' hstop' =>
        obtain ⟨j, -, hr', -⟩ := hlink hz hw hr (ends_result.1 hlast')
        have hstops := (stops_iff hz hr').2 hstop'
        rw [OnDemand.Stops, hv] at hstops
        exact absurd hstops hconsumed
      | @link _ _ w₄ _ m' ms _ hm' _ hrest =>
        obtain ⟨j, hij, hr', hw₂⟩ := hlink hz hw hr (ends_result.1 hm')
        obtain ⟨id, f, y, hvalue, hf⟩ := pair_match hop hr
        have hverdict := hr'.verdict
        rw [m.result_verdict, m'.result_verdict] at hverdict
        cases hverdict with
        | success hcontexts hvalues =>
          rw [hvalue] at hexec
          obtain ⟨hjoins, hworlds⟩ := B.call hf hexec
          obtain ⟨k, links, hjk, hlast', hw₁, hz₁, hlinks, hgroups, hcommitted⟩ :=
            ih hcontexts ((hworlds j w₄).1 hw₂) hrest
          refine ⟨k, m.value :: links, le_trans hij hjk, hlast', hw₁, hz₁, .cons (B.values_mono hjk hvalues) hlinks,
            ⟨acc', ?_, hgroups⟩, ?_⟩
          · rw [hvalue]
            exact hjoins
          · have hsame : m'.committed = m.committed := by
              rw [← m.result_isCommitted, ← m'.result_isCommitted]
              exact hr'.isCommitted
            rw [hcommitted, m.result_isCommitted, List.any_cons, hsame, Bool.or_assoc]

/-- Joining links from the last one back groups them to the right; `acc` stands for the last operand. -/
theorem exec_groupRight {x acc link v : Value} {links : List Value} (hkind : ∀ l ∈ link :: links, B.kind l.fst)
    {w w₁ : World} (h : (e.semantics env).exec (Parser.groupRight ds x acc (link :: links)) w = some (.ok v, w₁)) :
    Value.GroupsRight B.joins x (links.reverse ++ [.both link.fst acc]) v ∧ ∀ i u, B.worlds i u w → B.worlds i u w₁ := by
  induction links generalizing acc link w with
  | nil =>
    obtain ⟨hjoins, hworlds⟩ := B.call (hkind link (List.mem_singleton_self link)) h
    exact ⟨⟨acc, rfl, hjoins⟩, fun i u => (hworlds i u).2⟩
  | cons before links ih =>
    rw [Parser.groupRight, exec_bind] at h
    obtain ⟨a, w₂, ha, hmore⟩ := Course.bind_eq_ok h
    obtain ⟨hjoins, hworlds⟩ := B.call (hkind link List.mem_cons_self) ha
    obtain ⟨hgroups, hworlds'⟩ := ih (fun l hl => hkind l (List.mem_cons_of_mem link hl)) hmore
    rw [List.reverse_cons, List.append_assoc]
    exact ⟨Value.groupsRight_concat hjoins hgroups, fun i u hu => hworlds' i u ((hworlds i u).2 hu)⟩

/-- Links that were kept, the newest first, are grouped to the right. -/
theorem exec_joinKept {x v : Value} {links : List Value} (hkind : ∀ l ∈ links, B.kind l.fst) {w w₁ : World}
    (h : (e.semantics env).exec (Parser.joinKept ds x (.kept links.reverse)) w = some (.ok v, w₁)) :
    Value.GroupsRight B.joins x links v ∧ ∀ i u, B.worlds i u w → B.worlds i u w₁ := by
  rw [Parser.joinKept, Value.items_kept] at h
  obtain ⟨vs, rfl⟩ : ∃ vs : List Value, links = vs.reverse := ⟨links.reverse, links.reverse_reverse.symm⟩
  rw [List.reverse_reverse] at h
  cases vs with
  | nil =>
    rw [exec_pure] at h
    cases h
    exact ⟨rfl, fun _ _ hu => hu⟩
  | cons link more =>
    obtain ⟨hgroups, hworlds⟩ := exec_groupRight (fun l hl => hkind l (List.mem_reverse.2 hl)) h
    rw [List.reverse_cons]
    exact ⟨Value.groupsRight_both hgroups, hworlds⟩

end Abreast

/-! ## Both chains -/

variable (e env p op) in
/-- The results of both chains from `z` on, and the worlds after them. They have one tag, and what they have left is the
same for `contexts`. Either both have failed with one message, or the matches of `op` and `p` after the first operand are a
chain of links, and there is no other chain: then the results are the operands grouped to the left and to the right. Where
the last application has failed, what is left is what was there before it, so an operator without an operand is left. -/
structure ChainsAgree (kind : Value → Prop) (joins : Value → Value → Value → Value → Prop) (worlds : World → World → Prop)
    (contexts : Context → Context → Prop) (values : Value → Value → Prop) (z : Context) (w : World) (r : Outcome)
    (w₁ : World) (r' : Outcome) (w₂ : World) : Prop where
  tag : r.tag = r'.tag
  isCommitted : r.isCommitted = r'.isCommitted
  rest : contexts r.verdict.rest r'.verdict.rest
  world : worlds w₁ w₂
  verdicts : (∃ rest rest' message, r.verdict = .failure rest message ∧ r'.verdict = .failure rest' message) ∨
    ∃ (m : Match) (w₃ : World) (links : List Value) (ms : List Match) (last : Outcome) (w₄ : World) (rest rest' : Context)
      (v v' : Value),
      Ends (fun n => e.result env n p z) w (.ok m.result) w₃ ∧
      Chain e env (.pair op p) m.after w₃ ms last w₄ ∧ worlds w₁ w₄ ∧
      (∀ ms' last' w', Chain e env (.pair op p) m.after w₃ ms' last' w' → ms' = ms ∧ last' = last ∧ w' = w₄) ∧
      (∀ v ∈ ms.map Match.value, ∃ id f y, v = .array id [f, y] ∧ kind f) ∧
      List.Forall₂ values links (ms.map Match.value) ∧
      r.verdict = .success rest v ∧ Value.GroupsLeft joins m.value links v ∧
      r'.verdict = .success rest' v' ∧ Value.GroupsRight joins m.value (ms.map Match.value) v' ∧
      rest' = match last.verdict with
        | .success rest _ => rest
        | .failure _ _ => endOf m.after ms

namespace Abreast

variable {ds : Definitions} {B : Abreast e env ds} {i : B.Stage} {z : Context} {w w₁ w₂ : World} {r r' : Outcome}

/-- The links of `chainr1` after its first operand, and what it makes of them. -/
theorem chain_of_chainr1 (hop : e.Gives env B.kind op) {x : Value}
    (h : (e.semantics env).eval (.map (.repeatFold (.pair op p) (.kept []) collecting) (Parser.joinKept ds x)) z w =
      some (.ok r, w₁)) :
    ∃ ms last w₂ v, Chain e env (.pair op p) z w ms last w₂ ∧
      r = foldResult (ms.any Match.committed) v (endOf z ms) last ∧ (∀ i u, B.worlds i u w₂ → B.worlds i u w₁) ∧
      ((∃ rest message, r.verdict = .failure rest message) ∨ Value.GroupsRight B.joins x (ms.map Match.value) v) := by
  obtain ⟨hr, rest, message, hv⟩ | ⟨m, w₂, v, hm, hv, rfl⟩ := map_cases h
  · obtain ⟨ms, last, hchain, hlast⟩ := collect_eq_ok.1 hr
    exact ⟨ms, last, w₁, _, hchain, hlast, fun _ _ hu => hu, .inl ⟨rest, message, hv⟩⟩
  · obtain ⟨ms, last, hchain, hlast⟩ := collect_eq_ok.1 hm
    obtain ⟨hkept, hresult⟩ := foldResult_of_match hlast
    rw [hkept] at hv
    have hkind : ∀ l ∈ ms.map Match.value, B.kind l.fst := by
      intro l hl
      obtain ⟨id, f, y, rfl, hf⟩ := links_of_chain hop hchain l hl
      exact hf
    obtain ⟨hgroups, hworlds⟩ := exec_joinKept hkind hv
    exact ⟨ms, last, w₂, v, hchain, hresult, hworlds, .inr hgroups⟩

/-- What follows the first operand `x`. -/
theorem links_alike (hlink : B.Runs (.pair op p)) (hop : e.Gives env B.kind op) (hz : B.contexts i z z)
    (hw : B.worlds i w w) {x : Value}
    (hl : (e.semantics env).eval (.repeatFold (.pair op p) x fun acc link => Act.call ds "f" link.fst [acc, link.snd])
      z w = some (.ok r, w₁))
    (hr : (e.semantics env).eval (.map (.repeatFold (.pair op p) (.kept []) collecting) (Parser.joinKept ds x)) z w =
      some (.ok r', w₂)) :
    ∃ j links ms last w₃ v v', i ≤ j ∧ B.worlds j w₁ w₂ ∧ Chain e env (.pair op p) z w ms last w₃ ∧ B.worlds j w₁ w₃ ∧
      Result.Alike (B.contexts j) (fun a a' => a = v ∧ a' = v') r r' ∧
      r' = foldResult (ms.any Match.committed) v' (endOf z ms) last ∧
      List.Forall₂ (B.values j) links (ms.map Match.value) ∧ Value.GroupsLeft B.joins x links v ∧
      ((∃ rest message, r'.verdict = .failure rest message) ∨ Value.GroupsRight B.joins x (ms.map Match.value) v') := by
  obtain ⟨s, last, hturns, hlast, hstop, rfl⟩ := fold_stops.1 hl
  obtain ⟨ms, last', w₃, v', hchain, hr', hworlds, hright⟩ := chain_of_chainr1 hop hr
  obtain ⟨j, links, hij, hlasts, hw₁, hcontexts, hlinks, hleft, hcommitted⟩ :=
    beside_chain hlink hop hturns hlast hstop hz hw hchain
  rw [Bool.false_or] at hcommitted
  refine ⟨j, links, ms, last', w₃, s.acc, v', hij, hworlds j _ hw₁, hchain, hw₁, ?_, hr', hlinks, hleft, hright⟩
  rw [hr', hcommitted]
  exact foldResult_alike hcontexts hlasts

/-- **Both chains side by side.** -/
theorem chainsAgree (hp : B.Runs p) (hlink : B.Runs (.pair op p)) (hop : e.Gives env B.kind op) (hz : B.contexts i z z)
    (hw : B.worlds i w w) (hl : (e.semantics env).eval (.chainl1 p op ds) z w = some (.ok r, w₁))
    (hr : (e.semantics env).eval (.chainr1 p op ds) z w = some (.ok r', w₂)) :
    ∃ j, i ≤ j ∧
      ChainsAgree e env p op B.kind B.joins (B.worlds j) (B.contexts j) (B.values j) z w r w₁ r' w₂ := by
  have hchainr1 : Parser.chainr1 p op ds = .bind p fun x =>
      .pure (.map (.repeatFold (.pair op p) (.kept []) collecting) (Parser.joinKept ds x)) := rfl
  rw [hchainr1] at hr
  obtain ⟨hfirst, rest, message, hv⟩ | ⟨m, w₃, r₁, hm, hr₁, rfl⟩ := bind_pure_cases hl
  · obtain ⟨hfirst', -⟩ | ⟨m, _, _, hm, -⟩ := bind_pure_cases hr
    · cases hfirst.symm.trans hfirst'
      obtain ⟨j, hij, halike, hworlds⟩ := hp hz hw hfirst hfirst
      exact ⟨j, hij, rfl, rfl, halike.verdict.rest, hworlds, .inl ⟨rest, rest, message, hv, hv⟩⟩
    · cases hfirst.symm.trans hm
      cases hv.symm.trans m.result_verdict
  obtain ⟨hfirst', rest, message, hv⟩ | ⟨m', w₃', r₁', hm', hr₁', rfl⟩ := bind_pure_cases hr
  · cases hfirst'.symm.trans hm
    cases hv.symm.trans m.result_verdict
  injection hm.symm.trans hm' with hpair
  injection hpair with hok hworld
  injection hok with hresult
  obtain rfl := Match.result_injective hresult
  subst hworld
  obtain ⟨i₁, hi₁, halike, hw₃⟩ := hp hz hw hm hm
  have hafter : B.contexts i₁ m.after m.after := by
    have hrest := halike.verdict.rest
    rwa [m.result_verdict] at hrest
  obtain ⟨j, links, ms, last, w₄, v, v', hij, hworlds, hchain, hw₄, halike₁, hr', hlinks, hleft, hright⟩ :=
    links_alike hlink hop hafter hw₃ hr₁ hr₁'
  have halike₂ := halike₁.commitIf m.committed
  refine ⟨j, le_trans hi₁ hij, halike₂.tag.symm, halike₂.isCommitted.symm, halike₂.verdict.rest, hworlds, ?_⟩
  rw [Result.verdict_commitIf, Result.verdict_commitIf]
  have hverdict := halike₁.verdict
  generalize hv : r₁.verdict = u at hverdict
  generalize hv' : r₁'.verdict = u' at hverdict hright
  cases hverdict with
  | failure _ message => exact .inl ⟨_, _, message, rfl, rfl⟩
  | success _ hvalues =>
    obtain ⟨rfl, rfl⟩ := hvalues
    obtain ⟨_, _, hfailed⟩ | hright := hright
    · cases hfailed
    rw [hr'] at hv'
    exact .inr ⟨m, w₃, links, ms, last, w₄, _, _, _, _, ends_result.2 hm, hchain, hw₄, fun _ _ _ h => hchain.unique h,
      links_of_chain hop hchain, hlinks, rfl, hleft, rfl, hright, rest_of_foldResult hv'⟩

end Abreast

/-- A result depends on the calls of the source that were made for it. -/
theorem pulled_result (fuel : Nat) (q : Parser) (z : Context) : (e.result env fuel q z).Pulled := by
  unfold result
  cases e.onDemand with
  | true => exact (OnDemand.means_pulled env fuel).result Run.Congruence.pulled (Nat.le_refl fuel) (.apply q z)
  | false => exact (Strict.plain_run fuel q z).pulled

/-! ### Functions that do nothing but answer -/

theorem exec_throw {α : Type} (fault : Fault) (w : World) :
    (e.semantics env).exec (.throw fault : Act α) w = some (.error fault, w) := by
  unfold semantics
  cases e.onDemand with
  | true => exact (Run.limit_eq_some (OnDemand.steady_exec env _)).2 ⟨0, rfl⟩
  | false => rfl

variable {ds : Definitions}

/-- Calling a function that does nothing but answer. -/
theorem exec_call {name : String} {f x y v : Value} (hf : f.Direct ds) {w w' : World}
    (h : (e.semantics env).exec (Act.call ds name f [x, y]) w = some (.ok v, w')) : v = f.join ds x y ∧ w' = w := by
  obtain ⟨v', hv'⟩ | ⟨fault, hfault⟩ := hf name x y
  · rw [hv', exec_pure] at h
    cases h
    exact ⟨(Value.join_eq hv').symm, rfl⟩
  · rw [hfault, exec_throw] at h
    cases h

variable (e env ds) in
/-- Functions that do nothing but answer leave both runs the same. -/
def Abreast.same : Abreast e env ds where
  Stage := Unit
  preorder :=
    { le _ _ := True
      lt _ _ := False
      le_refl _ := trivial
      le_trans _ _ _ _ _ := trivial
      lt_iff_le_not_ge _ _ := ⟨False.elim, fun h => h.2 trivial⟩ }
  worlds _ := Eq
  contexts _ := Eq
  values _ := Eq
  kind := Value.Direct ds
  joins f x y v := v = f.join ds x y
  contexts_mono _ h := h
  values_mono _ h := h
  consumed h := by rw [h]
  call hf h := by
    obtain ⟨hv, rfl⟩ := exec_call hf h
    exact ⟨hv, fun _ _ => ⟨id, id⟩⟩

theorem Abreast.same_runs (q : Parser) : (same e env ds).Runs q := by
  rintro i z _ w _ r r' w₁ w₁' rfl rfl h h'
  cases h.symm.trans h'
  refine ⟨i, trivial, ?_, rfl⟩
  have hverdict : ∀ v : Verdict Context Value, v.Alike Eq Eq v := fun v => by
    cases v with
    | success _ _ => exact .success rfl rfl
    | failure _ message => exact .failure rfl message
  cases r with
  | plain v => exact .plain (hverdict v)
  | committed v => exact .committed (hverdict v)

/-! ### Functions that make values -/

variable (e env) in
/-- Whatever functions make has names of its own, which differ. -/
def Abreast.renamed (hds : ds.Heedless) (S : Supply) : Abreast e env ds where
  Stage := CommittedChoice.Stage
  preorder := inferInstance
  worlds := Stage.Worlds S 0 0
  contexts := Stage.Contexts
  values := Stage.Values
  kind _ := True
  joins := Value.Answers ds
  contexts_mono h hz := hz.mono h
  values_mono h hv := hv.mono h
  consumed h := h.input.consumed
  call {name f x y v w w₁} _ h := by
    rw [exec_of_heedless (Act.heedless_call hds name f [x, y])] at h
    have hcall := Course.ofRun_eq_some.1 h
    have hleaves : ∀ n, w.Leaves n w₁ := by
      intro n
      have hexec : w.Leaves n ((Act.call ds name f [x, y]).exec env .none w).2 := World.leaves_exec n _ w
      rwa [hcall] at hexec
    exact ⟨⟨env, name, w, w₁, hcall⟩, fun i u =>
      ⟨fun hu => hu.apart (hleaves _) (.refl _ u), fun hu => hu.apart (.refl _ u) (hleaves _)⟩⟩

theorem Abreast.renamed_runs {hds : ds.Heedless} {S : Supply} (hg : ∀ name, (env.grammar name).Pure) {q : Parser}
    (hq : q.Pure) : (renamed e env hds S).Runs q := by
  intro i z z' w w' r r' w₁ w₁' hz hw h h'
  exact eval_renamed hg hq (show Stage.Worlds S 0 0 i w w' from hw) hz h h'

/-- A pair of pure parsers is pure. -/
theorem pure_pair (hop : op.Pure) (hp : p.Pure) : (Parser.pair op p).Pure := fun σ =>
  .bind Stage.Parsers (hop σ) (fun τ _ _ _ hv => .pure (.map (hp τ) fun _ hυ _ _ hx =>
    .array (.cons (hv.mono hυ) (.cons hx .nil)))) fun _ _ _ h => h

/-- **Operands joined by operators.** Let both chains end in a result; the functions that `op` gives may be any of those
that a program defines. The tags of the results are what shows of them at once.

- If the functions do nothing but answer, the chains agree, and they end in one world.
- Whatever the functions do, the chains agree as far as `p` and `op` do the same in two runs of which only one has called
  them.
- Thus they agree up to names if all callbacks are pure and no function looks at a list: a value that a function makes has
  another name in the other chain, and so have the links after it. The source may fail later on: any source will do that
  answers the calls that were made in the same way. -/
theorem chains_alike (ds : Definitions) {z : Context} {w w₁ w₂ : World} {r r' : Outcome}
    (hl : Ends (fun n => e.result env n (.chainl1 p op ds) z) w (.ok r) w₁)
    (hr : Ends (fun n => e.result env n (.chainr1 p op ds) z) w (.ok r') w₂) :
    (∃ w₃, Ends (fun n => e.rawTag env n (.chainl1 p op ds) z) w (.ok r.tag) w₃) ∧
    (∃ w₃, Ends (fun n => e.rawTag env n (.chainr1 p op ds) z) w (.ok r'.tag) w₃) ∧
    (e.Gives env (Value.Direct ds) op →
      ChainsAgree e env p op (Value.Direct ds) (fun f x y v => v = f.join ds x y) Eq Eq Eq z w r w₁ r' w₂) ∧
    (∀ (B : Abreast e env ds) (i : B.Stage), B.Runs p → B.Runs (.pair op p) → e.Gives env B.kind op → B.contexts i z z →
      B.worlds i w w → ∃ j, i ≤ j ∧
        ChainsAgree e env p op B.kind B.joins (B.worlds j) (B.contexts j) (B.values j) z w r w₁ r' w₂) ∧
    ∀ (S : Supply) (σ : Stage) (source : Nat → Pull), ds.Heedless → (∀ name, (env.grammar name).Pure) → p.Pure →
      op.Pure → (∀ k < max w₁.feed.calls w₂.feed.calls, source k = w.feed.source k) →
      Stage.Worlds S 0 0 σ (w.withSource source) (w.withSource source) → σ.Contexts z z → ∃ τ, σ ≤ τ ∧
        ChainsAgree e env p op (fun _ => True) (Value.Answers ds) (Stage.Worlds S 0 0 τ) τ.Contexts τ.Values z
          (w.withSource source) r (w₁.withSource source) r' (w₂.withSource source) := by
  have houtl : OnDemand.Outright env (.chainl1 p op ds) := .bind fun _ => OnDemand.outright_loop _ _
  have houtr : OnDemand.Outright env (.chainr1 p op ds) := .bind fun _ => (OnDemand.outright_loop _ _).map _
  refine ⟨ends_rawTag_of_outright houtl (ends_result.1 hl), ends_rawTag_of_outright houtr (ends_result.1 hr),
    fun hop => ?_, fun B i hp hlink hop hz hw => ?_, fun S σ source hds hg hp hop hsource hw hz => ?_⟩
  · have hruns := @Abreast.same_runs e env ds
    obtain ⟨_, -, hagree⟩ :=
      Abreast.chainsAgree (i := ()) (hruns p) (hruns _) hop rfl rfl (ends_result.1 hl) (ends_result.1 hr)
    exact hagree
  · exact Abreast.chainsAgree hp hlink hop hz hw (ends_result.1 hl) (ends_result.1 hr)
  · have hl := Run.Pulled.ends (fun n => pulled_result n _ z) hl fun k hk =>
      hsource k (Nat.lt_of_lt_of_le hk (Nat.le_max_left _ _))
    have hr := Run.Pulled.ends (fun n => pulled_result n _ z) hr fun k hk =>
      hsource k (Nat.lt_of_lt_of_le hk (Nat.le_max_right _ _))
    have hruns := @Abreast.renamed_runs e env ds hds S hg
    exact Abreast.chainsAgree (B := .renamed e env hds S) (i := σ) (hruns hp) (hruns (pure_pair hop hp))
      (fun _ _ _ _ _ _ _ _ => trivial) hz hw (ends_result.1 hl) (ends_result.1 hr)

/-- An operator that is any token, with the function that a program defines under a number. What it holds is the token. -/
def operating (n : Nat) : Parser := .map .next fun t => .pure (.function (.defined .constant n t))

/-- The functions of a program with two definitions: the first one puts what it holds between its arguments, the second one
makes a new array of what it holds and its arguments. -/
def framing : Definitions
  | 0, held, [x, y] => .pure (.text (x.joined ++ held.joined ++ y.joined))
  | _, held, args => .array (held :: args)

theorem heedless_framing : framing.Heedless := by
  intro n held args env lists
  unfold framing
  split <;> rfl

theorem gives_operating : e.Gives env (Value.Direct framing) (operating 0) := by
  intro z w r w' rest f h hv
  obtain ⟨-, rest, message, hr⟩ | ⟨m, w₁, v, -, hexec, rfl⟩ := map_cases (ends_result.1 h)
  · cases hr.symm.trans hv
  · rw [exec_pure] at hexec
    cases hexec
    cases (Match.result_verdict _).symm.trans hv
    exact Value.direct_defined fun _ _ => rfl

theorem pure_operating (n : Nat) : (operating n).Pure :=
  fun _ => .map .next fun _ _ _ _ hv => .pure ⟨congrArg (fun v => Value.function (.defined .constant n v)) hv.shape, hv.names⟩

/-- No tokens. -/
def noTokens : Supply where
  pull _ := .ended
  steady k h := by cases h
  plain k t h := by cases h

/-- Three operands with tokens between them. -/
def operands : Context := ⟨.chars ['5', '-', '3', '+', '1'] 0, .absent⟩

theorem chains_alike_operands :
    ChainsAgree (lazy true) ((lazy true).env (fun _ => .fail "") {}) .next (operating 0) (Value.Direct framing)
      (fun f x y v => v = f.join framing x y) Eq Eq Eq operands {} (.success ⟨.chars [] 5, .absent⟩ (.text "5-3+1"))
      { made := 2 } (.success ⟨.chars [] 5, .absent⟩ (.text "5-3+1")) { made := 2 } ∧
    ∃ (S : Supply) (τ : Stage), ChainsAgree (lazy true) ((lazy true).env (fun _ => .fail "") {}) .next (operating 1)
      (fun _ => True) (Value.Answers framing) (Stage.Worlds S 0 0 τ) τ.Contexts τ.Values operands {}
      (.success ⟨.chars [] 5, .absent⟩
        (.array (.made 3) [.text "+", .array (.made 1) [.text "-", .text "5", .text "3"], .text "1"])) { made := 4 }
      (.success ⟨.chars [] 5, .absent⟩
        (.array (.made 3) [.text "-", .text "5", .array (.made 2) [.text "+", .text "3", .text "1"]])) { made := 4 } := by
  constructor
  · have hl : Ends (fun n => (lazy true).result ((lazy true).env (fun _ => .fail "") {}) n
        (.chainl1 .next (operating 0) framing) operands) {} (.ok (.success ⟨.chars [] 5, .absent⟩ (.text "5-3+1")))
        { made := 2 } := ⟨17, by cbv⟩
    have hr : Ends (fun n => (lazy true).result ((lazy true).env (fun _ => .fail "") {}) n
        (.chainr1 .next (operating 0) framing) operands) {} (.ok (.success ⟨.chars [] 5, .absent⟩ (.text "5-3+1")))
        { made := 2 } := ⟨17, by cbv⟩
    obtain ⟨-, -, hsame, -⟩ := chains_alike framing hl hr
    exact hsame gives_operating
  · have hl : Ends (fun n => (lazy true).result ((lazy true).env (fun _ => .fail "") {}) n
        (.chainl1 .next (operating 1) framing) operands) {} (.ok (.success ⟨.chars [] 5, .absent⟩
          (.array (.made 3) [.text "+", .array (.made 1) [.text "-", .text "5", .text "3"], .text "1"]))) { made := 4 } :=
      ⟨17, by cbv⟩
    have hr : Ends (fun n => (lazy true).result ((lazy true).env (fun _ => .fail "") {}) n
        (.chainr1 .next (operating 1) framing) operands) {} (.ok (.success ⟨.chars [] 5, .absent⟩
          (.array (.made 3) [.text "-", .text "5", .array (.made 2) [.text "+", .text "3", .text "1"]]))) { made := 4 } :=
      ⟨17, by cbv⟩
    obtain ⟨-, -, -, -, hrenamed⟩ := chains_alike framing hl hr
    obtain ⟨τ, -, hagree⟩ := hrenamed noTokens .initial noTokens.pull heedless_framing (fun _ _ => .fail "")
      (fun _ => .next) (pure_operating 1) (fun _ _ => rfl) (Stage.worlds_initial Supply.interrupted_self)
      ⟨.chars _ 0, .of_names rfl⟩
    exact ⟨_, τ, hagree⟩

end Engine

end CommittedChoice
