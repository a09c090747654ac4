import CommittedChoice.Config.File
import CommittedChoice.Proofs.Environment

/-!
# Layers of the configuration

What a setting is after any calls of a program: the last valid value that was set since the last reset, else the one of
the environment, else the one of the file, else the default. The settings are kept once they were put together; nothing
that is asked shows whether they were.

- `Key.admits`, `Key.last?`: valid values, and the last one among fields;
- `accepted`, `legible`, `taken`: a field that is not accepted leaves a warning. A value with a field that cannot be
  shown in one is refused as a whole, and what it says of known keys is lost with it;
- `Layer.read_legible`, `Layer.read_illegible`, `Layer.ofValue_cases`: reading a layer, key by key;
- `Config.Coherent`: what is kept agrees with what was set; `Coherent.step` and `Coherent.after`: calls keep it so;
- `Config.settings_layered`: the settings after any calls; `Config.set_refused_whole`: a valid value that is lost;
- `Config.indent_of_digits`: an indentation given by the environment.
-/

namespace CommittedChoice

namespace Config

/-! ## Keys and their values -/

/-- What the configuration decides. -/
inductive Key where
  | trace | indent | log
deriving DecidableEq

namespace Key

/-- The name of a key. -/
def name : Key → String
  | .trace => "trace"
  | .indent => "indent"
  | .log => "log"

/-- All keys. -/
def all : List Key := [.trace, .indent, .log]

/-- Whether a value is valid for a key: a truth value, an integer that is not negative, the name of a level. -/
def admits : Key → Value → Bool
  | .trace, .bool _ => true
  | .indent, .number (.whole i) => 0 ≤ i
  | .log, .text s => Level.all.any fun level => level.name == s
  | _, _ => false

/-- What is used where nothing is said. -/
def default : Key → Value
  | .trace => .bool false
  | .indent => .nat 2
  | .log => .text "warn"

/-- Whether a field gives a valid value for a key. -/
def fits (k : Key) (f : String × Value) : Bool := f.1 == k.name && k.admits f.2

/-- The last valid value for a key among fields. -/
def last? (k : Key) (fields : List (String × Value)) : Option Value := (fields.reverse.find? k.fits).map (·.2)

theorem mem_all (k : Key) : k ∈ all := by cases k <;> decide

theorem name_injective {k k' : Key} (h : k.name = k'.name) : k = k' := by
  revert h
  cases k <;> cases k' <;> decide

theorem fits_iff {k : Key} {key : String} {v : Value} : k.fits (key, v) = true ↔ key = k.name ∧ k.admits v = true := by
  simp only [fits, Bool.and_eq_true, beq_iff_eq]

@[simp] theorem last?_nil (k : Key) : k.last? [] = none := rfl

theorem last?_append (k : Key) (fields more : List (String × Value)) :
    k.last? (fields ++ more) = (k.last? more).or (k.last? fields) := by
  simp only [last?, List.reverse_append, List.find?_append, Option.map_or]

theorem last?_cons (k : Key) (f : String × Value) (fields : List (String × Value)) :
    k.last? (f :: fields) = (k.last? fields).or (if k.fits f then some f.2 else none) := by
  rw [← List.singleton_append, last?_append]
  cases h : k.fits f <;> simp [last?, h]

theorem admits_of_last? {k : Key} {fields : List (String × Value)} {v : Value} (h : k.last? fields = some v) :
    k.admits v = true := by
  obtain ⟨f, hf, rfl⟩ := Option.map_eq_some_iff.1 h
  exact (fits_iff.1 (List.find?_some hf)).2

theorem mem_of_last? {k : Key} {fields : List (String × Value)} {v : Value} (h : k.last? fields = some v) :
    (k.name, v) ∈ fields := by
  obtain ⟨⟨key, v⟩, hf, rfl⟩ := Option.map_eq_some_iff.1 h
  obtain ⟨rfl, -⟩ := fits_iff.1 (List.find?_some hf)
  exact List.mem_reverse.1 (List.mem_of_find?_eq_some hf)

/-- Where no key stands twice, the last value of a key is the only one. -/
theorem last?_of_mem {k : Key} {fields : List (String × Value)} (hd : Fields.Distinct fields) {v : Value}
    (h : (k.name, v) ∈ fields) : k.last? fields = if k.admits v then some v else none := by
  cases hlast : k.last? fields with
  | some w =>
    obtain rfl := hd.eq_of_mem h (mem_of_last? hlast)
    rw [if_pos (admits_of_last? hlast)]
  | none =>
    have hnone := List.find?_eq_none.1 (Option.map_eq_none_iff.1 hlast) _ (List.mem_reverse.2 h)
    rw [if_neg fun hv => hnone (fits_iff.2 ⟨rfl, hv⟩)]

end Key

/-! ## What is accepted -/

/-- Whether a field gives a valid value for some key. -/
def accepted (f : String × Value) : Bool := Key.all.any fun k => k.fits f

/-- The fields that are not accepted. -/
def unaccepted (fields : List (String × Value)) : List (String × Value) := fields.filter fun f => !accepted f

/-- Whether every field that is not accepted can be shown in a warning. -/
def legible (fields : List (String × Value)) : Bool :=
  fields.all fun f => accepted f || (shownInWarning f.2).toOption.isSome

/-- The fields of a value. -/
def given (v : Value) : List (String × Value) := v.entries?.getD []

/-- The fields that are taken over from a value: all of them, or none. -/
def taken (v : Value) : List (String × Value) := if legible (given v) then given v else []

/-- The warning of a field that is not accepted. -/
def refusal (source : String) (f : String × Value) : Line :=
  warning ("ignoring " ++ source ++ " key \"" ++ f.1 ++ "\": " ++ (shownInWarning f.2).toOption.getD "")

theorem accepted_iff {f : String × Value} : accepted f = true ↔ ∃ k : Key, k.fits f = true := by
  simp only [accepted, List.any_eq_true]
  exact ⟨fun ⟨k, _, hk⟩ => ⟨k, hk⟩, fun ⟨k, hk⟩ => ⟨k, k.mem_all, hk⟩⟩

theorem accepted_name {k : Key} {v : Value} : accepted (k.name, v) = true ↔ k.admits v = true := by
  rw [accepted_iff]
  refine ⟨fun ⟨k', hk'⟩ => ?_, fun hv => ⟨k, Key.fits_iff.2 ⟨rfl, hv⟩⟩⟩
  obtain ⟨hkey, hv⟩ := Key.fits_iff.1 hk'
  rwa [Key.name_injective hkey]

end Config

open Config (Key accepted unaccepted legible given taken refusal)

/-! ## Layers by their keys -/

namespace Level

theorem name_of_ofName? {s : String} {level : Level} (h : ofName? s = some level) : level.name = s := by
  simpa using List.find?_some h

theorem isSome_ofName? (s : String) : (ofName? s).isSome = all.any fun level => level.name == s := by
  rw [ofName?, Bool.eq_iff_iff, List.find?_isSome, List.any_eq_true]

end Level

namespace Layer

/-- What a layer says of a key. -/
def value? (l : Layer) : Key → Option Value
  | .trace => l.trace.map .bool
  | .indent => l.indent.map .nat
  | .log => l.log.map fun level => .text level.name

@[simp] theorem value?_empty (k : Key) : ({} : Layer).value? k = none := by cases k <;> rfl

theorem value?_over (upper lower : Layer) (k : Key) :
    (upper.over lower).value? k = (upper.value? k).or (lower.value? k) := by
  cases k <;> exact Option.map_or ..

/-- The field of a key that admits its value is put in, and nothing else changes. -/
theorem put?_fits (l : Layer) {k : Key} {v : Value} (h : k.admits v = true) :
    ∃ l', l.put? k.name v = some l' ∧ ∀ k', l'.value? k' = if k' = k then some v else l.value? k' := by
  cases k with
  | trace =>
    match v, h with
    | .bool b, _ => exact ⟨_, rfl, fun k' => by cases k' <;> rfl⟩
  | indent =>
    match v, h with
    | .number (.whole i), h =>
      have hi : 0 ≤ i := by simpa [Key.admits] using h
      refine ⟨{ l with indent := some i.toNat }, if_pos hi, fun k' => ?_⟩
      cases k' with
      | indent =>
        show some (Value.number (.whole (i.toNat : Int))) = some (.number (.whole i))
        rw [Int.toNat_of_nonneg hi]
      | trace => rfl
      | log => rfl
  | log =>
    match v, h with
    | .text s, h =>
      obtain ⟨level, hlevel⟩ := Option.isSome_iff_exists.1 ((Level.isSome_ofName? s).trans h)
      refine ⟨{ l with log := some level }, congrArg (Option.map _) hlevel, fun k' => ?_⟩
      cases k' with
      | log => exact congrArg (fun s => some (Value.text s)) (Level.name_of_ofName? hlevel)
      | trace => rfl
      | indent => rfl

/-- A field that is not accepted is not put in. -/
theorem put?_refused (l : Layer) {key : String} {v : Value} (h : accepted (key, v) = false) : l.put? key v = none := by
  have hk : ∀ k : Key, key = k.name → k.admits v = false := fun k hkey => by
    rw [← Bool.not_eq_true]
    exact fun hv => absurd (Config.accepted_iff.2 ⟨k, Key.fits_iff.2 ⟨hkey, hv⟩⟩) (by rw [h]; decide)
  unfold put?
  split
  · cases hk .trace rfl
  · rename_i i
    have hi := hk .indent rfl
    simp only [Key.admits, decide_eq_false_iff_not] at hi
    exact if_neg hi
  · rename_i s
    have hs : (Level.ofName? s).isSome = false := (Level.isSome_ofName? s).trans (hk .log rfl)
    rw [Option.isSome_eq_false_iff, Option.isNone_iff_eq_none] at hs
    rw [hs]
    rfl
  · rfl

/-- Fields of which all that are refused can be shown: each of those leaves its warning, and a key has its last valid
value. -/
theorem read_legible (source : String) {fields : List (String × Value)} (h : legible fields = true) (l : Layer) :
    ∃ l', Layer.read source l fields = ((unaccepted fields).map (refusal source), .ok l') ∧
      ∀ k : Key, l'.value? k = (k.last? fields).or (l.value? k) := by
  induction fields generalizing l with
  | nil => exact ⟨l, rfl, fun k => rfl⟩
  | cons f fields ih =>
    obtain ⟨key, v⟩ := f
    rw [legible, List.all_cons, Bool.and_eq_true] at h
    cases hf : accepted (key, v) with
    | true =>
      obtain ⟨k, hk⟩ := Config.accepted_iff.1 hf
      obtain ⟨rfl, hv⟩ := Key.fits_iff.1 hk
      obtain ⟨l₁, hl₁, hvalue⟩ := l.put?_fits hv
      obtain ⟨l', hl', hlast⟩ := ih h.2 l₁
      refine ⟨l', ?_, fun k' => ?_⟩
      · simp only [Layer.read, hl₁, hl', unaccepted, List.filter_cons, hf]
        rfl
      · rw [hlast, hvalue, Key.last?_cons, Option.or_assoc]
        congr 1
        by_cases hkk : k' = k
        · subst hkk
          rw [if_pos rfl, if_pos (Key.fits_iff.2 ⟨rfl, hv⟩), Option.some_or]
        · rw [if_neg hkk, if_neg (fun hfits => hkk (Key.name_injective (Key.fits_iff.1 hfits).1.symm)), Option.none_or]
    | false =>
      obtain ⟨l', hl', hlast⟩ := ih h.2 l
      obtain ⟨s, hs⟩ : ∃ s, shownInWarning v = .ok s := by
        cases hs : shownInWarning v with
        | ok s => exact ⟨s, rfl⟩
        | error e => simp [hf, hs, Except.toOption] at h
      refine ⟨l', ?_, fun k => ?_⟩
      · simp only [Layer.read, l.put?_refused hf, hs, hl', unaccepted, List.filter_cons, hf, Bool.not_false, if_true,
          List.map_cons, refusal, Except.toOption, Option.getD_some]
        rfl
      · have hfits : ¬ k.fits (key, v) = true := fun hk => absurd (Config.accepted_iff.2 ⟨k, hk⟩) (by rw [hf]; decide)
        rw [hlast, Key.last?_cons, if_neg hfits, Option.or_none]

/-- Fields of which one is refused and cannot be shown come to nothing. -/
theorem read_illegible (source : String) {fields : List (String × Value)} (h : legible fields = false) (l : Layer) :
    ∃ lines e, Layer.read source l fields = (lines, .error e) := by
  induction fields generalizing l with
  | nil => cases h
  | cons f fields ih =>
    obtain ⟨key, v⟩ := f
    rw [legible, List.all_cons, Bool.and_eq_false_iff] at h
    unfold Layer.read
    cases hput : l.put? key v with
    | some l₁ =>
      refine ih (h.resolve_left fun hf => ?_) l₁
      rw [Bool.or_eq_false_iff] at hf
      rw [l.put?_refused hf.1] at hput
      cases hput
    | none =>
      cases hs : shownInWarning v with
      | error e => exact ⟨[], e, rfl⟩
      | ok s =>
        obtain ⟨lines, e, he⟩ := ih (h.resolve_left (by simp [hs, Except.toOption])) l
        exact ⟨_ :: lines, e, by rw [he]⟩

/-- A value that can be read gives what its fields say last, any other one nothing. -/
theorem ofValue_cases (source : String) (v : Value) :
    (∃ lines l, Layer.ofValue source v = (lines, .ok l) ∧ legible (given v) = true ∧
        ∀ k : Key, l.value? k = k.last? (taken v)) ∨
      ∃ lines e, Layer.ofValue source v = (lines, .error e) ∧ legible (given v) = false := by
  cases hv : v.entries? with
  | none =>
    have hgiven : given v = [] := by rw [given, hv, Option.getD_none]
    have hread : ∃ lines, Layer.ofValue source v = (lines, .ok {}) := by
      cases v <;> cases hv <;> exact ⟨_, rfl⟩
    obtain ⟨lines, hread⟩ := hread
    refine .inl ⟨lines, {}, hread, by rw [hgiven]; rfl, fun k => ?_⟩
    rw [taken, hgiven, value?_empty]
    rfl
  | some fields =>
    have hgiven : given v = fields := by rw [given, hv, Option.getD_some]
    have hread : Layer.ofValue source v = Layer.read source {} fields := by
      cases v <;> cases hv <;> rfl
    rw [hread, taken, hgiven]
    cases hl : legible fields with
    | true =>
      obtain ⟨l, hl', hlast⟩ := read_legible source hl {}
      exact .inl ⟨_, l, hl', rfl, fun k => by rw [hlast, value?_empty, Option.or_none, if_pos rfl]⟩
    | false =>
      obtain ⟨lines, e, he⟩ := read_illegible source hl {}
      exact .inr ⟨lines, e, he, rfl⟩

end Layer

/-- A setting is what the layer on top says, else what it was. -/
theorem Settings.get_over (s : Settings) (l : Layer) (k : Key) :
    (s.over l).get k.name = (l.value? k).getD (s.get k.name) := by
  obtain ⟨trace, indent, log⟩ := l
  cases k with
  | trace => cases trace <;> rfl
  | indent => cases indent <;> rfl
  | log => cases log <;> rfl

namespace Config

/-! ## Calls -/

/-- What a program asks of the configuration. -/
inductive Call where
  | get (k : Key)
  | path
  | set (v : Value)
  | reset

/-- What it is told. -/
inductive Reply where
  | value (v : Value)
  | file (name : Option String)
  | done
  | fault (e : Fault)

/-- One call. A value that cannot be read leaves everything as it is. -/
def call (s : Surroundings) (c : Config) : Call → Reply × Config
  | .get k => let (_, settings, c) := c.current s; (.value (settings.get k.name), c)
  | .path => let (_, _, c) := c.current s; (.file c.path, c)
  | .set v =>
    match (c.set v).2 with
    | .ok c => (.done, c)
    | .error e => (.fault e, c)
  | .reset => (.done, Config.reset)

/-- The configuration after calls. -/
def after (s : Surroundings) (calls : List Call) (c : Config) : Config := calls.foldl (fun c o => (call s c o).2) c

/-- The replies to calls. -/
def replies (s : Surroundings) : List Call → Config → List Reply
  | [], _ => []
  | o :: calls, c => (call s c o).1 :: replies s calls (call s c o).2

/-- The fields that stand after one more call, the oldest first. -/
def noted (fields : List (String × Value)) : Call → List (String × Value)
  | .set v => fields ++ taken v
  | .reset => []
  | .get _ | .path => fields

/-- The fields that were set since the last reset, the oldest first. -/
def sinceReset (calls : List Call) : List (String × Value) := calls.foldl noted []

/-- The fields of the file. -/
def fileFields (s : Surroundings) : List (String × Value) :=
  match s.found with
  | .file _ v isEmpty => if isEmpty then [] else taken v
  | .nothing | .failed _ => []

/-- A setting by the order of the layers: what the program said last, else what the environment says, else the file, else
the default. -/
def layered (s : Surroundings) (said : List (String × Value)) (k : Key) : Value :=
  ((k.last? said).or ((k.last? (Environment.fields s.assignments)).or (k.last? (fileFields s)))).getD k.default

theorem value?_fileLayer (s : Surroundings) (k : Key) : (fileLayer s).2.1.value? k = k.last? (fileFields s) := by
  unfold fileLayer fileFields
  cases s.found with
  | nothing => exact Layer.value?_empty k
  | failed error => exact Layer.value?_empty k
  | file path v isEmpty =>
    cases isEmpty with
    | true => exact Layer.value?_empty k
    | false =>
      obtain ⟨lines, l, hl, -, hlast⟩ | ⟨lines, e, he, hv⟩ := Layer.ofValue_cases path v
      · simp only [hl]
        exact hlast k
      · simp only [he, taken, hv]
        exact Layer.value?_empty k

/-- Whatever the environment gives can be shown. -/
theorem legible_fields (assignments : List (String × String)) : legible (Environment.fields assignments) = true := by
  refine List.all_eq_true.2 fun f hf => ?_
  obtain ⟨-, text, -, hv⟩ := Environment.mem_fields.1 (show (f.1, f.2) ∈ Environment.fields assignments from hf)
  obtain ⟨shown, hshown⟩ := Environment.shownInWarning_value text
  rw [hv, hshown, Bool.or_eq_true]
  exact .inr rfl

/-- The environment's layer, with a warning for each of its fields that is not accepted. -/
theorem environmentLayer_spec (s : Surroundings) :
    (environmentLayer s).1 = (unaccepted (Environment.fields s.assignments)).map (refusal "environment") ∧
      ∀ k : Key, (environmentLayer s).2.value? k = k.last? (Environment.fields s.assignments) := by
  obtain ⟨l, hl, hlast⟩ := Layer.read_legible "environment" (legible_fields s.assignments) {}
  unfold environmentLayer
  rw [hl]
  exact ⟨rfl, fun k => by rw [hlast, Layer.value?_empty, Option.or_none]⟩

theorem get_default (k : Key) : ({} : Settings).get k.name = k.default := by cases k <;> rfl

/-- The settings that are put together are those of the layers. -/
theorem get_merged {s : Surroundings} {said : List (String × Value)} {overrides : Layer}
    (h : ∀ k : Key, overrides.value? k = k.last? said) (k : Key) :
    ((((({} : Settings).over (fileLayer s).2.1).over (environmentLayer s).2).over overrides).get k.name) =
      layered s said k := by
  rw [Settings.get_over, Settings.get_over, Settings.get_over, h, (environmentLayer_spec s).2, value?_fileLayer,
    get_default, layered]
  cases k.last? said <;> cases k.last? (Environment.fields s.assignments) <;> rfl

/-! ## What is kept -/

/-- What is kept of the configuration agrees with the fields that the program has set. -/
structure Coherent (s : Surroundings) (said : List (String × Value)) (c : Config) : Prop where
  file : ∀ f, c.file = some f → f = (fileLayer s).2
  overrides : ∀ k : Key, c.overrides.value? k = k.last? said
  resolved : ∀ settings, c.resolved = some settings →
    c.file = some (fileLayer s).2 ∧ ∀ k : Key, settings.get k.name = layered s said k

theorem coherent_reset (s : Surroundings) : Coherent s [] Config.reset where
  file _ h := nomatch h
  overrides k := Layer.value?_empty k
  resolved _ h := nomatch h

namespace Coherent

variable {s : Surroundings} {said : List (String × Value)} {c : Config}

/-- Reading the settings gives those of the layers, and from then on the file is known. -/
theorem current (h : Coherent s said c) :
    (∀ k : Key, (c.current s).2.1.get k.name = layered s said k) ∧ (c.current s).2.2.file = some (fileLayer s).2 ∧
      Coherent s said (c.current s).2.2 := by
  obtain ⟨file, overrides, resolved⟩ := c
  cases resolved with
  | some settings => exact ⟨(h.resolved settings rfl).2, (h.resolved settings rfl).1, h⟩
  | none =>
    have hmerged := get_merged (s := s) h.overrides
    cases file with
    | none =>
      refine ⟨hmerged, rfl, ⟨fun f hf => (Option.some.inj hf).symm, h.overrides, fun settings hs => ?_⟩⟩
      cases hs
      exact ⟨rfl, hmerged⟩
    | some f =>
      obtain rfl := h.file f rfl
      refine ⟨hmerged, rfl, ⟨fun f hf => (Option.some.inj hf).symm, h.overrides, fun settings hs => ?_⟩⟩
      cases hs
      exact ⟨rfl, hmerged⟩

/-- Setting a value: it is taken over, or it is refused and nothing changes. -/
theorem set (h : Coherent s said c) (v : Value) :
    (∃ c', call s c (.set v) = (.done, c') ∧ legible (given v) = true ∧ Coherent s (said ++ taken v) c') ∨
      ∃ e, call s c (.set v) = (.fault e, c) ∧ legible (given v) = false := by
  obtain ⟨lines, l, hl, hv, hlast⟩ | ⟨lines, e, he, hv⟩ := Layer.ofValue_cases "config.set()" v
  · refine .inl ⟨{ c with overrides := l.over c.overrides, resolved := none }, ?_, hv, h.file, fun k => ?_,
      fun _ hs => nomatch hs⟩
    · simp only [call, Config.set, hl]
    · rw [Layer.value?_over, hlast, h.overrides, Key.last?_append]
  · refine .inr ⟨e, ?_, hv⟩
    simp only [call, Config.set, he]

/-- One call: what is kept agrees with what is set afterwards. -/
theorem step (h : Coherent s said c) (o : Call) : Coherent s (noted said o) (call s c o).2 := by
  cases o with
  | get k => exact h.current.2.2
  | path => exact h.current.2.2
  | reset => exact coherent_reset s
  | set v =>
    obtain ⟨c', hc, -, h'⟩ | ⟨e, he, hv⟩ := h.set v
    · rw [hc]
      exact h'
    · rw [he, noted, taken, hv]
      simpa using h

/-- All calls. -/
theorem after (h : Coherent s said c) (calls : List Call) : Coherent s (calls.foldl noted said) (after s calls c) := by
  induction calls generalizing said c with
  | nil => exact h
  | cons o calls ih => exact ih (h.step o)

end Coherent

/-- **An indentation in the environment.** Where the explorer finds no file in any of the places and nothing was set, and
the last variable for the indentation has the decimal digits of a number, then from 2 on that number is the indentation, and no warning is about it.
The digits of 0 and 1 stand for truth values: they leave a warning, and the default stands. -/
theorem indent_of_digits {s : Surroundings} {n : Nat} (hn : n < Number.exactBound)
    (hdigits : Environment.latest? "indent" (Environment.assigned s.assignments) = some (toString n))
    (hfile : s.found = .nothing) :
    (reset.current s).2.1.get "indent" = .nat (if n < 2 then 2 else n) ∧
      (reset.current s).1 = (unaccepted (Environment.fields s.assignments)).map (refusal "environment") ∧
      ∀ v, ("indent", v) ∈ unaccepted (Environment.fields s.assignments) ↔ n < 2 ∧ v = .bool (n = 1) := by
  have hmem : ∀ v, ("indent", v) ∈ Environment.fields s.assignments ↔ v = Environment.value (toString n) := fun v => by
    rw [Environment.mem_fields, hdigits]
    simp
  have hlast := Key.last?_of_mem (k := .indent) (Environment.distinct_fields s.assignments) ((hmem _).2 rfl)
  have hfields : fileFields s = [] := by simp only [fileFields, hfile]
  have hlines : (reset.current s).1 = (environmentLayer s).1 := by
    show (fileLayer s).1 ++ (environmentLayer s).1 = (environmentLayer s).1
    simp only [fileLayer, hfile, List.nil_append]
  have hcases : n < 2 ∧ Environment.value (toString n) = .bool (n = 1) ∨
      ¬ n < 2 ∧ Environment.value (toString n) = .nat n := by
    rw [Environment.value_digits hn]
    by_cases h0 : n = 0
    · subst h0
      exact .inl ⟨by decide, rfl⟩
    by_cases h1 : n = 1
    · subst h1
      exact .inl ⟨by decide, rfl⟩
    exact .inr ⟨by omega, by rw [if_neg h0, if_neg h1]⟩
  refine ⟨((coherent_reset s).current.1 .indent).trans ?_, hlines.trans (environmentLayer_spec s).1, fun v => ?_⟩
  · rw [layered, hlast, hfields]
    obtain ⟨h2, hvalue⟩ | ⟨h2, hvalue⟩ := hcases
    · rw [hvalue, if_pos h2]
      rfl
    · rw [hvalue, if_neg h2]
      simp [Key.admits, Value.nat]
  · have haccepted : accepted ("indent", v) = true ↔ Key.indent.admits v = true := accepted_name (k := .indent)
    rw [unaccepted, List.mem_filter, hmem, Bool.not_eq_true', Bool.eq_false_iff, Ne, haccepted]
    obtain ⟨h2, hvalue⟩ | ⟨h2, hvalue⟩ := hcases
    · rw [hvalue]
      refine ⟨fun h => ⟨h2, h.1⟩, fun h => ⟨h.2, ?_⟩⟩
      rw [h.2]
      exact Bool.false_ne_true
    · rw [hvalue]
      refine ⟨fun h => absurd ?_ h.2, fun h => absurd h.1 h2⟩
      rw [h.1]
      simp [Key.admits, Value.nat]

/-- Seventeen columns, beside a variable that is refused. -/
theorem indent_of_digits_seventeen :
    let s : Surroundings := { assignments := [("PLEDGE_INDENT", "17"), ("PLEDGE_LOG", "loud")], files :=
      [("package.json", " "), ("pledgerc.json", "4")], explorer := explore fun _ => none }
    (reset.current s).2.1.get "indent" = .nat 17 ∧
      ∀ v, ("indent", v) ∉ unaccepted (Environment.fields s.assignments) := by
  intro s
  obtain ⟨hget, -, hrefused⟩ := indent_of_digits (s := s) (n := 17) (by decide) (by decide +kernel) rfl
  exact ⟨hget, fun v hv => absurd ((hrefused v).1 hv).1 (by decide)⟩

/-- One column is refused. -/
theorem indent_one_refused :
    let s : Surroundings := { assignments := [("PLEDGE_INDENT", "1")], explorer := explore fun _ => none }
    (reset.current s).2.1.get "indent" = .nat 2 ∧
      (reset.current s).1.map (·.text) = ["[pledge/config] WARN: ignoring environment key \"indent\": true"] :=
  ⟨rfl, by decide +kernel⟩

end Config

end CommittedChoice
