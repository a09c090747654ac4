import CommittedChoice.Config.Basic
import Mathlib.Data.List.Induction
import Mathlib.Data.List.Nodup

/-!
# Variables of the environment

- `Fields.set_perm`: a field that is set stands beside those with other keys;
- `Environment.latest?`: the last variable for a key; `Environment.mem_fields`: the fields are what these stand for, and
  `Environment.distinct_fields`: there is one of a key at most;
- `Environment.value_digits`: what the decimal digits of a number stand for. Those of 0 and 1 are truth values;
- `Environment.shownInWarning_value`: what a variable stands for can be shown in a warning.
-/

namespace CommittedChoice

/-! ## Fields that are set -/

namespace Fields

/-- No key stands there twice. -/
abbrev Distinct (fields : List (String × Value)) : Prop := (fields.map (·.1)).Nodup

/-- The fields with other keys. -/
def without (key : String) (fields : List (String × Value)) : List (String × Value) := fields.filter fun f => f.1 ≠ key

theorem without_of_notMem {key : String} {fields : List (String × Value)} (h : key ∉ fields.map (·.1)) :
    without key fields = fields :=
  List.filter_eq_self.2 fun f hf => decide_eq_true fun hkey => h (List.mem_map.2 ⟨f, hf, hkey⟩)

theorem notMem_of_replace?_eq_none {key : String} {v : Value} {fields : List (String × Value)}
    (h : replace? key v fields = none) : key ∉ fields.map (·.1) := by
  induction fields with
  | nil => exact List.not_mem_nil
  | cons f fields ih =>
    unfold replace? at h
    split at h
    · cases h
    · rename_i hf
      rw [List.map_cons, List.mem_cons, not_or]
      exact ⟨Ne.symm hf, ih (Option.map_eq_none_iff.1 h)⟩

theorem replace?_perm {key : String} {v : Value} {fields fields' : List (String × Value)} (hd : Distinct fields)
    (h : replace? key v fields = some fields') : fields'.Perm ((key, v) :: without key fields) := by
  induction fields generalizing fields' with
  | nil => cases h
  | cons f fields ih =>
    obtain ⟨hf, hd⟩ := List.nodup_cons.1 hd
    unfold replace? at h
    split at h
    · rename_i hkey
      cases h
      subst hkey
      have hrest : without f.1 (f :: fields) = fields := by
        rw [without, List.filter_cons_of_neg (by simp)]
        exact without_of_notMem hf
      rw [hrest]
    · rename_i hkey
      obtain ⟨fields₁, h₁, rfl⟩ := Option.map_eq_some_iff.1 h
      have hrest : without key (f :: fields) = f :: without key fields :=
        List.filter_cons_of_pos (decide_eq_true hkey)
      rw [hrest]
      exact ((ih hd h₁).cons f).trans (.swap ..)

theorem insertPosition_perm (n : Nat) (f : String × Value) (fields : List (String × Value)) :
    (insertPosition n f fields).Perm (f :: fields) := by
  induction fields with
  | nil => exact .refl _
  | cons g fields ih =>
    unfold insertPosition
    split
    · split
      · exact (ih.cons g).trans (.swap ..)
      · exact .refl _
    · exact .refl _

/-- A field that is set stands beside those with other keys. -/
theorem set_perm {fields : List (String × Value)} (hd : Distinct fields) (key : String) (v : Value) :
    (set fields key v).Perm ((key, v) :: without key fields) := by
  unfold set
  cases h : replace? key v fields with
  | some fields' => exact replace?_perm hd h
  | none =>
    rw [without_of_notMem (notMem_of_replace?_eq_none h)]
    cases position? key with
    | some n => exact insertPosition_perm n _ fields
    | none => exact List.perm_append_singleton _ _

theorem mem_set {fields : List (String × Value)} (hd : Distinct fields) {key : String} {v : Value}
    {f : String × Value} : f ∈ set fields key v ↔ f = (key, v) ∨ f ∈ fields ∧ f.1 ≠ key := by
  rw [(set_perm hd key v).mem_iff, List.mem_cons, without, List.mem_filter, decide_eq_true_iff]

theorem distinct_set {fields : List (String × Value)} (hd : Distinct fields) (key : String) (v : Value) :
    Distinct (set fields key v) := by
  rw [Distinct, ((set_perm hd key v).map _).nodup_iff, List.map_cons, List.nodup_cons]
  refine ⟨fun h => ?_, hd.sublist (List.filter_sublist.map _)⟩
  obtain ⟨f, hf, hkey⟩ := List.mem_map.1 h
  exact of_decide_eq_true (List.mem_filter.1 hf).2 hkey

/-- Where no key stands twice, a key has one value. -/
theorem Distinct.eq_of_mem {fields : List (String × Value)} (hd : Distinct fields) {key : String} {v v' : Value}
    (h : (key, v) ∈ fields) (h' : (key, v') ∈ fields) : v = v' :=
  congrArg Prod.snd (List.inj_on_of_nodup_map hd h h' rfl)

end Fields

/-! ## Variables -/

namespace Environment

/-- The text of the last variable for a key. -/
def latest? (key : String) (vs : List (String × String)) : Option String :=
  (vs.reverse.find? fun v => key? v.1 == some key).map (·.2)

theorem latest?_concat (key : String) (vs : List (String × String)) (v : String × String) :
    latest? key (vs ++ [v]) = if key? v.1 = some key then some v.2 else latest? key vs := by
  rw [latest?, List.reverse_append, List.reverse_singleton, List.singleton_append, List.find?_cons]
  by_cases h : key? v.1 = some key
  · rw [if_pos h, h, beq_self_eq_true]
    rfl
  · rw [if_neg h, beq_eq_false_iff_ne.2 h]
    rfl

/-- No key stands there twice, and every one but the parent's has what the last variable for it stands for. -/
theorem fields_spec (assignments : List (String × String)) :
    Fields.Distinct (fields assignments) ∧ ∀ key v, (key, v) ∈ fields assignments ↔
      key ≠ "__proto__" ∧ ∃ text, latest? key (assigned assignments) = some text ∧ v = value text := by
  unfold fields
  generalize assigned assignments = vs
  induction vs using List.reverseRecOn with
  | nil => exact ⟨List.nodup_nil, fun key v => by simp [latest?]⟩
  | append_singleton vs a ih =>
    obtain ⟨hd, hmem⟩ := ih
    rw [List.foldl_append, List.foldl_cons, List.foldl_nil]
    simp only [latest?_concat]
    cases hkey : key? a.1 with
    | none => exact ⟨hd, by simpa using hmem⟩
    | some name =>
      by_cases hproto : name = "__proto__"
      · simp only [if_pos hproto]
        refine ⟨hd, fun key v => (hmem key v).trans (and_congr_right fun hk => ?_)⟩
        rw [if_neg fun h => hk ((Option.some.inj h).symm.trans hproto)]
      · simp only [if_neg hproto]
        refine ⟨Fields.distinct_set hd _ _, fun key v => (Fields.mem_set hd).trans ?_⟩
        by_cases hk : key = name
        · subst hk
          simp [hproto, eq_comm]
        · have hk' : some name ≠ some key := fun h => hk (Option.some.inj h).symm
          rw [if_neg hk', ← hmem]
          simp [hk]

theorem distinct_fields (assignments : List (String × String)) : Fields.Distinct (fields assignments) :=
  (fields_spec assignments).1

theorem mem_fields {assignments : List (String × String)} {key : String} {v : Value} :
    (key, v) ∈ fields assignments ↔
      key ≠ "__proto__" ∧ ∃ text, latest? key (assigned assignments) = some text ∧ v = value text :=
  (fields_spec assignments).2 key v

/-! ## What a variable stands for -/

/-- What a variable stands for can be shown in a warning. -/
theorem shownInWarning_value (text : String) : ∃ s, shownInWarning (value text) = .ok s := by
  unfold value
  repeat' split
  all_goals exact ⟨_, rfl⟩

theorem digitsValue_toString (n : Nat) : digitsValue (toString n).toList = n := by
  rw [Nat.toString_eq_ofList_toDigits, String.toList_ofList]
  exact Nat.ofDigitChars_ten_toDigits

/-- The decimal digits of a number stand for it, those of 0 and 1 for truth values. -/
theorem value_digits {n : Nat} (hn : n < Number.exactBound) :
    value (toString n) = if n = 0 then .bool false else if n = 1 then .bool true else .nat n := by
  have hdigits : (toString n).toList.all Char.isDigit = true := by
    rw [Nat.toString_eq_ofList_toDigits, String.toList_ofList, List.all_eq_true]
    exact fun c hc => Nat.isDigit_of_mem_toDigits (by decide) (by decide) hc
  have hword : ∀ {word}, toString n = word → word.toList.all Char.isDigit = true ∧ digitsValue word.toList = n :=
    fun h => h ▸ ⟨hdigits, digitsValue_toString n⟩
  unfold value
  by_cases h0 : n = 0
  · subst h0
    rfl
  by_cases h1 : n = 1
  · subst h1
    rfl
  have htrue : ¬ (toString n = "1" ∨ toString n = "true") := by
    rintro (h | h)
    · exact h1 (hword h).2.symm
    · exact absurd (hword h).1 (by decide)
  have hfalse : ¬ (toString n = "0" ∨ toString n = "false" ∨ toString n = "") := by
    rintro (h | h | h)
    · exact h0 (hword h).2.symm
    · exact absurd (hword h).1 (by decide)
    · exact h0 (hword h).2.symm
  rw [if_neg htrue, if_neg hfalse, if_pos hdigits, digitsValue_toString, if_neg h0, if_neg h1]
  exact congrArg Value.number (Number.ofInt_of_small (i := n) hn)

end Environment

end CommittedChoice
