import CommittedChoice.Proofs.Layers

/-!
# Configuration files

The places where a configuration may stand are looked at in one order, and the first one that has something to say is the
only one that is heard: what it leaves open is not filled in from later ones. The project's own file comes before those that
are made for the configuration alone, so it hides them.

- `Json.Written`: values of written texts; `Json.written_of_read?`: no others are read, so all of them can be shown in
  warnings, and no key of a record stands there twice;
- `Config.Explorer.Orderly`: what is relied on of an explorer; `Config.orderly_explore`: the one that programs run with
  keeps to it;
- `Config.first_of_silent`: the first place that is not silent;
- `Config.first_file_decides`: the settings when there are only files; `Config.project_file_hides`: a valid value that is
  not heard.
-/

namespace CommittedChoice

/-! ## Written values -/

namespace Fields

theorem ofList_spec (written : List (String × Value)) :
    Distinct (ofList written) ∧ ∀ f ∈ ofList written, f ∈ written := by
  induction written using List.reverseRecOn with
  | nil => exact ⟨List.nodup_nil, fun f hf => hf⟩
  | append_singleton written g ih =>
    obtain ⟨hd, hmem⟩ := ih
    have hset : ofList (written ++ [g]) = set (ofList written) g.1 g.2 := List.foldl_concat ..
    rw [hset]
    refine ⟨distinct_set hd _ _, fun f hf => ?_⟩
    obtain rfl | ⟨hf, -⟩ := (mem_set hd).1 hf
    · exact List.mem_append_right _ (List.mem_singleton_self _)
    · exact List.mem_append_left _ (hmem f hf)

end Fields

namespace Environment

theorem mem_of_mem_assign {name value : String} {vs : List (String × String)} {a : String × String}
    (h : a ∈ assign name value vs) : a = (name, value) ∨ a ∈ vs := by
  induction vs with
  | nil => exact .inl (List.mem_singleton.1 h)
  | cons v vs ih =>
    rw [assign] at h
    split at h
    · exact (List.mem_cons.1 h).imp_right (List.mem_cons_of_mem v)
    · obtain rfl | h := List.mem_cons.1 h
      · exact .inr List.mem_cons_self
      · exact (ih h).imp_right (List.mem_cons_of_mem v)

/-- Variables have been assigned. -/
theorem mem_of_mem_assigned {assignments : List (String × String)} {a : String × String}
    (h : a ∈ assigned assignments) : a ∈ assignments := by
  induction assignments using List.reverseRecOn with
  | nil => exact h
  | append_singleton assignments b ih =>
    rw [assigned, List.foldl_concat, ← assigned] at h
    obtain rfl | h := mem_of_mem_assign h
    · exact List.mem_append_right _ (List.mem_singleton_self _)
    · exact List.mem_append_left _ (ih h)

/-- Variables without the project's name in front give no fields. -/
theorem fields_eq_nil {assignments : List (String × String)} (h : ∀ a ∈ assignments, key? a.1 = none) :
    fields assignments = [] := by
  refine List.eq_nil_iff_forall_not_mem.2 fun f hf => ?_
  obtain ⟨-, text, hlatest, -⟩ := mem_fields.1 (show (f.1, f.2) ∈ fields assignments from hf)
  obtain ⟨a, ha, -⟩ := Option.map_eq_some_iff.1 hlatest
  have hkey := List.find?_some ha
  rw [h a (mem_of_mem_assigned (List.mem_reverse.1 (List.mem_of_find?_eq_some ha)))] at hkey
  cases hkey

end Environment

namespace Json

/-- A value that a text can write. -/
inductive Written : Value → Prop
  | null : Written .null
  | bool (b : Bool) : Written (.bool b)
  | number (n : Number) : Written (.number n)
  | text (s : String) : Written (.text s)
  | array (id : Identity) {xs : List Value} (hxs : ∀ x ∈ xs, Written x) : Written (.array id xs)
  | record (id : Identity) {fields : List (String × Value)} (hd : Fields.Distinct fields)
      (hfields : ∀ f ∈ fields, Written f.2) : Written (.record id fields)

/-- What is read with this much fuel is written. -/
structure ReadsWritten (fuel : Nat) : Prop where
  value : ∀ {cs v rest}, value? fuel cs = some (v, rest) → Written v
  elements : ∀ {done cs v rest}, (∀ x ∈ done, Written x) → elements? fuel done cs = some (v, rest) → Written v
  members : ∀ {done : List (String × Value)} {cs v rest}, (∀ f ∈ done, Written f.2) →
    members? fuel done cs = some (v, rest) → Written v

namespace ReadsWritten

variable {fuel : Nat} {cs rest : List Char} {v : Value}

theorem value_succ (ih : ReadsWritten fuel) (h : value? (fuel + 1) cs = some (v, rest)) : Written v := by
  unfold value? at h
  split at h
  · cases h; exact .null
  · cases h; exact .bool true
  · cases h; exact .bool false
  · obtain ⟨_, -, h⟩ := Option.map_eq_some_iff.1 h
    cases h
    exact .text _
  · split at h
    · cases h
      exact .array _ (List.forall_mem_nil _)
    · exact ih.elements (List.forall_mem_nil _) h
  · split at h
    · cases h
      exact .record _ List.nodup_nil (List.forall_mem_nil _)
    · exact ih.members (List.forall_mem_nil _) h
  · obtain ⟨_, -, h⟩ := Option.map_eq_some_iff.1 h
    cases h
    exact .number _

theorem elements_succ (ih : ReadsWritten fuel) {done : List Value} (hdone : ∀ x ∈ done, Written x)
    (h : elements? (fuel + 1) done cs = some (v, rest)) : Written v := by
  unfold elements? at h
  split at h
  · cases h
  · rename_i x rest' hx
    have hdone' := List.forall_mem_cons.2 ⟨ih.value hx, hdone⟩
    split at h
    · exact ih.elements hdone' h
    · cases h
      exact .array _ fun x hx => hdone' x (List.mem_reverse.1 hx)
    · cases h

theorem members_succ (ih : ReadsWritten fuel) {done : List (String × Value)} (hdone : ∀ f ∈ done, Written f.2)
    (h : members? (fuel + 1) done cs = some (v, rest)) : Written v := by
  unfold members? at h
  split at h
  · split at h
    · cases h
    · rename_i key rest' hkey
      split at h
      · split at h
        · cases h
        · rename_i x rest'' hx
          have hdone' : ∀ f ∈ (key, x) :: done, Written f.2 := List.forall_mem_cons.2 ⟨ih.value hx, hdone⟩
          split at h
          · exact ih.members hdone' h
          · cases h
            obtain ⟨hd, hmem⟩ := Fields.ofList_spec ((key, x) :: done).reverse
            exact .record _ hd fun f hf => hdone' f (List.mem_reverse.1 (hmem f hf))
          · cases h
      · cases h
  · cases h

end ReadsWritten

/-- The three readers call each other with less fuel. -/
theorem reads_written (fuel : Nat) : ReadsWritten fuel := by
  induction fuel with
  | zero =>
    refine ⟨fun h => ?_, fun _ h => ?_, fun _ h => ?_⟩
    · rw [value?] at h
      cases h
    · rw [elements?] at h
      cases h
    · rw [members?] at h
      cases h
  | succ fuel ih => exact ⟨ih.value_succ, ih.elements_succ, ih.members_succ⟩

/-- **What is read from a written text is written.** -/
theorem written_of_read? {s : String} {v : Value} (h : read? s = some v) : Written v := by
  unfold read? at h
  dsimp only at h
  split at h
  · rename_i v' rest hread
    split at h
    · cases h
      exact (reads_written _).value hread
    · cases h
  · cases h

/-- Whether a value can be written wherever it stands. -/
def Writable (v : Value) : Prop := ∀ key, ∃ s, writtenAt? key v = .ok (some s)

theorem elements_writable {xs : List Value} (h : ∀ x ∈ xs, Writable x) (i : Nat) : ∃ parts, elements i xs = .ok parts := by
  induction xs generalizing i with
  | nil => exact ⟨[], rfl⟩
  | cons x xs ih =>
    obtain ⟨hx, hxs⟩ := List.forall_mem_cons.1 h
    obtain ⟨s, hs⟩ := hx (Number.intText i)
    obtain ⟨parts, hparts⟩ := ih hxs (i + 1)
    exact ⟨s :: parts, by rw [elements, hs]; simp only [hparts]; rfl⟩

theorem members_writable {fields : List (String × Value)} (h : ∀ f ∈ fields, Writable f.2) :
    ∃ parts, members fields = .ok parts := by
  induction fields with
  | nil => exact ⟨[], rfl⟩
  | cons f fields ih =>
    obtain ⟨hf, hfields⟩ := List.forall_mem_cons.1 h
    obtain ⟨s, hs⟩ := hf f.1
    obtain ⟨parts, hparts⟩ := ih hfields
    exact ⟨(quoted f.1 ++ ":" ++ s) :: parts, by rw [members, hs]; simp only [hparts]; rfl⟩

theorem Written.writable {v : Value} (h : Written v) : Writable v := by
  intro key
  induction h generalizing key with
  | null | bool | number | text => exact ⟨_, by rw [writtenAt?]⟩
  | array id _ ih =>
    obtain ⟨parts, hparts⟩ := elements_writable ih 0
    exact ⟨_, by rw [writtenAt?, hparts]; rfl⟩
  | @record id fields _ _ ih =>
    rw [writtenAt?]
    split
    · exact ⟨_, rfl⟩
    · obtain ⟨parts, hparts⟩ := members_writable ih
      exact ⟨_, by rw [hparts]; rfl⟩

end Json

namespace Config

open Json (Written)

/-- A written record is taken over whole. -/
theorem taken_of_written {id : Identity} {fields : List (String × Value)} (h : Written (.record id fields)) :
    taken (.record id fields) = fields := by
  cases h with
  | record _ hd hfields =>
    refine if_pos (List.all_eq_true.2 fun f hf => ?_)
    obtain ⟨s, hs⟩ := (hfields f hf).writable ""
    have hshown : shownInWarning f.2 = .ok s := by rw [shownInWarning, Json.written?, hs]
    rw [hshown, Bool.or_eq_true]
    exact .inr rfl

/-- In a record that no key stands in twice, a key has the value of its field, if that is valid. -/
theorem Key.last?_of_distinct {fields : List (String × Value)} (hd : Fields.Distinct fields) (k : Key) :
    k.last? fields = (fields.lookup k.name).filter k.admits := by
  cases hv : fields.lookup k.name with
  | some v =>
    obtain ⟨front, back, rfl, -⟩ := List.lookup_eq_some_iff.1 hv
    rw [last?_of_mem hd (List.mem_append_right front List.mem_cons_self)]
    rfl
  | none =>
    cases hlast : k.last? fields with
    | none => rfl
    | some v =>
      have hne := List.lookup_eq_none_iff.1 hv _ (mem_of_last? hlast)
      rw [bne_self_eq_false] at hne
      cases hne

/-! ## The search -/

/-- What is relied on of an explorer: it looks at the places in their order, each for itself, and the first one that is
not silent is what it finds. What the project's own file holds is written. -/
structure Explorer.Orderly (x : Explorer) (entry : List (String × String) → String → Entry) : Prop where
  first_entry : ∀ files places, x files places = first (entry files) places
  written : ∀ {files path v}, entry files "package.json" = .holds path v → Written v

/-- The first place that is not silent decides. -/
theorem first_of_silent {entry : String → Entry} {earlier later : List String} {p : String}
    (hsilent : ∀ q ∈ earlier, entry q = .silent) : first entry (earlier ++ p :: later) = first entry (p :: later) := by
  induction earlier with
  | nil => rfl
  | cons q earlier ih =>
    obtain ⟨hq, hsilent⟩ := List.forall_mem_cons.1 hsilent
    rw [List.cons_append, first, hq, ih hsilent]

theorem first_of_forall_silent {entry : String → Entry} {places : List String}
    (hsilent : ∀ q ∈ places, entry q = .silent) : first entry places = .nothing := by
  induction places with
  | nil => rfl
  | cons q places ih =>
    obtain ⟨hq, hsilent⟩ := List.forall_mem_cons.1 hsilent
    rw [first, hq, ih hsilent]

/-- A field of a written value is written, or is absent. -/
theorem written_field? {v w : Value} (h : Written v) {key : String} (hw : (v.field? key).getD .absent = w)
    (habsent : w ≠ .absent) : Written w := by
  cases h with
  | record id hd hfields =>
    rename_i fields
    rw [Value.field?] at hw
    cases hlookup : fields.lookup key with
    | none => exact absurd (by rw [← hw, hlookup]; rfl) habsent
    | some w' =>
      obtain ⟨front, back, rfl, -⟩ := List.lookup_eq_some_iff.1 hlookup
      rw [hlookup] at hw
      obtain rfl : w' = w := hw
      exact hfields (key, w') (List.mem_append_right front List.mem_cons_self)
  | _ => exact absurd hw.symm habsent

/-- A record in a file that is not blank. -/
theorem entry_of_read? {run : String → Option Value} {files : List (String × String)} {place text : String}
    {id : Identity} {fields : List (String × Value)} (htext : textOf? files place = some text)
    (hblank : text.toList.all Text.isBlank = false)
    (hread : (Format.ofPlace place).read? run text = some (.record id fields)) :
    entry run files place = .holds place (.record id fields) := by
  simp only [entry, htext, hblank, hread, Bool.false_eq_true, if_false]

/-- A value in a place is what its text is read as. -/
theorem read?_of_entry {run : String → Option Value} {files : List (String × String)} {place path : String} {v : Value}
    (h : entry run files place = .holds path v) :
    path = place ∧ v ≠ .absent ∧ ∃ text, (Format.ofPlace place).read? run text = some v := by
  unfold entry at h
  cases htext : textOf? files place with
  | none => rw [htext] at h; cases h
  | some text =>
    rw [htext] at h
    dsimp only at h
    split at h
    · cases h
    · split at h
      · cases h
      · cases h
      · cases h
      · rename_i v' hnull habsent hread
        cases h
        exact ⟨rfl, habsent, text, hread⟩

/-- **The explorer that programs run with is orderly**, whatever running a program gives. -/
theorem orderly_explore (run : String → Option Value) : Explorer.Orderly (explore run) (entry run) where
  first_entry _ _ := rfl
  written := fun {_ _ v} h => by
    obtain ⟨-, habsent, text, hread⟩ := read?_of_entry h
    obtain ⟨whole, hwhole, hread⟩ := Option.bind_eq_some_iff.1 hread
    have hfield : (whole.field? "pledge").getD .absent = v := by
      cases whole with
      | null => cases hread
      | _ => exact Option.some.inj hread
    exact written_field? (Json.written_of_read? hwhole) hfield habsent

/-! ## Settings from files -/

/-- Without variables and without values that the program has set, a setting comes from the file. -/
theorem get_of_file {s : Surroundings} (henv : ∀ a ∈ s.assignments, Environment.key? a.1 = none) {calls : List Call}
    (hcalls : sinceReset calls = []) (k : Key) :
    (call s (after s calls reset) (.get k)).1 = .value ((k.last? (fileFields s)).getD k.default) := by
  have h : Coherent s (sinceReset calls) (after s calls reset) := (coherent_reset s).after calls
  refine congrArg Reply.value ((h.current.1 k).trans ?_)
  rw [layered, hcalls, Environment.fields_eq_nil henv, Key.last?_nil, Option.none_or, Option.none_or]

section

variable {s : Surroundings} {entry : List (String × String) → String → Entry} (hx : s.explorer.Orderly entry)

include hx

/-- The fields of the first place that is not silent. -/
theorem fileFields_of_first {earlier later : List String} {p path : String} {v : Value}
    (hplaces : places = earlier ++ p :: later) (hsilent : ∀ q ∈ earlier, entry s.files q = .silent)
    (hp : entry s.files p = .holds path v) : fileFields s = taken v := by
  have hfound : s.found = .file path v false := by
    rw [Surroundings.found, hx.first_entry, hplaces, first_of_silent hsilent, first, hp]
  simp only [fileFields, hfound, Bool.false_eq_true, if_false]

/-- Where every place is silent there are no fields. -/
theorem fileFields_of_silent (hsilent : ∀ q ∈ places, entry s.files q = .silent) : fileFields s = [] := by
  have hfound : s.found = .nothing := by rw [Surroundings.found, hx.first_entry, first_of_forall_silent hsilent]
  simp only [fileFields, hfound]

/-- The fields of a record in the project's own file, which comes first of all. -/
theorem last?_of_project {path : String} {id : Identity} {fields : List (String × Value)}
    (hp : entry s.files "package.json" = .holds path (.record id fields)) (k : Key) :
    k.last? (fileFields s) = (fields.lookup k.name).filter k.admits := by
  have hwritten := hx.written hp
  rw [fileFields_of_first hx rfl (List.forall_mem_nil _) hp, taken_of_written hwritten]
  cases hwritten with
  | record _ hd _ => exact Key.last?_of_distinct hd k

end

/-- **The first file decides.** Take an explorer that looks at the places in their order, any files, no variable of the
project, and a program that has set nothing since it last reset the configuration. If the project's own file has a record
under the project's name, each setting is the one of that record, if it is valid there, and else the default; whatever the
other files say is not heard. In general, if the places before one are silent, and that one holds a value, then it decides
in the same way; and if all places are silent the settings are the defaults. -/
theorem first_file_decides {s : Surroundings} {entry : List (String × String) → String → Entry}
    (hx : s.explorer.Orderly entry) (henv : ∀ a ∈ s.assignments, Environment.key? a.1 = none) {calls : List Call}
    (hcalls : sinceReset calls = []) (k : Key) :
    (∀ path id fields, entry s.files "package.json" = .holds path (.record id fields) →
      (call s (after s calls reset) (.get k)).1 = .value (((fields.lookup k.name).filter k.admits).getD k.default)) ∧
    (∀ earlier p later path v, places = earlier ++ p :: later → (∀ q ∈ earlier, entry s.files q = .silent) →
      entry s.files p = .holds path v →
      (call s (after s calls reset) (.get k)).1 = .value ((k.last? (taken v)).getD k.default)) ∧
    ((∀ q ∈ places, entry s.files q = .silent) → (call s (after s calls reset) (.get k)).1 = .value k.default) := by
  have hget := get_of_file henv hcalls k
  refine ⟨fun path id fields hp => ?_, fun earlier p later path v hplaces hsilent hp => ?_, fun hsilent => ?_⟩
  · rw [hget, last?_of_project hx hp]
  · rw [hget, fileFields_of_first hx hplaces hsilent hp]
  · rw [hget, fileFields_of_silent hx hsilent]
    rfl

/-- Two files. Neither the indentation of the first one is heard nor that it asks for traces. -/
theorem first_file_decides_hidden :
    let s : Surroundings := { assignments := [("HOME", "/")], explorer := explore fun _ => none, files :=
      [(".pledgerc.json", "\x7b\"indent\":4,\"trace\":true\x7d"),
        ("package.json", "\x7b\"pledge\":\x7b\"indent\":3,\"log\":\"loud\"\x7d\x7d")] }
    let calls : List Call := [.set (.record .constant [("trace", .bool true)]), .reset, .path]
    s.explorer.Orderly (entry fun _ => none) ∧
      (call s (after s calls reset) (.get .indent)).1 = .value (.nat 3) ∧
      (call s (after s calls reset) (.get .trace)).1 = .value (.bool false) := by
  intro s calls
  have henv : ∀ a ∈ s.assignments, Environment.key? a.1 = none := by
    intro a ha
    rw [List.mem_singleton.1 ha]
    decide +kernel
  have hread : (Format.keyed "pledge").read? (fun _ => none)
      "\x7b\"pledge\":\x7b\"indent\":3,\"log\":\"loud\"\x7d\x7d" =
      some (.record .constant [("indent", .nat 3), ("log", .text "loud")]) := by
    unfold Format.read? Json.read?
    dsimp only [String.reduceToList]
    rfl
  have hx : s.explorer.Orderly (entry fun _ => none) := orderly_explore _
  have hp : entry (fun _ => none) s.files "package.json" =
      .holds "package.json" (.record .constant [("indent", .nat 3), ("log", .text "loud")]) :=
    entry_of_read? (by decide +kernel) (by decide +kernel) hread
  exact ⟨hx, (first_file_decides hx henv rfl .indent).1 _ _ _ hp, (first_file_decides hx henv rfl .trace).1 _ _ _ hp⟩

/-- A valid indentation in a file that is made for the configuration is hidden by the one in the project's file. -/
theorem project_file_hides :
    let s : Surroundings := { explorer := explore fun _ => none, files :=
      [("package.json", "\x7b\"pledge\":\x7b\"indent\":3\x7d\x7d"), (".pledgerc.json", "\x7b\"indent\":4\x7d")] }
    s.explorer.Orderly (entry fun _ => none) ∧
      entry (fun _ => none) s.files ".pledgerc.json" = .holds ".pledgerc.json" (.record .constant [("indent", .nat 4)]) ∧
      Key.indent.admits (.nat 4) = true ∧ (call s reset (.get .indent)).1 = .value (.nat 3) := by
  intro s
  have hproject : (Format.keyed "pledge").read? (fun _ => none) "\x7b\"pledge\":\x7b\"indent\":3\x7d\x7d" =
      some (.record .constant [("indent", .nat 3)]) := by
    unfold Format.read? Json.read?
    dsimp only [String.reduceToList]
    rfl
  have hown : Format.written.read? (fun _ => none) "\x7b\"indent\":4\x7d" =
      some (.record .constant [("indent", .nat 4)]) := by
    unfold Format.read? Json.read?
    dsimp only [String.reduceToList]
    rfl
  have hx : s.explorer.Orderly (entry fun _ => none) := orderly_explore _
  have hp : entry (fun _ => none) s.files "package.json" =
      .holds "package.json" (.record .constant [("indent", .nat 3)]) :=
    entry_of_read? (by decide +kernel) (by decide +kernel) hproject
  have hq : entry (fun _ => none) s.files ".pledgerc.json" =
      .holds ".pledgerc.json" (.record .constant [("indent", .nat 4)]) :=
    entry_of_read? (by decide +kernel) (by decide +kernel) hown
  refine ⟨hx, hq, rfl, (@get_of_file s (List.forall_mem_nil _) [] rfl .indent).trans ?_⟩
  rw [last?_of_project hx hp]
  rfl

end Config

end CommittedChoice
