import CommittedChoice.Proofs.Sequences
import Mathlib.Algebra.GroupWithZero.Nat
import Mathlib.Data.List.TakeDrop

/-!
# Reports of choices

A report of a labelled choice lists the labels, and below each label the lines of its message, which are indented twice.
A report that has at least one column of indentation says which labels and messages it was made of, whatever the messages
are: lines that look like labels, empty ones, or reports of choices themselves.

- `Message.splitOn_indentText`: an indented text has the same lines, each of them moved;
- `Message.reported`, `Message.splitOn_choiceText`: the lines of a report;
- `Message.listing_injective`: labels do not start with blanks and moved lines do, so the lines of a report can be told
  apart;
- `Message.choiceReport_eq`: a report is given unless it is longer than texts can be;
- `Message.report_unambiguous`: what a report says, and of what it was made.
-/

namespace CommittedChoice

/-! ## Sizes -/

namespace Text

theorem units_eq_sum (s : String) : units s = (s.toList.map unitsOf).sum := by
  rw [units_eq, List.sum_eq_foldl, List.foldl_map]

theorem breaks_eq_count (s : String) : breaks s = s.toList.count '\n' := by
  have hfold : ∀ (cs : List Char) (n : Nat),
      cs.foldl (fun n c => if c = '\n' then n + 1 else n) n = n + cs.count '\n' := by
    intro cs
    induction cs with
    | nil => exact fun n => rfl
    | cons c cs ih =>
      intro n
      rw [List.foldl_cons, ih, List.count_cons]
      simp only [beq_iff_eq]
      split <;> omega
  rw [breaks_eq, hfold, Nat.zero_add]

@[simp] theorem units_append (s t : String) : units (s ++ t) = units s + units t := by
  rw [units_eq_sum, units_eq_sum, units_eq_sum, String.toList_append, List.map_append, List.sum_append]

@[simp] theorem breaks_append (s t : String) : breaks (s ++ t) = breaks s + breaks t := by
  rw [breaks_eq_count, breaks_eq_count, breaks_eq_count, String.toList_append, List.count_append]

/-- Parts with a line break between any two of them. -/
theorem sum_units_intercalate {ls : List (List Char)} (h : ls ≠ []) :
    ((['\n'].intercalate ls).map unitsOf).sum + 1 = (ls.map fun l => (l.map unitsOf).sum + 1).sum := by
  induction ls with
  | nil => exact absurd rfl h
  | cons l ls ih =>
    by_cases hls : ls = []
    · subst hls
      rw [List.intercalate_singleton]
      rfl
    · have hbreak : unitsOf '\n' = 1 := rfl
      rw [List.intercalate_cons_of_ne_nil hls]
      simp only [List.map_append, List.sum_append, List.map_cons, List.sum_cons, List.map_nil, List.sum_nil, ← ih hls, hbreak]
      omega

end Text

namespace Message

/-! ## Lines -/

/-- A line moved right. -/
def moved (width : Nat) (l : List Char) : List Char := List.replicate width ' ' ++ l

theorem moved_injective (width : Nat) : Function.Injective (moved width) := fun _ _ => List.append_cancel_left

theorem moved_moved (m n : Nat) (l : List Char) : moved m (moved n l) = moved (m + n) l := by
  rw [moved, moved, moved, ← List.replicate_append_replicate, List.append_assoc]

theorem toList_blanks (width : Nat) : (blanks width).toList = List.replicate width ' ' := by
  rw [blanks, String.pushn_eq_repeat_push]
  induction width with
  | zero => rfl
  | succ n ih => rw [Nat.repeat, String.toList_push, ih, List.replicate_succ']

/-- The lines of a text are what stands between its line breaks. -/
theorem lines_eq_splitOn (cs : List Char) : lines cs = cs.splitOn '\n' := by
  induction cs with
  | nil => rfl
  | cons c cs ih =>
    rw [lines, ih, List.splitOn_cons_eq_if_modifyHead]
    by_cases hc : c = '\n'
    · rw [if_pos hc, if_pos (beq_iff_eq.2 hc)]
    · rw [if_neg hc, if_neg (mt beq_iff_eq.1 hc)]
      cases h : cs.splitOn '\n' with
      | nil => exact absurd h (List.splitOn_ne_nil _ _)
      | cons l ls => rfl

/-- There is one line more than there are line breaks, and no line has one. -/
theorem length_splitOn (cs : List Char) : (cs.splitOn '\n').length = cs.count '\n' + 1 := by
  induction cs with
  | nil => rfl
  | cons c cs ih =>
    rw [List.splitOn_cons_eq_if_modifyHead, List.count_cons]
    split
    · rw [List.length_cons, ih]
    · rw [List.length_modifyHead, ih, Nat.add_zero]

theorem notMem_of_mem_splitOn {cs l : List Char} (hl : l ∈ cs.splitOn '\n') : '\n' ∉ l := by
  induction cs generalizing l with
  | nil =>
    rw [List.splitOn_nil, List.mem_singleton] at hl
    exact hl ▸ List.not_mem_nil
  | cons c cs ih =>
    rw [List.splitOn_cons_eq_if_modifyHead] at hl
    split at hl
    · rcases List.mem_cons.1 hl with rfl | hl
      · exact List.not_mem_nil
      · exact ih hl
    · rename_i hc
      cases h : cs.splitOn '\n' with
      | nil => exact absurd h (List.splitOn_ne_nil _ _)
      | cons k ks =>
        rw [h] at ih hl
        rcases List.mem_cons.1 hl with rfl | hl
        · rw [List.mem_cons, not_or]
          exact ⟨fun hc' => hc (beq_iff_eq.2 hc'.symm), ih List.mem_cons_self⟩
        · exact ih (List.mem_cons_of_mem k hl)

variable (width : Nat)

theorem toList_indentText (s : String) :
    (indentText width s).toList = ['\n'].intercalate ((s.toList.splitOn '\n').map (moved width)) := by
  rw [indentText, String.toList_intercalate, List.map_map, lines_eq_splitOn]
  congr 1
  refine List.map_congr_left fun l _ => ?_
  rw [Function.comp, String.toList_append, toList_blanks, String.toList_ofList, moved]

/-- **An indented text has the same lines, each of them moved.** -/
theorem splitOn_indentText (s : String) :
    (indentText width s).toList.splitOn '\n' = (s.toList.splitOn '\n').map (moved width) := by
  rw [toList_indentText, List.splitOn_intercalate]
  · intro l hl
    obtain ⟨k, hk, rfl⟩ := List.mem_map.1 hl
    rw [moved, List.mem_append, List.mem_replicate, not_or]
    exact ⟨fun h => absurd h.2 (by decide), notMem_of_mem_splitOn hk⟩
  · rw [Ne, List.map_eq_nil_iff]
    exact List.splitOn_ne_nil _ _

/-- A headline is a line of its own. -/
theorem splitOn_underText {headline : String} (h : '\n' ∉ headline.toList) (message : String) :
    (underText headline width message).toList.splitOn '\n' =
      (headline.toList ++ [':']) :: (message.toList.splitOn '\n').map (moved width) := by
  have hline : '\n' ∉ headline.toList ++ [':'] := by
    rw [List.mem_append, not_or]
    exact ⟨h, by decide⟩
  have htext : (underText headline width message).toList =
      (headline.toList ++ [':']) ++ '\n' :: (indentText width message).toList := by
    rw [underText, String.toList_append, String.toList_append, List.append_assoc, List.append_assoc]
    rfl
  rw [htext, List.splitOn_append_cons_self_of_not_mem hline, splitOn_indentText]

/-! ## The lines of a report -/

/-- A text that stands on one line and does not start with a blank. -/
structure Unmoved (label : String) : Prop where
  oneLine : '\n' ∉ label.toList
  noBlank : label.toList.head? ≠ some ' '

/-- The lines that list failures: each label with a colon, and below it the lines of its message, moved once. -/
def listing (failures : List (String × String)) : List (List Char) :=
  failures.flatMap fun f => (f.1.toList ++ [':']) :: (f.2.toList.splitOn '\n').map (moved width)

/-- The lines of a report below its first one: each label with a colon, moved once, and below it the lines of its message,
moved twice. -/
def reported (failures : List (String × String)) : List (List Char) :=
  failures.flatMap fun f => moved width (f.1.toList ++ [':']) :: (f.2.toList.splitOn '\n').map (moved (2 * width))

theorem map_moved_listing (failures : List (String × String)) :
    (listing width failures).map (moved width) = reported width failures := by
  rw [listing, List.map_flatMap, reported]
  congr 1
  funext f
  rw [List.map_cons, List.map_map]
  congr 2
  funext l
  rw [Function.comp, moved_moved, Nat.two_mul]

variable {width} {failures : List (String × String)}

theorem splitOn_listedText (hfailures : failures ≠ []) (hlabels : ∀ f ∈ failures, '\n' ∉ f.1.toList) :
    (listedText width failures).toList.splitOn '\n' = listing width failures := by
  induction failures with
  | nil => exact absurd rfl hfailures
  | cons f fs ih =>
    obtain ⟨hlabel, hlabels⟩ := List.forall_mem_cons.1 hlabels
    have hf := splitOn_underText width hlabel f.2
    rw [listing, List.flatMap_cons, ← listing, listedText, List.map_cons]
    by_cases hfs : fs = []
    · rw [hfs, List.map_nil, String.intercalate_singleton, hf]
      exact (List.append_nil _).symm
    · rw [String.intercalate_cons_of_ne_nil (by rwa [Ne, List.map_eq_nil_iff]), ← listedText, ← ih hfs hlabels, ← hf,
        ← List.splitOn_append_cons_self, String.toList_append, String.toList_append, List.append_assoc]
      rfl

/-- **The lines of a report.** -/
theorem splitOn_choiceText (hfailures : failures ≠ []) (hlabels : ∀ f ∈ failures, '\n' ∉ f.1.toList) :
    (choiceText width failures).toList.splitOn '\n' = (nothingMatched.toList ++ [':']) :: reported width failures := by
  rw [choiceText, splitOn_underText width (by decide +kernel), splitOn_listedText hfailures hlabels, map_moved_listing]

/-! ## Telling lines apart -/

/-- Whether a line starts with a blank. -/
def startsBlank (l : List Char) : Bool := l.head? == some ' '

theorem startsBlank_moved (hwidth : 1 ≤ width) (l : List Char) : startsBlank (moved width l) = true := by
  obtain ⟨n, rfl⟩ := Nat.exists_eq_add_of_le' hwidth
  rfl

theorem startsBlank_label {label : String} (h : Unmoved label) : startsBlank (label.toList ++ [':']) = false := by
  have hlabel := h.noBlank
  unfold startsBlank
  cases hl : label.toList with
  | nil => rfl
  | cons c cs =>
    rw [hl] at hlabel
    exact beq_eq_false_iff_ne.2 hlabel

/-- The lines of a message end where the next label stands. -/
theorem span_listing (hwidth : 1 ≤ width) (hlabels : ∀ f ∈ failures, Unmoved f.1) (ls : List (List Char)) :
    (ls.map (moved width) ++ listing width failures).span startsBlank = (ls.map (moved width), listing width failures) := by
  have hmoved : ∀ l ∈ ls.map (moved width), startsBlank l = true := by
    intro l hl
    obtain ⟨k, -, rfl⟩ := List.mem_map.1 hl
    exact startsBlank_moved hwidth k
  rw [List.span_eq_takeWhile_dropWhile, List.takeWhile_append_of_pos hmoved, List.dropWhile_append_of_pos hmoved]
  cases failures with
  | nil => rw [listing, List.flatMap_nil, List.takeWhile_nil, List.dropWhile_nil, List.append_nil]
  | cons f fs =>
    have hlabel := startsBlank_label (hlabels f List.mem_cons_self)
    have hneg : ¬ startsBlank (f.1.toList ++ [':']) = true := by rw [hlabel]; exact Bool.false_ne_true
    rw [listing, List.flatMap_cons, List.cons_append, List.takeWhile_cons_of_neg hneg, List.dropWhile_cons_of_neg hneg,
      List.append_nil]

/-- **Failures are listed in one way.** -/
theorem listing_injective (hwidth : 1 ≤ width) {fs gs : List (String × String)} (hfs : ∀ f ∈ fs, Unmoved f.1)
    (hgs : ∀ g ∈ gs, Unmoved g.1) (h : listing width fs = listing width gs) : fs = gs := by
  induction fs generalizing gs with
  | nil =>
    cases gs with
    | nil => rfl
    | cons g gs => cases h
  | cons f fs ih =>
    cases gs with
    | nil => cases h
    | cons g gs =>
      obtain ⟨-, hfs⟩ := List.forall_mem_cons.1 hfs
      obtain ⟨-, hgs⟩ := List.forall_mem_cons.1 hgs
      obtain ⟨hlabel, hrest⟩ := List.cons.inj h
      have hspan := congrArg (List.span startsBlank) hrest
      change (_ ++ listing width fs).span _ = (_ ++ listing width gs).span _ at hspan
      rw [span_listing hwidth hfs, span_listing hwidth hgs] at hspan
      obtain ⟨hmessage, hlisting⟩ := Prod.mk.inj hspan
      have hmessage := (List.map_inj_right (moved_injective width)).1 hmessage
      have hlabel : f.1 = g.1 := String.toList_inj.1 (List.append_cancel_right hlabel)
      have hmessage : f.2 = g.2 := by
        have hjoined := congrArg ['\n'].intercalate hmessage
        rwa [List.intercalate_splitOn, List.intercalate_splitOn, String.toList_inj] at hjoined
      rw [ih hfs hgs hlisting, Prod.ext hlabel hmessage]

/-! ## When a report is given -/

theorem units_indentText (s : String) :
    Text.units (indentText width s) = indentUnits width (Text.breaks s) (Text.units s) := by
  have hne := List.splitOn_ne_nil '\n' s.toList
  have hne' : (s.toList.splitOn '\n').map (moved width) ≠ [] := by rwa [Ne, List.map_eq_nil_iff]
  have hwhole := Text.sum_units_intercalate hne
  have hmoved := Text.sum_units_intercalate hne'
  have hsum : ∀ ls : List (List Char), ((ls.map (moved width)).map fun l => (l.map Text.unitsOf).sum + 1).sum =
      ls.length * width + (ls.map fun l => (l.map Text.unitsOf).sum + 1).sum := by
    intro ls
    induction ls with
    | nil => rw [List.length_nil, Nat.zero_mul]; rfl
    | cons l ls ih =>
      have hl : ((moved width l).map Text.unitsOf).sum = width + (l.map Text.unitsOf).sum := by
        rw [moved, List.map_append, List.map_replicate, List.sum_append, List.sum_replicate_nat,
          show Text.unitsOf ' ' = 1 from rfl, Nat.mul_one]
      rw [List.map_cons, List.map_cons, List.map_cons, List.sum_cons, List.sum_cons, ih, hl, List.length_cons,
        Nat.succ_mul]
      omega
  rw [hsum, length_splitOn, ← hwhole, List.intercalate_splitOn, ← toList_indentText] at hmoved
  rw [indentUnits, Text.units_eq_sum, Text.units_eq_sum, Text.breaks_eq_count]
  omega

theorem breaks_indentText (s : String) : Text.breaks (indentText width s) = Text.breaks s := by
  have hlength := congrArg List.length (splitOn_indentText width s)
  rw [List.length_map, length_splitOn, length_splitOn] at hlength
  rw [Text.breaks_eq_count, Text.breaks_eq_count]
  omega

theorem units_underText (headline message : String) :
    Text.units (underText headline width message) = underUnits headline width message := by
  have hcolon : Text.units ":\n" = 2 := (Text.units_eq _).trans (by decide +kernel)
  rw [underText, Text.units_append, Text.units_append, units_indentText, underUnits, hcolon]

theorem breaks_underText (headline message : String) :
    Text.breaks (underText headline width message) = Text.breaks headline + 1 + Text.breaks message := by
  have hcolon : Text.breaks ":\n" = 1 := (Text.breaks_eq _).trans (by decide +kernel)
  rw [underText, Text.breaks_append, Text.breaks_append, breaks_indentText, hcolon]

/-- The size that is worked out before a report is made is the one it has. -/
theorem listedSize_eq (h : failures ≠ []) :
    listedSize width failures = (Text.breaks (listedText width failures), Text.units (listedText width failures)) := by
  induction failures with
  | nil => exact absurd rfl h
  | cons f fs ih =>
    by_cases hfs : fs = []
    · subst hfs
      rw [listedSize, listedText, List.map_singleton, String.intercalate_singleton, breaks_underText, units_underText]
    · have htext : listedText width (f :: fs) = underText f.1 width f.2 ++ "\n" ++ listedText width fs :=
        String.intercalate_cons_of_ne_nil (by rwa [Ne, List.map_eq_nil_iff])
      have hunits : Text.units "\n" = 1 := (Text.units_eq _).trans (by decide +kernel)
      have hbreaks : Text.breaks "\n" = 1 := (Text.breaks_eq _).trans (by decide +kernel)
      rw [listedSize, htext, Text.breaks_append, Text.breaks_append, Text.units_append, Text.units_append,
        breaks_underText, units_underText, hunits, hbreaks]
      · simp only [ih hfs]
      · exact fun h => absurd h hfs

/-- **A report is given unless it is longer than texts can be.** -/
theorem choiceReport_eq (h : failures ≠ []) : choiceReport width failures =
    if Text.units (choiceText width failures) ≤ Text.longest then .ok (choiceText width failures) else .error .tooLong := by
  have hempty : ¬ failures.isEmpty = true := fun hempty => h (List.isEmpty_iff.1 hempty)
  rw [choiceReport, if_neg hempty, choiceText, units_underText, underUnits]
  simp only [listedSize_eq h]
  rfl

/-! ## What a report says -/

/-- **A report is unambiguous.** Below its first line a report has, for each failure in order, its label with a colon, one
indentation to the right, and directly below it the lines of its message, two indentations to the right, and nothing else.
With at least one column of indentation, and labels that stand on one line and do not start with a blank, no other failures
have the same report. There is a report unless it is longer than texts can be. -/
theorem report_unambiguous {width : Nat} (hwidth : 1 ≤ width) {fs gs : List (String × String)} (hfs : fs ≠ [])
    (hgs : gs ≠ []) (hf : ∀ f ∈ fs, Unmoved f.1) (hg : ∀ g ∈ gs, Unmoved g.1) :
    (∀ m, choiceReport width fs = .ok m → choiceReport width gs = .ok m → fs = gs) ∧
      (∀ m, choiceReport width fs = .ok m →
        m.toList.splitOn '\n' = (nothingMatched.toList ++ [':']) :: reported width fs) ∧
      ((∃ m, choiceReport width fs = .ok m) ↔ Text.units (choiceText width fs) ≤ Text.longest) := by
  have htext : ∀ {failures m}, failures ≠ [] → choiceReport width failures = .ok m → m = choiceText width failures := by
    intro failures m hne hm
    rw [choiceReport_eq hne] at hm
    split at hm
    · exact (Except.ok.inj hm).symm
    · cases hm
  have hlines : ∀ {failures m}, failures ≠ [] → (∀ f ∈ failures, Unmoved f.1) → choiceReport width failures = .ok m →
      m.toList.splitOn '\n' = (nothingMatched.toList ++ [':']) :: reported width failures := by
    intro failures m hne hlabels hm
    rw [htext hne hm, splitOn_choiceText hne fun f hf => (hlabels f hf).oneLine]
  refine ⟨fun m hmf hmg => ?_, fun m => hlines hfs hf, ?_⟩
  · have hreported : reported width fs = reported width gs :=
      (List.cons.inj ((hlines hfs hf hmf).symm.trans (hlines hgs hg hmg))).2
    rw [← map_moved_listing, ← map_moved_listing, List.map_inj_right (moved_injective width)] at hreported
    exact listing_injective hwidth hf hg hreported
  · rw [choiceReport_eq hfs]
    split
    · exact iff_of_true ⟨_, rfl⟩ ‹_›
    · exact iff_of_false (fun ⟨_, h⟩ => nomatch h) ‹_›

/-- A message that has the line of a label, and a label with that name. -/
theorem report_unambiguous_lookalike :
    (∃ m, choiceReport 2 [("a", "x\nb:\n  y")] = .ok m) ∧
      ∀ m, choiceReport 2 [("a", "x\nb:\n  y")] = .ok m → choiceReport 2 [("a", "x"), ("b", "y")] ≠ .ok m := by
  have ha : Unmoved "a" := ⟨by decide +kernel, by decide +kernel⟩
  have hb : Unmoved "b" := ⟨by decide +kernel, by decide +kernel⟩
  have hone : ∀ f ∈ [("a", "x\nb:\n  y")], Unmoved f.1 := by simpa using ha
  have htwo : ∀ g ∈ [("a", "x"), ("b", "y")], Unmoved g.1 := by simpa using ⟨ha, hb⟩
  obtain ⟨hsame, -, hgiven⟩ := report_unambiguous (show 1 ≤ 2 by decide) (List.cons_ne_nil _ _) (List.cons_ne_nil _ _)
    hone htwo
  refine ⟨hgiven.2 ?_, fun m hm hm' => absurd (hsame m hm hm') (by decide +kernel)⟩
  rw [Text.units_eq]
  decide +kernel

end Message

end CommittedChoice
