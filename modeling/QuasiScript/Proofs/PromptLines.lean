import QuasiScript.Proofs.PromptUnits

/-!
# The lines of a unit

Each attempt at a prompt takes the next lines up to the first one with which their text is complete, so that attempts one
after the other take runs of lines one after the other (`readUnits_runs`). The text is kept without the number of its
lines: as long as it is empty, the prompt takes it that no line was typed. So lines at the beginning of a run that are
nothing but a backslash leave no trace, neither a line break in the text nor a change of the prompt (`gathered`). They do
not matter for where the run ends.
-/
namespace QuasiScript
open Dialect (standard)

namespace Prompt
open Reading (ofText)

/-! ## Runs of lines -/

/-- The text of some lines, each without the backslash that continues it. -/
def joined (lines : List String) : String := "\n".intercalate (lines.map content)

/-- The last of some lines can end a unit: it asks for no other line, and neither does the text. -/
def Completes (lines : List String) : Prop :=
  (∃ line ∈ lines.getLast?, continues line = false) ∧ (Text.trim (joined lines) = "" ∨ incomplete (joined lines) = false)

instance : DecidablePred Completes := fun _ => inferInstanceAs (Decidable (_ ∧ _))

/-- **A unit**: some lines of which the last one ends it, and no line before. -/
structure IsUnit (lines : List String) : Prop where
  completes : Completes lines
  first : ∀ before, before <+: lines → Completes before → before = lines

def isLone (line : String) : Bool := line == "\\"

/-- The lines from the first one on that is more than a backslash. -/
def gathered (lines : List String) : List String := lines.dropWhile isLone

theorem content_lone : content "\\" = "" := by decide

theorem continues_of_isLone {line : String} (h : isLone line = true) : continues line = true := by
  obtain rfl : line = "\\" := eq_of_beq h
  decide

/-! ## Line breaks in front -/

theorem trim_newline (s : String) : Text.trim ("\n" ++ s) = Text.trim s := by
  have hblank : Text.isBlank '\n' = true := by decide
  simp [Text.trim, hblank]

theorem innermost_relocate (π : Position → Position) (e : ReadError) :
    (e.relocate π).innermost.cause = e.innermost.cause := by
  simp only [ReadError.innermost, ReadError.relocate, List.getLastD_eq_getLast?, List.getLast?_map]
  cases e.inner.getLast? <;> rfl

theorem incomplete_newline (s : String) : incomplete ("\n" ++ s) = incomplete s := by
  have hempty : (ofText standard "".toList).error = none := error_of_blank rfl
  obtain ⟨p, -, happ⟩ := Reading.ofText_append_newline hempty
  have htext : ("\n" ++ s).toList = "".toList ++ '\n' :: s.toList := by simp
  simp only [incomplete, htext, happ, Reading.relocate]
  cases (ofText standard s.toList).error with
  | none => rfl
  | some e => simp [innermost_relocate]

theorem joined_lone {lines : List String} (h : lines ≠ []) : joined ("\\" :: lines) = "\n" ++ joined lines := by
  rw [joined, List.map_cons, String.intercalate_cons_of_ne_nil (by simpa using h), content_lone, String.empty_append]
  rfl

/-- Lone backslashes at the beginning matter neither for blanks nor for what is open. -/
theorem joined_gathered {lines : List String} (h : gathered lines ≠ []) :
    Text.trim (joined lines) = Text.trim (joined (gathered lines)) ∧
      incomplete (joined lines) = incomplete (joined (gathered lines)) := by
  induction lines with
  | nil => exact absurd rfl h
  | cons l lines ih =>
    unfold gathered at h ih ⊢
    by_cases hl : isLone l = true
    · rw [List.dropWhile_cons_of_pos hl] at h ⊢
      have hlines : lines ≠ [] := by
        rintro rfl
        exact h rfl
      obtain ⟨htrim, hinc⟩ := ih h
      obtain rfl : l = "\\" := eq_of_beq hl
      rw [joined_lone hlines, trim_newline, incomplete_newline, htrim, hinc]
      exact ⟨rfl, rfl⟩
    · rw [List.dropWhile_cons_of_neg hl]
      exact ⟨rfl, rfl⟩

/-! ## What the prompt has gathered -/

section Gathered
variable {before : List String} {line : String}

theorem gathered_ne_nil (hl : continues line = false) : gathered (before ++ [line]) ≠ [] := by
  intro h
  have hlone := List.dropWhile_eq_nil_iff.1 h line (by simp)
  rw [continues_of_isLone hlone] at hl
  cases hl

/-- A unit goes on after a line exactly if the line does not end it. -/
theorem goesOn_iff : goesOn line (joined (gathered (before ++ [line]))) = true ↔ ¬ Completes (before ++ [line]) := by
  cases hl : continues line with
  | true => simp [goesOn, Completes, hl]
  | false =>
    have hne : gathered (before ++ [line]) ≠ [] := gathered_ne_nil hl
    obtain ⟨htrim, hinc⟩ := joined_gathered hne
    simp [goesOn, Completes, hl, htrim, hinc]

theorem content_ne_empty (hlone : isLone line = false) (hne : line ≠ "") : content line ≠ "" := by
  unfold content
  split
  · rename_i hl
    intro hempty
    have hdrop : line.toList.dropLast = [] := by simpa [String.ofList_eq_empty_iff] using hempty
    have hlast : line.toList.getLast? = some '\\' := eq_of_beq hl
    obtain ⟨cs, hcs⟩ := List.getLast?_eq_some_iff.1 hlast
    rw [hcs, List.dropLast_concat] at hdrop
    subst hdrop
    have : line = "\\" := String.toList_inj.1 hcs
    rw [this] at hlone
    exact absurd hlone (by decide)
  · exact hne

/-- As long as no line ended the unit, the text is empty only if nothing was gathered. -/
theorem joined_gathered_eq_empty_iff (h : ∀ p, p <+: before → ¬ Completes p) :
    joined (gathered before) = "" ↔ gathered before = [] := by
  refine ⟨fun hempty => ?_, fun hnil => by rw [hnil]; rfl⟩
  by_contra hne
  obtain ⟨l, rest, hgathered⟩ := List.exists_cons_of_ne_nil hne
  have hlone : isLone l = false := by
    have := List.head?_dropWhile_not isLone before
    rwa [show before.dropWhile isLone = l :: rest from hgathered] at this
  rw [hgathered, joined, List.map_cons] at hempty
  by_cases hrest : rest = []
  · -- an empty line would have ended the unit
    subst hrest
    rw [List.map_nil, String.intercalate_singleton] at hempty
    obtain rfl : l = "" := by
      by_contra hl
      exact content_ne_empty hlone hl hempty
    refine h before List.prefix_rfl ⟨⟨"", ?_, by decide⟩, .inl ?_⟩
    · have hsplit := List.takeWhile_append_dropWhile (p := isLone) (l := before)
      rw [show before.dropWhile isLone = [""] from hgathered] at hsplit
      rw [← hsplit]
      simp
    · rw [(joined_gathered hne).1, hgathered]
      rfl
  · rw [String.intercalate_cons_of_ne_nil (by simpa using hrest)] at hempty
    simp at hempty

theorem extend_gathered (h : ∀ p, p <+: before → ¬ Completes p) :
    extend (joined (gathered before)) line = joined (gathered (before ++ [line])) := by
  have happ : gathered (before ++ [line]) =
      if (gathered before).isEmpty then gathered [line] else gathered before ++ [line] := List.dropWhile_append
  unfold extend
  by_cases hnil : gathered before = []
  · rw [if_pos ((joined_gathered_eq_empty_iff h).2 hnil), happ, hnil]
    by_cases hl : isLone line = true
    · obtain rfl : line = "\\" := eq_of_beq hl
      exact content_lone
    · simp [gathered, hl, joined]
  · rw [if_neg (mt (joined_gathered_eq_empty_iff h).1 hnil), happ, if_neg (by simpa using hnil), joined, joined,
      List.map_append, String.intercalate_append_of_ne_nil (by simpa using hnil) (by simp)]
    simp

/-! ## The prompts for some lines -/

def promptsFor (lines : List String) : List String :=
  let begun := (lines.takeWhile isLone).length + 1
  List.replicate begun first ++ List.replicate (lines.length - begun) further

def promptsAfter (before lines : List String) : List String :=
  if gathered before = [] then promptsFor lines else List.replicate lines.length further

theorem promptsAfter_cons (before : List String) (line : String) (lines : List String) :
    promptsAfter before (line :: lines) =
      (if gathered before = [] then first else further) :: promptsAfter (before ++ [line]) lines := by
  have happ : gathered (before ++ [line]) =
      if (gathered before).isEmpty then gathered [line] else gathered before ++ [line] := List.dropWhile_append
  unfold promptsAfter
  rw [happ]
  by_cases hnil : gathered before = []
  · rw [hnil]
    by_cases hl : isLone line = true
    · simp [gathered, promptsFor, hl, List.replicate_succ]
    · simp [gathered, promptsFor, hl]
  · simp [hnil, List.replicate_succ]

/-! ## One attempt -/

/-- **An attempt takes a unit off the lines**, or there is none and it takes them all. -/
theorem readUnitAfter_gathered (lines : List String) : ∀ before : List String, (∀ p, p <+: before → ¬ Completes p) →
    (∃ taken rest, lines = taken ++ rest ∧ IsUnit (before ++ taken) ∧
      readUnitAfter (joined (gathered before)) (lines.map .line) =
        ⟨some (joined (gathered (before ++ taken))), promptsAfter before taken, rest.map .line⟩) ∨
    (∀ p, p <+: before ++ lines → ¬ Completes p) ∧
      (readUnitAfter (joined (gathered before)) (lines.map .line)).unit = none := by
  induction lines with
  | nil => exact fun before h => .inr ⟨by simpa using h, rfl⟩
  | cons l lines ih =>
    intro before h
    have hprompt : promptAfter (joined (gathered before)) = if gathered before = [] then first else further := by
      simp only [promptAfter, joined_gathered_eq_empty_iff h]
    rw [List.map_cons, readUnitAfter, extend_gathered h, hprompt]
    by_cases hgo : goesOn l (joined (gathered (before ++ [l]))) = true
    · have h' : ∀ p, p <+: before ++ [l] → ¬ Completes p := by
        intro p hp
        rcases List.prefix_concat_iff.1 hp with rfl | hp
        · exact goesOn_iff.1 hgo
        · exact h p hp
      rw [if_pos hgo]
      rcases ih (before ++ [l]) h' with ⟨taken, rest, rfl, hunit, hread⟩ | ⟨hnone, hread⟩
      · refine .inl ⟨l :: taken, rest, rfl, by simpa using hunit, ?_⟩
        rw [hread, promptsAfter_cons, List.append_assoc]
        rfl
      · exact .inr ⟨by simpa using hnone, hread⟩
    · have hcompletes : Completes (before ++ [l]) := by
        by_contra hnot
        exact hgo (goesOn_iff.2 hnot)
      rw [if_neg hgo]
      refine .inl ⟨[l], lines, rfl, ⟨hcompletes, fun p hp hp' => ?_⟩, ?_⟩
      · rcases List.prefix_concat_iff.1 hp with rfl | hp
        · rfl
        · exact absurd hp' (h p hp)
      · obtain ⟨⟨line, hline, hl⟩, -⟩ := hcompletes
        obtain rfl : l = line := by simpa using hline
        rw [promptsAfter_cons, promptsAfter, if_neg (gathered_ne_nil hl)]
        rfl

end Gathered

/-! ## What lone backslashes change -/

theorem gathered_of_head? {run : List String} (h : run.head? ≠ some "\\") : gathered run = run := by
  cases run with
  | nil => rfl
  | cons l run =>
    have hl : ¬ isLone l = true := fun hl => h (by rw [List.head?_cons, eq_of_beq hl])
    exact List.dropWhile_cons_of_neg hl

/-- Every lone backslash at the beginning is a line break less. -/
theorem length_joined {lines : List String} (h : gathered lines ≠ []) :
    (joined lines).length = (lines.takeWhile isLone).length + (joined (gathered lines)).length := by
  induction lines with
  | nil => exact absurd rfl h
  | cons l lines ih =>
    unfold gathered at h ih ⊢
    by_cases hl : isLone l = true
    · rw [List.dropWhile_cons_of_pos hl] at h ⊢
      have hlines : lines ≠ [] := by
        rintro rfl
        exact h rfl
      obtain rfl : l = "\\" := eq_of_beq hl
      rw [joined_lone hlines, String.length_append, ih h, List.takeWhile_cons_of_pos hl, List.length_cons]
      have hbreak : "\n".length = 1 := by decide
      omega
    · simp [hl]

section Lone
variable {run : List String}

theorem IsUnit.gathered_ne_nil (h : IsUnit run) : gathered run ≠ [] := by
  obtain ⟨⟨line, hline, hl⟩, -⟩ := h.completes
  obtain ⟨before, rfl⟩ := List.getLast?_eq_some_iff.1 hline
  exact Prompt.gathered_ne_nil hl

theorem joined_gathered_eq_iff (h : IsUnit run) : joined (gathered run) = joined run ↔ run.head? ≠ some "\\" := by
  refine ⟨fun heq hhead => ?_, fun hhead => by rw [gathered_of_head? hhead]⟩
  obtain ⟨rest, rfl⟩ := List.head?_eq_some_iff.1 hhead
  have hlength := length_joined h.gathered_ne_nil
  rw [heq, List.takeWhile_cons_of_pos (by decide), List.length_cons] at hlength
  omega

theorem promptsFor_eq_iff (h : IsUnit run) :
    promptsFor run = first :: List.replicate (run.length - 1) further ↔ run.head? ≠ some "\\" := by
  constructor
  · intro heq hhead
    obtain ⟨rest, rfl⟩ := List.head?_eq_some_iff.1 hhead
    have hlone : isLone "\\" = true := by decide
    simp only [promptsFor, List.takeWhile_cons_of_pos hlone, List.length_cons, List.replicate_succ, List.cons_append,
      List.cons.injEq, true_and, Nat.add_sub_cancel] at heq
    -- the second prompt is the first one again
    have hmem : first ∈ List.replicate rest.length further := by
      rw [← heq]
      exact List.mem_cons_self
    exact absurd (List.eq_of_mem_replicate hmem) (by decide)
  · intro hhead
    have hlone : run.takeWhile isLone = [] := by
      have := List.takeWhile_append_dropWhile (p := isLone) (l := run)
      rw [show run.dropWhile isLone = run from gathered_of_head? hhead] at this
      simpa using this
    simp [promptsFor, hlone]

end Lone

/-! ## All attempts -/

/-- **Units are the lines typed.** The attempts at a prompt take runs of lines one after the other, each up to the first
line that ends a unit, until no line that is left does. The text of a unit is that of its lines, and the prompt for a new
unit was shown once, unless the first of its lines is nothing but a backslash: the lines up to the first one with more in
it are not in the text, and that prompt was shown after each of them again. -/
theorem readUnits_runs (lines : List String) :
    ∃ (runs : List (List String)) (left : List String), lines = runs.flatten ++ left ∧
      (readUnits (lines.map .line)).length = runs.length + 1 ∧
      (∀ (i : Nat) (run : List String), runs[i]? = some run → run ≠ [] ∧ IsUnit run ∧
        (readUnits (lines.map .line))[i]? =
          some ⟨some (joined (gathered run)), promptsFor run, ((runs.drop (i + 1)).flatten ++ left).map .line⟩ ∧
        (joined (gathered run) = joined run ↔ run.head? ≠ some "\\") ∧
        (promptsFor run = first :: List.replicate (run.length - 1) further ↔ run.head? ≠ some "\\")) ∧
      (∀ before, before <+: left → ¬ Completes before) ∧
      ((readUnits (lines.map .line))[runs.length]?.map Attempt.unit) = some none := by
  induction hn : lines.length using Nat.strong_induction_on generalizing lines with
  | _ n ih =>
    have hnil : ∀ p : List String, p <+: [] → ¬ Completes p := by
      intro p hp
      rw [List.prefix_nil.1 hp]
      decide
    rcases readUnitAfter_gathered lines [] hnil with ⟨run, rest, rfl, hunit, hread⟩ | ⟨hnone, hread⟩
    · replace hread : readUnit ((run ++ rest).map .line) = ⟨some (joined (gathered run)), promptsFor run, rest.map .line⟩ :=
        hread
      have hne : run ≠ [] := by
        rintro rfl
        exact hnil [] List.prefix_rfl hunit.completes
      have hshort : rest.length < n := by
        have := List.length_pos_iff.2 hne
        rw [List.length_append] at hn
        omega
      obtain ⟨runs, left, rfl, hlength, hruns, hleft, hlast⟩ := ih _ hshort rest rfl
      have hunits := readUnits_of_unit (by rw [hread])
      rw [hread] at hunits
      refine ⟨run :: runs, left, by simp, ?_, ?_, hleft, ?_⟩
      · rw [hunits, List.length_cons, hlength, List.length_cons]
      · rintro (_ | i) run' hrun'
        · cases hrun'
          refine ⟨hne, hunit, ?_, joined_gathered_eq_iff hunit, promptsFor_eq_iff hunit⟩
          rw [hunits]
          rfl
        · rw [hunits]
          exact hruns i run' hrun'
      · rw [hunits]
        exact hlast
    · replace hread : (readUnit (lines.map .line)).unit = none := hread
      have hunits : readUnits (lines.map .line) = [readUnit (lines.map .line)] := by
        rw [readUnits]
        exact if_neg (by simp [hread])
      refine ⟨[], lines, rfl, by rw [hunits]; rfl, by simp, hnone, ?_⟩
      rw [hunits]
      exact congrArg some hread

/-- After a lone backslash the first prompt is shown again, and there is no line break in the text. -/
theorem readUnit_loses_line :
    readUnit [.line "\\", .line "1"] = ⟨some "1", ["qs> ", "qs> "], []⟩ ∧ joined ["\\", "1"] = "\n1" := by
  have hlone : extend "" "\\" = "" ∧ goesOn "\\" "" = true := ⟨by decide, by decide⟩
  have hone : extend "" "1" = "1" ∧ goesOn "1" "1" = false := ⟨by decide, by cbv⟩
  refine ⟨?_, by decide⟩
  simp [readUnit, readUnitAfter, hlone, hone, promptAfter, first]

end Prompt
end QuasiScript
