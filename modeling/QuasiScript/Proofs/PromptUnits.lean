import QuasiScript.Proofs.Continuation
import QuasiScript.Proofs.Incremental

/-!
# A program typed line by line

The prompt cuts the lines of a program into units: it ends a unit at the first line with which the text is complete. If
all lines together read without error, then no cut is wrong. An error that further lines do not repair cannot occur
before the last line (`error_or_incomplete_of_append`), so the text at a cut reads without error; and then what is left
reads without error by itself, because texts compose at a newline. So every unit is one (`readUnitAfter_lines`), and
together they are read as the program (`readUnits_lines`).
-/
namespace QuasiScript
open Dialect (standard)

/-! ## Blank texts -/

namespace Cursor

def IsPlain (c : Char) : Prop := isAtomChar standard c = true ∨ standard.isWhitespace c = true

theorem stops_dropWhile {cs : List Char} (h : ∀ c ∈ cs, IsPlain c) : Stops (cs.dropWhile (isAtomChar standard)) := by
  intro c hc
  have hnot := List.head?_dropWhile_not (isAtomChar standard) cs
  rw [hc] at hnot
  have hnot : isAtomChar standard c = false := hnot
  have hmem : c ∈ cs := (List.dropWhile_suffix _).subset (List.mem_of_mem_head? hc)
  rcases h c hmem with hatom | hwhite
  · rw [hatom] at hnot
    cases hnot
  · simp [endsAtom, hwhite]

theorem scan_of_isPlain (n : Nat) : ∀ (cs : List Char) (p : Position), cs.length ≤ n → (∀ c ∈ cs, IsPlain c) →
    ∃ ts q, (Cursor.mk cs p).scan standard = ⟨ts, .finished q⟩ ∧ ∀ t ∈ ts, t.kind = .atom := by
  induction n with
  | zero =>
    intro cs p hlen _
    obtain rfl : cs = [] := List.length_eq_zero_iff.1 (Nat.le_zero.1 hlen)
    exact ⟨[], _, scan_of_atEnd rfl, by simp⟩
  | succ n ih =>
    intro cs p hlen hplain
    cases cs with
    | nil => exact ⟨[], _, scan_of_atEnd rfl, by simp⟩
    | cons c cs =>
      rcases hplain c (by simp) with hatom | hwhite
      · have hsplit := List.takeWhile_append_dropWhile (p := isAtomChar standard) (l := c :: cs)
        have hne : (c :: cs).takeWhile (isAtomChar standard) ≠ [] := by simp [hatom]
        have hscan := scan_atom hne (fun b hb => List.mem_takeWhile_imp hb) (stops_dropWhile hplain) p
        have hshort : ((c :: cs).dropWhile (isAtomChar standard)).length ≤ n := by
          have := length_dropWhile_le (isAtomChar standard) cs
          rw [List.dropWhile_cons_of_pos hatom]
          simp only [List.length_cons] at hlen
          omega
        obtain ⟨ts, q, hrest, hts⟩ := ih _ (p.after ((c :: cs).takeWhile (isAtomChar standard))) hshort
          fun b hb => hplain b ((List.dropWhile_suffix _).subset hb)
        rw [hsplit, hrest] at hscan
        refine ⟨_, q, hscan, List.forall_mem_cons.2 ⟨rfl, hts⟩⟩
      · simp only [List.length_cons] at hlen
        obtain ⟨ts, q, hrest, hts⟩ := ih cs (p.step c) (by omega) fun b hb => hplain b (by simp [hb])
        exact ⟨ts, q, (scan_whitespace standard_solid hwhite cs p).trans hrest, hts⟩

end Cursor

theorem Reader.advance_atoms : ∀ (ts : List Token) (finished : List Node), (∀ t ∈ ts, t.kind = .atom) →
    ∃ finished', advance standard ⟨finished, [], none⟩ ts = .ok ⟨finished', [], none⟩
  | [], finished, _ => ⟨finished, rfl⟩
  | t :: ts, finished, h => by
    obtain ⟨ht, hts⟩ := List.forall_mem_cons.1 h
    have hstep : step standard ⟨finished, [], none⟩ t =
        .ok ⟨.leaf (standard.atomValue t.lexeme) t :: finished, [], none⟩ := by
      rw [step_of_idle rfl]
      simp only [accept, ht]
      rfl
    rw [advance_cons hstep]
    exact advance_atoms ts _ hts

namespace Text

theorem isBlank_of_trim {s : String} (h : trim s = "") : ∀ c ∈ s.toList, isBlank c = true := by
  have hnil : (s.toList.dropWhile isBlank).reverse.dropWhile isBlank = [] := by
    simpa [trim, String.ofList_eq_empty_iff] using h
  have hall : ∀ c ∈ s.toList.dropWhile isBlank, isBlank c = true := by
    intro c hc
    exact List.dropWhile_eq_nil_iff.1 hnil c (List.mem_reverse.2 hc)
  have hempty : s.toList.dropWhile isBlank = [] := by
    cases hd : s.toList.dropWhile isBlank with
    | nil => rfl
    | cons c cs =>
      have hnot := List.head?_dropWhile_not isBlank s.toList
      rw [hd] at hnot hall
      have hnot : isBlank c = false := hnot
      rw [hall c (by simp)] at hnot
      cases hnot
  exact List.dropWhile_eq_nil_iff.1 hempty

end Text

namespace Prompt
open Reading (ofText)

/-- A blank text has nothing in it that could be left open. -/
theorem error_of_blank {text : String} (h : Text.trim text = "") : (ofText standard text.toList).error = none := by
  have hblank : ∀ c ∈ Cursor.delimiters, Text.isBlank c = true → standard.isWhitespace c = true := by decide
  have hplain : ∀ c ∈ text.toList, Cursor.IsPlain c := by
    intro c hc
    by_cases hdel : c ∈ Cursor.delimiters
    · exact .inr (hblank c hdel (Text.isBlank_of_trim h c hc))
    · exact .inl (Cursor.isAtomChar_standard.2 hdel)
  obtain ⟨ts, q, hscan, hts⟩ := Cursor.scan_of_isPlain _ text.toList .start (Nat.le_refl _) hplain
  obtain ⟨finished, hadv⟩ := Reader.advance_atoms ts [] hts
  have hscan : Scan.ofText standard text.toList = ⟨ts ++ [], .finished q⟩ := by
    rw [List.append_nil]
    exact hscan
  exact Reading.error_eq_none_of_advance hscan hadv rfl

/-! ## Lines with newlines between them -/

theorem intercalate_flatten : ∀ {groups : List (List String)}, [] ∉ groups →
    "\n".intercalate (groups.map ("\n".intercalate ·)) = "\n".intercalate groups.flatten
  | [], _ => rfl
  | [g], _ => by simp
  | g :: g' :: groups, h => by
    have hg : g ≠ [] := fun he => h (by simp [he])
    have hg' : g' ≠ [] := fun he => h (by simp [he])
    have hrest : [] ∉ g' :: groups := fun hmem => h (List.mem_cons_of_mem g hmem)
    rw [List.map_cons, String.intercalate_cons_of_ne_nil (by simp), intercalate_flatten hrest,
      List.flatten_cons (l := g), String.intercalate_append_of_ne_nil hg (by simp [hg'])]

theorem toList_append_newline (s s' : String) : (s ++ "\n" ++ s').toList = s.toList ++ '\n' :: s'.toList := by simp

/-- **What comes before lines that make a text whole** is whole itself, or it waits for them. -/
theorem error_or_incomplete_of_append {s s' : String} (h : (ofText standard (s ++ "\n" ++ s').toList).error = none) :
    (ofText standard s.toList).error = none ∨ incomplete s = true := by
  rw [toList_append_newline] at h
  cases he : (ofText standard s.toList).error with
  | none => exact .inl rfl
  | some e =>
    refine .inr ?_
    by_contra hnot
    have hcause : e.innermost.cause ≠ .endOfStream := by
      intro hcause
      apply hnot
      simp [incomplete, he, hcause]
    have hsome := Reading.error_append_of_final he hcause s'.toList
    rw [h] at hsome
    cases hsome

theorem error_right_of_append {s s' : String} (hs : (ofText standard s.toList).error = none)
    (h : (ofText standard (s ++ "\n" ++ s').toList).error = none) : (ofText standard s'.toList).error = none := by
  obtain ⟨p, -, happ⟩ := Reading.ofText_append_newline hs
  rw [toList_append_newline, happ] at h
  exact Option.map_eq_none_iff.1 h

theorem error_of_incomplete {s : String} (h : incomplete s = true) : (ofText standard s.toList).error ≠ none := by
  intro hnone
  simp [incomplete, hnone] at h

/-! ## One unit -/

/-- The text of some lines is what the prompt has gathered from them. -/
theorem extend_intercalate {before : List String} {line : String} (hb : before ≠ [] → "\n".intercalate before ≠ "")
    (hl : continues line = false) :
    extend ("\n".intercalate before) line = "\n".intercalate (before ++ [line]) := by
  have hcontent : content line = line := by simp [content, hl]
  by_cases hnil : before = []
  · subst hnil
    simp [extend, hcontent]
  · rw [extend, if_neg (hb hnil), hcontent, String.intercalate_append_of_ne_nil hnil (by simp), String.intercalate_singleton]

/-- **The prompt reads a unit off the lines of a whole text**: a run of them, with some lines `before` already typed,
whose text reads without error. -/
theorem readUnitAfter_lines : ∀ (lines before : List String), lines ≠ [] →
    (before ≠ [] → "\n".intercalate before ≠ "") → (∀ l ∈ lines, continues l = false) →
    (ofText standard ("\n".intercalate (before ++ lines)).toList).error = none →
    ∃ taken rest, lines = taken ++ rest ∧ taken ≠ [] ∧
      (readUnitAfter ("\n".intercalate before) (lines.map .line)).unit = some ("\n".intercalate (before ++ taken)) ∧
      (readUnitAfter ("\n".intercalate before) (lines.map .line)).rest = rest.map .line ∧
      (ofText standard ("\n".intercalate (before ++ taken)).toList).error = none
  | [], _, hne, _, _, _ => absurd rfl hne
  | l :: lines, before, _, hbefore, hcont, hread => by
    obtain ⟨hl, hcont⟩ := List.forall_mem_cons.1 hcont
    have hextend := extend_intercalate hbefore hl
    have hsplit : before ++ l :: lines = before ++ [l] ++ lines := by simp
    rw [List.map_cons, readUnitAfter, hextend]
    by_cases hgo : goesOn l ("\n".intercalate (before ++ [l])) = true
    · -- the text waits for more, so this is not the last line
      rw [if_pos hgo]
      simp only [goesOn, hl, Bool.false_or, Bool.and_eq_true, bne_iff_ne] at hgo
      have hlines : lines ≠ [] := by
        rintro rfl
        exact error_of_incomplete hgo.2 hread
      have hnonempty : "\n".intercalate (before ++ [l]) ≠ "" := by
        intro hempty
        rw [hempty] at hgo
        exact hgo.1 rfl
      rw [hsplit] at hread
      obtain ⟨taken, rest, rfl, -, hunit, hrest, hok⟩ :=
        readUnitAfter_lines lines (before ++ [l]) hlines (fun _ => hnonempty) hcont hread
      have htaken : before ++ l :: taken = before ++ [l] ++ taken := by simp
      refine ⟨l :: taken, rest, rfl, by simp, ?_, hrest, ?_⟩
      · rw [htaken]
        exact hunit
      · rw [htaken]
        exact hok
    · rw [if_neg hgo]
      refine ⟨[l], lines, rfl, by simp, rfl, rfl, ?_⟩
      by_cases hlines : lines = []
      · rw [hlines] at hread
        exact hread
      · rw [hsplit, String.intercalate_append_of_ne_nil (by simp) hlines] at hread
        rcases error_or_incomplete_of_append hread with hnone | hinc
        · exact hnone
        · -- a text that waits for more ends a unit only if it is blank
          refine error_of_blank ?_
          by_contra htrim
          apply hgo
          simp [goesOn, hinc, htrim]

/-! ## All units -/

theorem readUnits_of_unit {answers : List Answer} {unit : String} (h : (readUnit answers).unit = some unit) :
    readUnits answers = readUnit answers :: readUnits (readUnit answers).rest := by
  rw [readUnits]
  simp [h]

/-- The units of a whole text, cut out of its lines. -/
theorem readUnits_lines (n : Nat) : ∀ lines : List String, lines.length ≤ n → (∀ l ∈ lines, continues l = false) →
    (ofText standard ("\n".intercalate lines).toList).error = none →
    ∃ groups : List (List String), groups.flatten = lines ∧ [] ∉ groups ∧
      (∀ g ∈ groups, (ofText standard ("\n".intercalate g).toList).error = none) ∧
      (readUnits (lines.map .line)).map Attempt.unit = groups.map (some ∘ ("\n".intercalate ·)) ++ [none] ∧
      (readUnits (lines.map .line)).getLast? = some ⟨none, [first], []⟩ := by
  have hnone : readUnits [] = [⟨none, [first], []⟩] := by
    rw [readUnits]
    rfl
  induction n with
  | zero =>
    intro lines hlen _ _
    obtain rfl : lines = [] := List.length_eq_zero_iff.1 (Nat.le_zero.1 hlen)
    exact ⟨[], rfl, by simp, by simp, by simp [hnone], by simp [hnone]⟩
  | succ n ih =>
    intro lines hlen hcont hread
    by_cases hlines : lines = []
    · subst hlines
      exact ⟨[], rfl, by simp, by simp, by simp [hnone], by simp [hnone]⟩
    obtain ⟨taken, rest, rfl, htaken, hunit, hrest, hok⟩ :=
      readUnitAfter_lines lines [] hlines (fun h => absurd rfl h) hcont hread
    rw [List.nil_append] at hunit hok
    -- what is left is a whole text again
    have hread' : (ofText standard ("\n".intercalate rest).toList).error = none := by
      by_cases hnil : rest = []
      · subst hnil
        exact error_of_blank rfl
      · rw [String.intercalate_append_of_ne_nil htaken hnil] at hread
        exact error_right_of_append hok hread
    have hshort : rest.length ≤ n := by
      have := List.length_pos_iff.2 htaken
      rw [List.length_append] at hlen
      omega
    obtain ⟨groups, rfl, hne, hgroups, hunits, hlast⟩ := ih rest hshort (fun l hl => hcont l (by simp [hl])) hread'
    have hfirst := readUnits_of_unit hunit
    have hleft : (readUnit ((taken ++ groups.flatten).map .line)).rest = groups.flatten.map .line := hrest
    rw [hleft] at hfirst
    refine ⟨taken :: groups, rfl, ?_, List.forall_mem_cons.2 ⟨hok, hgroups⟩, ?_, ?_⟩
    · intro hmem
      rcases List.mem_cons.1 hmem with h | h
      · exact htaken h.symm
      · exact hne h
    · rw [hfirst, List.map_cons, hunits]
      exact congrArg (· :: _) hunit
    · rw [hfirst, List.getLast?_cons, hlast]
      rfl

/-- **A program typed line by line is read as the program.** Lines of which none asks to be continued, and which
together read without error, are cut into units that each read without error, and whose nodes in a row are those of the
program but for their lines. Every line is in a unit, and at the end of the input no text is waiting. -/
theorem readUnits_of_program {lines : List String} (hlines : ∀ l ∈ lines, continues l = false)
    (hread : (ofText standard ("\n".intercalate lines).toList).error = none) :
    ∃ groups : List (List String), groups.flatten = lines ∧ [] ∉ groups ∧
      let units := groups.map ("\n".intercalate ·)
      (readUnits (lines.map .line)).map Attempt.unit = units.map some ++ [none] ∧
      (readUnits (lines.map .line)).getLast? = some ⟨none, [first], []⟩ ∧
      (∀ u ∈ units, (ofText standard u.toList).error = none) ∧
      (units.flatMap fun u => (ofText standard u.toList).nodes).map (Node.relocate Position.inLine) =
        (ofText standard ("\n".intercalate lines).toList).nodes.map (Node.relocate Position.inLine) := by
  obtain ⟨groups, rfl, hne, hgroups, hunits, hlast⟩ := readUnits_lines _ lines (Nat.le_refl _) hlines hread
  have hok : ∀ u ∈ groups.map ("\n".intercalate ·), (ofText standard u.toList).error = none := by
    intro u hu
    obtain ⟨g, hg, rfl⟩ := List.mem_map.1 hu
    exact hgroups g hg
  refine ⟨groups, rfl, hne, ?_, hlast, hok, ?_⟩
  · rw [hunits, List.map_map]
  · obtain ⟨-, hnodes⟩ := Reading.ofText_intercalate ((groups.map ("\n".intercalate ·)).map String.toList) (by
      intro s hs
      obtain ⟨u, hu, rfl⟩ := List.mem_map.1 hs
      exact hok u hu)
    have htext : ['\n'].intercalate ((groups.map ("\n".intercalate ·)).map String.toList) =
        ("\n".intercalate groups.flatten).toList := by
      rw [← intercalate_flatten hne, String.toList_intercalate]
      rfl
    rw [htext, List.flatMap_map] at hnodes
    exact hnodes.symm

/-- A string, a comment and an abbreviation that each go over the end of a line. -/
theorem readUnits_of_program_open :
    let lines := ["(f \"a", "", "b\") ; (", "'", ";c", "x", "  ", "y"]
    (∀ l ∈ lines, continues l = false) ∧ (ofText standard ("\n".intercalate lines).toList).error = none ∧
      ∃ groups : List (List String), groups.flatten = lines ∧ [] ∉ groups ∧
        (readUnits (lines.map .line)).map Attempt.unit = (groups.map ("\n".intercalate ·)).map some ++ [none] ∧
        ∀ u ∈ groups.map ("\n".intercalate ·), (ofText standard u.toList).error = none := by
  intro lines
  have hlines : ∀ l ∈ lines, continues l = false := by decide
  have hread : (ofText standard ("\n".intercalate lines).toList).error = none := by cbv
  obtain ⟨groups, hflat, hne, hunits, -, hok, -⟩ := readUnits_of_program hlines hread
  exact ⟨hlines, hread, groups, hflat, hne, hunits, hok⟩

end Prompt
end QuasiScript
