import QuasiScript.Proofs.Scanning
import QuasiScript.Target

/-!
# Identifiers of the target

Which characters an identifier of the target is made of depends on the tables of its day: letters and digits, `_` and
`$`, but also marks, letter numbers, connectors and joiners. What never changes is that characters kept for patterns are
not among them, `$` apart. An alphabet is any class that goes by these rules (`Alphabet`), and what is said of the target
is said for all of them.

What consists of letters, digits, `_` and `$` is an identifier in every alphabet, but for one letter that is kept for
patterns (`Alphabet.isIdentifierName_iff`).
-/
namespace QuasiScript

namespace Text

theorem exists_range_of_inRanges {rs : List (Nat × Nat)} {n : Nat} (h : inRanges rs n = true) :
    ∃ r ∈ rs, r.1 ≤ n ∧ n ≤ r.2 := by
  fun_induction inRanges rs n with
  | case1 => cases h
  | case2 lo hi rest n hn => exact ⟨(lo, hi), List.mem_cons_self, of_decide_eq_true h, hn⟩
  | case3 lo hi rest n hn ih =>
    obtain ⟨r, hr, hrange⟩ := ih h
    exact ⟨r, List.mem_cons_of_mem _ hr, hrange⟩

end Text

namespace Target

/-! ## Characters kept for patterns -/

/-- Every code point that is kept for patterns, as syntax or white space. The class never changes. -/
def patternRanges : List (Nat × Nat) :=
  [(0x9, 0xd), (0x20, 0x2f), (0x3a, 0x40), (0x5b, 0x5e), (0x60, 0x60), (0x7b, 0x7e), (0x85, 0x85), (0xa1, 0xa7),
   (0xa9, 0xa9), (0xab, 0xac), (0xae, 0xae), (0xb0, 0xb1), (0xb6, 0xb6), (0xbb, 0xbb), (0xbf, 0xbf), (0xd7, 0xd7),
   (0xf7, 0xf7), (0x200e, 0x2029), (0x2030, 0x203e), (0x2041, 0x2053), (0x2055, 0x205e), (0x2190, 0x245f),
   (0x2500, 0x2775), (0x2794, 0x2bff), (0x2e00, 0x2e7f), (0x3001, 0x3003), (0x3008, 0x3020), (0x3030, 0x3030),
   (0xfd3e, 0xfd3f), (0xfe45, 0xfe46)]

def isPattern (c : Char) : Bool := Text.inRanges patternRanges c.toNat

/-- The one letter that is kept for patterns. -/
def verticalTilde : Char := '\u2e2f'

theorem letters_apart : ∀ r ∈ Text.letterRanges ++ Text.decimalDigitRanges, ∀ p ∈ patternRanges,
    r.2 < p.1 ∨ p.2 < r.1 ∨ r = (0x2e2f, 0x2e2f) := by
  -- the kernel is much faster on booleans
  have hall : (patternRanges.all fun p => (Text.letterRanges ++ Text.decimalDigitRanges).all fun r =>
      Nat.blt r.2 p.1 || Nat.blt p.2 r.1 || r == (0x2e2f, 0x2e2f)) = true := by
    decide +kernel
  intro r hr p hp
  simpa [or_assoc] using List.all_eq_true.1 (List.all_eq_true.1 hall p hp) r hr

theorem isPattern_iff {c : Char} (h : Text.isLetter c = true ∨ Text.isDecimalDigit c = true) :
    isPattern c = true ↔ c = verticalTilde := by
  constructor
  · intro hpattern
    obtain ⟨p, hp, hlo, hhi⟩ := Text.exists_range_of_inRanges hpattern
    obtain ⟨r, hr, hlo', hhi'⟩ : ∃ r ∈ Text.letterRanges ++ Text.decimalDigitRanges,
        r.1 ≤ c.toNat ∧ c.toNat ≤ r.2 := by
      rcases h with h | h
      · obtain ⟨r, hr, hrange⟩ := Text.exists_range_of_inRanges h
        exact ⟨r, List.mem_append_left _ hr, hrange⟩
      · obtain ⟨r, hr, hrange⟩ := Text.exists_range_of_inRanges h
        exact ⟨r, List.mem_append_right _ hr, hrange⟩
    rcases letters_apart r hr p hp with hlt | hlt | rfl
    · omega
    · omega
    · exact Char.toNat_inj.1 (Nat.le_antisymm hhi' hlo')
  · rintro rfl
    decide

/-! ## Alphabets -/

/-- **The characters of identifiers**: those that one may begin with, and those that it may go on with. -/
structure Alphabet where
  starts : Char → Bool
  continues : Char → Bool
  continues_of_starts : ∀ c, starts c = true → continues c = true
  starts_letter : ∀ c, Text.isLetter c = true → isPattern c = false → starts c = true
  starts_sign : ∀ c ∈ ['_', '$'], starts c = true
  continues_digit : ∀ c, Text.isDecimalDigit c = true → isPattern c = false → continues c = true
  starts_digit : ∀ c, c.isDigit = true → starts c = false
  continues_pattern : ∀ c, isPattern c = true → c ≠ '$' → continues c = false

namespace Alphabet
variable (A : Alphabet)

/-- **Identifier names of the target.** -/
def isIdentifierName : List Char → Bool
  | [] => false
  | c :: cs => A.starts c && cs.all A.continues

variable {A}

theorem isIdentifierName_eq_true_iff {s : List Char} : A.isIdentifierName s = true ↔
    ∃ c cs, s = c :: cs ∧ A.starts c = true ∧ ∀ d ∈ cs, A.continues d = true := by
  cases s with
  | nil => simp [isIdentifierName]
  | cons c cs => simp [isIdentifierName]

theorem starts_pattern {c : Char} (h : isPattern c = true) (hc : c ≠ '$') : A.starts c = false := by
  rw [← Bool.not_eq_true]
  intro hstarts
  have hcontinues := A.continues_of_starts c hstarts
  rw [A.continues_pattern c h hc] at hcontinues
  cases hcontinues

theorem starts_iff {c : Char} (h : isNameStart c = true) : A.starts c = true ↔ c ≠ verticalTilde := by
  constructor
  · rintro hstarts rfl
    rw [starts_pattern (by decide) (by decide)] at hstarts
    cases hstarts
  · intro hc
    have hcases : (c = '_' ∨ c = '$') ∨ Text.isLetter c = true := by simpa [isNameStart] using h
    rcases hcases with hsign | hletter
    · exact A.starts_sign c (by simpa using hsign)
    · exact A.starts_letter c hletter (by simpa using (isPattern_iff (.inl hletter)).not.2 hc)

theorem continues_iff {c : Char} (h : isNamePart c = true) : A.continues c = true ↔ c ≠ verticalTilde := by
  constructor
  · rintro hcontinues rfl
    rw [A.continues_pattern _ (by decide) (by decide)] at hcontinues
    cases hcontinues
  · intro hc
    rcases Bool.or_eq_true_iff.1 h with hstart | hdigit
    · exact A.continues_of_starts c ((starts_iff hstart).2 hc)
    · exact A.continues_digit c hdigit (by simpa using (isPattern_iff (.inr hdigit)).not.2 hc)

/-- **What is written bare is an identifier name**, but for one letter. -/
theorem isIdentifierName_iff {s : String} (h : isIdentifier s = true) :
    A.isIdentifierName s.toList = true ↔ verticalTilde ∉ s.toList := by
  unfold isIdentifier at h
  cases hs : s.toList with
  | nil =>
    rw [hs] at h
    cases h
  | cons c cs =>
    simp only [hs, Bool.and_eq_true, List.all_eq_true] at h
    rw [isIdentifierName, Bool.and_eq_true, List.all_eq_true, starts_iff h.1, List.mem_cons, not_or]
    refine and_congr ⟨Ne.symm, Ne.symm⟩ ⟨fun hall hmem => ?_, fun hnot d hd => ?_⟩
    · exact (continues_iff (h.2 _ hmem)).1 (hall _ hmem) rfl
    · refine (continues_iff (h.2 d hd)).2 ?_
      rintro rfl
      exact hnot hd

def plain : Alphabet where
  starts c := isNameStart c && (c == '$' || !isPattern c)
  continues c := isNamePart c && (c == '$' || !isPattern c)
  continues_of_starts c h := by
    simp only [Bool.and_eq_true] at h
    simp only [isNamePart, h.1, h.2, Bool.true_or, Bool.and_self]
  starts_letter c hletter hpattern := by simp [isNameStart, hletter, hpattern]
  starts_sign := by decide
  continues_digit c hdigit hpattern := by simp [isNamePart, hdigit, hpattern]
  starts_digit c hc := by
    have hdigits : ∀ n < 128, (Char.ofNat n).isDigit = true → isNameStart (Char.ofNat n) = false := by decide
    have hlt : c.toNat < 128 := by
      simp only [Char.isDigit, Bool.and_eq_true, decide_eq_true_eq] at hc
      have := UInt32.le_iff_toNat_le.1 hc.2
      have h57 : '9'.val.toNat = 57 := rfl
      have : c.toNat = c.val.toNat := rfl
      omega
    have := hdigits c.toNat hlt (by rwa [Char.ofNat_toNat])
    rw [Char.ofNat_toNat] at this
    rw [this, Bool.false_and]
  continues_pattern c hpattern hc := by simp [hpattern, hc]

end Alphabet
end Target
end QuasiScript
