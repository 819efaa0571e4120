import QuasiScript.Proofs.Literals

/-!
# Numbers in the target

A number goes to the target as it is written, and the target has a grammar of its own for it (`Target.Denotes`): behind a
zero, octal digits count as octal, and then no point and no exponent may follow. The digits at the start of a literal can
be cut off in one way only (`Target.Denotes.split`), which is also the reader's (`Target.tail_of_decimal?`). So a number is
a literal of the target with the value that it was read with, unless its digits are octal or its exponent is huge
(`Dialect.atomValue_number_denotes`).
-/
namespace QuasiScript
open Dialect (standard)

namespace Target

/-! ## The grammar of the target

Separators between digits and the suffix of big integers, which no number of the source has, are left out. -/

def digitTable : List (Char × Nat) := "0123456789abcdef".toList.zipIdx ++ "ABCDEF".toList.zipIdx 10

def digit? (c : Char) : Option Nat := digitTable.lookup c

def IsDigit (base : Nat) (c : Char) : Prop := ∃ v < base, digit? c = some v

instance (base : Nat) : DecidablePred (IsDigit base) := fun c =>
  inferInstanceAs (Decidable (∃ v < base, digit? c = some v))

def number (base : Nat) (cs : List Char) : Nat := cs.foldl (fun n c => base * n + (digit? c).getD 0) 0

/-- Octal digits, the first of which is a zero and not the last. -/
def IsOctal (cs : List Char) : Prop := cs.head? = some '0' ∧ 1 < cs.length ∧ ∀ c ∈ cs, IsDigit 8 c

instance (cs : List Char) : Decidable (IsOctal cs) := inferInstanceAs (Decidable (_ ∧ _ ∧ _))

/-- What may stand before a point: a zero alone, digits of which the first is no zero, or digits of which one is an eight
or a nine. -/
def IsWhole (cs : List Char) : Prop :=
  cs ≠ [] ∧ (∀ c ∈ cs, IsDigit 10 c) ∧ (cs = ['0'] ∨ cs.head? ≠ some '0' ∨ '8' ∈ cs ∨ '9' ∈ cs)

inductive Power : List Char → ℤ → Prop
  | absent : Power [] 0
  | plain {mark : Char} {ds : List Char} : mark = 'e' ∨ mark = 'E' → ds ≠ [] → (∀ c ∈ ds, IsDigit 10 c) →
    Power (mark :: ds) (number 10 ds)
  | plus {mark : Char} {ds : List Char} : mark = 'e' ∨ mark = 'E' → ds ≠ [] → (∀ c ∈ ds, IsDigit 10 c) →
    Power (mark :: '+' :: ds) (number 10 ds)
  | minus {mark : Char} {ds : List Char} : mark = 'e' ∨ mark = 'E' → ds ≠ [] → (∀ c ∈ ds, IsDigit 10 c) →
    Power (mark :: '-' :: ds) (-number 10 ds)

/-- What follows the first digits of a decimal literal: the digits after the point, if there is one, and the power of
ten. -/
inductive Tail : List Char → List Char → ℤ → Prop
  | plain {e : List Char} {k : ℤ} : Power e k → Tail e [] k
  | point {f e : List Char} {k : ℤ} : (∀ c ∈ f, IsDigit 10 c) → Power e k → Tail ('.' :: (f ++ e)) f k

/-- The letters that follow a zero to announce the digits of another base. -/
def baseMarks : List (Char × Nat) := [('x', 16), ('X', 16), ('o', 8), ('O', 8), ('b', 2), ('B', 2)]

/-- **A numeric literal denotes a number.** -/
inductive Denotes : List Char → ℚ → Prop
  | decimal {w r f : List Char} {k : ℤ} : IsWhole w → Tail r f k →
    Denotes (w ++ r) ((number 10 w + number 10 f / 10 ^ f.length) * 10 ^ k)
  | fraction {r f : List Char} {k : ℤ} : Tail r f k → f ≠ [] → Denotes r (number 10 f / 10 ^ f.length * 10 ^ k)
  | based {mark : Char} {base : Nat} {ds : List Char} : (mark, base) ∈ baseMarks → ds ≠ [] →
    (∀ c ∈ ds, IsDigit base c) → Denotes ('0' :: mark :: ds) (number base ds)
  | octal {w : List Char} : IsOctal w → Denotes w (number 8 w)

/-! ## Digits -/

theorem mem_digitTable {c : Char} {v : Nat} (h : digit? c = some v) : (c, v) ∈ digitTable := by
  obtain ⟨before, after, hsplit, -⟩ := List.lookup_eq_some_iff.1 h
  rw [hsplit]
  simp

theorem digit?_of_isDigit {c : Char} (h : c.isDigit = true) :
    digit? c = some (Numeral.digitValue c) ∧ Numeral.digitValue c < 10 := by
  obtain ⟨hlow, hhigh⟩ : 48 ≤ c.toNat ∧ c.toNat ≤ 57 := by
    simpa [Char.isDigit, Char.le_def, UInt32.le_iff_toNat_le] using h
  rw [← Char.ofNat_toNat c]
  generalize c.toNat = n at hlow hhigh
  interval_cases n <;> decide

theorem isDigit_iff {c : Char} : IsDigit 10 c ↔ c.isDigit = true := by
  constructor
  · rintro ⟨v, hv, h⟩
    have hall : ∀ p ∈ digitTable, p.2 < 10 → p.1.isDigit = true := by decide
    exact hall _ (mem_digitTable h) hv
  · intro h
    obtain ⟨hc, hv⟩ := digit?_of_isDigit h
    exact ⟨_, hv, hc⟩

theorem IsDigit.mono {base base' : Nat} {c : Char} (h : IsDigit base c) (hle : base ≤ base') : IsDigit base' c := by
  obtain ⟨v, hv, hc⟩ := h
  exact ⟨v, by omega, hc⟩

theorem foldl_number (base : Nat) (cs : List Char) (n : Nat) :
    cs.foldl (fun n c => base * n + (digit? c).getD 0) n = n * base ^ cs.length + number base cs := by
  unfold number
  induction cs generalizing n with
  | nil => simp
  | cons c cs ih =>
    rw [List.foldl_cons, List.foldl_cons, ih, ih (base * 0 + _), List.length_cons, pow_succ]
    ring

theorem number_append (base : Nat) (cs ds : List Char) :
    number base (cs ++ ds) = number base cs * base ^ ds.length + number base ds := by
  rw [← foldl_number]
  exact List.foldl_append

theorem number_concat (base : Nat) (cs : List Char) (c : Char) :
    number base (cs ++ [c]) = base * number base cs + (digit? c).getD 0 := by
  unfold number
  rw [List.foldl_concat]

theorem number_mono {base base' : Nat} (h : base ≤ base') (cs : List Char) : number base cs ≤ number base' cs := by
  induction cs using List.reverseRecOn with
  | nil => exact le_rfl
  | append_singleton cs c ih =>
    rw [number_concat, number_concat]
    exact Nat.add_le_add_right (Nat.mul_le_mul h ih) _

/-- Octal digits spell the same number in both bases only if all but the last are zero. -/
theorem number_octal_iff {ds : List Char} (h : ∀ c ∈ ds, IsDigit 8 c) : number 10 ds = number 8 ds ↔ number 10 ds < 8 := by
  rcases List.eq_nil_or_concat' ds with rfl | ⟨ds, c, rfl⟩
  · exact iff_of_true rfl (by decide)
  · obtain ⟨v, hv, hc⟩ := h c (by simp)
    have hle := number_mono (show 8 ≤ 10 by decide) ds
    rw [number_concat, number_concat, hc, Option.getD_some]
    omega

theorem number_eq_ofDigits {cs : List Char} (h : ∀ c ∈ cs, IsDigit 10 c) : number 10 cs = Numeral.ofDigits cs := by
  refine List.foldl_ext _ _ _ fun n c hc => ?_
  rw [(digit?_of_isDigit (isDigit_iff.1 (h c hc))).1, Option.getD_some]

/-- The reader stops to count in an exponent when it has five digits, zeros at the start apart. -/
theorem ofExponentDigits_eq_iff {ds : List Char} (h : ∀ c ∈ ds, IsDigit 10 c) :
    Numeral.ofExponentDigits ds = number 10 ds ↔ number 10 ds < 100000 := by
  have hinv : Numeral.ofExponentDigits ds < 100000 ∧ (Numeral.ofExponentDigits ds = number 10 ds ∨
      10000 ≤ Numeral.ofExponentDigits ds ∧ 100000 ≤ number 10 ds) := by
    induction ds using List.reverseRecOn with
    | nil => decide
    | append_singleton ds c ih =>
      have hds := ih fun d hd => h d (by simp [hd])
      obtain ⟨hc, hv⟩ := digit?_of_isDigit (isDigit_iff.1 (h c (by simp)))
      -- from ten thousand on the number stays, while more digits bring the exponent to a hundred thousand
      have hstep : Numeral.ofExponentDigits (ds ++ [c]) =
          if Numeral.ofExponentDigits ds < 10000 then 10 * Numeral.ofExponentDigits ds + Numeral.digitValue c
          else Numeral.ofExponentDigits ds := List.foldl_concat ..
      rw [hstep, number_concat, hc, Option.getD_some]
      split <;> omega
  omega

/-! ## Where a literal is cut -/

def Stops (r : List Char) : Prop := ∀ c ∈ r.head?, ¬ IsDigit 10 c

theorem takeWhile_dropWhile_append {w r : List Char} (hw : ∀ c ∈ w, IsDigit 10 c) (hr : Stops r) :
    (w ++ r).takeWhile Char.isDigit = w ∧ (w ++ r).dropWhile Char.isDigit = r := by
  have hdigit : ∀ c ∈ w, c.isDigit = true := fun c hc => isDigit_iff.1 (hw c hc)
  rw [List.takeWhile_append_of_pos hdigit, List.dropWhile_append_of_pos hdigit]
  cases r with
  | nil => simp
  | cons c r => simp [mt isDigit_iff.2 (hr c rfl)]

/-- **The first digits of a text are cut off in one way only.** -/
theorem split_unique {w w' r r' : List Char} (h : w ++ r = w' ++ r') (hw : ∀ c ∈ w, IsDigit 10 c)
    (hw' : ∀ c ∈ w', IsDigit 10 c) (hr : Stops r) (hr' : Stops r') : w = w' ∧ r = r' := by
  obtain ⟨htake, hdrop⟩ := takeWhile_dropWhile_append hw hr
  obtain ⟨htake', hdrop'⟩ := takeWhile_dropWhile_append hw' hr'
  rw [h] at htake hdrop
  exact ⟨htake.symm.trans htake', hdrop.symm.trans hdrop'⟩

theorem Power.head {e : List Char} {k : ℤ} (h : Power e k) : ∀ c ∈ e.head?, c = 'e' ∨ c = 'E' := by
  cases h with
  | absent => simp
  | plain hmark | plus hmark | minus hmark => simpa using hmark

theorem Power.stops {e : List Char} {k : ℤ} (h : Power e k) : Stops e := by
  intro c hc
  rcases h.head c hc with rfl | rfl
  · exact mt isDigit_iff.1 (by decide)
  · exact mt isDigit_iff.1 (by decide)

theorem Power.unique {e : List Char} {k k' : ℤ} (h : Power e k) (h' : Power e k') : k = k' := by
  cases h with
  | absent => cases h'; rfl
  | plain _ _ hds | plus _ _ hds | minus _ _ hds => cases h' <;> simp_all [isDigit_iff]

theorem Tail.stops {r f : List Char} {k : ℤ} (h : Tail r f k) : Stops r := by
  cases h with
  | plain hp => exact hp.stops
  | point hf hp =>
    rintro c hc
    cases hc
    exact mt isDigit_iff.1 (by decide)

theorem Tail.digits {r f : List Char} {k : ℤ} (h : Tail r f k) : ∀ c ∈ f, IsDigit 10 c := by
  cases h with
  | plain hp => simp
  | point hf hp => exact hf

theorem Tail.unique {r f f' : List Char} {k k' : ℤ} (h : Tail r f k) (h' : Tail r f' k') : f = f' ∧ k = k' := by
  generalize hr : r = r' at h'
  cases h with
  | plain hp =>
    cases h' with
    | plain hp' => exact ⟨rfl, hp.unique (hr ▸ hp')⟩
    | point hf' hp' => exact absurd (hp.head '.' (by rw [hr]; rfl)) (by decide)
  | point hf hp =>
    cases h' with
    | plain hp' => exact absurd (hp'.head '.' (by rw [← hr]; rfl)) (by decide)
    | point hf' hp' =>
      obtain ⟨rfl, rfl⟩ := split_unique (List.cons.inj hr).2 hf hf' hp.stops hp'.stops
      exact ⟨rfl, hp.unique hp'⟩

theorem Tail.head {r f : List Char} {k : ℤ} (h : Tail r f k) : ∀ c ∈ r.head?, c ∈ ['.', 'e', 'E'] := by
  cases h with
  | plain hp =>
    intro c hc
    rcases hp.head c hc with rfl | rfl <;> decide
  | point hf hp => simp

theorem stops_of_mark {mark : Char} {base : Nat} (h : (mark, base) ∈ baseMarks) (ds : List Char) : Stops (mark :: ds) := by
  have hall : ∀ p ∈ baseMarks, ¬ IsDigit 10 p.1 := by decide
  intro c hc
  cases hc
  exact hall _ h

theorem not_tail_of_mark {mark : Char} {base : Nat} {ds f : List Char} {k : ℤ} (h : (mark, base) ∈ baseMarks) :
    ¬ Tail (mark :: ds) f k := by
  have hall : ∀ p ∈ baseMarks, p.1 ∉ ['.', 'e', 'E'] := by decide
  exact fun htail => hall _ h (htail.head mark rfl)

theorem Tail.of_nil {f : List Char} {k : ℤ} (h : Tail [] f k) : f = [] ∧ k = 0 := h.unique (.plain .absent)

/-! ## What literals denote -/

theorem isDigit_cases {c : Char} (h : IsDigit 10 c) : IsDigit 8 c ∨ c = '8' ∨ c = '9' := by
  obtain ⟨v, hv, hc⟩ := h
  have hall : ∀ p ∈ digitTable, p.2 < 10 → p.2 < 8 ∨ p.1 = '8' ∨ p.1 = '9' := by decide
  exact (hall _ (mem_digitTable hc) hv).imp_left fun hv => ⟨v, hv, hc⟩

theorem IsOctal.digits {w : List Char} (h : IsOctal w) : ∀ c ∈ w, IsDigit 10 c :=
  fun c hc => (h.2.2 c hc).mono (by decide)

/-- Digits are a whole part, or they are octal. -/
theorem isWhole_iff {w : List Char} (hne : w ≠ []) (hw : ∀ c ∈ w, IsDigit 10 c) : IsWhole w ↔ ¬ IsOctal w := by
  constructor
  · rintro ⟨-, -, rfl | hnot | hmem | hmem⟩ ⟨hhead, hlength, hall⟩
    · exact absurd hlength (by decide)
    · exact hnot hhead
    · exact absurd (hall _ hmem) (by decide)
    · exact absurd (hall _ hmem) (by decide)
  · intro h
    refine ⟨hne, hw, ?_⟩
    by_contra hall
    push Not at hall
    obtain ⟨hzero, hhead, height, hnine⟩ := hall
    refine h ⟨hhead, ?_, fun c hc => (isDigit_cases (hw c hc)).resolve_right ?_⟩
    · obtain ⟨ds, rfl⟩ := List.head?_eq_some_iff.1 hhead
      cases ds with
      | nil => exact absurd rfl hzero
      | cons d ds => simp
    · rintro (rfl | rfl)
      · exact height hc
      · exact hnine hc

theorem decimal_value (w f : List Char) (k : ℤ) : ((number 10 w + number 10 f / 10 ^ f.length) * 10 ^ k : ℚ) =
    number 10 (w ++ f) * 10 ^ (k - f.length) := by
  rw [number_append, zpow_sub₀ (by norm_num), zpow_natCast]
  push_cast
  field_simp

/-- Every literal begins with digits, which may be none. -/
theorem Denotes.split {body : List Char} {q : ℚ} (h : Denotes body q) :
    ∃ w r, body = w ++ r ∧ (∀ c ∈ w, IsDigit 10 c) ∧ Stops r ∧
      ((∃ f k, Tail r f k ∧ ¬ IsOctal w ∧ q = number 10 (w ++ f) * 10 ^ (k - f.length)) ∨
      (∃ mark base ds, r = mark :: ds ∧ (mark, base) ∈ baseMarks ∧ q = number base ds) ∨
      (r = [] ∧ IsOctal w ∧ q = number 8 w)) := by
  cases h with
  | @decimal w r f k hwhole htail =>
    refine ⟨w, r, rfl, hwhole.2.1, htail.stops, .inl ⟨f, k, htail, ?_, decimal_value w f k⟩⟩
    exact (isWhole_iff hwhole.1 hwhole.2.1).1 hwhole
  | @fraction r f k htail hne =>
    refine ⟨[], body, rfl, by simp, htail.stops, .inl ⟨f, k, htail, by decide, ?_⟩⟩
    rw [← decimal_value]
    simp [number]
  | @based mark base ds hmark hne hds =>
    exact ⟨['0'], mark :: ds, rfl, by decide, stops_of_mark hmark ds, .inr (.inl ⟨mark, base, ds, rfl, hmark, rfl⟩)⟩
  | octal hoctal =>
    refine ⟨body, [], (List.append_nil _).symm, hoctal.digits, by simp [Stops], ?_⟩
    exact .inr (.inr ⟨rfl, hoctal, rfl⟩)

/-- **What a text in decimal notation denotes.** -/
theorem denotes_iff_of_tail {w r f : List Char} {k : ℤ} {q : ℚ} (hw : ∀ c ∈ w, IsDigit 10 c) (htail : Tail r f k)
    (hne : w ≠ [] ∨ f ≠ []) : Denotes (w ++ r) q ↔
      (¬ IsOctal w ∧ q = number 10 (w ++ f) * 10 ^ (k - f.length)) ∨ (r = [] ∧ IsOctal w ∧ q = number 8 w) := by
  constructor
  · intro h
    obtain ⟨w', r', hbody, hw', hr', hq⟩ := h.split
    obtain ⟨rfl, rfl⟩ := split_unique hbody hw hw' htail.stops hr'
    rcases hq with ⟨f', k', htail', hoctal, hq⟩ | ⟨mark, base, ds, rfl, hmark, -⟩ | hq
    · obtain ⟨rfl, rfl⟩ := htail.unique htail'
      exact .inl ⟨hoctal, hq⟩
    · exact absurd htail (not_tail_of_mark hmark)
    · exact .inr hq
  · rintro (⟨hoctal, rfl⟩ | ⟨rfl, hoctal, rfl⟩)
    · rw [← decimal_value]
      by_cases hnil : w = []
      · subst hnil
        have := Denotes.fraction htail (hne.resolve_left fun h => h rfl)
        simpa [number] using this
      · exact .decimal ((isWhole_iff hnil hw).2 hoctal) htail
    · rw [List.append_nil]
      exact .octal hoctal

/-- **What a text with the mark of a base denotes.** -/
theorem denotes_iff_of_mark {mark : Char} {base : Nat} {ds : List Char} {q : ℚ} (hmark : (mark, base) ∈ baseMarks)
    (hne : ds ≠ []) (hds : ∀ c ∈ ds, IsDigit base c) : Denotes ('0' :: mark :: ds) q ↔ q = number base ds := by
  have hbase : ∀ p ∈ baseMarks, ∀ p' ∈ baseMarks, p.1 = p'.1 → p.2 = p'.2 := by decide
  constructor
  · intro h
    obtain ⟨w, r, hbody, hw, hr, hq⟩ := h.split
    replace hbody : ['0'] ++ (mark :: ds) = w ++ r := hbody
    obtain ⟨rfl, rfl⟩ := split_unique hbody (by decide) hw (stops_of_mark hmark ds) hr
    rcases hq with ⟨f, k, htail, -⟩ | ⟨mark', base', ds', heq, hmark', rfl⟩ | ⟨hnil, -⟩
    · exact absurd htail (not_tail_of_mark hmark)
    · obtain ⟨rfl, rfl⟩ := List.cons.inj heq
      rw [show base = base' from hbase _ hmark _ hmark' rfl]
    · cases hnil
  · rintro rfl
    exact .based hmark hne hds

/-! ## What the reader takes literals for -/

theorem splitSign_cases (cs : List Char) :
    (∃ ds, cs = '-' :: ds ∧ Numeral.splitSign cs = (true, ds)) ∨
      (∃ ds, cs = '+' :: ds ∧ Numeral.splitSign cs = (false, ds)) ∨ Numeral.splitSign cs = (false, cs) := by
  unfold Numeral.splitSign
  split
  · exact .inl ⟨_, rfl, rfl⟩
  · exact .inr (.inl ⟨_, rfl, rfl⟩)
  · exact .inr (.inr rfl)

theorem exists_sign (text : List Char) : ∃ sign, text = sign ++ (Numeral.splitSign text).2 ∧ sign ∈ [[], ['+'], ['-']] ∧
    ((Numeral.splitSign text).1 = true ↔ sign = ['-']) := by
  rcases splitSign_cases text with ⟨ds, rfl, hs⟩ | ⟨ds, rfl, hs⟩ | hs
  · exact ⟨['-'], by rw [hs]; rfl, by simp, by simp [hs]⟩
  · exact ⟨['+'], by rw [hs]; rfl, by simp, by simp [hs]⟩
  · exact ⟨[], by rw [hs]; rfl, by simp, by simp [hs]⟩

theorem exponent?_cons {mark : Char} {cs : List Char} {k : ℤ} (h : Numeral.exponent? (mark :: cs) = some k) :
    (mark = 'e' ∨ mark = 'E') ∧ (Numeral.splitSign cs).2 ≠ [] ∧ (∀ c ∈ (Numeral.splitSign cs).2, IsDigit 10 c) ∧
      k = if (Numeral.splitSign cs).1 then -(Numeral.ofExponentDigits (Numeral.splitSign cs).2 : ℤ)
        else Numeral.ofExponentDigits (Numeral.splitSign cs).2 := by
  unfold Numeral.exponent? at h
  dsimp only at h
  split at h
  · next hok =>
    obtain ⟨hmark, hne, hds⟩ := hok
    exact ⟨hmark, hne, fun c hc => isDigit_iff.2 (List.all_eq_true.1 hds c hc), (Option.some.inj h).symm⟩
  · cases h

theorem power_of_exponent? {e : List Char} {k : ℤ} (h : Numeral.exponent? e = some k) :
    ∃ k', Power e k' ∧ (k = k' ↔ |k'| < 100000) := by
  have hcut : ∀ {ds : List Char}, (∀ c ∈ ds, IsDigit 10 c) →
      (((Numeral.ofExponentDigits ds : ℕ) : ℤ) = number 10 ds ↔ |(number 10 ds : ℤ)| < 100000) := by
    intro ds hds
    rw [Nat.cast_inj, Nat.abs_cast, ofExponentDigits_eq_iff hds]
    norm_cast
  cases e with
  | nil =>
    cases h
    exact ⟨0, .absent, by simp⟩
  | cons mark cs =>
    obtain ⟨hmark, hne, hds, rfl⟩ := exponent?_cons h
    rcases splitSign_cases cs with ⟨ds, rfl, hs⟩ | ⟨ds, rfl, hs⟩ | hs
    · rw [hs] at hne hds ⊢
      exact ⟨_, .minus hmark hne hds, by simpa using hcut hds⟩
    · rw [hs] at hne hds ⊢
      exact ⟨_, .plus hmark hne hds, hcut hds⟩
    · rw [hs] at hne hds ⊢
      exact ⟨_, .plain hmark hne hds, hcut hds⟩

/-- **The reader takes apart what is in decimal notation.** It forms the same number, unless it cuts the exponent. -/
theorem tail_of_decimal? {cs : List Char} {x : Decimal} (h : Numeral.decimal? cs = some x) :
    ∃ w r f k k', cs = w ++ r ∧ (∀ c ∈ w, IsDigit 10 c) ∧ (w ≠ [] ∨ f ≠ []) ∧ Tail r f k' ∧
      (k = k' ↔ |k'| < 100000) ∧ x = ⟨number 10 (w ++ f), k - f.length⟩ := by
  have htake : ∀ (cs : List Char), ∀ c ∈ cs.takeWhile Char.isDigit, IsDigit 10 c := fun cs c hc =>
    isDigit_iff.2 (List.mem_takeWhile_imp hc)
  unfold Numeral.decimal? at h
  dsimp only at h
  split at h
  · cases h
  next hne =>
  obtain ⟨k, hk, rfl⟩ := Option.map_eq_some_iff.1 h
  obtain ⟨k', hpower, hcut⟩ := power_of_exponent? hk
  have htail : Tail (cs.dropWhile Char.isDigit) (Numeral.splitFraction (cs.dropWhile Char.isDigit)).1 k' := by
    generalize cs.dropWhile Char.isDigit = r at hpower
    unfold Numeral.splitFraction at hpower ⊢
    split at hpower
    · next ds =>
      have hpoint := Tail.point (htake ds) hpower
      rwa [List.takeWhile_append_dropWhile] at hpoint
    · exact .plain hpower
  refine ⟨_, _, _, k, k', List.takeWhile_append_dropWhile.symm, htake cs, not_and_or.1 hne, htail, hcut, ?_⟩
  rw [number_eq_ofDigits (List.forall_mem_append.2 ⟨htake cs, htail.digits⟩)]

theorem digit?_of_hexValue? {c : Char} {v : Nat} (h : Numeral.hexValue? c = some v) : digit? c = some v ∧ v < 16 := by
  have hletter : ∀ low n : Nat, (low = 97 ∨ low = 65) → low ≤ n → n ≤ low + 5 →
      digit? (Char.ofNat n) = some (n - low + 10) ∧ n - low + 10 < 16 := by
    rintro low n (rfl | rfl) hlow hhigh <;> interval_cases n <;> decide
  unfold Numeral.hexValue? at h
  split at h
  · next hc =>
    cases h
    obtain ⟨hv, hlt⟩ := digit?_of_isDigit hc
    exact ⟨hv, by omega⟩
  split at h
  · next hc =>
    cases h
    rw [Char.le_def, Char.le_def, UInt32.le_iff_toNat_le, UInt32.le_iff_toNat_le] at hc
    simpa using hletter 97 c.toNat (.inl rfl) hc.1 hc.2
  split at h
  · next hc =>
    cases h
    rw [Char.le_def, Char.le_def, UInt32.le_iff_toNat_le, UInt32.le_iff_toNat_le] at hc
    simpa using hletter 65 c.toNat (.inr rfl) hc.1 hc.2
  · cases h

theorem foldl_of_ofHexDigits? : ∀ {cs : List Char} {n m : Nat}, Numeral.ofHexDigits? n cs = some m →
    (∀ c ∈ cs, IsDigit 16 c) ∧ m = cs.foldl (fun n c => 16 * n + (digit? c).getD 0) n := by
  intro cs
  induction cs with
  | nil =>
    intro n m h
    cases h
    exact ⟨by simp, rfl⟩
  | cons c cs ih =>
    intro n m h
    obtain ⟨v, hv, hcs⟩ := Option.bind_eq_some_iff.1 h
    obtain ⟨hc, hlt⟩ := digit?_of_hexValue? hv
    obtain ⟨hall, rfl⟩ := ih hcs
    exact ⟨List.forall_mem_cons.2 ⟨⟨v, hlt, hc⟩, hall⟩, by rw [List.foldl_cons, hc, Option.getD_some]⟩

theorem digits_of_hexadecimal? {ds : List Char} {n : Nat} (h : Numeral.hexadecimal? ds = some n) :
    ds ≠ [] ∧ (∀ c ∈ ds, IsDigit 16 c) ∧ n = number 16 ds := by
  unfold Numeral.hexadecimal? at h
  split at h
  · cases h
  · next hne => exact ⟨hne, foldl_of_ofHexDigits? (Option.filter_eq_some_iff.1 h).1⟩

/-! ## Where both agree -/

/-- Octal digits behind a zero, and then a point or an exponent. -/
def OctalWithTail (body : List Char) : Prop := ∃ w r, body = w ++ r ∧ IsOctal w ∧ Stops r ∧ r ≠ []

def HasPower (body : List Char) (k : ℤ) : Prop := ∃ w r f, body = w ++ r ∧ (∀ c ∈ w, IsDigit 10 c) ∧ Tail r f k

section
variable {w r : List Char} (hw : ∀ c ∈ w, IsDigit 10 c) (hr : Stops r)
include hw hr

theorem octalWithTail_append_iff : OctalWithTail (w ++ r) ↔ IsOctal w ∧ r ≠ [] := by
  constructor
  · rintro ⟨w', r', hbody, hoctal, hr', hne⟩
    obtain ⟨rfl, rfl⟩ := split_unique hbody hw hoctal.digits hr hr'
    exact ⟨hoctal, hne⟩
  · rintro ⟨hoctal, hne⟩
    exact ⟨w, r, rfl, hoctal, hr, hne⟩

theorem isOctal_append_iff : IsOctal (w ++ r) ↔ IsOctal w ∧ r = [] := by
  constructor
  · intro hoctal
    have hbody : w ++ r = (w ++ r) ++ [] := (List.append_nil _).symm
    obtain ⟨hw', rfl⟩ := split_unique hbody hw hoctal.digits hr (by simp [Stops])
    exact ⟨hw' ▸ hoctal, rfl⟩
  · rintro ⟨hoctal, rfl⟩
    rwa [List.append_nil]

theorem hasPower_append_iff {k : ℤ} : HasPower (w ++ r) k ↔ ∃ f, Tail r f k := by
  constructor
  · rintro ⟨w', r', f, hbody, hw', htail⟩
    obtain ⟨rfl, rfl⟩ := split_unique hbody hw hw' hr htail.stops
    exact ⟨f, htail⟩
  · rintro ⟨f, htail⟩
    exact ⟨w, r, f, rfl, hw, htail⟩

end

/-- **Decimal notation means the same in the target**, but for octal digits and exponents that the reader cuts. -/
theorem denotes_of_decimal? {body : List Char} {x : Decimal} (h : Numeral.decimal? body = some x) :
    ((∃! q, Denotes body q) ↔ ¬ OctalWithTail body) ∧ ∀ q, Denotes body q →
      ((x.coefficient * 10 ^ x.exponent : ℚ) = q ↔
        ¬ (IsOctal body ∧ 8 ≤ number 10 body) ∧ ¬ (q ≠ 0 ∧ ∃ k, HasPower body k ∧ 100000 ≤ |k|)) := by
  obtain ⟨w, r, f, k, k', rfl, hw, hne, htail, hcut, rfl⟩ := tail_of_decimal? h
  have hdenotes := fun q => denotes_iff_of_tail (q := q) hw htail hne
  have hpower : (∃ k, HasPower (w ++ r) k ∧ 100000 ≤ |k|) ↔ k ≠ k' := by
    rw [Ne, hcut, not_lt]
    constructor
    · rintro ⟨k'', hk, hle⟩
      obtain ⟨f', htail'⟩ := (hasPower_append_iff hw htail.stops).1 hk
      rwa [(htail.unique htail').2]
    · intro hle
      exact ⟨k', (hasPower_append_iff hw htail.stops).2 ⟨f, htail⟩, hle⟩
  rw [octalWithTail_append_iff hw htail.stops, isOctal_append_iff hw htail.stops, hpower]
  by_cases hoctal : IsOctal w
  · by_cases hnil : r = []
    · -- octal digits and nothing else: the target has another base for them
      subst hnil
      obtain ⟨rfl, rfl⟩ := htail.of_nil
      obtain rfl : k = 0 := hcut.2 (by decide)
      have hvalue : ∀ q, Denotes (w ++ []) q ↔ q = number 8 w := fun q => by
        rw [hdenotes]
        simp [hoctal]
      refine ⟨iff_of_true (by simp only [hvalue, existsUnique_eq]) (by simp), fun q hq => ?_⟩
      obtain rfl := (hvalue q).1 hq
      simpa [hoctal] using number_octal_iff hoctal.2.2
    · -- nothing may follow octal digits in the target
      have hnone : ∀ q, ¬ Denotes (w ++ r) q := fun q => by simp [hdenotes, hoctal, hnil]
      refine ⟨iff_of_false (fun h => ?_) fun h => h ⟨hoctal, hnil⟩, fun q hq => absurd hq (hnone q)⟩
      obtain ⟨q, hq, -⟩ := h
      exact hnone q hq
  · have hvalue : ∀ q, Denotes (w ++ r) q ↔ q = number 10 (w ++ f) * 10 ^ (k' - f.length) := fun q => by
      simp [hdenotes, hoctal]
    refine ⟨iff_of_true (by simp only [hvalue, existsUnique_eq]) (by simp [hoctal]), fun q hq => ?_⟩
    obtain rfl := (hvalue q).1 hq
    have hten : (10 : ℚ) ^ (k' - f.length) ≠ 0 := zpow_ne_zero _ (by norm_num)
    rw [mul_eq_mul_left_iff, zpow_right_inj₀ (by norm_num) (by norm_num), sub_left_inj, mul_ne_zero_iff]
    tauto

/-- **Hexadecimal notation means the same in the target.** -/
theorem denotes_of_hexadecimal? {mark : Char} {ds : List Char} {v : Nat} (hmark : (mark, 16) ∈ baseMarks)
    (h : Numeral.hexadecimal? ds = some v) :
    ((∃! q, Denotes ('0' :: mark :: ds) q) ↔ ¬ OctalWithTail ('0' :: mark :: ds)) ∧ ∀ q, Denotes ('0' :: mark :: ds) q →
      ((v : ℚ) = q ↔ ¬ (IsOctal ('0' :: mark :: ds) ∧ 8 ≤ number 10 ('0' :: mark :: ds)) ∧
        ¬ (q ≠ 0 ∧ ∃ k, HasPower ('0' :: mark :: ds) k ∧ 100000 ≤ |k|)) := by
  obtain ⟨hne, hds, rfl⟩ := digits_of_hexadecimal? h
  have hvalue := fun q => denotes_iff_of_mark (q := q) hmark hne hds
  have hzero : ∀ c ∈ ['0'], IsDigit 10 c := by decide
  have hstop := stops_of_mark hmark ds
  have hoctal : ¬ IsOctal ['0'] := by decide
  refine ⟨iff_of_true (by simp only [hvalue, existsUnique_eq]) fun h => ?_, fun q hq => ?_⟩
  · exact hoctal ((octalWithTail_append_iff hzero hstop).1 h).1
  · obtain rfl := (hvalue q).1 hq
    refine iff_of_true rfl ⟨fun h => hoctal ((isOctal_append_iff hzero hstop).1 h.1).1, ?_⟩
    rintro ⟨-, k, hk, -⟩
    obtain ⟨f, hf⟩ := (hasPower_append_iff hzero hstop).1 hk
    exact not_tail_of_mark hmark hf

end Target

namespace Numeral

def isNegative : Numeral → Bool
  | .hexadecimal negative _ | .decimal negative _ => negative

def magnitude : Numeral → ℚ
  | .hexadecimal _ n => n
  | .decimal _ x => x.coefficient * 10 ^ x.exponent

/-- Behind its sign a numeral is hexadecimal or decimal. -/
theorem parse?_cases {text : List Char} {n : Numeral} (h : parse? text = some n) :
    n.isNegative = (splitSign text).1 ∧
      ((∃ mark ds v, (mark, 16) ∈ Target.baseMarks ∧ (splitSign text).2 = '0' :: mark :: ds ∧
        hexadecimal? ds = some v ∧ n.magnitude = v) ∨
      ∃ x, decimal? (splitSign text).2 = some x ∧ n.magnitude = x.coefficient * 10 ^ x.exponent) := by
  rw [parse?_eq_recognise?, recognise?, recogniseBody?.eq_def] at h
  split at h
  · next ds hbody =>
    obtain ⟨v, hv, rfl⟩ := Option.map_eq_some_iff.1 h
    exact ⟨rfl, .inl ⟨_, ds, v, by decide, hbody, hv, rfl⟩⟩
  · next ds hbody =>
    obtain ⟨v, hv, rfl⟩ := Option.map_eq_some_iff.1 h
    exact ⟨rfl, .inl ⟨_, ds, v, by decide, hbody, hv, rfl⟩⟩
  · obtain ⟨x, hx, rfl⟩ := Option.map_eq_some_iff.1 h
    exact ⟨rfl, .inr ⟨x, hx, rfl⟩⟩

end Numeral

namespace Dialect

theorem parse?_of_atomValue {text spelt : String} {x : Double} (h : standard.atomValue text = .number spelt x) :
    ∃ n, Numeral.parse? text.toList = some n ∧ spelt = text ∧ x = n.toDouble := by
  cases hn : Numeral.parse? text.toList with
  | some n =>
    simp only [atomValue, hn] at h
    cases h
    exact ⟨n, rfl, rfl, rfl⟩
  | none =>
    have hconstant : ∀ p ∈ standard.constants.entries, p.2 ≠ .number spelt x := by simp [standard]
    rcases atomValue_of_parse?_none hn with hv | ⟨v, hmem, hv⟩
    · cases hv.symm.trans h
    · exact absurd (hv.symm.trans h) (hconstant _ hmem)

/-- **Numbers mean the same in the target, but for octal digits and huge exponents.** A number is emitted as it is
written. Behind its sign stands a literal of exactly one value, unless octal digits behind a zero are followed by a point
or an exponent. This value is what the number was read as, unless the digits are octal and spell eight or more, or the
value is not zero and the exponent is a hundred thousand or more, of which the reader takes five digits. -/
theorem atomValue_number_denotes {text spelt : String} {x : Double} (h : standard.atomValue text = .number spelt x) :
    Target.literal (.number spelt x) = text ∧
    ∃ (sign body : List Char) (n : Numeral), text.toList = sign ++ body ∧ sign ∈ [[], ['+'], ['-']] ∧
      (∀ c ∈ body.head?, c ≠ '-' ∧ c ≠ '+') ∧
      Numeral.parse? text.toList = some n ∧ x = n.toDouble ∧ (n.isNegative = true ↔ sign = ['-']) ∧
      ((∃! q, Target.Denotes body q) ↔ ¬ Target.OctalWithTail body) ∧
      ∀ q, Target.Denotes body q → (n.magnitude = q ↔
        ¬ (Target.IsOctal body ∧ 8 ≤ Target.number 10 body) ∧
        ¬ (q ≠ 0 ∧ ∃ k, Target.HasPower body k ∧ 100000 ≤ |k|)) := by
  obtain ⟨n, hn, rfl, rfl⟩ := parse?_of_atomValue h
  obtain ⟨c, hc, hhead⟩ := Target.ne_of_isMagnitude (Target.isMagnitude_of_parse? (Option.isSome_of_eq_some hn))
  obtain ⟨hnegative, hcases⟩ := Numeral.parse?_cases hn
  obtain ⟨sign, htext, hsign, hminus⟩ := Target.exists_sign spelt.toList
  refine ⟨rfl, sign, (Numeral.splitSign spelt.toList).2, n, htext, hsign, fun d hd => ?_, hn, rfl, hnegative ▸ hminus, ?_⟩
  · obtain rfl : c = d := Option.some.inj (hc.symm.trans hd)
    exact hhead
  · rcases hcases with ⟨mark, ds, v, hmark, hbody, hv, hn⟩ | ⟨x, hx, hn⟩
    · rw [hbody, hn]
      exact Target.denotes_of_hexadecimal? hmark hv
    · rw [hn]
      exact Target.denotes_of_decimal? hx

/-- A zero before digits does no harm if one of them is a nine. -/
theorem atomValue_number_denotes_nine :
    standard.atomValue "-089.5e-1" = .number "-089.5e-1" (Numeral.toDouble (.decimal true ⟨895, -2⟩)) ∧
      Target.Denotes "089.5e-1".toList (179 / 20) := by
  have hparse : Numeral.parse? "-089.5e-1".toList = some (.decimal true ⟨895, -2⟩) := by decide +kernel
  have hvalue : standard.atomValue "-089.5e-1" = .number "-089.5e-1" (Numeral.toDouble (.decimal true ⟨895, -2⟩)) := by
    simp only [atomValue, hparse]
  have hw : ∀ c ∈ ['0', '8', '9'], Target.IsDigit 10 c := by decide
  have hpower : Target.Power ['e', '-', '1'] (-1) := .minus (.inl rfl) (List.cons_ne_nil '1' []) (by decide)
  have htail : Target.Tail ['.', '5', 'e', '-', '1'] ['5'] (-1) := .point (f := ['5']) (by decide) hpower
  obtain ⟨-, sign, body, n, htext, hsign, hhead, hn, -, -, hunique, hsame⟩ := atomValue_number_denotes hvalue
  have hbody : body = ['0', '8', '9'] ++ ['.', '5', 'e', '-', '1'] := by
    simp only [List.mem_cons, List.not_mem_nil, or_false] at hsign
    rcases hsign with rfl | rfl | rfl
    · subst htext
      exact absurd rfl (hhead '-' rfl).1
    · cases htext
    · exact (List.cons.inj htext).2.symm
  subst hbody
  obtain ⟨q, hq, -⟩ := hunique.2 fun h => absurd ((Target.octalWithTail_append_iff hw htail.stops).1 h).1 (by decide)
  obtain rfl := Option.some.inj (hparse.symm.trans hn)
  obtain rfl : 179 / 20 = q := by
    rw [← (hsame q hq).2 ⟨by decide, ?_⟩]
    · norm_num [Numeral.magnitude]
    · rintro ⟨-, k, hk, hlarge⟩
      obtain ⟨f, hf⟩ := (Target.hasPower_append_iff hw htail.stops).1 hk
      rw [← (htail.unique hf).2] at hlarge
      exact absurd hlarge (by decide)
  exact ⟨hvalue, hq⟩

/-- Octal digits are read as decimal ones, and with a fraction they are no literal. -/
theorem atomValue_misreads_octal :
    standard.atomValue "010" = .number "010" ⟨0x4024000000000000⟩ ∧ (∀ q, Target.Denotes "010".toList q ↔ q = 8) ∧
      standard.atomValue "01.5" = .number "01.5" ⟨0x3ff8000000000000⟩ ∧ ∀ q, ¬ Target.Denotes "01.5".toList q := by
  have hfraction : Target.Tail ['.', '5'] ['5'] 0 := .point (f := ['5']) (by decide) .absent
  refine ⟨by decide +kernel, fun q => ?_, by decide +kernel, fun q hq => ?_⟩
  · have h := Target.denotes_iff_of_tail (q := q) (w := ['0', '1', '0']) (by decide) (.plain .absent) (.inl (by decide))
    have hoctal : Target.IsOctal ['0', '1', '0'] := by decide
    have hnumber : Target.number 8 ['0', '1', '0'] = 8 := by decide
    simpa [hoctal, hnumber] using h
  · have h := (Target.denotes_iff_of_tail (w := ['0', '1']) (by decide) hfraction (.inl (by decide))).1 hq
    have hoctal : Target.IsOctal ['0', '1'] := by decide
    simp [hoctal] at h

end Dialect
end QuasiScript
