import QuasiScript.Proofs.NumericLiterals

/-!
# Which atoms are numbers

The grammar of numerals is said here apart from the reader (`Numeral.IsNumeral`): a sign or none, and behind it `0x` with
hexadecimal digits of a value below `2 ^ 64`, or a decimal literal. The reader accepts what the grammar has and nothing
else, part by part (`isSome_exponent?_iff`, `isSome_decimal?_iff`, `hexadecimal?_eq_some_iff`) and as a whole
(`isSome_parse?_iff`). So an atom is a number if it is a numeral, and otherwise a constant or a symbol
(`Dialect.atomValue_classifies`).
-/
namespace QuasiScript
open Dialect (standard)

namespace Numeral
open Target (IsDigit number)

/-! ## The grammar -/

def IsSign (cs : List Char) : Prop := cs ∈ [[], ['+'], ['-']]

instance : DecidablePred IsSign := fun cs => inferInstanceAs (Decidable (cs ∈ [[], ['+'], ['-']]))

def IsDigits (base : Nat) (cs : List Char) : Prop := cs ≠ [] ∧ ∀ c ∈ cs, IsDigit base c

/-- Digits with a point behind them or among them or without one, or a point and digits. -/
inductive IsMantissa : List Char → Prop
  | whole {w : List Char} : IsDigits 10 w → IsMantissa w
  | pointed {w f : List Char} : IsDigits 10 w → (∀ c ∈ f, IsDigit 10 c) → IsMantissa (w ++ '.' :: f)
  | fraction {f : List Char} : IsDigits 10 f → IsMantissa ('.' :: f)

inductive IsExponent : List Char → Prop
  | absent : IsExponent []
  | marked {mark : Char} {sign ds : List Char} : mark = 'e' ∨ mark = 'E' → IsSign sign → IsDigits 10 ds →
      IsExponent (mark :: (sign ++ ds))

def IsDecimal (cs : List Char) : Prop := ∃ m e, cs = m ++ e ∧ IsMantissa m ∧ IsExponent e

/-- A hexadecimal literal that fits 64 bits. -/
def IsHexadecimal (cs : List Char) : Prop :=
  ∃ mark ds, cs = '0' :: mark :: ds ∧ (mark = 'x' ∨ mark = 'X') ∧ IsDigits 16 ds ∧ number 16 ds < 2 ^ 64

/-- **A numeral**: a sign or none, and a literal. -/
def IsNumeral (text : List Char) : Prop :=
  ∃ sign body, text = sign ++ body ∧ IsSign sign ∧ (IsHexadecimal body ∨ IsDecimal body)

/-! ## Signs -/

theorem unsigned_of_isDigit {c : Char} (h : IsDigit 10 c) (cs : List Char) : Unsigned (c :: cs) := by
  rintro d hd
  cases hd
  rw [← Bool.not_eq_true]
  intro hsign
  rcases isSign_iff.1 hsign with rfl | rfl <;> exact absurd h (by decide)

theorem IsDigits.unsigned {ds : List Char} (h : IsDigits 10 ds) (cs : List Char) : Unsigned (ds ++ cs) := by
  obtain ⟨c, ds, rfl⟩ := List.exists_cons_of_ne_nil h.1
  exact unsigned_of_isDigit (h.2 c List.mem_cons_self) (ds ++ cs)

theorem IsDecimal.unsigned {cs : List Char} (h : IsDecimal cs) : Unsigned cs := by
  obtain ⟨m, e, rfl, hm, -⟩ := h
  cases hm with
  | whole hw => exact hw.unsigned e
  | @pointed w f hw _ =>
    rw [List.append_assoc]
    exact hw.unsigned _
  | fraction _ => simp [Unsigned, isSign]

theorem IsHexadecimal.unsigned {cs : List Char} (h : IsHexadecimal cs) : Unsigned cs := by
  obtain ⟨mark, ds, rfl, -⟩ := h
  exact unsigned_of_isDigit (by decide) _

/-- A sign is taken off in one way, if no other one follows. -/
theorem splitSign_append {sign body : List Char} (hsign : IsSign sign) (hbody : Unsigned body) :
    (splitSign (sign ++ body)).2 = body := by
  simp only [IsSign, List.mem_cons, List.not_mem_nil, or_false] at hsign
  rcases hsign with rfl | rfl | rfl
  · rw [List.nil_append, splitSign_of_unsigned hbody]
  · rfl
  · rfl

/-! ## Decimal literals -/

theorem isSome_exponent?_iff {e : List Char} : (exponent? e).isSome = true ↔ IsExponent e := by
  constructor
  · intro h
    obtain ⟨k, hk⟩ := Option.isSome_iff_exists.1 h
    cases e with
    | nil => exact .absent
    | cons mark cs =>
      obtain ⟨hmark, hne, hds, -⟩ := Target.exponent?_cons hk
      obtain ⟨sign, hcs, hsign, -⟩ := Target.exists_sign cs
      rw [hcs]
      exact .marked hmark hsign ⟨hne, hds⟩
  · intro h
    cases h with
    | absent => rfl
    | @marked mark sign ds hmark hsign hds =>
      have hsplit : (splitSign (sign ++ ds)).2 = ds := splitSign_append hsign (by simpa using hds.unsigned [])
      have hall : ds.all Char.isDigit = true := List.all_eq_true.2 fun c hc => Target.isDigit_iff.1 (hds.2 c hc)
      simp [exponent?, hsplit, hmark, hds.1, hall]

/-- The grammar of exponents is that of the target. -/
theorem isExponent_iff_power {e : List Char} : IsExponent e ↔ ∃ k, Target.Power e k := by
  constructor
  · intro h
    cases h with
    | absent => exact ⟨_, .absent⟩
    | marked hmark hsign hds =>
      simp only [IsSign, List.mem_cons, List.not_mem_nil, or_false] at hsign
      rcases hsign with rfl | rfl | rfl
      · exact ⟨_, .plain hmark hds.1 hds.2⟩
      · exact ⟨_, .plus hmark hds.1 hds.2⟩
      · exact ⟨_, .minus hmark hds.1 hds.2⟩
  · rintro ⟨k, h⟩
    cases h with
    | absent => exact .absent
    | plain hmark hne hds => exact .marked hmark (show IsSign [] by decide) ⟨hne, hds⟩
    | plus hmark hne hds => exact .marked hmark (show IsSign ['+'] by decide) ⟨hne, hds⟩
    | minus hmark hne hds => exact .marked hmark (show IsSign ['-'] by decide) ⟨hne, hds⟩

theorem isDecimal_of_decimal? {cs : List Char} {x : Decimal} (h : decimal? cs = some x) : IsDecimal cs := by
  obtain ⟨w, r, f, -, k, rfl, hw, hne, htail, -, -⟩ := Target.tail_of_decimal? h
  cases htail with
  | plain hpower =>
    have hwhole : w ≠ [] := hne.resolve_right fun h => h rfl
    exact ⟨w, r, rfl, .whole ⟨hwhole, hw⟩, isExponent_iff_power.2 ⟨_, hpower⟩⟩
  | @point f e k hf hpower =>
    by_cases hnil : w = []
    · subst hnil
      have hfraction : f ≠ [] := hne.resolve_left fun h => h rfl
      exact ⟨'.' :: f, e, rfl, .fraction ⟨hfraction, hf⟩, isExponent_iff_power.2 ⟨_, hpower⟩⟩
    · exact ⟨w ++ '.' :: f, e, by simp, .pointed ⟨hnil, hw⟩ hf, isExponent_iff_power.2 ⟨_, hpower⟩⟩

/-- Where a decimal literal is cut, and when it is one. -/
theorem isSome_decimal?_append {w r : List Char} (hw : ∀ c ∈ w, IsDigit 10 c) (hr : Target.Stops r)
    (hne : w ≠ [] ∨ (splitFraction r).1 ≠ []) (he : IsExponent (splitFraction r).2) :
    (decimal? (w ++ r)).isSome = true := by
  obtain ⟨htake, hdrop⟩ := Target.takeWhile_dropWhile_append hw hr
  obtain ⟨k, hk⟩ := Option.isSome_iff_exists.1 (isSome_exponent?_iff.2 he)
  simp [decimal?, htake, hdrop, hk, not_and_or.2 hne]

theorem isSome_decimal?_iff {cs : List Char} : (decimal? cs).isSome = true ↔ IsDecimal cs := by
  constructor
  · intro h
    obtain ⟨x, hx⟩ := Option.isSome_iff_exists.1 h
    exact isDecimal_of_decimal? hx
  · rintro ⟨m, e, rfl, hm, he⟩
    obtain ⟨k, hpower⟩ := isExponent_iff_power.1 he
    have hplain : splitFraction e = ([], e) := by
      cases e with
      | nil => rfl
      | cons c e => rcases hpower.head c rfl with rfl | rfl <;> rfl
    have hpoint : ∀ f : List Char, (∀ c ∈ f, IsDigit 10 c) → splitFraction ('.' :: (f ++ e)) = (f, e) := by
      intro f hf
      obtain ⟨htake, hdrop⟩ := Target.takeWhile_dropWhile_append hf hpower.stops
      rw [splitFraction, htake, hdrop]
    have hdot : ∀ cs, Target.Stops ('.' :: cs) := by
      rintro cs c hc
      cases hc
      decide
    cases hm with
    | whole hw =>
      refine isSome_decimal?_append hw.2 hpower.stops (.inl hw.1) ?_
      rwa [hplain]
    | @pointed w f hw hf =>
      rw [List.append_assoc, List.cons_append]
      refine isSome_decimal?_append hw.2 (hdot _) (.inl hw.1) ?_
      rwa [hpoint f hf]
    | @fraction f hf =>
      rw [List.cons_append, ← List.nil_append ('.' :: (f ++ e))]
      refine isSome_decimal?_append (by simp) (hdot (f ++ e)) (.inr ?_) ?_
      · rw [hpoint f hf.2]
        exact hf.1
      · rwa [hpoint f hf.2]

/-! ## Hexadecimal literals -/

theorem hexValue?_eq {c : Char} {v : Nat} (h : Target.digit? c = some v) : hexValue? c = some v := by
  have hall : ∀ p ∈ Target.digitTable, hexValue? p.1 = some p.2 := by decide
  exact hall _ (Target.mem_digitTable h)

theorem ofHexDigits?_eq {ds : List Char} (h : ∀ c ∈ ds, IsDigit 16 c) (n : Nat) :
    ofHexDigits? n ds = some (ds.foldl (fun n c => 16 * n + (Target.digit? c).getD 0) n) := by
  induction ds generalizing n with
  | nil => rfl
  | cons c ds ih =>
    obtain ⟨⟨v, -, hv⟩, hds⟩ := List.forall_mem_cons.1 h
    rw [ofHexDigits?, hexValue?_eq hv, Option.bind_some, ih hds, List.foldl_cons, hv, Option.getD_some]

theorem hexadecimal?_eq_some_iff {ds : List Char} {v : Nat} :
    hexadecimal? ds = some v ↔ IsDigits 16 ds ∧ number 16 ds < 2 ^ 64 ∧ v = number 16 ds := by
  constructor
  · intro h
    obtain ⟨hne, hds, rfl⟩ := Target.digits_of_hexadecimal? h
    rw [hexadecimal?, if_neg hne] at h
    exact ⟨⟨hne, hds⟩, by simpa using (Option.filter_eq_some_iff.1 h).2, rfl⟩
  · rintro ⟨⟨hne, hds⟩, hlt, rfl⟩
    rw [hexadecimal?, if_neg hne, Option.filter_eq_some_iff]
    exact ⟨ofHexDigits?_eq hds 0, by simpa using hlt⟩

/-! ## Numerals -/

theorem isNumeral_of_parse? {text : List Char} {n : Numeral} (h : parse? text = some n) : IsNumeral text := by
  have hmarks : ∀ p ∈ Target.baseMarks, p.2 = 16 → p.1 = 'x' ∨ p.1 = 'X' := by decide
  obtain ⟨sign, htext, hsign, -⟩ := Target.exists_sign text
  refine ⟨sign, (splitSign text).2, htext, hsign, ?_⟩
  rcases (parse?_cases h).2 with ⟨mark, ds, v, hmark, hbody, hv, -⟩ | ⟨x, hx, -⟩
  · obtain ⟨hds, hlt, -⟩ := hexadecimal?_eq_some_iff.1 hv
    exact .inl ⟨mark, ds, hbody, hmarks _ hmark rfl, hds, hlt⟩
  · exact .inr (isDecimal_of_decimal? hx)

/-- **The reader accepts the numerals and nothing else.** -/
theorem isSome_parse?_iff {text : List Char} : (parse? text).isSome = true ↔ IsNumeral text := by
  constructor
  · intro h
    obtain ⟨n, hn⟩ := Option.isSome_iff_exists.1 h
    exact isNumeral_of_parse? hn
  · rintro ⟨sign, body, rfl, hsign, hbody⟩
    have hunsigned : Unsigned body := hbody.elim IsHexadecimal.unsigned IsDecimal.unsigned
    rw [parse?_eq_recognise?, recognise?, splitSign_append hsign hunsigned]
    rcases hbody with ⟨mark, ds, rfl, hmark, hds, hlt⟩ | hdecimal
    · have hhex := hexadecimal?_eq_some_iff.2 ⟨hds, hlt, rfl⟩
      rcases hmark with rfl | rfl
      · simp [recogniseBody?, hhex]
      · simp [recogniseBody?, hhex]
    · have hsome := isSome_decimal?_iff.2 hdecimal
      -- behind a zero no decimal literal goes on with a letter but that of the exponent
      have hx : ∀ cs, decimal? ('0' :: 'x' :: cs) = none ∧ decimal? ('0' :: 'X' :: cs) = none := fun cs =>
        ⟨by simp [decimal?, splitFraction, exponent?], by simp [decimal?, splitFraction, exponent?]⟩
      rw [recogniseBody?.eq_def]
      split
      · rw [(hx _).1] at hsome
        cases hsome
      · rw [(hx _).2] at hsome
        cases hsome
      · simpa using hsome

instance : DecidablePred IsNumeral := fun _ => decidable_of_iff _ isSome_parse?_iff

end Numeral

namespace Dialect
open Numeral (IsNumeral)

theorem surface_atomValue (text : String) : (standard.atomValue text).surface = text := by
  cases hn : Numeral.parse? text.toList with
  | some n =>
    simp only [atomValue, hn]
    rfl
  | none =>
    rcases atomValue_of_parse?_none hn with hv | ⟨v, hmem, hv⟩
    · rw [hv]
      rfl
    · rw [hv]
      exact (constants_standard _ hmem).2.2

/-- **An atom is a number if it is a numeral**, and only then. Otherwise it is the constant of its name, or a symbol if
there is none. In every case the text of its value is an atom of the same value. -/
theorem atomValue_classifies (text : String) :
    ((∃ spelt x, standard.atomValue text = .number spelt x) ↔ IsNumeral text.toList) ∧
    (¬ IsNumeral text.toList →
      (∀ v, (text, v) ∈ standard.constants.entries → standard.atomValue text = v) ∧
      ((∀ v, (text, v) ∉ standard.constants.entries) → standard.atomValue text = .symbol text)) ∧
    standard.atomValue (standard.atomValue text).surface = standard.atomValue text := by
  refine ⟨⟨?_, fun h => ?_⟩, fun h => ?_, by rw [surface_atomValue]⟩
  · rintro ⟨spelt, x, h⟩
    obtain ⟨n, hn, -⟩ := parse?_of_atomValue h
    exact Numeral.isNumeral_of_parse? hn
  · obtain ⟨n, hn⟩ := Option.isSome_iff_exists.1 (Numeral.isSome_parse?_iff.2 h)
    exact ⟨text, n.toDouble, by simp only [atomValue, hn]⟩
  · have hunique : ∀ e ∈ standard.constants.entries, standard.constants.get? e.1 = some e.2 := by decide
    have hnone : Numeral.parse? text.toList = none := by
      rw [← Option.not_isSome_iff_eq_none, Numeral.isSome_parse?_iff]
      exact h
    refine ⟨fun v hv => ?_, fun hno => ?_⟩
    · simp only [atomValue, hnone, hunique _ hv, Option.getD_some]
    · rcases atomValue_of_parse?_none hnone with hv | ⟨v, hmem, -⟩
      · exact hv
      · exact absurd hmem (hno v)

/-- What looks like a numeral and is none, and the least and the greatest that are. -/
theorem atomValue_classifies_near_misses :
    (∀ text ∈ ["+-1", "1e", "e5", "1e+", ".", ".e1", "1.2.3", "1+2", "1_0", "0x", "0x1.8", "+", "0x10000000000000000"],
      ¬ IsNumeral text.toList ∧ standard.atomValue text = .symbol text) ∧
    (∀ text ∈ ["1", "-1.e+3", ".5E-0", "007", "+0XfFfFfFfFfFfFfFfF"], ∃ spelt x,
      standard.atomValue text = .number spelt x) ∧
    standard.atomValue "-Infinity" = .constant "-Infinity" "-Infinity" := by
  refine ⟨fun text htext => ?_, fun text htext => ?_, ?_⟩
  · have hall : ∀ text ∈ ["+-1", "1e", "e5", "1e+", ".", ".e1", "1.2.3", "1+2", "1_0", "0x", "0x1.8", "+",
        "0x10000000000000000"], ¬ IsNumeral text.toList ∧ text ∉ standard.constants.names := by decide +kernel
    obtain ⟨hnot, hname⟩ := hall text htext
    exact ⟨hnot, ((atomValue_classifies text).2.1 hnot).2 fun v hv => hname (List.mem_map_of_mem hv)⟩
  · have hall : ∀ text ∈ ["1", "-1.e+3", ".5E-0", "007", "+0XfFfFfFfFfFfFfFfF"], IsNumeral text.toList := by
      decide +kernel
    exact (atomValue_classifies text).1.2 (hall text htext)
  · exact ((atomValue_classifies "-Infinity").2.1 (by decide +kernel)).1 _ (by decide)

end Dialect
end QuasiScript
