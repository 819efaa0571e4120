import QuasiScript.Proofs.Scanning

/-!
# Atoms and their values

Which characters an atom of the language is made of, that it is scanned up to the next other character (`scan_atom`),
and that numerals are atoms. A value is readable if some text is read as it (`Value.Readable`): then it is a string, or
its own surface is an atom with that value (`isAtom_surface`); and whatever an atom is read as is readable
(`atomValue_readable`).
-/
namespace QuasiScript
open Dialect (standard)

namespace Cursor

def delimiters : List Char :=
  [' ', '\t', '\n', '\r', ')', ']', '\x7d', ';', '"', '(', '[', '\x7b', '\x27', '\x60', ',', '@', '#', '~', ':']

theorem isOpen_standard {c : Char} : standard.isOpen (String.singleton c) = true ↔ c ∈ ['(', '[', '\x7b'] := by
  simp only [Dialect.isOpen, Table.contains, Table.get?, standard, List.lookup_isSome_iff]
  simp [← String.toList_inj]

theorem isClose_standard {c : Char} : standard.isClose (String.singleton c) = true ↔ c ∈ [')', ']', '\x7d'] := by
  simp only [Dialect.isClose, standard, List.any_cons, List.any_nil, Bool.or_false, Bool.or_eq_true, beq_iff_eq]
  simp [← String.toList_inj, eq_comm]

theorem isAtomChar_standard {c : Char} : isAtomChar standard c = true ↔ c ∉ delimiters := by
  have hw : standard.isWhitespace c = true ↔ c ∈ [' ', '\t', '\n', '\r'] := by simp [Dialect.isWhitespace, standard]
  have hp : standard.isPunctuation c = true ↔ c ∈ ['\x27', '\x60', ',', '@', '#', '~', ':'] := by
    simp [Dialect.isPunctuation, standard]
  have hq : standard.stringDelimiter = '"' ∧ standard.commentStart = ';' := ⟨rfl, rfl⟩
  rw [isAtomChar, Bool.not_eq_true', ← Bool.not_eq_true]
  refine not_congr ?_
  simp only [endsAtom, breaksAtom, Bool.or_eq_true, hw, hp, isOpen_standard, isClose_standard, hq, beq_iff_eq,
    delimiters, List.mem_cons, List.not_mem_nil, or_false, or_assoc]

/-! ## Scanning atoms and brackets -/

/-- What may follow an atom: nothing, or a character that ends it. -/
def Stops (rest : List Char) : Prop := ∀ c ∈ rest.head?, endsAtom standard c = true

theorem takeWhile_of_stops {rest : List Char} (h : Stops rest) :
    rest.takeWhile (isAtomChar standard) = [] ∧ rest.dropWhile (isAtomChar standard) = rest := by
  cases rest with
  | nil => exact ⟨rfl, rfl⟩
  | cons c cs =>
    have hc : isAtomChar standard c = false := by simp [isAtomChar, h c rfl]
    simp [hc]

theorem scan_atom {text : List Char} (hne : text ≠ []) (hall : ∀ c ∈ text, isAtomChar standard c = true)
    {rest : List Char} (hrest : Stops rest) (p : Position) : (Cursor.mk (text ++ rest) p).scan standard =
      ((Cursor.mk rest (p.after text)).scan standard).prepend [⟨.atom, String.ofList text, p⟩] := by
  obtain ⟨htake, hdrop⟩ := takeWhile_of_stops hrest
  have hread : readAtom standard p (text ++ rest) = (⟨⟨.atom, String.ofList text, p⟩, none⟩, ⟨rest, p.after text⟩) := by
    simp only [readAtom, List.takeWhile_append_of_pos hall, List.dropWhile_append_of_pos hall, htake, hdrop,
      List.append_nil]
    cases rest with
    | nil => rfl
    | cons c cs => simp [hrest c rfl]
  cases text with
  | nil => exact absurd rfl hne
  | cons c cs =>
    obtain ⟨hw, htoken⟩ := readToken_of_isAtomChar (hall c (by simp)) p (cs ++ rest)
    exact scan_cons standard_solid hw (htoken.trans hread)

theorem scan_open (c : Char) (h : standard.isOpen (String.singleton c) = true) (cs : List Char) (p : Position) :
    (Cursor.mk (c :: cs) p).scan standard =
      ((Cursor.mk cs (p.step c)).scan standard).prepend [⟨.openBracket, String.singleton c, p⟩] := by
  refine scan_cons standard_solid ?_ ?_ <;>
  · rw [isOpen_standard] at h
    simp only [List.mem_cons, List.not_mem_nil, or_false] at h
    rcases h with rfl | rfl | rfl <;> rfl

theorem scan_close (c : Char) (h : standard.isClose (String.singleton c) = true) (cs : List Char) (p : Position) :
    (Cursor.mk (c :: cs) p).scan standard =
      ((Cursor.mk cs (p.step c)).scan standard).prepend [⟨.closeBracket, String.singleton c, p⟩] := by
  refine scan_cons standard_solid ?_ ?_ <;>
  · rw [isClose_standard] at h
    simp only [List.mem_cons, List.not_mem_nil, or_false] at h
    rcases h with rfl | rfl | rfl <;> rfl

end Cursor

/-! ## The characters of numerals -/

namespace Numeral

def isNumeralChar (c : Char) : Bool := c.isAlphanum || c == '.' || c == '+' || c == '-'

theorem isNumeralChar_of_isDigit {c : Char} (h : c.isDigit = true) : isNumeralChar c = true := by
  simp [isNumeralChar, Char.isAlphanum, h]

theorem isNumeralChar_of_hexValue? {c : Char} {v : Nat} (h : hexValue? c = some v) : isNumeralChar c = true := by
  unfold hexValue? at h
  split at h
  · rename_i hd
    exact isNumeralChar_of_isDigit hd
  · split at h
    · rename_i hl
      have : c.isLower = true := by
        simp only [Char.isLower, Bool.and_eq_true, decide_eq_true_eq]
        exact ⟨hl.1, Char.le_trans hl.2 (by decide)⟩
      simp [isNumeralChar, Char.isAlphanum, Char.isAlpha, this]
    · split at h
      · rename_i hu
        have : c.isUpper = true := by
          simp only [Char.isUpper, decide_eq_true_eq]
          exact ⟨hu.1, Char.le_trans hu.2 (by decide)⟩
        simp [isNumeralChar, Char.isAlphanum, Char.isAlpha, this]
      · cases h

theorem all_of_ofHexDigits? : ∀ (cs : List Char) (n m : Nat), ofHexDigits? n cs = some m → cs.all isNumeralChar = true
  | [], _, _, _ => rfl
  | c :: cs, n, m, h => by
    rw [ofHexDigits?] at h
    obtain ⟨v, hv, hcs⟩ := Option.bind_eq_some_iff.1 h
    rw [List.all_cons, isNumeralChar_of_hexValue? hv, all_of_ofHexDigits? cs _ m hcs, Bool.and_true]

theorem all_of_splitSign {cs : List Char} (h : (splitSign cs).2.all isDecimalChar = true) :
    cs.all isDecimalChar = true := by
  unfold splitSign at h
  split at h
  · exact h
  · exact h
  · exact h

theorem all_of_isDigit {cs : List Char} (h : cs.all Char.isDigit = true) : cs.all isDecimalChar = true := by
  rw [List.all_eq_true] at h ⊢
  exact fun c hc => by simp [isDecimalChar, h c hc]

theorem all_of_exponent? : ∀ {cs : List Char} {e : Int}, exponent? cs = some e → cs.all isDecimalChar = true
  | [], _, _ => rfl
  | c :: cs, _, h => by
    simp only [exponent?] at h
    split at h
    · rename_i hc
      obtain ⟨hmark, -, hds⟩ := hc
      rw [List.all_cons, all_of_splitSign (all_of_isDigit hds), Bool.and_true]
      rcases hmark with rfl | rfl <;> rfl
    · cases h

/-- A text is decimal if it goes on so after its leading digits. -/
theorem all_of_dropWhile_isDigit {cs : List Char} (h : (cs.dropWhile Char.isDigit).all isDecimalChar = true) :
    cs.all isDecimalChar = true := by
  rw [← List.takeWhile_append_dropWhile (p := Char.isDigit) (l := cs), List.all_append, h, Bool.and_true]
  exact all_of_isDigit List.all_takeWhile

theorem all_of_splitFraction {cs : List Char} (h : (splitFraction cs).2.all isDecimalChar = true) :
    cs.all isDecimalChar = true := by
  unfold splitFraction at h
  split at h
  · rw [List.all_cons, all_of_dropWhile_isDigit h]
    rfl
  · exact h

theorem all_of_decimal? {cs : List Char} {x : Decimal} (h : decimal? cs = some x) :
    cs ≠ [] ∧ cs.all isDecimalChar = true := by
  simp only [decimal?] at h
  split at h
  · cases h
  · rename_i hne
    obtain ⟨e, he, -⟩ := Option.map_eq_some_iff.1 h
    refine ⟨?_, all_of_dropWhile_isDigit (all_of_splitFraction (all_of_exponent? he))⟩
    rintro rfl
    exact hne ⟨rfl, rfl⟩

/-! ## Numerals at one look

`parse?` counts the signs, filters the characters and only then reads a decimal literal. The reader of decimal literals
refuses second signs and foreign characters by itself, so it is enough to split off one sign and look at what follows
(`parse?_eq_recognise?`). -/

def recogniseBody? (negative : Bool) : List Char → Option Numeral
  | '0' :: 'x' :: cs => (hexadecimal? cs).map (.hexadecimal negative)
  | '0' :: 'X' :: cs => (hexadecimal? cs).map (.hexadecimal negative)
  | cs => (decimal? cs).map (.decimal negative)

def recognise? (text : List Char) : Option Numeral := recogniseBody? (splitSign text).1 (splitSign text).2

theorem trim_eq_nil_iff {p : Char → Bool} {cs : List Char} : trim p cs = [] ↔ cs.all p = true := by
  rw [trim, List.reverse_eq_nil_iff, List.all_eq_true]
  constructor
  · intro h c hc
    have hrest : ∀ d ∈ cs.dropWhile p, p d = true := by
      intro d hd
      exact List.dropWhile_eq_nil_iff.1 h d (List.mem_reverse.2 hd)
    rw [← List.takeWhile_append_dropWhile (p := p) (l := cs), List.mem_append] at hc
    rcases hc with hc | hc
    · exact List.mem_takeWhile_imp hc
    · exact hrest c hc
  · intro h
    rw [List.dropWhile_eq_nil_iff.2 h]
    rfl

theorem isSign_iff {c : Char} : isSign c = true ↔ c = '+' ∨ c = '-' := by simp [isSign]

theorem decimal?_of_isSign {c : Char} (h : isSign c = true) (cs : List Char) : decimal? (c :: cs) = none := by
  rcases isSign_iff.1 h with rfl | rfl <;> simp [decimal?, splitFraction]

/-- Behind its sign a numeral is read at one look. -/
theorem steps_eq_recogniseBody? (negative : Bool) (body : List Char) :
    (if ['0', 'x'].isPrefixOf body ∨ ['0', 'X'].isPrefixOf body then
        (hexadecimal? (body.drop 2)).map (.hexadecimal negative)
      else if trim isDecimalChar body ≠ [] then none
      else (decimal? body).map (.decimal negative)) = recogniseBody? negative body := by
  fun_cases recogniseBody? negative body with
  | case1 cs => simp
  | case2 cs => simp
  | case3 body hx hX =>
    have hmark : ¬ (['0', 'x'].isPrefixOf body = true ∨ ['0', 'X'].isPrefixOf body = true) := by
      rw [List.isPrefixOf_iff_prefix, List.isPrefixOf_iff_prefix]
      rintro (⟨cs, rfl⟩ | ⟨cs, rfl⟩)
      · exact hx cs rfl
      · exact hX cs rfl
    rw [if_neg hmark, ite_not]
    split
    · rfl
    · rename_i htrim
      cases hx : decimal? body with
      | none => rfl
      | some x => exact absurd (trim_eq_nil_iff.2 (all_of_decimal? hx).2) htrim

def Unsigned (cs : List Char) : Prop := ∀ c ∈ cs.head?, isSign c = false

theorem splitSign_of_unsigned {cs : List Char} (h : Unsigned cs) : splitSign cs = (false, cs) := by
  unfold splitSign
  split
  · exact absurd (h '-' rfl) (by decide)
  · exact absurd (h '+' rfl) (by decide)
  · rfl

/-- **The steps of reading a numeral and one look at it** come to the same. -/
theorem parse?_eq_recognise? (text : List Char) : parse? text = recognise? text := by
  unfold parse? signedDecimal?
  dsimp only
  cases text with
  | nil => rfl
  | cons c cs =>
    by_cases hc : isSign c = true
    · have hsign : splitSign (c :: cs) = (c == '-', cs) := by
        rcases isSign_iff.1 hc with rfl | rfl <;> rfl
      have hdrop : (c :: cs).dropWhile isSign = cs.dropWhile isSign := by simp [hc]
      rw [recognise?, hsign, hdrop]
      cases cs with
      | nil => rfl
      | cons d ds =>
        by_cases hd : isSign d = true
        · -- a second sign
          have hshort := Cursor.length_dropWhile_le isSign ds
          have hcount : 1 < (c :: d :: ds).length - ((d :: ds).dropWhile isSign).length := by
            simp only [List.dropWhile_cons, hd, if_true, List.length_cons]
            omega
          rw [if_pos (.inr hcount)]
          have hnone := decimal?_of_isSign hd ds
          rcases isSign_iff.1 hd with rfl | rfl <;> simp [recogniseBody?, hnone]
        · have hbody : (d :: ds).dropWhile isSign = d :: ds := by simp [hd]
          rw [hbody, if_neg (by simp)]
          exact steps_eq_recogniseBody? _ _
    · have hbody : (c :: cs).dropWhile isSign = c :: cs := by simp [hc]
      have hhead : ((c :: cs).head? == some '-') = false := by
        have hminus : c ≠ '-' := by
          rintro rfl
          exact hc rfl
        simpa using hminus
      have hsign : splitSign (c :: cs) = (false, c :: cs) := splitSign_of_unsigned (by simpa [Unsigned] using hc)
      rw [recognise?, hsign, hbody, hhead, if_neg (by simp)]
      exact steps_eq_recogniseBody? _ _

/-! ## What numerals are made of -/

theorem isNumeralChar_of_isDecimalChar {c : Char} (h : isDecimalChar c = true) : isNumeralChar c = true := by
  simp only [isDecimalChar, isSign, Bool.or_eq_true, beq_iff_eq] at h
  rcases h with (((hd | rfl) | rfl) | rfl) | rfl | rfl
  · exact isNumeralChar_of_isDigit hd
  all_goals rfl

theorem all_of_hexadecimal? {cs : List Char} {n : Nat} (h : hexadecimal? cs = some n) :
    cs.all isNumeralChar = true := by
  unfold hexadecimal? at h
  split at h
  · cases h
  · exact all_of_ofHexDigits? cs 0 n (Option.filter_eq_some_iff.1 h).1

/-- **A numeral is made of numeral characters**, and of one at least. -/
theorem all_of_parse? {cs : List Char} {n : Numeral} (h : parse? cs = some n) :
    cs ≠ [] ∧ cs.all isNumeralChar = true := by
  rw [parse?_eq_recognise?, recognise?] at h
  have hbody : (splitSign cs).2 ≠ [] ∧ (splitSign cs).2.all isNumeralChar = true := by
    unfold recogniseBody? at h
    split at h
    · rename_i ds heq
      obtain ⟨v, hv, -⟩ := Option.map_eq_some_iff.1 h
      rw [heq, List.all_cons, List.all_cons, all_of_hexadecimal? hv]
      exact ⟨by simp, rfl⟩
    · rename_i ds heq
      obtain ⟨v, hv, -⟩ := Option.map_eq_some_iff.1 h
      rw [heq, List.all_cons, List.all_cons, all_of_hexadecimal? hv]
      exact ⟨by simp, rfl⟩
    · obtain ⟨x, hx, -⟩ := Option.map_eq_some_iff.1 h
      obtain ⟨hne, hall⟩ := all_of_decimal? hx
      rw [List.all_eq_true] at hall ⊢
      exact ⟨hne, fun c hc => isNumeralChar_of_isDecimalChar (hall c hc)⟩
  obtain ⟨hne, hall⟩ := hbody
  constructor
  · rintro rfl
    exact hne rfl
  · unfold splitSign at hall
    split at hall
    · exact hall
    · exact hall
    · exact hall

theorem isAtomChar_of_isNumeralChar {c : Char} (h : isNumeralChar c = true) : Cursor.isAtomChar standard c = true := by
  have hdel : ∀ c ∈ Cursor.delimiters, isNumeralChar c = false := by decide
  rw [Cursor.isAtomChar_standard]
  intro hc
  rw [hdel c hc] at h
  cases h

end Numeral

/-! ## Readable values -/

namespace Value

/-- Values that some text is read as: a number under the text that it keeps, the constants of the language, symbols that
are one atom and nothing else, and all strings. -/
def Readable : Value → Prop
  | .number text x => standard.atomValue text = .number text x
  | .boolean _ => True
  | .constant name literal => .constant name literal ∈ standard.constants.entries.map Prod.snd
  | .symbol name => name ≠ "" ∧ (∀ c ∈ name.toList, Cursor.isAtomChar standard c = true) ∧
      standard.atomValue name = .symbol name
  | .string _ => True

instance : DecidablePred Readable
  | .number text x => inferInstanceAs (Decidable (standard.atomValue text = .number text x))
  | .boolean _ => inferInstanceAs (Decidable True)
  | .constant name literal =>
    inferInstanceAs (Decidable (Value.constant name literal ∈ standard.constants.entries.map Prod.snd))
  | .symbol name =>
    inferInstanceAs (Decidable (name ≠ "" ∧ (∀ c ∈ name.toList, Cursor.isAtomChar standard c = true) ∧
      standard.atomValue name = .symbol name))
  | .string _ => inferInstanceAs (Decidable True)

def IsAtom (v : Value) (text : String) : Prop :=
  text ≠ "" ∧ (∀ c ∈ text.toList, Cursor.isAtomChar standard c = true) ∧ standard.atomValue text = v

instance (v : Value) (text : String) : Decidable (IsAtom v text) :=
  inferInstanceAs (Decidable (_ ∧ (∀ c ∈ text.toList, _) ∧ _))

end Value

namespace Dialect
open Value (Readable IsAtom)

theorem mem_of_get? {α : Type} {t : Table α} {name : String} {a : α} (h : t.get? name = some a) :
    (name, a) ∈ t.entries := by
  obtain ⟨before, after, he, -⟩ := List.lookup_eq_some_iff.1 h
  rw [he]
  simp

/-- The constants of the language are readable, each under its own name. -/
theorem constants_standard : ∀ e ∈ standard.constants.entries,
    e.2.Readable ∧ e.2.IsAtom e.1 ∧ e.2.surface = e.1 := by
  decide

/-- The value of an atom that is no numeral. -/
theorem atomValue_of_parse?_none {text : String} (h : Numeral.parse? text.toList = none) :
    standard.atomValue text = .symbol text ∨
      ∃ v, (text, v) ∈ standard.constants.entries ∧ standard.atomValue text = v := by
  simp only [atomValue, h]
  cases hg : standard.constants.get? text with
  | none => exact .inl rfl
  | some v => exact .inr ⟨v, mem_of_get? hg, rfl⟩

/-- **Every atom has a readable value.** -/
theorem atomValue_readable {text : String} (hne : text ≠ "")
    (hall : ∀ c ∈ text.toList, Cursor.isAtomChar standard c = true) : (standard.atomValue text).Readable := by
  cases hn : Numeral.parse? text.toList with
  | some n =>
    have hv : standard.atomValue text = .number text n.toDouble := by simp only [atomValue, hn]
    rw [hv]
    exact hv
  | none =>
    rcases atomValue_of_parse?_none hn with hv | ⟨v, hmem, hv⟩
    · rw [hv]
      exact ⟨hne, hall, hv⟩
    · rw [hv]
      exact (constants_standard _ hmem).1

end Dialect

namespace Value

theorem isAtom_number {text : String} {x : Double} (h : standard.atomValue text = .number text x) :
    IsAtom (.number text x) text := by
  cases hn : Numeral.parse? text.toList with
  | some n =>
    obtain ⟨hne, hall⟩ := Numeral.all_of_parse? hn
    refine ⟨fun he => hne (by rw [he]; rfl), fun c hc => ?_, h⟩
    exact Numeral.isAtomChar_of_isNumeralChar (List.all_eq_true.1 hall c hc)
  | none =>
    rcases Dialect.atomValue_of_parse?_none hn with hv | ⟨v, hmem, hv⟩
    · rw [h] at hv
      cases hv
    · rw [← h, hv]
      exact (Dialect.constants_standard _ hmem).2.1

/-- **A readable value is a string, or its surface is an atom** that is read as it. -/
theorem isAtom_surface : ∀ {v : Value}, v.Readable → (∃ s, v = .string s) ∨ v.IsAtom v.surface
  | .number _ _, h => .inr (isAtom_number h)
  | .boolean true, _ => .inr (Dialect.constants_standard ("true", .boolean true) (by decide)).2.1
  | .boolean false, _ => .inr (Dialect.constants_standard ("false", .boolean false) (by decide)).2.1
  | .constant _ _, h => by
    obtain ⟨e, he, heq⟩ := List.mem_map.1 h
    obtain ⟨-, hatom, hsurface⟩ := Dialect.constants_standard e he
    rw [← heq, hsurface]
    exact .inr hatom
  | .symbol _, h => .inr h
  | .string s, _ => .inl ⟨s, rfl⟩

end Value
end QuasiScript
