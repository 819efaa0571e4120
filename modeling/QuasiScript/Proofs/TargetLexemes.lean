import QuasiScript.Proofs.Atoms
import QuasiScript.Proofs.TargetGrammar
import QuasiScript.Proofs.TargetNames

/-!
# Lexemes of the target language

How the text of an expression falls into lexemes (`Lexes`): blanks are left out, and each lexeme is taken as long as it
goes, so that `--` is one sign and `- -` are two. A text falls into lexemes in one way at most (`Lexes.unique`), whatever
alphabet its names are made of. The literals that are written for strings, the numerals of the language and identifiers
are each one lexeme before anything that may follow an operand.
-/
namespace QuasiScript
namespace Target

/-! ## Signs -/

/-- All punctuation of the target, long signs before their beginnings. What begins a comment is none of the signs that
an expression is made of. -/
def signs : List (List Char × Sign) := [
  (['>', '>', '>', '='], .other),
  (['=', '=', '='], .binary .equal), (['!', '=', '='], .binary .unequal), (['.', '.', '.'], .other),
  (['*', '*', '='], .other), (['<', '<', '='], .other), (['>', '>', '='], .other), (['>', '>', '>'], .other),
  (['&', '&', '='], .other), (['|', '|', '='], .other), (['?', '?', '='], .other),
  (['<', '='], .binary .atMost), (['>', '='], .binary .atLeast), (['&', '&'], .binary .and), (['|', '|'], .binary .or),
  (['=', '='], .other), (['!', '='], .other), (['*', '*'], .other), (['+', '+'], .other), (['-', '-'], .other),
  (['<', '<'], .other), (['>', '>'], .other), (['?', '?'], .other), (['?', '.'], .other), (['+', '='], .other),
  (['-', '='], .other), (['*', '='], .other), (['/', '='], .other), (['%', '='], .other), (['&', '='], .other),
  (['|', '='], .other), (['^', '='], .other), (['=', '>'], .other), (['/', '/'], .other), (['/', '*'], .other),
  (['('], .openParen), ([')'], .closeParen), (['['], .openBracket), ([']'], .closeBracket), (['.'], .dot),
  ([','], .comma), (['!'], .not), (['<'], .binary .less), (['>'], .binary .greater), (['+'], .binary .add),
  (['-'], .binary .sub), (['*'], .binary .mul), (['/'], .binary .div), (['%'], .binary .rem), (['\x7b'], .other),
  (['\x7d'], .other), ([';'], .other), (['&'], .other), (['|'], .other), (['^'], .other), (['~'], .other),
  (['?'], .other), ([':'], .other), (['='], .other)]

def readSign (cs : List Char) : Option (Lexeme × List Char) :=
  (signs.find? fun s => s.1.isPrefixOf cs).map fun s => (.sign s.2, cs.drop s.1.length)

/-! ## Words, numbers and strings -/

def readWord (A : Alphabet) (cs : List Char) : Lexeme × List Char :=
  (.word (String.ofList (cs.takeWhile A.continues)), cs.dropWhile A.continues)

def isMagnitude (cs : List Char) : Bool := (Numeral.splitSign cs).2 == cs && (Numeral.parse? cs).isSome

/-- The longest number at the beginning of a text. No name may follow directly. -/
def readNumber (A : Alphabet) (cs : List Char) : Option (Lexeme × List Char) := do
  let n ← cs.inits.reverse.find? isMagnitude
  let rest := cs.drop n.length
  if rest.head?.any A.continues then none else some (.number (String.ofList n), rest)

/-- What an escaped character stands for, unless it introduces a number or ends the line. -/
def unescape? (c : Char) : Option Char :=
  match c with
  | 'n' => some '\n'
  | 't' => some '\t'
  | 'r' => some '\r'
  | 'b' => some '\x08'
  | 'v' => some '\x0b'
  | 'f' => some '\x0c'
  | c => if c.isDigit ∨ c ∈ ['x', 'u', '\n', '\r'] then none else some c

def ofCode? (digits : List Char) : Option Char :=
  (Numeral.ofHexDigits? 0 digits).bind fun n => if n.isValidChar then some (Char.ofNat n) else none

def readString : List Char → Option (List Char × List Char)
  | [] => none
  | c :: cs =>
    if c = '"' then some ([], cs)
    else if c = '\\' then
      match cs with
      | 'u' :: a :: b :: c :: d :: cs => do
        let x ← ofCode? [a, b, c, d]
        let (s, rest) ← readString cs
        pure (x :: s, rest)
      | e :: cs => do
        let x ← unescape? e
        let (s, rest) ← readString cs
        pure (x :: s, rest)
      | [] => none
    else if c = '\n' ∨ c = '\r' then none
    else do
      let (s, rest) ← readString cs
      pure (c :: s, rest)

/-! ## Lexemes -/

def isBlank (c : Char) : Bool := [' ', '\t', '\n', '\r'].contains c

def readLexeme (A : Alphabet) : List Char → Option (Lexeme × List Char)
  | [] => none
  | c :: cs =>
    if isBlank c then none
    else if A.starts c then some (readWord A (c :: cs))
    else if c = '"' then (readString cs).map fun (s, rest) => (.string (String.ofList s), rest)
    else (readNumber A (c :: cs)).or (readSign (c :: cs))

/-- **How a text falls into lexemes.** -/
inductive Lexes (A : Alphabet) : List Char → List Lexeme → Prop where
  | nil : Lexes A [] []
  | blank {c : Char} {cs : List Char} {ts : List Lexeme} : isBlank c = true → Lexes A cs ts → Lexes A (c :: cs) ts
  | lexeme {cs rest : List Char} {t : Lexeme} {ts : List Lexeme} : readLexeme A cs = some (t, rest) → Lexes A rest ts →
      Lexes A cs (t :: ts)

variable {A : Alphabet}

/-- A text falls into lexemes in one way at most. -/
theorem Lexes.unique {cs : List Char} {ts us : List Lexeme} (h : Lexes A cs ts) : Lexes A cs us → ts = us := by
  induction h generalizing us with
  | nil =>
    intro hu
    cases hu with
    | nil => rfl
    | lexeme hr _ => cases hr
  | blank hc _ ih =>
    intro hu
    cases hu with
    | blank _ hrest => exact ih hrest
    | lexeme hr _ => simp [readLexeme, hc] at hr
  | lexeme hr _ ih =>
    intro hu
    cases hu with
    | nil => cases hr
    | blank hc _ => simp [readLexeme, hc] at hr
    | lexeme hr' hrest =>
      rw [hr] at hr'
      cases hr'
      rw [ih hrest]

/-! ## Words -/

def Ends (rest : List Char) : Prop := ∀ c ∈ rest.head?, c ∈ [' ', ')', ']', ',', '(']

theorem continues_of_ends {rest : List Char} (h : Ends rest) : ∀ c ∈ rest.head?, A.continues c = false := by
  have hends : ∀ c ∈ [' ', ')', ']', ',', '('], isPattern c = true ∧ c ≠ '$' := by decide
  intro c hc
  obtain ⟨hpattern, hsign⟩ := hends c (h c hc)
  exact A.continues_pattern c hpattern hsign

theorem starts_ne {c : Char} (h : A.starts c = true) : isBlank c = false ∧ c ≠ '"' ∧ c.isDigit = false := by
  have hpattern : ∀ b ∈ [' ', '\t', '\n', '\r', '"'], isPattern b = true ∧ b ≠ '$' := by decide
  have hne : c ∉ [' ', '\t', '\n', '\r', '"'] := by
    intro hc
    rw [A.starts_pattern (hpattern c hc).1 (hpattern c hc).2] at h
    cases h
  refine ⟨?_, ?_, ?_⟩
  · rw [isBlank, ← Bool.not_eq_true, List.contains_iff_mem]
    intro hc
    exact hne (List.mem_append_left ['"'] hc)
  · rintro rfl
    exact hne (by decide)
  · rw [← Bool.not_eq_true]
    intro hdigit
    rw [A.starts_digit c hdigit] at h
    cases h

theorem isDigit_ne {c : Char} (h : c.isDigit = true) : isBlank c = false ∧ A.starts c = false ∧ c ≠ '"' := by
  have hblank : ∀ b ∈ [' ', '\t', '\n', '\r'], b.isDigit = false := by decide
  refine ⟨?_, ?_, ?_⟩
  · rw [isBlank, ← Bool.not_eq_true, List.contains_iff_mem]
    intro hc
    rw [hblank c hc] at h
    cases h
  · exact A.starts_digit c h
  · rintro rfl
    exact absurd h (by decide)

/-- **An identifier is one word**, before anything that is no part of a name. -/
theorem lexes_word {w rest : List Char} {ts : List Lexeme} (hw : A.isIdentifierName w = true)
    (hrest : ∀ c ∈ rest.head?, A.continues c = false) (h : Lexes A rest ts) :
    Lexes A (w ++ rest) (.word (String.ofList w) :: ts) := by
  obtain ⟨c, cs, rfl, hc, hcs⟩ := A.isIdentifierName_eq_true_iff.1 hw
  have hall : ∀ d ∈ c :: cs, A.continues d = true := by
    intro d hd
    rcases List.mem_cons.1 hd with rfl | hd
    · exact A.continues_of_starts d hc
    · exact hcs d hd
  have hstop : rest.takeWhile A.continues = [] ∧ rest.dropWhile A.continues = rest := by
    cases rest with
    | nil => exact ⟨rfl, rfl⟩
    | cons d rest => simp [hrest d rfl]
  refine .lexeme ?_ h
  have hword : readWord A (c :: cs ++ rest) = (.word (String.ofList (c :: cs)), rest) := by
    rw [readWord, List.takeWhile_append_of_pos hall, List.dropWhile_append_of_pos hall, hstop.1, hstop.2,
      List.append_nil]
  rw [← hword]
  simp [readLexeme, hc, (starts_ne hc).1]

/-! ## Numbers and signs -/

theorem decimal?_cons {c : Char} {cs : List Char} {x : Decimal} (h : Numeral.decimal? (c :: cs) = some x) :
    c.isDigit = true ∨ (c = '.' ∧ ∃ d ∈ cs.head?, d.isDigit = true) := by
  by_cases hd : c.isDigit = true
  · exact .inl hd
  by_cases hc : c = '.'
  · subst hc
    refine .inr ⟨rfl, ?_⟩
    cases cs with
    | nil => simp [Numeral.decimal?, Numeral.splitFraction, Char.isDigit] at h
    | cons d cs =>
      refine ⟨d, rfl, ?_⟩
      by_contra hnd
      simp [Numeral.decimal?, Numeral.splitFraction, hd, hnd] at h
  · have hsplit : Numeral.splitFraction (c :: cs) = ([], c :: cs) := by
      unfold Numeral.splitFraction
      split
      · rename_i heq
        cases heq
        exact absurd rfl hc
      · rfl
    simp [Numeral.decimal?, hd, hsplit] at h

/-- A number begins with a digit, or with a point and a digit. -/
theorem isMagnitude_cons {c : Char} {cs : List Char} (h : isMagnitude (c :: cs) = true) :
    c.isDigit = true ∨ (c = '.' ∧ ∃ d ∈ cs.head?, d.isDigit = true) := by
  simp only [isMagnitude, Bool.and_eq_true, beq_iff_eq] at h
  obtain ⟨hsign, hparse⟩ := h
  rw [Numeral.parse?_eq_recognise?, Numeral.recognise?, hsign, Numeral.recogniseBody?.eq_def] at hparse
  split at hparse
  · rename_i heq
    cases heq
    exact .inl (by decide)
  · rename_i heq
    cases heq
    exact .inl (by decide)
  · rw [Option.isSome_map] at hparse
    obtain ⟨x, hx⟩ := Option.isSome_iff_exists.1 hparse
    exact decimal?_cons hx

theorem find?_reverse_inits {p : List Char → Bool} {n rest : List Char} (hn : p n = true)
    (hlong : ∀ m, m ≠ [] → m <+: rest → p (n ++ m) = false) : (n ++ rest).inits.reverse.find? p = some n := by
  have hself : n.inits.reverse.find? p = some n := by
    rw [List.inits_eq_tails, List.reverse_reverse]
    cases hr : n.reverse with
    | nil =>
      rw [List.reverse_eq_nil_iff] at hr
      subst hr
      simp [hn]
    | cons a l =>
      have : (a :: l).reverse = n := by rw [← hr, List.reverse_reverse]
      rw [List.tails_cons, List.map_cons, this, List.find?_cons, hn]
  have hnone : ((rest.inits.tail).map fun l => n ++ l).reverse.find? p = none := by
    rw [List.find?_eq_none]
    intro m hm
    rw [List.mem_reverse, List.mem_map] at hm
    obtain ⟨l, hl, rfl⟩ := hm
    have hl' : l <+: rest := (List.mem_inits l rest).1 (List.mem_of_mem_tail hl)
    rw [hlong l ?_ hl']
    · simp
    · rintro rfl
      cases rest with
      | nil => simp at hl
      | cons c rest => simp at hl
  rw [List.inits_append, List.reverse_append, List.find?_append, hnone, hself]
  rfl

/-- **A number is one lexeme**, before anything that may follow an operand. -/
theorem lexes_number {n rest : List Char} {ts : List Lexeme} (hn : isMagnitude n = true) (hrest : Ends rest)
    (h : Lexes A rest ts) : Lexes A (n ++ rest) (.number (String.ofList n) :: ts) := by
  have hends : ∀ c ∈ [' ', ')', ']', ',', '('], Numeral.isNumeralChar c = false := by decide
  have hfind : (n ++ rest).inits.reverse.find? isMagnitude = some n := by
    refine find?_reverse_inits hn fun m hne hm => ?_
    -- a longer number would contain what follows
    rw [← Bool.not_eq_true]
    intro hmag
    simp only [isMagnitude, Bool.and_eq_true] at hmag
    obtain ⟨k, hk⟩ := Option.isSome_iff_exists.1 hmag.2
    have hall := List.all_eq_true.1 (Numeral.all_of_parse? hk).2
    cases m with
    | nil => exact hne rfl
    | cons c m =>
      obtain ⟨rest', rfl⟩ := hm
      have hc := hends c (hrest c rfl)
      rw [hall c (by simp)] at hc
      cases hc
  have hnumber : readNumber A (n ++ rest) = some (.number (String.ofList n), rest) := by
    have hnone : rest.head?.any A.continues = false := by
      cases rest with
      | nil => rfl
      | cons c rest => simpa using continues_of_ends hrest c rfl
    rw [readNumber, hfind]
    simp only [Option.bind_eq_bind, Option.bind_some, List.drop_left, hnone, Bool.false_eq_true, if_false]
  refine .lexeme ?_ h
  cases n with
  | nil => exact absurd hn (by decide)
  | cons c n =>
    have hc : isBlank c = false ∧ A.starts c = false ∧ c ≠ '"' := by
      rcases isMagnitude_cons hn with hd | ⟨rfl, -⟩
      · exact isDigit_ne hd
      · exact ⟨by decide, A.starts_pattern (by decide) (by decide), by decide⟩
    rw [List.cons_append] at hnumber ⊢
    simp [readLexeme, hc, hnumber]

theorem readNumber_eq_none {c : Char} {cs : List Char} (hc : c.isDigit = false)
    (hdot : c = '.' → ∀ d ∈ cs.head?, d.isDigit = false) : readNumber A (c :: cs) = none := by
  have hfind : (c :: cs).inits.reverse.find? isMagnitude = none := by
    rw [List.find?_eq_none]
    intro m hm
    rw [List.mem_reverse, List.mem_inits] at hm
    intro hmag
    cases m with
    | nil => exact absurd hmag (by decide)
    | cons d m =>
      obtain ⟨rest, hrest⟩ := hm
      obtain ⟨rfl, rfl⟩ := List.cons.inj hrest
      rcases isMagnitude_cons hmag with hd | ⟨rfl, d, hd, hdigit⟩
      · rw [hc] at hd
        cases hd
      · cases m with
        | nil => cases hd
        | cons d' m =>
          cases hd
          rw [hdot rfl d rfl] at hdigit
          cases hdigit
  rw [readNumber, hfind]
  rfl

def signStarts : List Char := ['(', ')', '[', ']', ',', '!', '<', '>', '+', '-', '*', '/', '%', '=', '&', '|']

theorem lexes_sign {c : Char} {cs rest : List Char} {s : Sign} {ts : List Lexeme}
    (hc : c ∈ signStarts)
    (hs : readSign (c :: cs) = some (.sign s, rest)) (h : Lexes A rest ts) : Lexes A (c :: cs) (.sign s :: ts) := by
  have hstart : ∀ c ∈ signStarts, (isPattern c = true ∧ c ≠ '$') ∧
      isBlank c = false ∧ c ≠ '"' ∧ c.isDigit = false ∧ c ≠ '.' := by decide
  obtain ⟨⟨hpattern, hsign⟩, hblank, hquote, hdigit, hdot⟩ := hstart c hc
  have hname : A.starts c = false := A.starts_pattern hpattern hsign
  have hnumber : readNumber A (c :: cs) = none := readNumber_eq_none hdigit fun h => absurd h hdot
  refine .lexeme ?_ h
  simp [readLexeme, hblank, hname, hquote, hnumber, hs]

theorem lexes_dot {c : Char} {cs : List Char} {ts : List Lexeme} (hc : A.starts c = true) (h : Lexes A (c :: cs) ts) :
    Lexes A ('.' :: c :: cs) (.sign .dot :: ts) := by
  have hnumber : readNumber A ('.' :: c :: cs) = none := by
    refine readNumber_eq_none (by decide) fun _ d hd => ?_
    cases hd
    exact (starts_ne hc).2.2
  have hdots : c ≠ '.' := by
    rintro rfl
    rw [A.starts_pattern (by decide) (by decide)] at hc
    cases hc
  have hsign : readSign ('.' :: c :: cs) = some (.sign .dot, c :: cs) := by
    simp [readSign, signs, List.isPrefixOf, hdots.symm]
  refine .lexeme ?_ h
  have hstart : isBlank '.' = false ∧ A.starts '.' = false :=
    ⟨by decide, A.starts_pattern (by decide) (by decide)⟩
  simp [readLexeme, hstart, hnumber, hsign]

/-! ## Strings -/

theorem hexValue?_hexDigit (n : Nat) : Numeral.hexValue? (Text.hexDigit n) = some (n % 16) := by
  have hdigit : ∀ k < 16, Numeral.hexValue? (Text.hexDigit k) = some k := by decide
  have hmod : Text.hexDigit n = Text.hexDigit (n % 16) := by simp [Text.hexDigit]
  rw [hmod, hdigit (n % 16) (Nat.mod_lt n (by decide))]

theorem ofHexDigits?_append : ∀ (cs ds : List Char) (n : Nat),
    Numeral.ofHexDigits? n (cs ++ ds) = (Numeral.ofHexDigits? n cs).bind fun m => Numeral.ofHexDigits? m ds
  | [], _, _ => rfl
  | c :: cs, ds, n => by
    rw [List.cons_append, Numeral.ofHexDigits?, Numeral.ofHexDigits?]
    cases Numeral.hexValue? c with
    | none => rfl
    | some v => exact ofHexDigits?_append cs ds (16 * n + v)

theorem ofHexDigits?_hex : ∀ (width n : Nat), Numeral.ofHexDigits? 0 (Text.hex width n) = some (n % 16 ^ width)
  | 0, n => by simp [Text.hex, Numeral.ofHexDigits?, Nat.mod_one]
  | width + 1, n => by
    rw [Text.hex, ofHexDigits?_append, ofHexDigits?_hex width, Option.bind_some, Numeral.ofHexDigits?,
      hexValue?_hexDigit, Option.bind_some, Numeral.ofHexDigits?]
    rw [pow_succ, Nat.mul_comm (16 ^ width), Nat.mod_mul, Nat.add_comm]

theorem ofCode?_hex {c : Char} (h : c.toNat < 0x10000) : ofCode? (Text.hex 4 c.toNat) = some c := by
  have hv : c.toNat.isValidChar := c.valid
  have hmod : c.toNat % 16 ^ 4 = c.toNat := Nat.mod_eq_of_lt (by omega)
  rw [ofCode?, ofHexDigits?_hex, hmod, Option.bind_some, if_pos hv, Char.ofNat_toNat]

theorem readString_simple {e x : Char} (he : unescape? e = some x) (cs : List Char) :
    readString ('\\' :: e :: cs) = (readString cs).map fun p => (x :: p.1, p.2) := by
  have hu : e ≠ 'u' := by
    rintro rfl
    cases he
  rw [readString, if_neg (by decide), if_pos rfl, he]
  · cases readString cs <;> rfl
  · exact fun _ _ _ _ _ h _ => hu h

theorem readString_code {a b c d x : Char} (h : ofCode? [a, b, c, d] = some x) (cs : List Char) :
    readString ('\\' :: 'u' :: a :: b :: c :: d :: cs) = (readString cs).map fun p => (x :: p.1, p.2) := by
  rw [readString, if_neg (by decide), if_pos rfl]
  simp only [h]
  cases readString cs <;> rfl

theorem readString_char {c : Char} (hc : c ∉ ['"', '\\', '\n', '\r']) (cs : List Char) :
    readString (c :: cs) = (readString cs).map fun p => (c :: p.1, p.2) := by
  simp only [List.mem_cons, List.not_mem_nil, or_false, not_or] at hc
  obtain ⟨hquote, hslash, hnewline, hreturn⟩ := hc
  rw [readString.eq_def]
  simp only [hquote, hslash, hnewline, hreturn, or_self, if_false]
  cases readString cs <;> rfl

/-- One character of a literal is read as that character, escaped or not. -/
theorem readString_escape (c : Char) (cs : List Char) :
    readString (escape c ++ cs) = (readString cs).map fun p => (c :: p.1, p.2) := by
  unfold escape
  split
  · exact readString_simple rfl cs
  · exact readString_simple rfl cs
  · exact readString_simple rfl cs
  · exact readString_simple rfl cs
  · exact readString_simple rfl cs
  · rename_i hquote hslash hnewline _ hreturn
    split
    · rename_i hcode
      have hlt : c.toNat < 0x10000 := by omega
      exact readString_code (ofCode?_hex hlt) cs
    · refine readString_char ?_ cs
      simp only [List.mem_cons, List.not_mem_nil, or_false, not_or]
      exact ⟨hquote, hslash, hnewline, hreturn⟩

theorem readString_flatMap_escape (rest : List Char) : ∀ s : List Char,
    readString (s.flatMap escape ++ '"' :: rest) = some (s, rest)
  | [] => by
    rw [List.flatMap_nil, List.nil_append, readString.eq_def]
    simp
  | c :: s => by
    rw [List.flatMap_cons, List.append_assoc, readString_escape, readString_flatMap_escape rest s]
    rfl

/-- **The literal of a string is one lexeme** with its contents. -/
theorem lexes_quote (s : String) {rest : List Char} {ts : List Lexeme} (h : Lexes A rest ts) :
    Lexes A ((quote s).toList ++ rest) (.string s :: ts) := by
  have hcat : (quote s).toList ++ rest = '"' :: (s.toList.flatMap escape ++ '"' :: rest) := by simp [quote]
  have hstart : isBlank '"' = false ∧ A.starts '"' = false :=
    ⟨by decide, A.starts_pattern (by decide) (by decide)⟩
  rw [hcat]
  refine .lexeme ?_ h
  simp [readLexeme, hstart, readString_flatMap_escape]

end Target
end QuasiScript
