import QuasiScript.Proofs.TargetLexemes

/-!
# String literals denote their contents

A string literal of the target stands between two quotes. What may stand inside is said here without reference to how a
literal is written (`IsInside`): no control character, no line separator, and no quote but an escaped one. The text that
the inside denotes is given by the rules of the target (`decode?`), which know a few escaped characters and codes of
four digits, and nothing else. The literal of a text obeys the first and is undone by the second (`quote_denotes`). Both
are shown character by character, for what is written for one character (`escape`).
-/
namespace QuasiScript
namespace Target

/-- Characters that a literal holds in escaped form only, apart from the quote and the backslash: control characters and
the two line separators. -/
def IsHidden (c : Char) : Prop := c.toNat < 0x20 ∨ c.toNat = 0x2028 ∨ c.toNat = 0x2029

instance : DecidablePred IsHidden := fun _ => inferInstanceAs (Decidable (_ ∨ _ ∨ _))

def escapeStep (opened : Bool) (c : Char) : Bool := !opened && c == '\\'

def opensEscape (text : List Char) : Bool := text.foldl escapeStep false

/-- **What may stand between the quotes of a literal.** All quotes inside are escaped and the one that follows is not,
so that the literal ends there and not before. -/
structure IsInside (body : List Char) : Prop where
  visible : ∀ c ∈ body, ¬ IsHidden c
  quotes : ∀ before after, body = before ++ '"' :: after → opensEscape before = true
  closed : opensEscape body = false

def escapes : List (Char × Char) := [('"', '"'), ('\\', '\\'), ('n', '\n'), ('t', '\t'), ('r', '\r')]

/-- The text that the inside of a literal denotes: escaped characters and codes of four hexadecimal digits for what they
stand for, every other character for itself. -/
def decode? : List Char → Option (List Char)
  | [] => some []
  | c :: cs =>
    if c = '\\' then
      match cs with
      | 'u' :: i :: j :: k :: l :: cs => (ofCode? [i, j, k, l]).bind fun x => (decode? cs).map (x :: ·)
      | e :: cs => (escapes.lookup e).bind fun x => (decode? cs).map (x :: ·)
      | [] => none
    else if c = '"' ∨ IsHidden c then none
    else (decode? cs).map (c :: ·)

/-! ## Codes -/

theorem mem_hex {c : Char} : ∀ {width n : Nat}, c ∈ Text.hex width n → ∃ k < 16, c = Text.hexDigit k
  | 0, _, h => by cases h
  | width + 1, n, h => by
    rw [Text.hex, List.mem_append, List.mem_singleton] at h
    rcases h with h | rfl
    · exact mem_hex h
    · exact ⟨n % 16, Nat.mod_lt n (by decide), by simp [Text.hexDigit]⟩

theorem hex_plain {c : Char} {width n : Nat} (h : c ∈ Text.hex width n) : c ≠ '"' ∧ c ≠ '\\' ∧ ¬ IsHidden c := by
  have hdigit : ∀ k < 16, Text.hexDigit k ≠ '"' ∧ Text.hexDigit k ≠ '\\' ∧ ¬ IsHidden (Text.hexDigit k) := by decide
  obtain ⟨k, hk, rfl⟩ := mem_hex h
  exact hdigit k hk

/-! ## One character -/

/-- **The three ways to write a character**: as itself, after a backslash, or as a code. -/
theorem escape_eq (c : Char) :
    (escape c = [c] ∧ c ≠ '"' ∧ c ≠ '\\' ∧ ¬ IsHidden c) ∨ (∃ e, escape c = ['\\', e] ∧ (e, c) ∈ escapes) ∨
      (escape c = '\\' :: 'u' :: Text.hex 4 c.toNat ∧ c.toNat < 0x10000) := by
  unfold escape
  split
  · exact .inr (.inl ⟨'"', rfl, by decide⟩)
  · exact .inr (.inl ⟨'\\', rfl, by decide⟩)
  · exact .inr (.inl ⟨'n', rfl, by decide⟩)
  · exact .inr (.inl ⟨'t', rfl, by decide⟩)
  · exact .inr (.inl ⟨'r', rfl, by decide⟩)
  · rename_i hquote hslash _ _ _
    split
    · exact .inr (.inr ⟨rfl, by omega⟩)
    · rename_i hshown
      exact .inl ⟨rfl, hquote, hslash, hshown⟩

theorem opensEscape_append (xs ys : List Char) : opensEscape (xs ++ ys) = ys.foldl escapeStep (opensEscape xs) :=
  List.foldl_append

theorem opensEscape_plain {xs : List Char} (h : '\\' ∉ xs) : xs.foldl escapeStep false = false := by
  induction xs with
  | nil => rfl
  | cons x xs ih =>
    rw [List.mem_cons, not_or] at h
    have hx : escapeStep false x = false := by simpa [escapeStep] using Ne.symm h.1
    rw [List.foldl_cons, hx, ih h.2]

theorem isInside_nil : IsInside [] := ⟨by simp, by simp, rfl⟩

theorem IsInside.append {xs ys : List Char} (hx : IsInside xs) (hy : IsInside ys) : IsInside (xs ++ ys) := by
  refine ⟨fun c hc => (List.mem_append.1 hc).elim (hx.visible c) (hy.visible c), fun before after h => ?_, ?_⟩
  · rcases List.append_eq_append_iff.1 h with ⟨mid, rfl, hys⟩ | ⟨mid, hxs, hquote⟩
    · rw [opensEscape_append, hx.closed]
      exact hy.quotes mid after hys
    · cases mid with
      | nil => exact absurd (hy.quotes [] after hquote.symm) (by decide)
      | cons q mid =>
        obtain ⟨rfl, -⟩ := List.cons.inj hquote
        exact hx.quotes before mid hxs
  · rw [opensEscape_append, hx.closed]
    exact hy.closed

/-- What is written for one character leaves no quote open and no escape. -/
theorem isInside_escape (c : Char) : IsInside (escape c) := by
  rcases escape_eq c with ⟨he, hquote, hslash, hshown⟩ | ⟨e, he, hmem⟩ | ⟨he, -⟩ <;> rw [he]
  · refine ⟨by simpa using hshown, fun before after h => ?_, opensEscape_plain (by simpa using Ne.symm hslash)⟩
    have : '"' ∈ [c] := h ▸ by simp
    exact absurd (List.mem_singleton.1 this).symm hquote
  · have hshown : ∀ p ∈ escapes, ¬ IsHidden p.1 := by decide
    refine ⟨?_, fun before after h => ?_, ?_⟩
    · simpa [show ¬ IsHidden '\\' by decide] using hshown _ hmem
    · -- the quote is the escaped character
      rcases before with _ | ⟨b, _ | ⟨b', before⟩⟩
      · cases h
      · obtain ⟨rfl, -⟩ := List.cons.inj h
        rfl
      · simp at h
    · simp [opensEscape, escapeStep]
  · have hplain : ∀ x ∈ Text.hex 4 c.toNat, x ≠ '"' ∧ x ≠ '\\' ∧ ¬ IsHidden x := fun x hx => hex_plain hx
    refine ⟨?_, fun before after h => ?_, ?_⟩
    · simpa [show ¬ IsHidden '\\' ∧ ¬ IsHidden 'u' by decide] using fun x hx => (hplain x hx).2.2
    · have hmem : '"' ∈ '\\' :: 'u' :: Text.hex 4 c.toNat := h ▸ by simp
      have : '"' ∈ Text.hex 4 c.toNat := by simpa using hmem
      exact absurd rfl (hplain _ this).1
    · have hslash : '\\' ∉ Text.hex 4 c.toNat := fun hx => (hplain _ hx).2.1 rfl
      rw [opensEscape, List.foldl_cons, List.foldl_cons]
      exact opensEscape_plain hslash

/-- One character is read from what is written for it, and no more. -/
theorem decode?_escape (c : Char) (cs : List Char) : decode? (escape c ++ cs) = (decode? cs).map (c :: ·) := by
  rcases escape_eq c with ⟨he, hquote, hslash, hshown⟩ | ⟨e, he, hmem⟩ | ⟨he, hlt⟩ <;> rw [he]
  · rw [List.singleton_append, decode?.eq_def]
    simp [hquote, hslash, hshown]
  · have hlookup : ∀ p ∈ escapes, p.1 ≠ 'u' ∧ escapes.lookup p.1 = some p.2 := by decide
    obtain ⟨hu, hx⟩ := hlookup _ hmem
    simp only [List.cons_append, List.nil_append]
    rw [decode?, if_pos rfl]
    · rw [hx, Option.bind_some]
    · exact fun _ _ _ _ _ h _ => hu h
  · obtain ⟨i, j, k, l, hdigits⟩ : ∃ i j k l, Text.hex 4 c.toNat = [i, j, k, l] := ⟨_, _, _, _, rfl⟩
    have hcode := ofCode?_hex hlt
    rw [hdigits] at hcode
    rw [hdigits]
    simp only [List.cons_append, List.nil_append]
    rw [decode?, if_pos rfl]
    simp [hcode]

/-! ## Literals -/

theorem isInside_flatMap_escape (s : List Char) : IsInside (s.flatMap escape) := by
  induction s with
  | nil => exact isInside_nil
  | cons c s ih => exact (isInside_escape c).append ih

theorem decode?_flatMap_escape (s : List Char) : decode? (s.flatMap escape) = some s := by
  induction s with
  | nil => rfl
  | cons c s ih => rw [List.flatMap_cons, decode?_escape, ih, Option.map_some]

/-- **The literal of a text denotes the text.** Between its quotes stands nothing that may not stand there, it decodes
to the text, and whatever follows, a reader of the target takes it up to its closing quote and no further. -/
theorem quote_denotes (s : String) : ∃ body, (quote s).toList = '"' :: (body ++ ['"']) ∧ IsInside body ∧
    decode? body = some s.toList ∧ ∀ rest, readString (body ++ '"' :: rest) = some (s.toList, rest) :=
  ⟨s.toList.flatMap escape, by simp [quote], isInside_flatMap_escape _, decode?_flatMap_escape _,
    fun rest => readString_flatMap_escape rest s.toList⟩

end Target
end QuasiScript
