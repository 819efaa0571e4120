import Mathlib
import QuasiScript.Cursor

/-!
# The scan, token by token

`Cursor.scan` ends at the end of the text, ends with a token that carries an error, or goes on behind a token. The three
equations and the induction along them are stated once, for every dialect without empty punctuation; what a scan does
after a newline is put together from what one token does there (`scan_append_newline`).
-/
namespace QuasiScript

namespace Text
variable {cs : List Char} {p : Char → Prop} [DecidablePred p]

/-! What is said of the characters of a text is decided along the text, not along all characters there are. -/

instance (priority := high) decidableForallMem : Decidable (∀ c ∈ cs, p c) := List.decidableBAll p cs

instance (priority := high) decidableExistsMem : Decidable (∃ c ∈ cs, p c) := List.decidableBEx p cs

end Text

namespace Scan

def prepend (ts : List Token) (s : Scan) : Scan := ⟨ts ++ s.tokens, s.ending⟩

@[simp] theorem prepend_nil (s : Scan) : s.prepend [] = s := rfl

@[simp] theorem prepend_prepend (ts us : List Token) (s : Scan) : (s.prepend us).prepend ts = s.prepend (ts ++ us) := by
  simp [prepend]

@[simp] theorem prepend_tokens (ts : List Token) (s : Scan) : (s.prepend ts).tokens = ts ++ s.tokens := rfl

@[simp] theorem prepend_ending (ts : List Token) (s : Scan) : (s.prepend ts).ending = s.ending := rfl

end Scan

namespace Token

def Regular (d : Dialect) (t : Token) : Prop :=
  match t.kind with
  | .atom => t.lexeme ≠ "" ∧ ∀ c ∈ t.lexeme.toList, Cursor.isAtomChar d c = true
  | .punctuation => t.lexeme ≠ ""
  | .openBracket => d.isOpen t.lexeme = true
  | .closeBracket => d.isClose t.lexeme = true
  | .string | .comment => True
  | .endOfStream => False

end Token

namespace Cursor
open Dialect (standard)

variable {d : Dialect}

/-! ## The three ways a scan goes -/

theorem scan_of_atEnd {c : Cursor} (h : c.atEnd d = true) : c.scan d = ⟨[], .finished (c.skipWhitespace d).pos⟩ := by
  rw [scan, dif_pos h]

theorem scan_of_error {c c' : Cursor} {t : Token} {e : ReadError} (h : c.atEnd d = false)
    (hn : c.next d = (⟨t, some e⟩, c')) : c.scan d = ⟨[], .broken t e⟩ := by
  rw [scan, dif_neg (by simp [h])]
  split
  · rename_i heq
    rw [hn] at heq
    cases heq
    rfl
  · rename_i heq
    rw [hn] at heq
    cases heq

theorem scan_of_token {c c' : Cursor} {t : Token} (h : c.atEnd d = false) (hn : c.next d = (⟨t, none⟩, c'))
    (hv : isVoid t = false) : c.scan d = (c'.scan d).prepend [t] := by
  rw [scan, dif_neg (by simp [h])]
  split
  · rename_i heq
    rw [hn] at heq
    cases heq
  · rename_i heq
    rw [hn] at heq
    cases heq
    rw [dif_neg (by simp [hv])]
    rfl

/-- What is left after the whitespace, unless only whitespace remains. -/
theorem exists_of_not_atEnd {c : Cursor} (h : c.atEnd d = false) :
    ∃ ch cs, c.rest.dropWhile d.isWhitespace = ch :: cs ∧ d.isWhitespace ch = false := by
  cases hd : c.rest.dropWhile d.isWhitespace with
  | nil =>
    have hall : c.atEnd d = true := by
      rw [atEnd, List.all_eq_true]
      exact List.dropWhile_eq_nil_iff.1 hd
    rw [h] at hall
    cases hall
  | cons ch cs =>
    refine ⟨ch, cs, rfl, ?_⟩
    have := List.head?_dropWhile_not d.isWhitespace c.rest
    rw [hd] at this
    simpa using this

theorem next_of_dropWhile {c : Cursor} {ch : Char} {cs : List Char} (h : c.rest.dropWhile d.isWhitespace = ch :: cs) :
    c.next d = readToken d (c.skipWhitespace d).pos ch cs := by
  simp only [next, skipWhitespace, past, h]

/-! ## No token is void -/

theorem not_void_of_kind {t : Token} (h : t.kind ≠ .punctuation) : isVoid t = false := by
  simp [isVoid, h]

theorem readPunctuation_not_void (hd : "" ∉ d.longPunctuation) (p : Position) (c : Char) (cs : List Char) :
    isVoid (readPunctuation d p c cs).1.token = false := by
  simp only [isVoid, readPunctuation, beq_self_eq_true, Bool.true_and, beq_eq_false_iff_ne]
  cases hf : d.longPunctuation.find? fun p => p.toList.isPrefixOf (c :: cs) with
  | none => simp
  | some l =>
    intro hl
    rw [Option.getD_some] at hl
    exact hd (hl ▸ List.mem_of_find?_eq_some hf)

/-- **No token is void** once no punctuation is empty. -/
theorem readToken_not_void (hd : "" ∉ d.longPunctuation) (p : Position) (c : Char) (cs : List Char) :
    isVoid (readToken d p c cs).1.token = false := by
  rw [readToken]
  split
  · exact not_void_of_kind (by simp [readString])
  · split
    · exact not_void_of_kind (by simp [readComment])
    · split
      · exact readPunctuation_not_void hd p c cs
      · split
        · exact not_void_of_kind (by simp [readBracket])
        · split
          · exact not_void_of_kind (by simp [readBracket])
          · exact not_void_of_kind (by simp [readAtom])

theorem next_not_void (hd : "" ∉ d.longPunctuation) {c : Cursor} (h : c.atEnd d = false) :
    isVoid (c.next d).1.token = false := by
  obtain ⟨ch, cs, hcs, -⟩ := exists_of_not_atEnd h
  rw [next_of_dropWhile hcs]
  exact readToken_not_void hd _ ch cs

/-- **Induction along a scan**: at the end, at a token with an error, and from behind a token to before it. -/
theorem scan_induction (hd : "" ∉ d.longPunctuation) {P : Cursor → Prop}
    (atEnd : ∀ c : Cursor, c.atEnd d = true → P c)
    (error : ∀ (c c' : Cursor) (t : Token) (e : ReadError), c.atEnd d = false → c.next d = (⟨t, some e⟩, c') → P c)
    (token : ∀ (c c' : Cursor) (t : Token), c.atEnd d = false → c.next d = (⟨t, none⟩, c') → isVoid t = false →
      P c' → P c) (c : Cursor) : P c := by
  induction hl : c.rest.length using Nat.strongRecOn generalizing c with
  | ind l ih =>
    cases he : c.atEnd d with
    | true => exact atEnd c he
    | false =>
      have hv := next_not_void hd he
      have hlt := next_lt d c he hv
      rcases hn : c.next d with ⟨⟨t, e⟩, c'⟩
      cases e with
      | some e => exact error c c' t e he hn
      | none =>
        rw [hn] at hv hlt
        exact token c c' t he hn hv (ih _ (hl ▸ hlt) c' rfl)

/-! ## Whitespace -/

theorem scan_whitespace (hd : "" ∉ d.longPunctuation) {w : Char} (hw : d.isWhitespace w = true) (cs : List Char)
    (p : Position) : (Cursor.mk (w :: cs) p).scan d = (Cursor.mk cs (p.step w)).scan d := by
  have hskip : (Cursor.mk (w :: cs) p).skipWhitespace d = (Cursor.mk cs (p.step w)).skipWhitespace d := by
    simp [skipWhitespace, past, hw]
  have hnext : (Cursor.mk (w :: cs) p).next d = (Cursor.mk cs (p.step w)).next d := by
    simp only [next, hskip]
  have hend : (Cursor.mk (w :: cs) p).atEnd d = (Cursor.mk cs (p.step w)).atEnd d := by
    simp [atEnd, hw]
  cases he : (Cursor.mk cs (p.step w)).atEnd d with
  | true => rw [scan_of_atEnd he, scan_of_atEnd (hend.trans he), hskip]
  | false =>
    have hv := next_not_void hd he
    rcases hn : (Cursor.mk cs (p.step w)).next d with ⟨⟨t, e⟩, c'⟩
    cases e with
    | some e => rw [scan_of_error he hn, scan_of_error (hend.trans he) (hnext.trans hn)]
    | none =>
      rw [hn] at hv
      rw [scan_of_token he hn hv, scan_of_token (hend.trans he) (hnext.trans hn) hv]

/-- A token at the cursor is scanned first. -/
theorem scan_cons (hd : "" ∉ d.longPunctuation) {c : Char} {cs : List Char} {p : Position} {t : Token} {c' : Cursor}
    (hc : d.isWhitespace c = false) (h : readToken d p c cs = (⟨t, none⟩, c')) :
    (Cursor.mk (c :: cs) p).scan d = (c'.scan d).prepend [t] := by
  have hend : (Cursor.mk (c :: cs) p).atEnd d = false := by simp [atEnd, hc]
  have hnext : (Cursor.mk (c :: cs) p).next d = (⟨t, none⟩, c') := by
    rw [← h]
    simp [next, skipWhitespace, past, hc]
  have hv := next_not_void hd hend
  rw [hnext] at hv
  exact scan_of_token hend hnext hv

theorem scan_whitespaces (hd : "" ∉ d.longPunctuation) : ∀ (ws : List Char) (cs : List Char) (p : Position),
    ws.all d.isWhitespace = true → (Cursor.mk (ws ++ cs) p).scan d = (Cursor.mk cs (p.after ws)).scan d
  | [], _, _, _ => rfl
  | w :: ws, cs, p, h => by
    rw [List.all_cons, Bool.and_eq_true] at h
    rw [List.cons_append, scan_whitespace hd h.1, scan_whitespaces hd ws cs _ h.2, Position.after_cons]

/-! ## Tokens are regular -/

theorem isAtomChar_of_not {c : Char} (h1 : d.isWhitespace c = false) (h2 : c ≠ d.stringDelimiter)
    (h3 : c ≠ d.commentStart) (h4 : ¬ d.isPunctuation c = true) (h5 : ¬ d.isOpen (String.singleton c) = true)
    (h6 : ¬ d.isClose (String.singleton c) = true) : isAtomChar d c = true := by
  simp only [Bool.not_eq_true] at h4 h5 h6
  simp [isAtomChar, endsAtom, breaksAtom, h1, h2, h3, h4, h5, h6]

theorem readToken_of_isAtomChar {c : Char} (h : isAtomChar d c = true) (p : Position) (cs : List Char) :
    d.isWhitespace c = false ∧ readToken d p c cs = readAtom d p (c :: cs) := by
  simp only [isAtomChar, endsAtom, breaksAtom, Bool.not_eq_true', Bool.or_eq_false_iff, beq_eq_false_iff_ne] at h
  obtain ⟨⟨⟨hw, hclose⟩, hcomment⟩, ⟨hstring, hopen⟩, hpunct⟩ := h
  simp [readToken, hw, hclose, hcomment, hstring, hopen, hpunct]

theorem readToken_regular (hd : "" ∉ d.longPunctuation) (p : Position) {c : Char} (cs : List Char)
    (hc : d.isWhitespace c = false) : (readToken d p c cs).1.token.Regular d := by
  have hv := readToken_not_void hd p c cs
  rw [readToken] at hv ⊢
  split
  · trivial
  · split
    · trivial
    · rename_i h1 h2
      split
      · rename_i h3
        simp only [h1, h2, h3, if_true, if_false] at hv
        simpa [Token.Regular, readPunctuation, isVoid] using hv
      · split
        · assumption
        · split
          · assumption
          · rename_i h3 h4 h5
            have ha := isAtomChar_of_not hc h1 h2 h3 h4 h5
            refine ⟨?_, fun b hb => ?_⟩
            · simp [readAtom, ha]
            · simp only [readAtom, String.toList_ofList] at hb
              exact List.mem_takeWhile_imp hb

/-- **Every token of a scan is regular.** -/
theorem scan_regular (hd : "" ∉ d.longPunctuation) (c : Cursor) : ∀ t ∈ (c.scan d).tokens, t.Regular d := by
  induction c using scan_induction hd with
  | atEnd c h =>
    rw [scan_of_atEnd h]
    simp
  | error c c' t e h hn =>
    rw [scan_of_error h hn]
    simp
  | token c c' t h hn hv ih =>
    rw [scan_of_token h hn hv]
    intro u hu
    rcases List.mem_cons.1 hu with rfl | hu
    · obtain ⟨ch, cs, hcs, hch⟩ := exists_of_not_atEnd h
      have := readToken_regular hd (c.skipWhitespace d).pos cs hch
      rwa [← next_of_dropWhile hcs, hn] at this
    · exact ih u hu

/-! ## The inside of a string -/

def StringBody.cons (c : Char) (b : StringBody) : StringBody := { b with contents := c :: b.contents }

section
variable {del esc : Char}
theorem stringBody_delimiter (cs : List Char) (p : Position) :
    stringBody del esc (del :: cs) p = ⟨[], ⟨cs, p.step del⟩, true⟩ := by
  rw [stringBody.eq_def]
  simp

theorem stringBody_escape (h : esc ≠ del) (e : Char) (cs : List Char) (p : Position) :
    stringBody del esc (esc :: e :: cs) p = (stringBody del esc cs ((p.step esc).step e)).cons (unescape e) := by
  rw [stringBody, if_neg h, if_pos rfl]
  rfl

theorem stringBody_char {c : Char} (h : c ≠ del) (h' : c ≠ esc) (cs : List Char) (p : Position) :
    stringBody del esc (c :: cs) p = (stringBody del esc cs (p.step c)).cons c := by
  rw [stringBody.eq_def]
  simp only [if_neg h, if_neg h']
  rfl

theorem stringBody_append_of_closed (x : List Char) (cs : List Char) (p : Position)
    (h : (stringBody del esc cs p).closed = true) : stringBody del esc (cs ++ x) p =
      { stringBody del esc cs p with
        next := ⟨(stringBody del esc cs p).next.rest ++ x, (stringBody del esc cs p).next.pos⟩ } := by
  fun_induction stringBody del esc cs p with
  | case1 => cases h
  | case2 p cs =>

    rw [List.cons_append, stringBody_delimiter]
  | case3 => cases h
  | case4 p e cs hc body ih =>
    rw [List.cons_append, List.cons_append, stringBody_escape hc, ih h]
    rfl
  | case5 p c cs hc he body ih =>
    rw [List.cons_append, stringBody_char hc he, ih h]
    rfl

theorem stringBody_append_of_unclosed (hdel : '\n' ≠ del) (hesc : '\n' ≠ esc) (x : List Char) (cs : List Char)
    (p : Position) (h : (stringBody del esc cs p).closed = false) : stringBody del esc (cs ++ '\n' :: x) p =
      { stringBody del esc x (p.after (cs ++ ['\n'])) with
        contents := (stringBody del esc cs p).contents ++ '\n' ::
          (stringBody del esc x (p.after (cs ++ ['\n']))).contents } := by
  fun_induction stringBody del esc cs p with
  | case1 p => exact stringBody_char hdel hesc x p
  | case2 => cases h
  | case3 p hc => exact stringBody_escape hc '\n' x p
  | case4 p e cs hc body ih =>
    rw [List.cons_append, List.cons_append, stringBody_escape hc, ih h]
    rfl
  | case5 p c cs hc he body ih =>
    rw [List.cons_append, stringBody_char hc he, ih h]
    rfl
end

/-! ## One token before a newline -/

theorem takeWhile_append_stop {p : Char → Bool} {b : Char} (hb : p b = false) (ys : List Char) :
    ∀ xs : List Char, (xs ++ b :: ys).takeWhile p = xs.takeWhile p
  | [] => by simp [hb]
  | x :: xs => by simp [List.takeWhile_cons, takeWhile_append_stop hb ys xs]

theorem dropWhile_append_stop {p : Char → Bool} {b : Char} (hb : p b = false) (ys : List Char) :
    ∀ xs : List Char, (xs ++ b :: ys).dropWhile p = xs.dropWhile p ++ b :: ys
  | [] => by simp [hb]
  | x :: xs => by
    by_cases hx : p x = true
    · simp [hx, dropWhile_append_stop hb ys xs]
    · simp [hx]

theorem readPunctuation_standard_long (p : Position) (cs : List Char) :
    readPunctuation standard p ',' ('@' :: cs) =
      (⟨⟨.punctuation, ",@", p⟩, none⟩, ⟨cs, (p.step ',').step '@'⟩) := by
  have hf : (standard.longPunctuation.find? fun l => l.toList.isPrefixOf (',' :: '@' :: cs)) = some ",@" := by
    simp [standard]
  simp only [readPunctuation, hf, Option.getD_some, show ",@".length = 2 from rfl]
  rfl

theorem readPunctuation_standard_short (p : Position) (c : Char) (cs : List Char)
    (h : ¬ (c = ',' ∧ cs.head? = some '@')) :
    readPunctuation standard p c cs = (⟨⟨.punctuation, String.singleton c, p⟩, none⟩, ⟨cs, p.step c⟩) := by
  have hf : (standard.longPunctuation.find? fun l => l.toList.isPrefixOf (c :: cs)) = none := by
    rw [List.find?_eq_none]
    intro l hl hp
    rw [show standard.longPunctuation = [",@"] from rfl, List.mem_singleton] at hl
    subst hl
    cases cs with
    | nil => simp at hp
    | cons e cs =>
      simp only [List.head?_cons, Option.some.injEq] at h
      have hp : ',' = c ∧ '@' = e := by simpa using hp
      exact h ⟨hp.1.symm, hp.2.symm⟩
  simp [readPunctuation, hf]

/-- How the place after a token changes when a newline and more text follow: the text is longer there, or the token was
a comment and has taken the newline along. -/
def Continued (s : List Char) (c c' : Cursor) : Prop :=
  c' = ⟨c.rest ++ '\n' :: s, c.pos⟩ ∨ (c.rest = [] ∧ c' = ⟨s, c.pos.step '\n'⟩)

theorem readComment_append (p : Position) (c : Char) (cs s : List Char) :
    (readComment p c (cs ++ '\n' :: s)).1 = (readComment p c cs).1 ∧
      Continued s (readComment p c cs).2 (readComment p c (cs ++ '\n' :: s)).2 := by
  have ht := takeWhile_append_stop (p := (· != '\n')) (b := '\n') (by simp) s cs
  have hd := dropWhile_append_stop (p := (· != '\n')) (b := '\n') (by simp) s cs
  simp only [readComment, Continued, ht, hd, true_and]
  cases cs.dropWhile (· != '\n') with
  | nil => exact Or.inr ⟨rfl, rfl⟩
  | cons n rest => exact Or.inl rfl

theorem readPunctuation_append (p : Position) (c : Char) (cs s : List Char) :
    (readPunctuation standard p c (cs ++ '\n' :: s)).1 = (readPunctuation standard p c cs).1 ∧
      Continued s (readPunctuation standard p c cs).2 (readPunctuation standard p c (cs ++ '\n' :: s)).2 := by
  by_cases h : c = ',' ∧ cs.head? = some '@'
  · obtain ⟨rfl, h⟩ := h
    obtain ⟨cs, rfl⟩ := List.head?_eq_some_iff.1 h
    rw [List.cons_append, readPunctuation_standard_long, readPunctuation_standard_long]
    exact ⟨rfl, Or.inl rfl⟩
  · have h' : ¬ (c = ',' ∧ (cs ++ '\n' :: s).head? = some '@') := by
      cases cs with
      | nil => simp
      | cons e cs => simpa using h
    rw [readPunctuation_standard_short p c cs h, readPunctuation_standard_short p c _ h']
    exact ⟨rfl, Or.inl rfl⟩

theorem readAtom_append (p : Position) (cs s : List Char) :
    (readAtom standard p (cs ++ '\n' :: s)).1 = (readAtom standard p cs).1 ∧
      Continued s (readAtom standard p cs).2 (readAtom standard p (cs ++ '\n' :: s)).2 := by
  have ht := takeWhile_append_stop (p := isAtomChar standard) (b := '\n') (by decide) s cs
  have hd := dropWhile_append_stop (p := isAtomChar standard) (b := '\n') (by decide) s cs
  simp only [readAtom, Continued, ht, hd]
  refine ⟨?_, Or.inl trivial⟩
  have hn : endsAtom standard '\n' = true := by decide
  cases cs.dropWhile (isAtomChar standard) with
  | nil => simp [hn]
  | cons c rest => rfl

theorem readString_append (p : Position) (cs s : List Char) (h : (readString standard p '"' cs).1.error = none) :
    (readString standard p '"' (cs ++ '\n' :: s)).1 = (readString standard p '"' cs).1 ∧
      Continued s (readString standard p '"' cs).2 (readString standard p '"' (cs ++ '\n' :: s)).2 := by
  have hc : (stringBody standard.stringDelimiter standard.escape cs (p.step '"')).closed = true := by
    simp only [readString] at h
    split at h
    · assumption
    · cases h
  simp only [readString, stringBody_append_of_closed _ cs (p.step '"') hc]
  exact ⟨trivial, Or.inl rfl⟩

/-- **A token is the same with a newline and more text behind it**, unless it is a string that the newline falls
into. -/
theorem readToken_append (p : Position) (c : Char) (cs s : List Char)
    (h : (readToken standard p c cs).1.error = none ∨ c ≠ '"') :
    (readToken standard p c (cs ++ '\n' :: s)).1 = (readToken standard p c cs).1 ∧
      Continued s (readToken standard p c cs).2 (readToken standard p c (cs ++ '\n' :: s)).2 := by
  simp only [readToken] at h ⊢
  by_cases h1 : c = standard.stringDelimiter
  · subst h1
    simp only [if_true] at h ⊢
    exact readString_append p cs s (h.resolve_right (fun hne => hne rfl))
  · simp only [if_neg h1]
    split
    · exact readComment_append p c cs s
    · split
      · exact readPunctuation_append p c cs s
      · split
        · exact ⟨rfl, Or.inl rfl⟩
        · split
          · exact ⟨rfl, Or.inl rfl⟩
          · exact readAtom_append p (c :: cs) s

/-! ## A scan before a newline -/

theorem standard_solid : "" ∉ standard.longPunctuation := by decide

theorem Continued.scan {s : List Char} {c c' : Cursor} (h : Continued s c c') :
    c'.scan standard = (Cursor.mk (c.rest ++ '\n' :: s) c.pos).scan standard := by
  rcases h with rfl | ⟨hr, rfl⟩
  · rfl
  · rw [hr, List.nil_append, scan_whitespace standard_solid (by decide)]

theorem atEnd_append {c : Cursor} (s : List Char) (h : c.atEnd d = false) :
    (Cursor.mk (c.rest ++ s) c.pos).atEnd d = false := by
  simp only [atEnd] at h ⊢
  rw [List.all_append, h, Bool.false_and]

theorem skipWhitespace_append {c : Cursor} {ch : Char} {cs : List Char} (s : List Char)
    (h : c.rest.dropWhile d.isWhitespace = ch :: cs) :
    (Cursor.mk (c.rest ++ s) c.pos).skipWhitespace d = ⟨ch :: cs ++ s, (c.skipWhitespace d).pos⟩ := by
  have hlt : ¬ (c.rest.takeWhile d.isWhitespace).length = c.rest.length := by
    have := congrArg List.length (List.takeWhile_append_dropWhile (p := d.isWhitespace) (l := c.rest))
    rw [h, List.length_append, List.length_cons] at this
    omega
  simp [skipWhitespace, past, List.takeWhile_append, List.dropWhile_append, h, hlt]

theorem next_append {c c' : Cursor} {t : Token} (s : List Char) (h : c.atEnd standard = false)
    (hn : c.next standard = (⟨t, none⟩, c')) :
    ∃ c'', (Cursor.mk (c.rest ++ '\n' :: s) c.pos).next standard = (⟨t, none⟩, c'') ∧ Continued s c' c'' := by
  obtain ⟨ch, cs, hcs, -⟩ := exists_of_not_atEnd h
  rw [next_of_dropWhile hcs] at hn
  have hr := readToken_append (c.skipWhitespace standard).pos ch cs s (Or.inl (by rw [hn]))
  rw [hn] at hr
  refine ⟨(readToken standard (c.skipWhitespace standard).pos ch (cs ++ '\n' :: s)).2, ?_, hr.2⟩
  rw [next, skipWhitespace_append _ hcs]
  exact Prod.ext hr.1 rfl

/-- **The scan of a text before a newline** is the scan of the longer text up to where the text ends or its first error
is: either only whitespace is left there, or the next token carries an error. -/
theorem scan_append_newline (c : Cursor) : ∃ (ts : List Token) (c' : Cursor),
    c.scan standard = (c'.scan standard).prepend ts ∧
      (∀ s, (Cursor.mk (c.rest ++ '\n' :: s) c.pos).scan standard =
        ((Cursor.mk (c'.rest ++ '\n' :: s) c'.pos).scan standard).prepend ts) ∧
      (c'.atEnd standard = true ∨
        c'.atEnd standard = false ∧ ∃ t e c'', c'.next standard = (⟨t, some e⟩, c'')) := by
  induction c using scan_induction standard_solid with
  | atEnd c h => exact ⟨[], c, rfl, fun _ => rfl, Or.inl h⟩
  | error c c' t e h hn => exact ⟨[], c, rfl, fun _ => rfl, Or.inr ⟨h, t, e, c', hn⟩⟩
  | token c c' t h hn hv ih =>
    obtain ⟨ts, c₀, hs, happ, hlast⟩ := ih
    refine ⟨t :: ts, c₀, ?_, fun s => ?_, hlast⟩
    · rw [scan_of_token h hn hv, hs, Scan.prepend_prepend]
      rfl
    · obtain ⟨c'', hn', hc⟩ := next_append s h hn
      rw [scan_of_token (atEnd_append _ h) hn' hv, hc.scan, happ s, Scan.prepend_prepend]
      rfl

theorem skipWhitespace_of_atEnd {c : Cursor} (h : c.atEnd d = true) :
    c.skipWhitespace d = ⟨[], c.pos.after c.rest⟩ := by
  have hall := List.all_eq_true.1 h
  rw [skipWhitespace, past, List.takeWhile_eq_self_iff.2 hall, List.dropWhile_eq_nil_iff.2 hall]

theorem scan_append_of_finished {c : Cursor} {ts : List Token} {p : Position}
    (h : c.scan standard = ⟨ts, .finished p⟩) (s : List Char) :
    (Cursor.mk (c.rest ++ '\n' :: s) c.pos).scan standard = ((Cursor.mk s (p.step '\n')).scan standard).prepend ts := by
  obtain ⟨us, c', hs, happ, hend | ⟨hend, t, e, c'', hn⟩⟩ := scan_append_newline c
  · rw [h, scan_of_atEnd hend, skipWhitespace_of_atEnd hend] at hs
    obtain ⟨rfl, rfl⟩ : ts = us ∧ p = c'.pos.after c'.rest := by
      simpa [Scan.prepend] using hs
    rw [happ s, scan_whitespaces standard_solid c'.rest _ _ hend, scan_whitespace standard_solid (by decide)]
  · rw [h, scan_of_error hend hn] at hs
    simp [Scan.prepend] at hs

/-- A token with an error is a string without end or an atom that something illegal follows. -/
theorem readToken_error {p : Position} {c : Char} {cs : List Char} {t : Token} {e : ReadError} {c' : Cursor}
    (h : readToken standard p c cs = (⟨t, some e⟩, c')) :
    (c = '"' ∧ (stringBody '"' '\\' cs (p.step '"')).closed = false ∧
        ∃ q, e = .because p .unfinishedString (.single q .endOfStream)) ∨
      (c ≠ '"' ∧ ∃ q b, e = .single q (.illegalCharacter b)) := by
  rw [readToken] at h
  by_cases h1 : c = standard.stringDelimiter
  · subst h1
    simp only [if_true, readString] at h
    cases hc : (stringBody standard.stringDelimiter standard.escape cs (p.step standard.stringDelimiter)).closed with
    | true => simp [hc] at h
    | false =>
      simp only [hc, Bool.false_eq_true, if_false, Prod.mk.injEq, Lexed.mk.injEq, Option.some.injEq] at h
      exact Or.inl ⟨rfl, hc, _, h.1.2.symm⟩
  · refine Or.inr ⟨h1, ?_⟩
    simp only [if_neg h1] at h
    split at h
    · simp [readComment] at h
    · split at h
      · simp [readPunctuation] at h
      · split at h
        · simp [readBracket] at h
        · split at h
          · simp [readBracket] at h
          · simp only [readAtom, Prod.mk.injEq, Lexed.mk.injEq] at h
            obtain ⟨⟨-, he⟩, -⟩ := h
            split at he
            · cases he
            · split at he
              · cases he
              · exact ⟨_, _, (Option.some.inj he).symm⟩

/-- **After an error a newline changes nothing**, unless the error is that a string has no end; then the string goes on
behind the newline. -/
theorem scan_append_of_broken {c : Cursor} {ts : List Token} {t : Token} {e : ReadError}
    (h : c.scan standard = ⟨ts, .broken t e⟩) :
    ((∃ q b, e = .single q (.illegalCharacter b)) ∧
        ∀ s, (Cursor.mk (c.rest ++ '\n' :: s) c.pos).scan standard = ⟨ts, .broken t e⟩) ∨
      ∃ cs p q, e = .because p .unfinishedString (.single q .endOfStream) ∧
        (stringBody '"' '\\' cs (p.step '"')).closed = false ∧
        ∀ s, (Cursor.mk (c.rest ++ '\n' :: s) c.pos).scan standard =
          ((Cursor.mk ('"' :: (cs ++ '\n' :: s)) p).scan standard).prepend ts := by
  obtain ⟨us, c', hs, happ, hend | ⟨hend, t', e', c'', hn⟩⟩ := scan_append_newline c
  · rw [h, scan_of_atEnd hend] at hs
    simp [Scan.prepend] at hs
  · rw [h, scan_of_error hend hn] at hs
    obtain ⟨rfl, rfl, rfl⟩ : ts = us ∧ t = t' ∧ e = e' := by simpa [Scan.prepend] using hs
    obtain ⟨ch, cs, hcs, -⟩ := exists_of_not_atEnd hend
    rw [next_of_dropWhile hcs] at hn
    rcases readToken_error hn with ⟨rfl, hclosed, q, hq⟩ | ⟨hne, q, b, hq⟩
    · refine Or.inr ⟨cs, (c'.skipWhitespace standard).pos, q, hq, hclosed, fun s => ?_⟩
      have hrest : c'.rest ++ '\n' :: s = c'.rest.takeWhile standard.isWhitespace ++ '"' :: (cs ++ '\n' :: s) := by
        rw [← List.cons_append, ← hcs, ← List.append_assoc, List.takeWhile_append_dropWhile]
      rw [happ s, hrest, scan_whitespaces standard_solid _ _ _ List.all_takeWhile]
      rfl
    · refine Or.inl ⟨⟨q, b, hq⟩, fun s => ?_⟩
      have hr := readToken_append (c'.skipWhitespace standard).pos ch cs s (Or.inr hne)
      have hn' : (Cursor.mk (c'.rest ++ '\n' :: s) c'.pos).next standard =
          (⟨t, some e⟩, (readToken standard (c'.skipWhitespace standard).pos ch (cs ++ '\n' :: s)).2) := by
        rw [next, skipWhitespace_append _ hcs]
        exact Prod.ext (hr.1.trans (by rw [hn])) rfl
      rw [happ s, scan_of_error (atEnd_append _ hend) hn']
      simp [Scan.prepend]

end Cursor
end QuasiScript
