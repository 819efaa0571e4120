import QuasiScript.Proofs.Grammar

/-!
# No character is lost

A text that is scanned without an error is its tokens as they are written, one behind the other, with whitespace between
them and nothing else (`Spelt`). A token is written in one way by its kind (`Token.WrittenAs`): a bracket, punctuation or
an atom as its lexeme, a string between delimiters and with escapes (`Escapes`), and a comment up to the end of its line.
-/
namespace QuasiScript
open Dialect (standard)

/-- A text as it stands inside a string, and the contents that it gives. -/
inductive Escapes (d : Dialect) : List Char → List Char → Prop
  | nil : Escapes d [] []
  | plain {c : Char} {raw contents : List Char} : c ≠ d.stringDelimiter → c ≠ d.escape → Escapes d raw contents →
      Escapes d (c :: raw) (c :: contents)
  | newline {raw contents : List Char} : Escapes d raw contents → Escapes d (d.escape :: 'n' :: raw) ('\n' :: contents)
  | tab {raw contents : List Char} : Escapes d raw contents → Escapes d (d.escape :: 't' :: raw) ('\t' :: contents)
  | escaped {c : Char} {raw contents : List Char} : c ≠ 'n' → c ≠ 't' → Escapes d raw contents →
      Escapes d (d.escape :: c :: raw) (c :: contents)

/-- **How a token is written** before the rest of a text. -/
def Token.WrittenAs (d : Dialect) (t : Token) (raw rest : List Char) : Prop :=
  match t.kind with
  | .atom => raw = t.lexeme.toList ∧ raw ≠ [] ∧ (∀ c ∈ raw, Cursor.isAtomChar d c = true) ∧ ∀ c ∈ rest.head?,
      d.isWhitespace c = true ∨ d.isClose (String.singleton c) = true ∨ c = d.commentStart
  | .punctuation => raw = t.lexeme.toList ∧
      (t.lexeme ∈ d.longPunctuation ∨ ∃ c, t.lexeme = String.singleton c ∧ d.isPunctuation c = true)
  | .openBracket => ∃ c, raw = [c] ∧ t.lexeme = String.singleton c ∧ d.isOpen t.lexeme = true
  | .closeBracket => ∃ c, raw = [c] ∧ t.lexeme = String.singleton c ∧ d.isClose t.lexeme = true
  | .string => ∃ body, raw = d.stringDelimiter :: body ++ [d.stringDelimiter] ∧ Escapes d body t.lexeme.toList
  | .comment => '\n' ∉ t.lexeme.toList ∧
      (raw = d.commentStart :: t.lexeme.toList ++ ['\n'] ∨ raw = d.commentStart :: t.lexeme.toList ∧ rest = [])
  | .endOfStream => False

/-- **How a token with an error is written.** Where the text ends there is nothing, a string without end goes up to
there, and an atom goes up to the character that may not follow it. -/
def Lexed.WrittenAs (d : Dialect) (l : Lexed) (raw rest : List Char) : Prop :=
  match l.error with
  | none => l.token.WrittenAs d raw rest
  | some e =>
    match l.token.kind, e.outermost.cause with
    | .endOfStream, .endOfStream => l.token.lexeme = "" ∧ raw = [] ∧ rest = []
    | .string, .unfinishedString => rest = [] ∧ ∃ body, Escapes d body l.token.lexeme.toList ∧
        (raw = d.stringDelimiter :: body ∨ raw = d.stringDelimiter :: body ++ [d.escape])
    | .atom, .illegalCharacter b => raw = l.token.lexeme.toList ∧ raw ≠ [] ∧
        (∀ c ∈ raw, Cursor.isAtomChar d c = true) ∧ rest.head? = some b ∧ Cursor.breaksAtom d b = true
    | _, _ => False

/-- **A text is spelt by tokens**: each stands as it is written behind some whitespace, and whitespace ends the text. -/
inductive Spelt (d : Dialect) : List Token → List Char → Prop
  | blank {gap : List Char} : (∀ c ∈ gap, d.isWhitespace c = true) → Spelt d [] gap
  | token {gap raw rest : List Char} {t : Token} {ts : List Token} : (∀ c ∈ gap, d.isWhitespace c = true) →
      t.WrittenAs d raw rest → Spelt d ts rest → Spelt d (t :: ts) (gap ++ (raw ++ rest))

namespace Cursor
variable {d : Dialect}

/-! ## One token -/

theorem escapes_unescape {raw contents : List Char} (e : Char) (h : Escapes d raw contents) :
    Escapes d (d.escape :: e :: raw) (unescape e :: contents) := by
  by_cases hn : e = 'n'
  · subst hn
    exact h.newline
  by_cases ht : e = 't'
  · subst ht
    exact h.tab
  have hself : unescape e = e := by
    unfold unescape
    split
    · exact absurd rfl hn
    · exact absurd rfl ht
    · rfl
  rw [hself]
  exact .escaped hn ht h

/-- What a string takes of the text: its inside and the delimiter, or all of it up to an escape with nothing behind. -/
theorem stringBody_escapes (cs : List Char) (p : Position) :
    let inside := stringBody d.stringDelimiter d.escape cs p
    ∃ body tail, cs = body ++ (tail ++ inside.next.rest) ∧ Escapes d body inside.contents ∧
      if inside.closed then tail = [d.stringDelimiter] else inside.next.rest = [] ∧ (tail = [] ∨ tail = [d.escape]) := by
  fun_induction stringBody d.stringDelimiter d.escape cs p with
  | case1 p => exact ⟨[], [], rfl, .nil, rfl, .inl rfl⟩
  | case2 p cs => exact ⟨[], [d.stringDelimiter], rfl, .nil, rfl⟩
  | case3 p => exact ⟨[], [d.escape], rfl, .nil, rfl, .inr rfl⟩
  | case4 p e cs hc body ih =>
    obtain ⟨raw, tail, hraw, hbody, htail⟩ := ih
    exact ⟨d.escape :: e :: raw, tail, congrArg (d.escape :: e :: ·) hraw, escapes_unescape e hbody, htail⟩
  | case5 c cs p hc he body ih =>
    obtain ⟨raw, tail, hraw, hbody, htail⟩ := ih
    exact ⟨c :: raw, tail, congrArg (c :: ·) hraw, .plain hc he hbody, htail⟩

theorem readString_written (p : Position) (cs : List Char) :
    ∃ raw, d.stringDelimiter :: cs = raw ++ (readString d p d.stringDelimiter cs).2.rest ∧
      (readString d p d.stringDelimiter cs).1.WrittenAs d raw (readString d p d.stringDelimiter cs).2.rest := by
  obtain ⟨body, tail, hcs, hbody, htail⟩ := stringBody_escapes (d := d) cs (p.step d.stringDelimiter)
  unfold readString
  refine ⟨d.stringDelimiter :: body ++ tail, ?_, ?_⟩
  · conv_lhs => rw [hcs]
    simp
  cases hclosed : (stringBody d.stringDelimiter d.escape cs (p.step d.stringDelimiter)).closed with
  | true =>
    rw [hclosed, if_pos rfl] at htail
    subst htail
    simp only [Lexed.WrittenAs, hclosed, if_true]
    exact ⟨body, rfl, by rwa [String.toList_ofList]⟩
  | false =>
    rw [hclosed, if_neg Bool.false_ne_true] at htail
    simp only [Lexed.WrittenAs, hclosed, Bool.false_eq_true, if_false]
    refine ⟨htail.1, body, by rwa [String.toList_ofList], ?_⟩
    rcases htail.2 with rfl | rfl
    · exact .inl (List.append_nil _)
    · exact .inr rfl

theorem readComment_written (p : Position) (cs : List Char) :
    ∃ raw, d.commentStart :: cs = raw ++ (readComment p d.commentStart cs).2.rest ∧
      (readComment p d.commentStart cs).1.WrittenAs d raw (readComment p d.commentStart cs).2.rest := by
  have hline : '\n' ∉ cs.takeWhile (· != '\n') := by
    intro hmem
    exact absurd (List.mem_takeWhile_imp hmem) (by decide)
  have hsplit := List.takeWhile_append_dropWhile (p := (· != '\n')) (l := cs)
  cases hrest : cs.dropWhile (· != '\n') with
  | nil =>
    rw [hrest, List.append_nil] at hsplit
    refine ⟨d.commentStart :: cs, ?_, ?_⟩
    · simp [readComment, hrest]
    · simp [Lexed.WrittenAs, Token.WrittenAs, readComment, hrest, hsplit, hsplit ▸ hline]
  | cons n rest =>
    have hn := List.head?_dropWhile_not (· != '\n') cs
    rw [hrest] at hsplit hn
    obtain rfl : n = '\n' := by simpa using hn
    refine ⟨d.commentStart :: cs.takeWhile (· != '\n') ++ ['\n'], ?_, ?_⟩
    · simp [readComment, hrest, hsplit]
    · simp [Lexed.WrittenAs, Token.WrittenAs, readComment, hline]

theorem readPunctuation_written (p : Position) {c : Char} (hc : d.isPunctuation c = true) (cs : List Char) :
    ∃ raw, c :: cs = raw ++ (readPunctuation d p c cs).2.rest ∧
      (readPunctuation d p c cs).1.WrittenAs d raw (readPunctuation d p c cs).2.rest := by
  unfold readPunctuation
  cases hfind : d.longPunctuation.find? fun l => l.toList.isPrefixOf (c :: cs) with
  | none => exact ⟨[c], by simp, (String.toList_singleton c).symm, .inr ⟨c, rfl, hc⟩⟩
  | some l =>
    have hstart := List.find?_some hfind
    obtain ⟨rest, hrest⟩ := List.isPrefixOf_iff_prefix.1 hstart
    exact ⟨l.toList, by simp [← hrest, ← String.length_toList], rfl, .inl (List.mem_of_find?_eq_some hfind)⟩

theorem readAtom_written (p : Position) {c : Char} (hc : isAtomChar d c = true) (cs : List Char) :
    ∃ raw, c :: cs = raw ++ (readAtom d p (c :: cs)).2.rest ∧
      (readAtom d p (c :: cs)).1.WrittenAs d raw (readAtom d p (c :: cs)).2.rest := by
  have hraw : (c :: cs).takeWhile (isAtomChar d) ≠ [] := by simp [hc]
  have hall : ∀ x ∈ (c :: cs).takeWhile (isAtomChar d), isAtomChar d x = true := fun x hx => List.mem_takeWhile_imp hx
  have hstop := List.head?_dropWhile_not (isAtomChar d) (c :: cs)
  refine ⟨(c :: cs).takeWhile (isAtomChar d), List.takeWhile_append_dropWhile.symm, ?_⟩
  unfold readAtom
  cases hrest : (c :: cs).dropWhile (isAtomChar d) with
  | nil => exact ⟨String.toList_ofList.symm, hraw, hall, fun b hb => by cases hb⟩
  | cons b rest =>
    rw [hrest] at hstop
    by_cases hends : endsAtom d b = true
    · simp only [Lexed.WrittenAs, hends, if_true]
      refine ⟨String.toList_ofList.symm, hraw, hall, fun x hx => ?_⟩
      obtain rfl := Option.some.inj hx
      simpa [endsAtom, or_assoc] using hends
    · simp only [Lexed.WrittenAs, hends]
      exact ⟨String.toList_ofList.symm, hraw, hall, rfl, by simpa [isAtomChar, hends] using hstop⟩

/-- **A token takes from the text what it is written as**, with an error or without. -/
theorem readToken_written (p : Position) {c : Char} (hc : d.isWhitespace c = false) (cs : List Char) :
    ∃ raw, c :: cs = raw ++ (readToken d p c cs).2.rest ∧
      (readToken d p c cs).1.WrittenAs d raw (readToken d p c cs).2.rest := by
  unfold readToken
  by_cases hstring : c = d.stringDelimiter
  · rw [if_pos hstring]
    subst hstring
    exact readString_written p cs
  rw [if_neg hstring]
  by_cases hcomment : c = d.commentStart
  · rw [if_pos hcomment]
    subst hcomment
    exact readComment_written p cs
  rw [if_neg hcomment]
  by_cases hpunct : d.isPunctuation c = true
  · rw [if_pos hpunct]
    exact readPunctuation_written p hpunct cs
  rw [if_neg hpunct]
  by_cases hopen : d.isOpen (String.singleton c) = true
  · rw [if_pos hopen]
    exact ⟨[c], rfl, c, rfl, rfl, hopen⟩
  rw [if_neg hopen]
  by_cases hclose : d.isClose (String.singleton c) = true
  · rw [if_pos hclose]
    exact ⟨[c], rfl, c, rfl, rfl, hclose⟩
  rw [if_neg hclose]
  have hatom : isAtomChar d c = true := by
    simp [isAtomChar, endsAtom, breaksAtom, hc, hstring, hcomment, hpunct, hopen, hclose]
  exact readAtom_written p hatom cs

/-! ## All tokens -/

theorem scan_spelt (hd : "" ∉ d.longPunctuation) (c : Cursor) : (∃ q, (c.scan d).ending = .finished q) →
    Spelt d (c.scan d).tokens c.rest := by
  induction c using scan_induction hd with
  | atEnd c h =>
    intro _
    rw [scan_of_atEnd h]
    exact .blank (List.all_eq_true.1 h)
  | error c c' t e h hn =>
    rintro ⟨q, hq⟩
    rw [scan_of_error h hn] at hq
    cases hq
  | token c c' t h hn hv ih =>
    rintro ⟨q, hq⟩
    rw [scan_of_token h hn hv] at hq ⊢
    obtain ⟨ch, cs, hcs, hch⟩ := exists_of_not_atEnd h
    obtain ⟨raw, hraw, hwritten⟩ := readToken_written (d := d) (c.skipWhitespace d).pos hch cs
    rw [← next_of_dropWhile hcs, hn] at hraw hwritten
    have hrest : c.rest = c.rest.takeWhile d.isWhitespace ++ (raw ++ c'.rest) := by
      rw [← hraw, ← hcs, List.takeWhile_append_dropWhile]
    rw [hrest]
    exact .token (fun w hw => List.mem_takeWhile_imp hw) hwritten (ih ⟨q, hq⟩)

end Cursor

namespace Scan

/-- **Tokenization is lossless.** A text whose tokens carry no error is spelt by them: whitespace, the first token as it is
written, whitespace and so on to the end. An atom goes as far as it can: whitespace, a close bracket, a comment or the
end of the text is behind it. -/
theorem ofText_spelt {text : List Char} (h : ∀ l ∈ (ofText standard text).lexed, l.error = none) :
    Spelt standard ((ofText standard text).lexed.map Lexed.token) text := by
  obtain ⟨p, hend⟩ := Reading.forall_lexed_error_eq_none_iff.1 h
  rw [Reading.lexed_token_of_finished hend]
  exact Cursor.scan_spelt Cursor.standard_solid (Cursor.start text) ⟨p, hend⟩

/-- All kinds of tokens in one text, some with nothing between them. -/
theorem ofText_spelt_kinds :
    let text := "(f1;g \n\"a\\n\\\"\"[,@x]) ;".toList
    (∀ l ∈ (ofText standard text).lexed, l.error = none) ∧
      (ofText standard text).tokens.map (·.lexeme) = ["(", "f1", "g ", "a\n\"", "[", ",@", "x", "]", ")", ""] ∧
      Spelt standard ((ofText standard text).lexed.map Lexed.token) text := by
  have hlexed : ∀ l ∈ (ofText standard "(f1;g \n\"a\\n\\\"\"[,@x]) ;".toList).lexed, l.error = none :=
    Reading.forall_lexed_error_eq_none_iff.2 ⟨⟨2, 16⟩, by cbv⟩
  exact ⟨hlexed, by cbv, ofText_spelt hlexed⟩

end Scan
end QuasiScript
