import QuasiScript.Proofs.Positions
import QuasiScript.Proofs.Spelling

/-!
# Positions are exact

A cursor counts lines and columns character by character. The position it has then can be told from the text it has
passed as a whole (`Position.behind`): the lines by the newlines, the column by what stands after the last of them.
Every call for a token passes some of the text (`next_passes_blank`), so this is so after any number of calls, whatever
errors their tokens carried. What stands behind the whitespace there is the token as it is written
(`Lexed.WrittenAs`), so a token has the position of its first character, and a fault that of the character it complains
about, or of the end of the text (`next_positions_exact`).
-/
namespace QuasiScript

namespace Position

def width (c : Char) : Nat := if c = '\t' then 4 else 1

/-- The position behind a text: a line more for each newline, and as many columns as what stands after the last newline
is wide. -/
def behind (text : List Char) : Position :=
  ⟨1 + text.count '\n', 1 + ((text.rtakeWhile (· != '\n')).map width).sum⟩

theorem behind_concat (text : List Char) (c : Char) : behind (text ++ [c]) = (behind text).step c := by
  unfold behind step
  by_cases ht : c = '\t'
  · subst ht
    simp [width, add_assoc]
  · by_cases hn : c = '\n'
    · subst hn
      simp [add_assoc]
    · simp [width, ht, hn, add_assoc]

/-- **Counting along a text** leads to the position behind it. -/
theorem start_after (text : List Char) : start.after text = behind text := by
  induction text using List.reverseRecOn with
  | nil => rfl
  | append_singleton text c ih => rw [after_append, ih, after_cons, after_nil, behind_concat]

theorem behind_append (text more : List Char) : behind (text ++ more) = (behind text).after more := by
  rw [← start_after, after_append, start_after]

end Position

namespace Fault
open Position (behind)

/-- **Where the faults of a token stand**, with what stands in the text before the token: a missing end at the end of
the text, a string without end where it begins, and an illegal character where it is, directly behind the token. -/
def Located (d : Dialect) (text before : List Char) (t : Token) (f : Fault) : Prop :=
  match f.cause with
  | .endOfStream => f.pos = behind text
  | .unfinishedString => f.pos = behind before
  | .illegalCharacter b => f.pos = behind (before ++ t.lexeme.toList) ∧ Cursor.breaksAtom d b = true ∧
      ∃ rest, text = before ++ t.lexeme.toList ++ b :: rest
  | _ => False

end Fault

namespace Cursor
open Position (behind)

variable {d : Dialect}

/-! ## Faults of one token -/

theorem readString_located {before : List Char} {c : Char} {cs : List Char} {e : ReadError}
    (h : (readString d (behind before) c cs).1.error = some e) :
    ∀ f ∈ e.chain, f.Located d (before ++ c :: cs) before (readString d (behind before) c cs).1.token := by
  simp only [readString] at h
  cases hclosed : (stringBody d.stringDelimiter d.escape cs ((behind before).step c)).closed with
  | true => simp [hclosed] at h
  | false =>
    -- the string does not end, so it has taken all of the text
    obtain ⟨raw, hraw, hpos⟩ := stringBody_passes d.stringDelimiter d.escape cs ((behind before).step c)
    obtain ⟨_, _, -, -, hend⟩ := stringBody_escapes (d := d) cs ((behind before).step c)
    rw [hclosed, if_neg Bool.false_ne_true] at hend
    rw [hend.1, List.append_nil] at hraw
    change cs = raw at hraw
    subst hraw
    simp only [hclosed, Bool.false_eq_true, if_false, Option.some.injEq] at h
    subst h
    intro f hf
    simp only [ReadError.chain, ReadError.because, ReadError.single, List.mem_cons, List.not_mem_nil, or_false] at hf
    rcases hf with rfl | rfl
    · rfl
    · change _ = behind (before ++ c :: cs)
      rw [Position.behind_append, Position.after_cons, hpos]

theorem readAtom_located {before cs : List Char} {e : ReadError}
    (h : (readAtom d (behind before) cs).1.error = some e) :
    ∀ f ∈ e.chain, f.Located d (before ++ cs) before (readAtom d (behind before) cs).1.token := by
  have hsplit := List.takeWhile_append_dropWhile (p := isAtomChar d) (l := cs)
  have hstop := List.head?_dropWhile_not (isAtomChar d) cs
  simp only [readAtom] at h ⊢
  cases hrest : cs.dropWhile (isAtomChar d) with
  | nil => simp [hrest] at h
  | cons b rest =>
    rw [hrest] at hsplit hstop
    simp only [hrest] at h
    split at h
    · cases h
    · rename_i hends
      have hbreaks : breaksAtom d b = true := by simpa [isAtomChar, hends] using hstop
      simp only [Option.some.injEq] at h
      subst h
      intro f hf
      obtain rfl := List.mem_singleton.1 hf
      simp only [Fault.Located, ReadError.single, String.toList_ofList]
      refine ⟨(Position.behind_append _ _).symm, hbreaks, rest, ?_⟩
      rw [List.append_assoc, hsplit]

theorem readToken_located {before : List Char} {c : Char} {cs : List Char} {e : ReadError}
    (h : (readToken d (behind before) c cs).1.error = some e) :
    ∀ f ∈ e.chain, f.Located d (before ++ c :: cs) before (readToken d (behind before) c cs).1.token := by
  unfold readToken at h ⊢
  split at h
  · rw [if_pos ‹_›]
    exact readString_located h
  · -- comments, punctuation and brackets carry no error
    rw [if_neg ‹_›]
    split at h
    · cases h
    · rw [if_neg ‹_›]
      split at h
      · cases h
      · rw [if_neg ‹_›]
        split at h
        · cases h
        · rw [if_neg ‹_›]
          split at h
          · cases h
          · rw [if_neg ‹_›]
            exact readAtom_located h

/-! ## Calls for tokens, one after the other -/

def skipTokens (d : Dialect) (n : Nat) (c : Cursor) : Cursor := (fun c => (c.next d).2)^[n] c

theorem skipTokens_succ (n : Nat) (c : Cursor) : c.skipTokens d (n + 1) = ((c.skipTokens d n).next d).2 :=
  Function.iterate_succ_apply' _ n c

theorem next_of_blank {c : Cursor} (h : c.rest.dropWhile d.isWhitespace = []) :
    c.next d = (⟨⟨.endOfStream, "", (c.skipWhitespace d).pos⟩, some (.single (c.skipWhitespace d).pos .endOfStream)⟩,
      c.skipWhitespace d) := by
  simp only [next, skipWhitespace, past, h]

theorem readToken_kind_ne_endOfStream (p : Position) (c : Char) (cs : List Char) :
    (readToken d p c cs).1.token.kind ≠ .endOfStream := by
  unfold readToken
  split
  · simp [readString]
  · split
    · simp [readComment]
    · split
      · simp [readPunctuation]
      · split
        · simp [readBracket]
        · split
          · simp [readBracket]
          · simp [readAtom]

/-- Only whitespace remains exactly if the next token is the end of the text. -/
theorem next_kind_eq_endOfStream_iff (c : Cursor) :
    (c.next d).1.token.kind = .endOfStream ↔ c.rest.dropWhile d.isWhitespace = [] := by
  cases h : c.rest.dropWhile d.isWhitespace with
  | nil =>
    rw [next_of_blank h]
    exact ⟨fun _ => rfl, fun _ => rfl⟩
  | cons ch cs =>
    rw [next_of_dropWhile h]
    refine ⟨fun hkind => absurd hkind (readToken_kind_ne_endOfStream _ _ _), fun hcons => ?_⟩
    cases hcons

theorem next_pos (c : Cursor) : (c.next d).1.token.pos = (c.skipWhitespace d).pos := by
  cases h : c.rest.dropWhile d.isWhitespace with
  | nil => rw [next_of_blank h]
  | cons ch cs => rw [next_of_dropWhile h, readToken_pos]

theorem next_located {c : Cursor} {before : List Char} (hpos : (c.skipWhitespace d).pos = behind before) :
    ∀ e ∈ (c.next d).1.error, ∀ f ∈ e.chain,
      f.Located d (before ++ c.rest.dropWhile d.isWhitespace) before (c.next d).1.token := by
  intro e he
  cases h : c.rest.dropWhile d.isWhitespace with
  | nil =>
    rw [next_of_blank h] at he ⊢
    obtain rfl := Option.some.inj he
    intro f hf
    obtain rfl := List.mem_singleton.1 hf
    rw [List.append_nil]
    exact hpos
  | cons ch cs =>
    rw [next_of_dropWhile h, hpos] at he ⊢
    exact readToken_located he

theorem next_passes_blank (c : Cursor) : (c.skipWhitespace d).Passes (c.next d).2 := by
  cases h : c.rest.dropWhile d.isWhitespace with
  | nil =>
    rw [next_of_blank h]
    exact ⟨[], rfl, rfl⟩
  | cons ch cs =>
    rw [next_of_dropWhile h]
    have hpasses := readToken_passes (d := d) (c.skipWhitespace d).pos ch cs
    rwa [← h] at hpasses

/-- A token that takes nothing of the text is the end of it, or punctuation without characters. -/
theorem isVoid_of_written {l : Lexed} {rest : List Char} (h : l.WrittenAs d [] rest) :
    l.token.kind = .endOfStream ∨ isVoid l.token = true := by
  obtain ⟨⟨kind, lexeme, pos⟩, error⟩ := l
  cases error with
  | none =>
    cases kind with
    | punctuation =>
      have hlexeme : lexeme = "" := String.toList_eq_nil_iff.1 h.1.symm
      exact .inr (by simp [isVoid, hlexeme])
    | atom => exact absurd rfl h.2.1
    | openBracket | closeBracket | string =>
      obtain ⟨x, hx, -⟩ := h
      cases hx
    | comment =>
      rcases h.2 with hraw | ⟨hraw, -⟩
      · cases hraw
      · cases hraw
    | endOfStream => exact .inl rfl
  | some e =>
    unfold Lexed.WrittenAs at h
    dsimp only at h
    split at h
    · exact .inl rfl
    · obtain ⟨-, body, -, hraw | hraw⟩ := h
      · cases hraw
      · cases hraw
    · exact absurd rfl h.2.1
    · exact h.elim

theorem next_written (c : Cursor) : ∃ raw, c.rest.dropWhile d.isWhitespace = raw ++ (c.next d).2.rest ∧
    (c.next d).1.WrittenAs d raw (c.next d).2.rest := by
  have hstop := List.head?_dropWhile_not d.isWhitespace c.rest
  cases h : c.rest.dropWhile d.isWhitespace with
  | nil =>
    rw [next_of_blank h]
    exact ⟨[], h.symm, rfl, rfl, h⟩
  | cons ch cs =>
    rw [h] at hstop
    rw [next_of_dropWhile h]
    exact readToken_written _ (by simpa using hstop) cs

theorem skipTokens_passes (n : Nat) (c : Cursor) : c.Passes (c.skipTokens d n) := by
  induction n with
  | zero => exact ⟨[], rfl, rfl⟩
  | succ n ih =>
    rw [skipTokens_succ]
    exact ih.trans ((skipWhitespace_passes _).trans (next_passes_blank _))

/-- What a cursor has passed since the beginning of a text. -/
theorem skipTokens_start (text : List Char) (n : Nat) : ∃ taken,
    text = taken ++ ((start text).skipTokens d n).rest ∧ ((start text).skipTokens d n).pos = behind taken := by
  obtain ⟨taken, hrest, hpos⟩ := skipTokens_passes (d := d) n (start text)
  exact ⟨taken, hrest, hpos.trans (Position.start_after taken)⟩

/-- **Positions are exact.** After any number of calls for tokens the cursor has the position behind the text it has
passed. The next token has the position behind that text and the whitespace after it; there it stands as it is written,
beginning with a character that is no whitespace, or the text is at its end and the token says so. Its faults stand
where they belong. -/
theorem next_positions_exact (d : Dialect) (text : List Char) (n : Nat) :
    let c := (start text).skipTokens d n
    ∃ taken blank rest, text = taken ++ blank ++ rest ∧ c = ⟨blank ++ rest, behind taken⟩ ∧
      (∀ w ∈ blank, d.isWhitespace w = true) ∧ (∀ ch ∈ rest.head?, d.isWhitespace ch = false) ∧
      (c.next d).1.token.pos = behind (taken ++ blank) ∧ ((c.next d).1.token.kind = .endOfStream ↔ rest = []) ∧
      (∃ raw, rest = raw ++ (c.next d).2.rest ∧ (c.next d).1.WrittenAs d raw (c.next d).2.rest ∧
        (raw = [] → rest = [] ∨ isVoid (c.next d).1.token = true) ∧
        (c.next d).2.pos = behind (taken ++ blank ++ raw)) ∧
      ∀ e ∈ (c.next d).1.error, ∀ f ∈ e.chain, f.Located d text (taken ++ blank) (c.next d).1.token := by
  intro c
  obtain ⟨taken, htext, hpos⟩ := skipTokens_start (d := d) text n
  have hsplit := List.takeWhile_append_dropWhile (p := d.isWhitespace) (l := c.rest)
  have hskip : (c.skipWhitespace d).pos = behind (taken ++ c.rest.takeWhile d.isWhitespace) := by
    rw [Position.behind_append, ← hpos]
    rfl
  have hwhole : text = taken ++ c.rest.takeWhile d.isWhitespace ++ c.rest.dropWhile d.isWhitespace := by
    rw [List.append_assoc, hsplit]
    exact htext
  obtain ⟨raw, hraw, hwritten⟩ := next_written (d := d) c
  -- the text that the call passes is the one the token is written as
  obtain ⟨passed, hpassed, hnext⟩ := next_passes_blank (d := d) c
  obtain rfl : passed = raw := List.append_cancel_right (hpassed.symm.trans hraw)
  rw [hskip, ← Position.behind_append] at hnext
  have hvoid : passed = [] → c.rest.dropWhile d.isWhitespace = [] ∨ isVoid (c.next d).1.token = true := by
    rintro rfl
    exact (isVoid_of_written hwritten).imp_left (next_kind_eq_endOfStream_iff c).1
  refine ⟨taken, c.rest.takeWhile d.isWhitespace, c.rest.dropWhile d.isWhitespace, hwhole, ?_,
    fun w hw => List.mem_takeWhile_imp hw, ?_, (next_pos c).trans hskip, next_kind_eq_endOfStream_iff c,
    ⟨passed, hraw, hwritten, hvoid, hnext⟩, ?_⟩
  · rw [hsplit, ← hpos]
  · intro ch hch
    have hstop := List.head?_dropWhile_not d.isWhitespace c.rest
    rw [Option.mem_def.1 hch] at hstop
    simpa using hstop
  · rw [hwhole]
    exact next_located hskip

end Cursor
end QuasiScript
