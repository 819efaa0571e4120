import QuasiScript.Proofs.SourcePositions

/-!
# Tokens come to an end

Every call for a token takes at least one character past the whitespace, unless only whitespace remains
(`next_takes`); then the call says that the text ends, and so does every later one (`next_again`). A loop over the calls
is written here as it runs, with no result where it would run for ever. `tokenize` is the loop that collects tokens: it
gives the tokens of the scan, at most one for each character (`tokenize_eq`). A `Feed` hands tokens to such a loop and
remembers them.
-/
namespace QuasiScript

namespace Cursor
variable {d : Dialect}

/-! ## One call -/

theorem atEnd_iff (c : Cursor) : c.atEnd d = true ↔ c.rest.dropWhile d.isWhitespace = [] := by
  rw [atEnd, List.all_eq_true, List.dropWhile_eq_nil_iff]

/-- **Only whitespace remains** exactly if the next token is the end of the text. -/
theorem atEnd_iff_next (c : Cursor) : c.atEnd d = true ↔ (c.next d).1.token.kind = .endOfStream :=
  (atEnd_iff c).trans (next_kind_eq_endOfStream_iff c).symm

theorem atEnd_eq_false_iff_next (c : Cursor) : c.atEnd d = false ↔ (c.next d).1.token.kind ≠ .endOfStream := by
  rw [← Bool.not_eq_true, atEnd_iff_next]

/-- A token without an error is not the end of the text. -/
theorem atEnd_of_error_eq_none {c : Cursor} (h : (c.next d).1.error = none) : c.atEnd d = false := by
  by_contra hend
  rw [Bool.not_eq_false, atEnd_iff] at hend
  rw [next_of_blank hend] at h
  cases h

/-- **A token takes at least its first character.** -/
theorem next_takes (hd : "" ∉ d.longPunctuation) {c : Cursor} (h : c.atEnd d = false) :
    ∃ ch raw, d.isWhitespace ch = false ∧ (c.skipWhitespace d).rest = ch :: raw ++ (c.next d).2.rest := by
  obtain ⟨ch, cs, hcs, hch⟩ := exists_of_not_atEnd h
  obtain ⟨raw, hraw, -⟩ := next_passes_blank (d := d) c
  have hskip : (c.skipWhitespace d).rest = ch :: cs := hcs
  have hlt : (c.next d).2.rest.length < cs.length + 1 := by
    rw [next_of_dropWhile hcs]
    exact readToken_lt d _ ch cs hch (readToken_not_void hd _ ch cs)
  cases raw with
  | nil =>
    rw [List.nil_append, hskip] at hraw
    rw [← hraw, List.length_cons] at hlt
    omega
  | cons ch' raw =>
    obtain ⟨rfl, hcs⟩ := List.cons.inj (hskip.symm.trans hraw)
    exact ⟨ch, raw, hch, hraw⟩

theorem next_shorter (hd : "" ∉ d.longPunctuation) {c : Cursor} (h : c.atEnd d = false) :
    (c.next d).2.rest.length < c.rest.length :=
  next_lt d c h (next_not_void hd h)

theorem next_rest_le (c : Cursor) : (c.next d).2.rest.length ≤ c.rest.length := by
  obtain ⟨raw, hraw, -⟩ := (skipWhitespace_passes (d := d) c).trans (next_passes_blank c)
  rw [hraw, List.length_append]
  exact Nat.le_add_left _ _

theorem next_of_rest_eq_nil {c : Cursor} (h : c.rest = []) :
    c.next d = (⟨⟨.endOfStream, "", c.pos⟩, some (.single c.pos .endOfStream)⟩, c) := by
  have hskip : c.skipWhitespace d = c := by
    rw [skipWhitespace, past, h]
    exact congrArg (Cursor.mk · c.pos) h.symm
  rw [next_of_blank (by rw [h]; rfl), hskip]

/-- **Once the text has ended** every later call gives the same token. -/
theorem next_again {c : Cursor} (h : c.atEnd d = true) (n : Nat) :
    (((c.next d).2.skipTokens d n).next d).1 = (c.next d).1 := by
  rw [next_of_blank ((atEnd_iff c).1 h)]
  have hrest : (c.skipWhitespace d).rest = [] := (atEnd_iff c).1 h
  have hfixed : ((c.skipWhitespace d).next d).2 = c.skipWhitespace d := by rw [next_of_rest_eq_nil hrest]
  rw [skipTokens, Function.iterate_fixed hfixed, next_of_rest_eq_nil hrest]

/-! ## All tokens -/

def tokenize (d : Dialect) (c : Cursor) : Option (List Lexed) :=
  if c.atEnd d then some []
  else
    let (l, c) := c.next d
    if l.error.isSome then some [l]
    else do
      let ls ← c |>.tokenize d
      return l :: ls
partial_fixpoint

/-- **The loop over the tokens ends** with the tokens of the scan, of which there are no more than characters. -/
theorem tokenize_eq (hd : "" ∉ d.longPunctuation) (c : Cursor) :
    tokenize d c = some (c.scan d).lexed ∧ (c.scan d).lexed.length ≤ c.rest.length := by
  induction c using scan_induction hd with
  | atEnd c h =>
    rw [tokenize, if_pos h, scan_of_atEnd h]
    exact ⟨rfl, Nat.zero_le _⟩
  | error c c' t e h hn =>
    have hlt := next_shorter hd h
    rw [tokenize, if_neg (by simp [h]), hn, scan_of_error h hn]
    refine ⟨rfl, ?_⟩
    change 1 ≤ c.rest.length
    omega
  | token c c' t h hn hv ih =>
    have hlt := next_shorter hd h
    rw [hn] at hlt
    dsimp only at hlt
    rw [tokenize, if_neg (by simp [h]), hn, scan_of_token h hn hv]
    have hlexed : ((c'.scan d).prepend [t]).lexed = ⟨t, none⟩ :: (c'.scan d).lexed := rfl
    rw [hlexed]
    refine ⟨by simp [ih.1], ?_⟩
    rw [List.length_cons]
    omega

end Cursor

/-! ## Tokens on demand -/

/-- A cursor together with the tokens it was asked for, last first. -/
structure Feed where
  cursor : Cursor
  taken : List Lexed

namespace Feed
variable {d : Dialect} {f f' : Feed}

def start (text : List Char) : Feed := ⟨.start text, []⟩

def next (d : Dialect) (f : Feed) : Lexed × Feed :=
  ((f.cursor.next d).1, ⟨(f.cursor.next d).2, (f.cursor.next d).1 :: f.taken⟩)

def Leads (d : Dialect) : Feed → Feed → Prop := Relation.ReflTransGen fun f f' => f' = (f.next d).2

def tokensTaken (f : Feed) : Nat := f.taken.countP fun l => l.token.kind != .endOfStream

theorem leads_next (f : Feed) : f.Leads d (f.next d).2 := .single rfl

theorem next_spends (hd : "" ∉ d.longPunctuation) (f : Feed) :
    (f.next d).2.tokensTaken + (f.next d).2.cursor.rest.length ≤ f.tokensTaken + f.cursor.rest.length := by
  have hle := Cursor.next_rest_le (d := d) f.cursor
  unfold tokensTaken next
  dsimp only
  rw [List.countP_cons]
  by_cases h : (f.cursor.next d).1.token.kind = .endOfStream
  · simp only [h, bne_self_eq_false, Bool.false_eq_true, if_false]
    omega
  · have hlt := Cursor.next_shorter hd ((Cursor.atEnd_eq_false_iff_next f.cursor).2 h)
    rw [if_pos (by simpa using h)]
    omega

/-- **A feed has taken at least one character for each token of the text.** -/
theorem Leads.spends (hd : "" ∉ d.longPunctuation) (h : f.Leads d f') :
    f'.tokensTaken + f'.cursor.rest.length ≤ f.tokensTaken + f.cursor.rest.length := by
  induction h with
  | refl => exact le_refl _
  | tail _ hstep ih =>
    subst hstep
    exact (next_spends hd _).trans ih

/-- What is asked for more tokens never has more of the text left. -/
theorem Leads.rest_le (h : f.Leads d f') : f'.cursor.rest.length ≤ f.cursor.rest.length := by
  induction h with
  | refl => exact le_refl _
  | tail _ hstep ih =>
    subst hstep
    exact (Cursor.next_rest_le _).trans ih

end Feed
end QuasiScript
