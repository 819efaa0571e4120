import QuasiScript.Proofs.Composition

/-!
# Where tokens stand

A cursor goes forward: what it has passed is a piece of the text, and its position is the one after that piece
(`Cursor.Passes`). So a scan that finishes does so at the position after the whole text (`scan_finished_pos`), and the
tokens of a scan stand one behind the other (`scan_pairwise_before`). With the position at the end of a text known, a
text that follows in the next line is read with all its positions moved down by as many lines as the first text has.
-/
namespace QuasiScript
open Dialect (standard)

namespace Position

def Before (p q : Position) : Prop := p.line < q.line ∨ (p.line = q.line ∧ p.column < q.column)

theorem Before.trans {p q r : Position} (h : p.Before q) (h' : q.Before r) : p.Before r := by
  unfold Before at *
  omega

theorem Before.ne {p q : Position} (h : p.Before q) : p ≠ q := by
  rintro rfl
  unfold Before at h
  omega

theorem before_step (p : Position) (c : Char) : p.Before (p.step c) := by
  unfold Before step
  split
  · right
    dsimp only
    omega
  · split
    · left
      dsimp only
      omega
    · right
      dsimp only
      omega

theorem before_after_cons : ∀ (cs : List Char) (p : Position) (c : Char), p.Before (p.after (c :: cs))
  | [], p, c => before_step p c
  | c' :: cs, p, c => (before_step p c).trans (before_after_cons cs (p.step c) c')

theorem eq_or_before_after (cs : List Char) (p : Position) : p.after cs = p ∨ p.Before (p.after cs) := by
  cases cs with
  | nil => exact .inl rfl
  | cons c cs => exact .inr (before_after_cons cs p c)

/-- Every newline leads one line down, and nothing else does. -/
theorem line_after : ∀ (cs : List Char) (p : Position), (p.after cs).line = p.line + cs.count '\n'
  | [], p => by simp
  | c :: cs, p => by
    rw [after_cons, line_after cs, List.count_cons]
    unfold step
    by_cases ht : c = '\t'
    · subst ht
      simp
    · rw [if_neg ht]
      by_cases hn : c = '\n'
      · rw [if_pos hn]
        simp only [hn, beq_self_eq_true, if_true]
        omega
      · rw [if_neg hn]
        simp [hn]

end Position

namespace Cursor
variable {d : Dialect} {c c' c'' : Cursor}

/-- The second cursor is further on in the text of the first, at the position after what lies between them. -/
def Passes (c c' : Cursor) : Prop := ∃ raw, c.rest = raw ++ c'.rest ∧ c'.pos = c.pos.after raw

theorem passes_of_eq (raw : List Char) {rest : List Char} {p : Position} (h : c.rest = raw ++ rest)
    (hp : c.pos.after raw = p) : c.Passes ⟨rest, p⟩ :=
  ⟨raw, h, hp.symm⟩

theorem Passes.trans (h : c.Passes c') (h' : c'.Passes c'') : c.Passes c'' := by
  obtain ⟨raw, hr, hp⟩ := h
  obtain ⟨raw', hr', hp'⟩ := h'
  refine ⟨raw ++ raw', ?_, ?_⟩
  · rw [hr, hr', List.append_assoc]
  · rw [hp', hp, Position.after_append]

theorem Passes.pos (h : c.Passes c') : c'.pos = c.pos ∨ c.pos.Before c'.pos := by
  obtain ⟨raw, -, hp⟩ := h
  rw [hp]
  exact Position.eq_or_before_after raw c.pos

/-- What passes some of the text gets to a later position. -/
theorem Passes.before (h : c.Passes c') (hlt : c'.rest.length < c.rest.length) : c.pos.Before c'.pos := by
  obtain ⟨raw, hr, hp⟩ := h
  rw [hp]
  cases raw with
  | nil =>
    rw [hr, List.nil_append] at hlt
    omega
  | cons ch raw => exact Position.before_after_cons raw c.pos ch

/-! ## Every token passes the text it is read from -/

theorem skipWhitespace_passes (c : Cursor) : c.Passes (c.skipWhitespace d) :=
  passes_of_eq _ List.takeWhile_append_dropWhile.symm rfl

theorem stringBody_passes (del esc : Char) (cs : List Char) (p : Position) :
    (Cursor.mk cs p).Passes (stringBody del esc cs p).next := by
  fun_induction stringBody del esc cs p with
  | case1 p => exact ⟨[], rfl, rfl⟩
  | case2 p cs => exact ⟨[del], rfl, rfl⟩
  | case3 p hc => exact ⟨[esc], rfl, rfl⟩
  | case4 p e cs hc body ih =>
    obtain ⟨raw, hr, hp⟩ := ih
    exact ⟨esc :: e :: raw, congrArg (esc :: e :: ·) hr, hp⟩
  | case5 c cs p hc he body ih =>
    obtain ⟨raw, hr, hp⟩ := ih
    exact ⟨c :: raw, congrArg (c :: ·) hr, hp⟩

theorem readString_passes (p : Position) (c : Char) (cs : List Char) :
    (Cursor.mk (c :: cs) p).Passes (readString d p c cs).2 := by
  have hopen : (Cursor.mk (c :: cs) p).Passes ⟨cs, p.step c⟩ := ⟨[c], rfl, rfl⟩
  exact hopen.trans (stringBody_passes d.stringDelimiter d.escape cs (p.step c))

theorem readComment_passes (p : Position) (c : Char) (cs : List Char) :
    (Cursor.mk (c :: cs) p).Passes (readComment p c cs).2 := by
  refine passes_of_eq (c :: (cs.takeWhile (· != '\n') ++ (cs.dropWhile (· != '\n')).take 1)) ?_ ?_
  · rw [List.cons_append, List.append_assoc, List.take_append_drop, List.takeWhile_append_dropWhile]
  · rw [Position.after_cons, Position.after_append]

theorem readAtom_passes (p : Position) (cs : List Char) : (Cursor.mk cs p).Passes (readAtom d p cs).2 :=
  passes_of_eq _ List.takeWhile_append_dropWhile.symm rfl

theorem readToken_passes (p : Position) (c : Char) (cs : List Char) :
    (Cursor.mk (c :: cs) p).Passes (readToken d p c cs).2 := by
  unfold readToken
  split
  · exact readString_passes p c cs
  · split
    · exact readComment_passes p c cs
    · split
      · exact passes_of_eq _ (List.take_append_drop _ _).symm rfl
      · split
        · exact ⟨[c], rfl, rfl⟩
        · split
          · exact ⟨[c], rfl, rfl⟩
          · exact readAtom_passes p (c :: cs)

theorem readToken_pos (p : Position) (c : Char) (cs : List Char) : (readToken d p c cs).1.token.pos = p := by
  unfold readToken
  split
  · rfl
  · split
    · rfl
    · split
      · rfl
      · split
        · rfl
        · split <;> rfl

/-- **A token passes its own text**: it stands behind some whitespace, and the next cursor behind it. -/
theorem next_passes (hd : "" ∉ d.longPunctuation) {t : Token} {e : Option ReadError} (h : c.atEnd d = false)
    (hn : c.next d = (⟨t, e⟩, c')) :
    t.pos = (c.skipWhitespace d).pos ∧ (c.skipWhitespace d).Passes c' ∧ t.pos.Before c'.pos := by
  obtain ⟨ch, cs, hcs, hch⟩ := exists_of_not_atEnd h
  have hskip : c.skipWhitespace d = ⟨ch :: cs, (c.skipWhitespace d).pos⟩ := by
    rw [← hcs]
    rfl
  rw [next_of_dropWhile hcs] at hn
  have hpos : t.pos = (c.skipWhitespace d).pos := by
    have := readToken_pos (d := d) (c.skipWhitespace d).pos ch cs
    rwa [hn] at this
  have hpasses : (c.skipWhitespace d).Passes c' := by
    have := readToken_passes (d := d) (c.skipWhitespace d).pos ch cs
    rwa [← hskip, hn] at this
  have hlt : c'.rest.length < (c.skipWhitespace d).rest.length := by
    have hv := readToken_not_void hd (c.skipWhitespace d).pos ch cs
    have := readToken_lt d (c.skipWhitespace d).pos ch cs hch hv
    rw [hn] at this
    rw [hskip]
    exact this
  refine ⟨hpos, hpasses, ?_⟩
  rw [hpos]
  exact hpasses.before hlt

/-- **A scan that finishes has passed the whole text.** -/
theorem scan_finished_pos (hd : "" ∉ d.longPunctuation) (c : Cursor) : ∀ p : Position,
    (c.scan d).ending = .finished p → p = c.pos.after c.rest := by
  induction c using scan_induction hd with
  | atEnd c h =>
    intro p hp
    rw [scan_of_atEnd h, skipWhitespace_of_atEnd h] at hp
    cases hp
    rfl
  | error c c' t e h hn =>
    intro p hp
    rw [scan_of_error h hn] at hp
    cases hp
  | token c c' t h hn hv ih =>
    intro p hp
    rw [scan_of_token h hn hv, Scan.prepend_ending] at hp
    obtain ⟨raw, hr, hpos⟩ := (skipWhitespace_passes (d := d) c).trans (next_passes hd h hn).2.1
    rw [ih p hp, hpos, hr, Position.after_append]

/-- **The tokens of a scan stand one behind the other**, none before the cursor. -/
theorem scan_pairwise_before (hd : "" ∉ d.longPunctuation) (c : Cursor) :
    (∀ t ∈ (c.scan d).tokens, t.pos = c.pos ∨ c.pos.Before t.pos) ∧
      (c.scan d).tokens.Pairwise fun t u => t.pos.Before u.pos := by
  induction c using scan_induction hd with
  | atEnd c h =>
    rw [scan_of_atEnd h]
    exact ⟨by simp, .nil⟩
  | error c c' t e h hn =>
    rw [scan_of_error h hn]
    exact ⟨by simp, .nil⟩
  | token c c' t h hn hv ih =>
    obtain ⟨hpos, -, hbefore⟩ := next_passes hd h hn
    have hfirst : t.pos = c.pos ∨ c.pos.Before t.pos := by
      rw [hpos]
      exact (skipWhitespace_passes c).pos
    have hlater : ∀ u ∈ (c'.scan d).tokens, t.pos.Before u.pos := by
      intro u hu
      rcases ih.1 u hu with he | hb
      · rw [he]
        exact hbefore
      · exact hbefore.trans hb
    rw [scan_of_token h hn hv, Scan.prepend_tokens, List.singleton_append]
    refine ⟨?_, List.pairwise_cons.2 ⟨hlater, ih.2⟩⟩
    intro u hu
    rcases List.mem_cons.1 hu with rfl | hu
    · exact hfirst
    · rcases hfirst with he | hb
      · exact .inr (he ▸ hlater u hu)
      · exact .inr (hb.trans (hlater u hu))

end Cursor

namespace Reading

/-- **The reader composes at a newline.** Behind a text that reads without error any other text is read as if it stood
alone: its nodes follow those of the first, its error is the error, and everything in them stands as many lines further
down as the first text and the newline take, in the same column. -/
theorem ofText_newline_composes {s : List Char} (h : (ofText standard s).error = none) (s' : List Char) :
    let shift := Position.down (1 + s.count '\n')
    (ofText standard (s ++ '\n' :: s')).nodes =
        (ofText standard s).nodes ++ (ofText standard s').nodes.map (Node.relocate shift) ∧
      (ofText standard (s ++ '\n' :: s')).error = (ofText standard s').error.map (ReadError.relocate shift) := by
  obtain ⟨p, hend, hread⟩ := ofText_append_newline h
  have hp : p = Position.start.after s := Cursor.scan_finished_pos Cursor.standard_solid (Cursor.start s) p hend
  have hline : p.line = 1 + s.count '\n' := by
    rw [hp, Position.line_after]
    rfl
  rw [hread s', hline]
  exact ⟨rfl, rfl⟩

theorem ofText_newline_composes_unclosed :
    (ofText standard "(a)\n; b".toList).error = none ∧
      (ofText standard " (c \"d".toList).error = some (.because ⟨1, 2⟩ (.unclosed "(")
        (.because ⟨1, 5⟩ .unfinishedString (.single ⟨1, 7⟩ .endOfStream))) ∧
      (ofText standard ("(a)\n; b".toList ++ '\n' :: " (c \"d".toList)).error = some (.because ⟨3, 2⟩ (.unclosed "(")
        (.because ⟨3, 5⟩ .unfinishedString (.single ⟨3, 7⟩ .endOfStream))) := by
  have hs : (ofText standard "(a)\n; b".toList).error = none := by cbv
  have hs' : (ofText standard " (c \"d".toList).error = some (.because ⟨1, 2⟩ (.unclosed "(")
      (.because ⟨1, 5⟩ .unfinishedString (.single ⟨1, 7⟩ .endOfStream))) := by cbv
  have herror := (ofText_newline_composes hs " (c \"d".toList).2
  rw [hs'] at herror
  exact ⟨hs, hs', herror⟩

end Reading
end QuasiScript
