import QuasiScript.Proofs.Comments
import QuasiScript.Proofs.Progress

/-!
# Texts cut between two tokens

A cursor reads tokens without errors and comes to another cursor (`Reads`). Each of these tokens ends in what was
passed, so it is the same if the text ends there too: a text that is cut between two tokens has the tokens before the
cut, and no error (`Reads.scan_cut`). One token is enough to show this for (`readToken_cut`), kind by kind.
-/
namespace QuasiScript
open Dialect (standard)

namespace Cursor
variable {d : Dialect} {c c' c'' : Cursor} {t : Token} {ts us : List Token}

/-! ## Tokens on the way -/

/-- The tokens that are read on the way from one cursor to another, none with an error. -/
inductive Reads (d : Dialect) : Cursor → List Token → Cursor → Prop where
  | nil (c : Cursor) : Reads d c [] c
  | cons {c c' c'' : Cursor} {t : Token} {ts : List Token} : c.atEnd d = false → c.next d = (⟨t, none⟩, c') →
      Reads d c' ts c'' → Reads d c (t :: ts) c''

theorem Reads.append (h : c.Reads d ts c') (h' : c'.Reads d us c'') : c.Reads d (ts ++ us) c'' := by
  induction h with
  | nil c => exact h'
  | cons hend hn _ ih => exact .cons hend hn (ih h')

theorem Reads.snoc (h : c.Reads d ts c') (hend : c'.atEnd d = false) (hn : c'.next d = (⟨t, none⟩, c'')) :
    c.Reads d (ts ++ [t]) c'' :=
  h.append (.cons hend hn (.nil c''))

theorem Reads.scan (hd : "" ∉ d.longPunctuation) (h : c.Reads d ts c') : c.scan d = (c'.scan d).prepend ts := by
  induction h with
  | nil c => rfl
  | cons hend hn _ ih =>
    have hv := next_not_void hd hend
    rw [hn] at hv
    rw [scan_of_token hend hn hv, ih, Scan.prepend_prepend, List.singleton_append]

theorem Reads.passes (hd : "" ∉ d.longPunctuation) (h : c.Reads d ts c') : c.Passes c' := by
  induction h with
  | nil c => exact ⟨[], rfl, rfl⟩
  | cons hend hn _ ih => exact ((skipWhitespace_passes _).trans (next_passes hd hend hn).2.1).trans ih

/-! ## One token before a cut -/

theorem stringBody_closed_lt {del esc : Char} (cs : List Char) (p : Position)
    (h : (stringBody del esc cs p).closed = true) : (stringBody del esc cs p).next.rest.length < cs.length := by
  fun_induction stringBody del esc cs p with
  | case1 => cases h
  | case2 => simp
  | case3 => cases h
  | case4 p e cs hc body ih => exact (ih h).trans (by simp)
  | case5 c cs p hc he body ih => exact (ih h).trans (by simp)

/-- A string that does not end in its own text ends only in what follows. -/
theorem stringBody_append_lt {del esc : Char} (tail cs : List Char) (p : Position)
    (h : (stringBody del esc cs p).closed = false) (h' : (stringBody del esc (cs ++ tail) p).closed = true) :
    (stringBody del esc (cs ++ tail) p).next.rest.length < tail.length := by
  fun_induction stringBody del esc cs p with
  | case1 p => exact stringBody_closed_lt tail p h'
  | case2 => cases h
  | case3 p hc =>
    -- the first character behind the text is escaped
    cases tail with
    | nil => simp [stringBody, hc] at h'
    | cons e tail =>
      rw [List.singleton_append, stringBody_escape hc] at h' ⊢
      exact (stringBody_closed_lt tail _ h').trans (by simp)
  | case4 p e cs hc body ih =>
    rw [List.cons_append, List.cons_append, stringBody_escape hc] at h' ⊢
    exact ih h h'
  | case5 c cs p hc he body ih =>
    rw [List.cons_append, stringBody_char hc he] at h' ⊢
    exact ih h h'

section Cut
variable {p q : Position} {cs tail more : List Char}

theorem readString_cut (h : readString standard p '"' (cs ++ tail) = (⟨t, none⟩, ⟨more ++ tail, q⟩)) :
    readString standard p '"' cs = (⟨t, none⟩, ⟨more, q⟩) := by
  have hclosed : (stringBody '"' '\\' (cs ++ tail) (p.step '"')).closed = true := by
    by_contra hopen
    simp [readString, standard, hopen] at h
  have hinner : (stringBody '"' '\\' cs (p.step '"')).closed = true := by
    by_contra hopen
    have hlt := stringBody_append_lt tail cs (p.step '"') (by simpa using hopen) hclosed
    have hrest := congrArg (fun x => x.2.rest.length) h
    simp only [readString, standard, List.length_append] at hrest
    omega
  have happ := stringBody_append_of_closed tail cs (p.step '"') hinner
  simp only [readString, standard, happ, hinner, if_true, Prod.mk.injEq, Lexed.mk.injEq, Cursor.mk.injEq,
    List.append_cancel_right_eq] at h ⊢
  obtain ⟨htoken, hrest, hpos⟩ := h
  exact ⟨htoken, by rw [← hrest, ← hpos]⟩

theorem readComment_cut {c : Char} (h : readComment p c (cs ++ tail) = (⟨t, none⟩, ⟨more ++ tail, q⟩)) :
    readComment p c cs = (⟨t, none⟩, ⟨more, q⟩) := by
  by_cases hn : '\n' ∈ cs
  · obtain ⟨line, rest, rfl⟩ := List.append_of_mem hn
    have htake := fun ys => takeWhile_append_stop (p := (· != '\n')) (b := '\n') (by simp) ys line
    have hdrop := fun ys => dropWhile_append_stop (p := (· != '\n')) (b := '\n') (by simp) ys line
    rw [List.append_assoc, List.cons_append] at h
    simp only [readComment, htake, hdrop] at h ⊢
    cases hl : line.dropWhile (· != '\n') with
    | nil => simpa [hl] using h
    | cons x xs =>
      obtain ⟨htoken, hrest, hpos⟩ : _ ∧ xs ++ '\n' :: (rest ++ tail) = more ++ tail ∧ _ := by simpa [hl] using h
      obtain rfl : xs ++ '\n' :: rest = more := List.append_cancel_right (by simpa using hrest)
      simp [htoken, hpos]
  · -- a comment that goes on behind the cut takes all of it
    have hall : ∀ x ∈ cs, (x != '\n') = true := by
      intro x hx
      simpa using ne_of_mem_of_not_mem hx hn
    have hlen := congrArg (fun x => x.2.rest.length) h
    have hle := length_dropWhile_le (· != '\n') tail
    simp only [readComment, List.dropWhile_append_of_pos hall, List.length_drop, List.length_append] at hlen
    obtain rfl : tail = [] := List.length_eq_zero_iff.1 (by omega)
    simpa using h

theorem readPunctuation_cut {c : Char}
    (h : readPunctuation standard p c (cs ++ tail) = (⟨t, none⟩, ⟨more ++ tail, q⟩)) :
    readPunctuation standard p c cs = (⟨t, none⟩, ⟨more, q⟩) := by
  by_cases hlong : c = ',' ∧ (cs ++ tail).head? = some '@'
  · obtain ⟨rfl, hat⟩ := hlong
    cases cs with
    | nil =>
      obtain ⟨rest, rfl⟩ := List.head?_eq_some_iff.1 hat
      rw [List.nil_append, readPunctuation_standard_long] at h
      have hlen := congrArg (fun x => x.2.rest.length) h
      simp only [List.length_append, List.length_cons] at hlen
      omega
    | cons x cs =>
      obtain rfl : x = '@' := by simpa using hat
      rw [List.cons_append, readPunctuation_standard_long] at h
      rw [readPunctuation_standard_long]
      simpa using h
  · have hshort : ¬ (c = ',' ∧ cs.head? = some '@') := by
      rintro ⟨rfl, hat⟩
      exact hlong ⟨rfl, by simp [hat]⟩
    rw [readPunctuation_standard_short p c _ hlong] at h
    rw [readPunctuation_standard_short p c _ hshort]
    simpa using h

theorem readAtom_cut (h : readAtom standard p (cs ++ tail) = (⟨t, none⟩, ⟨more ++ tail, q⟩)) :
    readAtom standard p cs = (⟨t, none⟩, ⟨more, q⟩) := by
  obtain ⟨text, hcat, htext, hrest⟩ := readAtom_ok h
  obtain rfl : cs = text ++ more := by simpa [← List.append_assoc] using hcat
  have hends : ∀ c ∈ more.head?, endsAtom standard c = true := fun c hc => hrest c (by simp [Option.mem_def.1 hc])
  rw [hcat, readAtom_of_ends htext hrest] at h
  rw [readAtom_of_ends htext hends]
  simpa using h

/-- **A token is the same in a text that is cut behind it.** -/
theorem readToken_cut {c : Char} (h : readToken standard p c (cs ++ tail) = (⟨t, none⟩, ⟨more ++ tail, q⟩)) :
    readToken standard p c cs = (⟨t, none⟩, ⟨more, q⟩) := by
  unfold readToken at h ⊢
  split
  · rename_i hstring
    rw [if_pos hstring] at h
    subst hstring
    exact readString_cut h
  · rename_i hstring
    rw [if_neg hstring] at h
    split
    · rename_i hcomment
      rw [if_pos hcomment] at h
      exact readComment_cut h
    · rename_i hcomment
      rw [if_neg hcomment] at h
      split
      · rename_i hpunct
        rw [if_pos hpunct] at h
        exact readPunctuation_cut h
      · rename_i hpunct
        rw [if_neg hpunct] at h
        split
        · rename_i hopen
          rw [if_pos hopen] at h
          simpa [readBracket] using h
        · rename_i hopen
          rw [if_neg hopen] at h
          split
          · rename_i hclose
            rw [if_pos hclose] at h
            simpa [readBracket] using h
          · rename_i hclose
            rw [if_neg hclose] at h
            rw [← List.cons_append] at h
            exact readAtom_cut h

/-! ## All tokens before a cut -/

theorem next_cut {xs : List Char} (hend : (Cursor.mk (xs ++ tail) p).atEnd standard = false)
    (hn : (Cursor.mk (xs ++ tail) p).next standard = (⟨t, none⟩, ⟨more ++ tail, q⟩)) :
    (Cursor.mk xs p).atEnd standard = false ∧ (Cursor.mk xs p).next standard = (⟨t, none⟩, ⟨more, q⟩) := by
  cases hxs : xs.dropWhile standard.isWhitespace with
  | nil =>
    -- a token behind the cut would leave less than what lies behind the cut
    have hblank : ∀ x ∈ xs, standard.isWhitespace x = true := List.dropWhile_eq_nil_iff.1 hxs
    have hskip : (Cursor.mk (xs ++ tail) p).next standard = (Cursor.mk tail (p.after xs)).next standard := by
      simp [next, skipWhitespace, past, List.takeWhile_append_of_pos hblank, List.dropWhile_append_of_pos hblank]
    have hend' : (Cursor.mk tail (p.after xs)).atEnd standard = false := by
      simpa [atEnd, List.all_eq_true.2 hblank] using hend
    have hlt := next_lt standard _ hend' (next_not_void standard_solid hend')
    rw [← hskip, hn] at hlt
    simp only [List.length_append] at hlt
    omega
  | cons ch cs =>
    have hend' : (Cursor.mk xs p).atEnd standard = false := by
      by_contra hall
      have hnil : xs.dropWhile standard.isWhitespace = [] := (atEnd_iff ⟨xs, p⟩).1 (by simpa using hall)
      rw [hxs] at hnil
      cases hnil
    have hskip := skipWhitespace_append (c := ⟨xs, p⟩) tail hxs
    rw [next, hskip] at hn
    refine ⟨hend', ?_⟩
    rw [next_of_dropWhile hxs]
    exact readToken_cut hn

theorem Reads.cut {xs : List Char} (h : (Cursor.mk (xs ++ tail) p).Reads standard ts ⟨more ++ tail, q⟩) :
    (Cursor.mk xs p).Reads standard ts ⟨more, q⟩ := by
  generalize hc : Cursor.mk (xs ++ tail) p = c at h
  generalize hc' : Cursor.mk (more ++ tail) q = c' at h
  induction h generalizing xs p with
  | nil c =>
    rw [← hc', Cursor.mk.injEq, List.append_cancel_right_eq] at hc
    obtain ⟨rfl, rfl⟩ := hc
    exact .nil _
  | @cons c c₁ c' t ts hend hn hreads ih =>
    subst hc hc'
    -- what is left behind the token reaches to the cut at least
    obtain ⟨raw, hraw, -⟩ := hreads.passes standard_solid
    rw [← List.append_assoc] at hraw
    obtain ⟨rest, pos⟩ := c₁
    obtain rfl : rest = raw ++ more ++ tail := hraw
    obtain ⟨hend', hn'⟩ := next_cut hend hn
    exact .cons hend' hn' (ih rfl rfl)

/-- **A text that is cut between two tokens** has the tokens before the cut, and no error. -/
theorem Reads.scan_cut {text taken blank : List Char} (h : (start text).Reads standard ts c)
    (htext : text = taken ++ c.rest) (hblank : blank <+: c.rest) (hw : ∀ w ∈ blank, standard.isWhitespace w = true) :
    Scan.ofText standard (taken ++ blank) = ⟨ts, .finished (c.pos.after blank)⟩ := by
  obtain ⟨tail, htail⟩ := hblank
  obtain ⟨rest, pos⟩ := c
  obtain rfl : blank ++ tail = rest := htail
  have hwhole : (start (taken ++ blank ++ tail)).Reads standard ts ⟨blank ++ tail, pos⟩ := by
    rwa [List.append_assoc, ← htext]
  have hcut : (start (taken ++ blank)).Reads standard ts ⟨blank, pos⟩ := Reads.cut hwhole
  have hend : (Cursor.mk blank pos).atEnd standard = true := List.all_eq_true.2 hw
  rw [Scan.ofText, hcut.scan standard_solid, scan_of_atEnd hend, skipWhitespace_of_atEnd hend]
  simp [Scan.prepend]

end Cut
end Cursor
end QuasiScript
