import QuasiScript.Proofs.Grammar

/-!
# Comments

A text without its comments (`Text.uncomment`) has the tokens that are no comments, each where it was, because the newline
that ends a comment stays (`scan_uncommented`). So the reader is given the same tokens but for the comments, and it passes
over these wherever they stand except at one place: a comma and an at-sign abbreviate something together, and a comment
between them keeps them apart for good (`not_advance_atSign`).
-/
namespace QuasiScript
open Dialect (standard)

namespace Text

inductive Stretch where
  | code
  | string
  | escape
  | comment
deriving DecidableEq

def Stretch.next (d : Dialect) : Stretch → Char → Stretch
  | .code, c => if c = d.stringDelimiter then .string else if c = d.commentStart then .comment else .code
  | .string, c => if c = d.stringDelimiter then .code else if c = d.escape then .escape else .string
  | .escape, _ => .string
  | .comment, c => if c = '\n' then .code else .comment

def uncommented (d : Dialect) : Stretch → List Char → List Char
  | _, [] => []
  | s, c :: cs =>
    if s.next d c = .comment then uncommented d (s.next d c) cs else c :: uncommented d (s.next d c) cs

/-- **A text without its comments.** A comment goes up to the end of its line, and the newline stays. -/
def uncomment (d : Dialect) (text : List Char) : List Char := uncommented d .code text

theorem uncommented_code_cons {c : Char} (hstring : c ≠ '"') (hcomment : c ≠ ';') (cs : List Char) :
    uncommented standard .code (c :: cs) = c :: uncommented standard .code cs := by
  have hnext : Stretch.code.next standard c = .code := (if_neg hstring).trans (if_neg hcomment)
  rw [uncommented, hnext, if_neg (by decide)]

theorem uncommented_code_append : ∀ {cs : List Char}, (∀ c ∈ cs, c ≠ '"' ∧ c ≠ ';') → ∀ ds : List Char,
    uncommented standard .code (cs ++ ds) = cs ++ uncommented standard .code ds
  | [], _, _ => rfl
  | c :: cs, h, ds => by
    obtain ⟨hc, hcs⟩ := List.forall_mem_cons.1 h
    rw [List.cons_append, uncommented_code_cons hc.1 hc.2, uncommented_code_append hcs, List.cons_append]

/-- From inside a comment the text goes on with the newline that ends it. -/
theorem uncommented_comment : ∀ cs : List Char, uncommented standard .comment cs =
    (cs.dropWhile (· != '\n')).take 1 ++ uncommented standard .code ((cs.dropWhile (· != '\n')).drop 1)
  | [] => rfl
  | c :: cs => by
    by_cases hc : c = '\n'
    · subst hc
      rfl
    · have hnext : Stretch.comment.next standard c = .comment := if_neg hc
      rw [uncommented, hnext, if_pos rfl, uncommented_comment cs, List.dropWhile_cons_of_pos (by simpa using hc)]

/-- What comes first is what came first, or the newline behind a comment. -/
theorem head?_uncommented {cs : List Char} {c : Char} (h : (uncommented standard .code cs).head? = some c) :
    cs.head? = some c ∨ (cs.head? = some ';' ∧ c = '\n') := by
  rcases cs with _ | ⟨b, cs⟩
  · cases h
  · by_cases hb : b = ';'
    · subst hb
      right
      refine ⟨rfl, ?_⟩
      rw [show uncommented standard .code (';' :: cs) = uncommented standard .comment cs from rfl,
        uncommented_comment] at h
      cases hd : cs.dropWhile (· != '\n') with
      | nil =>
        rw [hd] at h
        cases h
      | cons n rest =>
        have hn := List.head?_dropWhile_not (· != '\n') cs
        rw [hd] at h hn
        simp only [List.take_succ_cons, List.take_zero, List.singleton_append, List.head?_cons, Option.some.injEq] at h
        subst h
        simpa using hn
    · left
      have hstays : Stretch.code.next standard b ≠ .comment := by
        by_cases hq : b = '"'
        · subst hq
          decide
        · rw [show Stretch.code.next standard b = .code from (if_neg hq).trans (if_neg hb)]
          decide
      rwa [uncommented, if_neg hstays] at h

end Text

namespace Cursor
open Text (Stretch uncommented uncommented_code_cons uncommented_code_append uncommented_comment head?_uncommented)
open Token (words)

/-! ## One token -/

/-- A string keeps all it has, comment signs included. -/
theorem stringBody_uncommented (cs : List Char) (p : Position) :
    let body := stringBody standard.stringDelimiter standard.escape cs p
    body.closed = true → stringBody standard.stringDelimiter standard.escape (uncommented standard .string cs) p =
      { body with next := ⟨uncommented standard .code body.next.rest, body.next.pos⟩ } := by
  intro body h
  unfold body at h ⊢
  fun_induction stringBody standard.stringDelimiter standard.escape cs p with
  | case1 => cases h
  | case2 cs p =>
    have hcode : uncommented standard .string (standard.stringDelimiter :: cs) =
        standard.stringDelimiter :: uncommented standard .code cs := rfl
    rw [hcode, stringBody_delimiter]
  | case3 => cases h
  | case4 p e cs hc body ih =>
    have hescape : uncommented standard .string (standard.escape :: e :: cs) =
        standard.escape :: e :: uncommented standard .string cs := rfl
    rw [hescape, stringBody_escape hc, ih h]
    rfl
  | case5 c cs p hc he body ih =>
    have hnext : Stretch.string.next standard c = .string := (if_neg hc).trans (if_neg he)
    rw [uncommented, hnext, if_neg (by decide), stringBody_char hc he, ih h]
    rfl

theorem readString_uncommented {p : Position} {cs : List Char} {t : Token} {c' : Cursor}
    (h : readString standard p '"' cs = (⟨t, none⟩, c')) :
    readString standard p '"' (uncommented standard .string cs) =
      (⟨t, none⟩, ⟨uncommented standard .code c'.rest, c'.pos⟩) := by
  unfold readString at h ⊢
  have hclosed : (stringBody standard.stringDelimiter standard.escape cs (p.step '"')).closed = true := by
    by_contra hopen
    simp [hopen] at h
  simp only [hclosed, if_true, Prod.mk.injEq, Lexed.mk.injEq, and_true] at h
  obtain ⟨rfl, rfl⟩ := h
  simp only [stringBody_uncommented cs (p.step '"') hclosed, hclosed, if_true]

theorem readPunctuation_uncommented {p : Position} {c : Char} {cs : List Char} {l : Lexed} {c' : Cursor}
    (h : readPunctuation standard p c cs = (l, c')) : readPunctuation standard p c (uncommented standard .code cs) =
      (l, ⟨uncommented standard .code c'.rest, c'.pos⟩) := by
  by_cases hlong : c = ',' ∧ cs.head? = some '@'
  · obtain ⟨rfl, hat⟩ := hlong
    obtain ⟨cs, rfl⟩ := List.head?_eq_some_iff.1 hat
    rw [readPunctuation_standard_long] at h
    obtain ⟨rfl, rfl⟩ := Prod.mk.inj h
    rw [uncommented_code_cons (by decide) (by decide), readPunctuation_standard_long]
  · have hshort : ¬ (c = ',' ∧ (uncommented standard .code cs).head? = some '@') := by
      rintro ⟨hcomma, hat⟩
      rcases head?_uncommented hat with hhead | ⟨-, hnewline⟩
      · exact hlong ⟨hcomma, hhead⟩
      · exact absurd hnewline (by decide)
    rw [readPunctuation_standard_short p c cs hlong] at h
    obtain ⟨rfl, rfl⟩ := Prod.mk.inj h
    rw [readPunctuation_standard_short p c _ hshort]

/-- An atom up to something that ends it without harm. -/
theorem readAtom_of_ends {text rest : List Char} (htext : ∀ c ∈ text, isAtomChar standard c = true)
    (hrest : ∀ c ∈ rest.head?, endsAtom standard c = true) (p : Position) : readAtom standard p (text ++ rest) =
      (⟨⟨.atom, String.ofList text, p⟩, none⟩, ⟨rest, p.after text⟩) := by
  have hstop : rest.takeWhile (isAtomChar standard) = [] ∧ rest.dropWhile (isAtomChar standard) = rest := by
    rcases rest with _ | ⟨c, rest⟩
    · exact ⟨rfl, rfl⟩
    · have hc : isAtomChar standard c = false := by simp [isAtomChar, hrest c rfl]
      simp [hc]
  have htake : (text ++ rest).takeWhile (isAtomChar standard) = text := by
    rw [List.takeWhile_append_of_pos htext, hstop.1, List.append_nil]
  have hdrop : (text ++ rest).dropWhile (isAtomChar standard) = rest := by
    rw [List.dropWhile_append_of_pos htext, hstop.2]
  simp only [readAtom, htake, hdrop]
  rcases rest with _ | ⟨c, rest⟩
  · rfl
  · simp [hrest c rfl]

/-- What an atom without an error consists of, and what it stops at. -/
theorem readAtom_ok {p : Position} {cs : List Char} {t : Token} {c' : Cursor}
    (h : readAtom standard p cs = (⟨t, none⟩, c')) : ∃ text, cs = text ++ c'.rest ∧
      (∀ c ∈ text, isAtomChar standard c = true) ∧ ∀ c ∈ c'.rest.head?, endsAtom standard c = true := by
  simp only [readAtom, Prod.mk.injEq, Lexed.mk.injEq] at h
  obtain ⟨⟨-, herror⟩, rfl⟩ := h
  refine ⟨cs.takeWhile (isAtomChar standard), List.takeWhile_append_dropWhile.symm,
    fun c hc => List.mem_takeWhile_imp hc, fun c hc => ?_⟩
  obtain ⟨rest, hrest⟩ := List.head?_eq_some_iff.1 hc
  by_contra hends
  rw [show cs.dropWhile (isAtomChar standard) = c :: rest from hrest] at herror
  simp [hends] at herror

theorem readAtom_uncommented {p : Position} {cs : List Char} {t : Token} {c' : Cursor}
    (h : readAtom standard p cs = (⟨t, none⟩, c')) :
    readAtom standard p (uncommented standard .code cs) = (⟨t, none⟩, ⟨uncommented standard .code c'.rest, c'.pos⟩) := by
  obtain ⟨text, rfl, htext, hrest⟩ := readAtom_ok h
  rw [readAtom_of_ends htext hrest] at h
  obtain ⟨htoken, hnext⟩ := Prod.mk.inj h
  have hplain : ∀ c ∈ text, c ≠ '"' ∧ c ≠ ';' := by
    intro c hc
    have hchar := htext c hc
    constructor
    · rintro rfl
      exact absurd hchar (by decide)
    · rintro rfl
      exact absurd hchar (by decide)
  have hends : ∀ c ∈ (uncommented standard .code c'.rest).head?, endsAtom standard c = true := by
    intro c hc
    rcases head?_uncommented hc with hhead | ⟨-, rfl⟩
    · exact hrest c hhead
    · decide
  rw [uncommented_code_append hplain, readAtom_of_ends htext hends, htoken, ← hnext]

/-- **A token that is no comment is the same without the comments behind it.** -/
theorem readToken_uncommented {p : Position} {c : Char} {cs : List Char} {t : Token} {c' : Cursor}
    (hcomment : c ≠ ';') (h : readToken standard p c cs = (⟨t, none⟩, c')) :
    uncommented standard .code (c :: cs) = c :: uncommented standard (Stretch.code.next standard c) cs ∧
      readToken standard p c (uncommented standard (Stretch.code.next standard c) cs) =
        (⟨t, none⟩, ⟨uncommented standard .code c'.rest, c'.pos⟩) := by
  by_cases hstring : c = '"'
  · subst hstring
    exact ⟨rfl, readString_uncommented h⟩
  · have hnext : Stretch.code.next standard c = .code := (if_neg hstring).trans (if_neg hcomment)
    rw [hnext]
    refine ⟨uncommented_code_cons hstring hcomment cs, ?_⟩
    unfold readToken at h ⊢
    simp only [show c ≠ standard.stringDelimiter from hstring, show c ≠ standard.commentStart from hcomment,
      if_false] at h ⊢
    by_cases hpunct : standard.isPunctuation c = true
    · rw [if_pos hpunct] at h ⊢
      exact readPunctuation_uncommented h
    rw [if_neg hpunct] at h ⊢
    by_cases hopen : standard.isOpen (String.singleton c) = true
    · rw [if_pos hopen] at h ⊢
      cases h
      rfl
    rw [if_neg hopen] at h ⊢
    by_cases hclose : standard.isClose (String.singleton c) = true
    · rw [if_pos hclose] at h ⊢
      cases h
      rfl
    rw [if_neg hclose] at h ⊢
    have hatom := readAtom_uncommented h
    rwa [uncommented_code_cons hstring hcomment] at hatom

theorem readToken_kind_ne_comment {c : Char} (hc : c ≠ ';') (p : Position) (cs : List Char) :
    (readToken standard p c cs).1.token.kind ≠ .comment := by
  unfold readToken
  rw [if_neg (show c ≠ standard.commentStart from hc)]
  split
  · simp [readString]
  · split
    · simp [readPunctuation]
    · split
      · simp [readBracket]
      · split
        · simp [readBracket]
        · simp [readAtom]

/-! ## All tokens -/

theorem step_newline_after (p : Position) (cs : List Char) (h : '\n' ∉ cs) :
    (p.after cs).step '\n' = p.step '\n' := by
  induction cs generalizing p with
  | nil => rfl
  | cons c cs ih =>
    obtain ⟨hc, hcs⟩ := not_or.1 (List.mem_cons.not.1 h)
    have hline : (p.step c).line = p.line := by
      unfold Position.step
      rw [if_neg (Ne.symm hc)]
      split <;> rfl
    have hnewline : ∀ q : Position, q.step '\n' = ⟨q.line + 1, 1⟩ := fun _ => rfl
    rw [Position.after_cons, ih _ hcs, hnewline, hnewline, hline]

/-- Behind a comment the text goes on where the comment is left out, in the same place. -/
theorem scan_uncommented_comment (p : Position) (cs : List Char) :
    ∃ q, (Cursor.mk (uncommented standard .code (';' :: cs)) p).scan standard =
      (Cursor.mk (uncommented standard .code (readComment p ';' cs).2.rest) q).scan standard ∧
      (q = (readComment p ';' cs).2.pos ∨ (readComment p ';' cs).2.rest = []) := by
  have hcode : uncommented standard .code (';' :: cs) = uncommented standard .comment cs := rfl
  rw [hcode, uncommented_comment]
  cases hd : cs.dropWhile (· != '\n') with
  | nil => exact ⟨p, by simp [readComment, hd], .inr (by simp [readComment, hd])⟩
  | cons n rest =>
    have hn := List.head?_dropWhile_not (· != '\n') cs
    rw [hd] at hn
    obtain rfl : n = '\n' := by simpa using hn
    have hline : '\n' ∉ ';' :: cs.takeWhile (· != '\n') := by
      intro hmem
      rcases List.mem_cons.1 hmem with hmem | hmem
      · exact absurd hmem (by decide)
      · exact absurd (List.mem_takeWhile_imp hmem) (by decide)
    refine ⟨p.step '\n', ?_, .inl ?_⟩
    · simp only [readComment, hd]
      exact scan_whitespace standard_solid (by decide) _ p
    · simp only [readComment, hd]
      exact (step_newline_after p _ hline).symm

/-- **Without comments a text has the tokens that are no comments**, in the same places. -/
theorem scan_uncommented (c : Cursor) : (∃ q, (c.scan standard).ending = .finished q) →
    ∃ q, (Cursor.mk (uncommented standard .code c.rest) c.pos).scan standard =
      ⟨words (c.scan standard).tokens, .finished q⟩ := by
  have hplain : ∀ w, standard.isWhitespace w = true → w ≠ '"' ∧ w ≠ ';' := by
    intro w hw
    constructor
    · rintro rfl
      exact absurd hw (by decide)
    · rintro rfl
      exact absurd hw (by decide)
  induction c using scan_induction standard_solid with
  | atEnd c h =>
    intro _
    have hall := List.all_eq_true.1 h
    have hsame := uncommented_code_append (fun w hw => hplain w (hall w hw)) []
    rw [List.append_nil] at hsame
    rw [hsame, uncommented, List.append_nil, scan_of_atEnd h]
    exact ⟨_, rfl⟩
  | error c c' t e h hn =>
    rintro ⟨q, hq⟩
    rw [scan_of_error h hn] at hq
    cases hq
  | token c c' t h hn hv ih =>
    rintro ⟨q, hq⟩
    rw [scan_of_token h hn hv] at hq ⊢
    obtain ⟨q', hrest⟩ := ih ⟨q, hq⟩
    obtain ⟨ch, cs, hcs, hch⟩ := exists_of_not_atEnd h
    rw [next_of_dropWhile hcs] at hn
    have hsplit : c.rest = c.rest.takeWhile standard.isWhitespace ++ ch :: cs := by
      rw [← hcs, List.takeWhile_append_dropWhile]
    have hspace : uncommented standard .code c.rest =
        c.rest.takeWhile standard.isWhitespace ++ uncommented standard .code (ch :: cs) := by
      conv_lhs => rw [hsplit]
      exact uncommented_code_append (fun w hw => hplain w (List.mem_takeWhile_imp hw)) _
    rw [hspace, scan_whitespaces standard_solid _ _ _ List.all_takeWhile]
    change ∃ q, (Cursor.mk _ (c.skipWhitespace standard).pos).scan standard = _
    by_cases hc : ch = ';'
    · subst hc
      have hcomment : readComment (c.skipWhitespace standard).pos ';' cs = (⟨t, none⟩, c') := hn
      have hwords : words ((c'.scan standard).prepend [t]).tokens = words (c'.scan standard).tokens := by
        have ht : t.kind = .comment := by rw [← congrArg (·.1.token.kind) hcomment, readComment]
        simp [words, ht]
      obtain ⟨r, hscan, hplace⟩ := scan_uncommented_comment (c.skipWhitespace standard).pos cs
      rw [hcomment] at hscan hplace
      rw [hscan, hwords]
      rcases hplace with rfl | hempty
      · exact ⟨q', hrest⟩
      · -- a comment up to the end of the text, so no tokens are left
        rw [hempty, uncommented, scan_of_atEnd rfl] at hrest ⊢
        obtain ⟨htokens, -⟩ := Scan.mk.inj hrest
        rw [← htokens]
        exact ⟨_, rfl⟩
    · obtain ⟨hcode, hread⟩ := readToken_uncommented hc hn
      have ht : t.kind ≠ .comment := by
        have hkind := readToken_kind_ne_comment hc (c.skipWhitespace standard).pos cs
        rwa [hn] at hkind
      rw [hcode, scan_cons standard_solid hch hread, hrest]
      refine ⟨q', ?_⟩
      simp [Scan.prepend, words, ht]

end Cursor

namespace Reading
open Token (word words Unsplit)

/-! ## Reading without comments -/

/-- An at-sign goes on with nothing but a comma: directly behind anything else it is an error. -/
theorem not_advance_atSign {t q : Token} (ht : t.kind ≠ .punctuation) (hq : q.word = (.punctuation, "@"))
    {ts : List Token} {r : Reader} {finished : List Node} :
    r.advance standard (t :: q :: ts) ≠ .ok ⟨finished, [], none⟩ := by
  have hkind : q.kind = .punctuation := congrArg Prod.fst hq
  have hat : q.lexeme = "@" := congrArg Prod.snd hq
  intro h
  cases hs : r.step standard t with
  | error e =>
    rw [Reader.advance, hs] at h
    cases h
  | ok r₁ =>
    have hstep : r₁.step standard q = .ok ⟨r₁.finished, r₁.stack, some q⟩ := by
      simp only [Reader.step_of_idle (step_run hs ht), Reader.accept, hkind]
    rw [Reader.advance_cons hs, Reader.advance_cons hstep] at h
    rcases ts with _ | ⟨u, ts⟩
    · cases congrArg Reader.run (Except.ok.inj h)
    · -- whatever comes, the run ends here, and is no abbreviation
      have hends : ¬ (u.kind = .punctuation ∧ standard.beginsSugar (q.lexeme ++ u.lexeme) = true) := by
        rintro ⟨-, hb⟩
        have hsugar := beginsSugar_of_append hb
        rw [hat] at hsugar
        exact absurd hsugar (by decide)
      have hnone : standard.punctuationSugar.get? "@" = none := by decide
      rw [Reader.advance, Reader.step_of_ended rfl hends] at h
      simp only [Reader.endRun, hat, hnone] at h
      cases h

theorem unsplit_of_advance {ts : List Token} {finished : List Node}
    (h : Reader.start.advance standard ts = .ok ⟨finished, [], none⟩) : Unsplit ts := by
  intro p cs q hpart hp hcs hq
  by_contra hne
  obtain ⟨before, after, rfl⟩ := hpart
  obtain ⟨init, c, rfl⟩ := (List.eq_nil_or_concat' cs).resolve_left hne
  have hc : c.kind ≠ .punctuation := by
    rw [hcs c (by simp)]
    decide
  have hsplit : before ++ p :: (init ++ [c] ++ [q]) ++ after = (before ++ p :: init) ++ c :: q :: after := by simp
  rw [hsplit, Reader.advance_append] at h
  cases hbefore : Reader.start.advance standard (before ++ p :: init) with
  | error x =>
    rw [hbefore] at h
    cases h
  | ok r =>
    rw [hbefore] at h
    exact not_advance_atSign hc hq h

theorem unsplit_words (ts : List Token) : Unsplit (words ts) := by
  intro p cs q hpart _ hcs _
  refine List.eq_nil_iff_forall_not_mem.2 fun c hc => ?_
  have hmem : c ∈ words ts := hpart.subset (by simp [hc])
  simp [words, hcs c hc] at hmem

/-- **Comments may be left out of a text**, if none stands between a comma and an at-sign. A text with tokens that carry
no error is read without an error exactly if it is so without its comments and has no comment in that place; and then
it is read as the same nodes, in the same places. -/
theorem ofText_uncomment {text : List Char} (h : ∀ l ∈ (Scan.ofText standard text).lexed, l.error = none) :
    let reading := ofText standard text
    let bare := ofText standard (Text.uncomment standard text)
    (reading.error = none ↔ bare.error = none ∧ Unsplit (Scan.ofText standard text).tokens) ∧
      (reading.error = none → bare.nodes = reading.nodes) := by
  intro reading bare
  obtain ⟨p, hend⟩ := forall_lexed_error_eq_none_iff.1 h
  obtain ⟨q, hscan⟩ := Cursor.scan_uncommented (Cursor.start text) ⟨p, hend⟩
  replace hscan : Scan.ofText standard (Text.uncomment standard text) =
    ⟨words (Scan.ofText standard text).tokens, .finished q⟩ := hscan
  have hwords : words (Scan.ofText standard (Text.uncomment standard text)).tokens =
      words (Scan.ofText standard text).tokens := by
    rw [hscan]
    simp [words]
  have hbare : reading.error = none → bare = ⟨reading.nodes, none⟩ := by
    intro herr
    obtain ⟨-, hunits⟩ := units_of_ofText herr
    rw [← hwords] at hunits
    refine ofText_of_units_of_unsplit ?_ (congrArg Scan.ending hscan) hunits
    rw [hscan]
    exact unsplit_words _
  refine ⟨⟨fun herr => ⟨by rw [hbare herr], ?_⟩, ?_⟩, fun herr => by rw [hbare herr]⟩
  · obtain ⟨finished, -, hadv, -, -⟩ := Reader.readAll_error_eq_none herr
    exact unsplit_of_advance hadv
  · rintro ⟨herr, hun⟩
    obtain ⟨-, hunits⟩ := units_of_ofText herr
    rw [hwords] at hunits
    exact congrArg Reading.error (ofText_of_units_of_unsplit hun hend hunits)

/-- Comments behind an atom, in a string that is none, behind a comma and at the end. -/
theorem ofText_uncomment_everywhere :
    let text := "(f;g\n\"a;b\" ,; c\n 'x);".toList
    Text.uncomment standard text = "(f\n\"a;b\" ,\n 'x)".toList ∧
      (∀ l ∈ (Scan.ofText standard text).lexed, l.error = none) ∧ (ofText standard text).error = none ∧
      (ofText standard (Text.uncomment standard text)).nodes = (ofText standard text).nodes := by
  have hread : (ofText standard "(f;g\n\"a;b\" ,; c\n 'x);".toList).error = none := by cbv
  have hlexed : ∀ l ∈ (Scan.ofText standard "(f;g\n\"a;b\" ,; c\n 'x);".toList).lexed, l.error = none :=
    forall_lexed_error_eq_none_iff.2 (units_of_ofText hread).1
  exact ⟨by decide, hlexed, hread, (ofText_uncomment hlexed).2 hread⟩

/-- A comment between a comma and an at-sign makes an error of what is none without it. -/
theorem uncomment_mends_splicing :
    let text := ",;c\n@x".toList
    (∀ l ∈ (Scan.ofText standard text).lexed, l.error = none) ∧
      (ofText standard text).error = some (.single ⟨2, 1⟩ (.unknownPunctuation "@")) ∧
      (ofText standard (Text.uncomment standard text)).error = none ∧
      (ofText standard (Text.uncomment standard text)).nodes.map Node.surface = ["(unquote-splicing x)"] := by
  refine ⟨forall_lexed_error_eq_none_iff.2 ⟨⟨2, 3⟩, ?_⟩, ?_, ?_, ?_⟩
  · cbv
  · cbv
  · cbv
  · cbv

end Reading
end QuasiScript
