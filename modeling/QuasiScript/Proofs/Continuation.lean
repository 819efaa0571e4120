import QuasiScript.Command.Prompt
import QuasiScript.Proofs.ReaderState

/-!
# Which texts more lines can complete

A reading with an error stopped in one of a few ways (`ofText_error_cases`). Either a token was refused, or punctuation
that abbreviates nothing was waiting: no further line changes that, since no further character makes such punctuation an
abbreviation (`beginsSugar_append`). Or the text just ended, outside or inside a string: then a leaf and the partners of
all open brackets complete it (`advance_closers`). The innermost cause of the error tells the two apart, so the prompt
asks for another line exactly if some further text helps.
-/
namespace QuasiScript
open Dialect (standard)

namespace Dialect

/-- Every beginning of an abbreviation is an abbreviation: a run that is none stays none. -/
theorem beginsSugar_append {run : String} (hne : run ≠ "") (h : standard.punctuationSugar.get? run = none)
    (more : String) : standard.beginsSugar (run ++ more) = false := by
  have hkeys : ∀ key ∈ standard.punctuationSugar.names, ∀ cs ∈ key.toList.inits,
      cs = [] ∨ (standard.punctuationSugar.get? (String.ofList cs)).isSome = true := by decide
  rw [beginsSugar, List.any_eq_false]
  intro key hkey hp
  rw [String.toList_append, List.isPrefixOf_iff_prefix] at hp
  have hrun : run.toList <+: key.toList := (List.prefix_append _ _).trans hp
  rcases hkeys key hkey run.toList ((List.mem_inits _ _).2 hrun) with hnil | hsome
  · exact hne (String.toList_eq_nil_iff.1 hnil)
  · rw [String.ofList_toList, h] at hsome
    cases hsome

end Dialect

namespace Reader

/-! ## What no further token repairs -/

/-- Punctuation that abbreviates nothing is refused whatever comes next. -/
theorem readAll_of_endRun_error {r : Reader} {e : ReadError} (hr : r.Sound) (h : r.endRun standard = .error e)
    (ending : Ending) : ∀ ts : List Token, (readAll standard ending r ts).error.isSome = true := by
  have hrun : ∃ first, r.run = some first ∧ standard.punctuationSugar.get? first.lexeme = none := by
    unfold endRun at h
    split at h
    · cases h
    · rename_i first hfirst
      split at h
      · cases h
      · rename_i hg
        exact ⟨first, hfirst, hg⟩
  obtain ⟨first, hfirst, hg⟩ := hrun
  intro ts
  cases ts with
  | nil => cases ending <;> simp [readAll, finish, isIdle, hfirst]
  | cons t ts =>
    have hl : ¬ (t.kind = .punctuation ∧ standard.beginsSugar (first.lexeme ++ t.lexeme) = true) := by
      rintro ⟨-, hb⟩
      rw [Dialect.beginsSugar_append (hr.run first hfirst) hg] at hb
      cases hb
    have hstep : r.step standard t = .error e := by
      rw [step_of_ended hfirst hl, h]
      rfl
    simp [readAll, hstep]

/-! ## What completes a text -/

/-- The partners of all open brackets, innermost first. -/
def closers : List Pending → List Char
  | [] => []
  | .bracket opening _ :: stack => (standard.matching opening.lexeme).toList ++ closers stack
  | .sugar _ _ :: stack => closers stack

/-- Each bracket of the language has one character as its partner, which closes it. -/
theorem matching_of_isOpen {opening : String} (h : standard.isOpen opening = true) :
    ∃ c, standard.matching opening = String.singleton c ∧ standard.isClose (String.singleton c) = true := by
  have hb : ∀ e ∈ standard.brackets.entries,
      ∃ c ∈ e.2.toList, e.2 = String.singleton c ∧ standard.isClose (String.singleton c) = true := by decide
  obtain ⟨close, hg⟩ := Option.isSome_iff_exists.1 h
  obtain ⟨c, -, hc, hclose⟩ := hb _ (Dialect.mem_of_get? hg)
  refine ⟨c, ?_, hclose⟩
  rw [Dialect.matching, hg]
  exact hc

theorem stops_closers : ∀ {stack : List Pending}, (∀ p ∈ stack, p.Sound) → Cursor.Stops (closers stack)
  | [], _ => by simp [closers, Cursor.Stops]
  | .bracket opening _ :: stack, h => by
    obtain ⟨⟨hopen, -⟩, -⟩ := List.forall_mem_cons.1 h
    obtain ⟨c, hc, hclose⟩ := matching_of_isOpen hopen
    intro c' hc'
    rw [closers, hc, String.toList_singleton] at hc'
    cases hc'
    simp [Cursor.endsAtom, hclose]
  | .sugar _ _ :: stack, h => by
    rw [closers]
    exact stops_closers (List.forall_mem_cons.1 h).2

/-- **A node and the partners of all open brackets** leave nothing open. -/
theorem advance_closers : ∀ {stack : List Pending}, (∀ p ∈ stack, p.Sound) → ∀ p : Position, ∃ ts q,
    (Cursor.mk (closers stack) p).scan standard = ⟨ts, .finished q⟩ ∧
      ∀ finished n, ∃ finished', (place finished stack n).advance standard ts = .ok ⟨finished', [], none⟩
  | [], _, p => ⟨[], p, Cursor.scan_of_atEnd rfl, fun finished n => ⟨n :: finished, rfl⟩⟩
  | .sugar head symbol :: stack, h, p => by
    obtain ⟨ts, q, hscan, hadv⟩ := advance_closers (List.forall_mem_cons.1 h).2 p
    exact ⟨ts, q, hscan, fun finished n => hadv finished (.list [.leaf (.symbol symbol) head, n] head)⟩
  | .bracket opening es :: stack, h, p => by
    obtain ⟨⟨hopen, -⟩, hs⟩ := List.forall_mem_cons.1 h
    obtain ⟨c, hc, hclose⟩ := matching_of_isOpen hopen
    obtain ⟨ts, q, hscan, hadv⟩ := advance_closers hs (p.step c)
    refine ⟨⟨.closeBracket, String.singleton c, p⟩ :: ts, q, ?_, fun finished n => ?_⟩
    · rw [closers, hc, String.toList_singleton, List.singleton_append, Cursor.scan_close c hclose, hscan]
      rfl
    · rw [place, advance_cons (step_close rfl hc.symm)]
      exact hadv finished _

/-- A leaf after a run of punctuation, or after none, takes its place. -/
theorem step_leaf {r r' : Reader} {t : Token} (h : r.endRun standard = .ok r')
    (ht : t.kind = .atom ∨ t.kind = .string) : ∃ n, r.step standard t = .ok (place r'.finished r'.stack n) := by
  have haccept : ∀ r : Reader, ∃ n, r.accept standard t = .ok (place r.finished r.stack n) := by
    intro r
    rcases ht with ht | ht
    · exact ⟨_, by simp only [accept, ht]; rfl⟩
    · exact ⟨_, by simp only [accept, ht]; rfl⟩
  cases hrun : r.run with
  | none =>
    have : r' = r := by
      simp only [endRun, hrun] at h
      exact (Except.ok.inj h).symm
    rw [step_of_idle hrun, this]
    exact haccept r
  | some first =>
    have hl : ¬ (t.kind = .punctuation ∧ standard.beginsSugar (first.lexeme ++ t.lexeme) = true) := by
      rintro ⟨hp, -⟩
      rcases ht with ht | ht <;> rw [ht] at hp <;> cases hp
    rw [step_of_ended hrun hl, h]
    exact haccept r'

/-- **A reader that does not hold unknown punctuation** can be completed by a leaf and the partners of what is open. -/
theorem exists_completion {r r' : Reader} (hr : r.Sound) (h : r.endRun standard = .ok r') :
    ∃ more, Cursor.Stops more ∧ ∀ (t : Token) (p : Position), t.kind = .atom ∨ t.kind = .string →
      ∃ ts q finished, (Cursor.mk more p).scan standard = ⟨ts, .finished q⟩ ∧
        r.advance standard (t :: ts) = .ok ⟨finished, [], none⟩ := by
  have hr' := endRun_sound hr h
  refine ⟨closers r'.stack, stops_closers hr'.stack, fun t p ht => ?_⟩
  obtain ⟨n, hn⟩ := step_leaf h ht
  obtain ⟨ts, q, hscan, hadv⟩ := advance_closers hr'.stack p
  obtain ⟨finished, hf⟩ := hadv r'.finished n
  exact ⟨ts, q, finished, hscan, by rw [advance_cons hn, hf]⟩

theorem interrupted_of_ok {r r' : Reader} (h : r.endRun standard = .ok r') (e : ReadError) :
    (r.interrupted standard e).innermost = e.innermost := by
  simp only [interrupted, h]
  split
  · simp
  · rfl

theorem interrupted_of_error {r : Reader} {e' : ReadError} (h : r.endRun standard = .error e') (e : ReadError) :
    r.interrupted standard e = e' := by
  simp only [interrupted, h]

/-- What is reported at the end of the tokens, and because of what. -/
theorem finish_error {r : Reader} {ending : Ending} {e : ReadError} (h : (r.finish standard ending).error = some e) :
    (∃ p, ending = .finished p ∧ e = r.interrupted standard (.single p .endOfStream)) ∨
      ∃ t e', ending = .broken t e' ∧ e = r.interrupted standard e' := by
  cases ending with
  | broken t e' => exact .inr ⟨t, e', rfl, (Option.some.inj h).symm⟩
  | finished p =>
    simp only [finish] at h
    split at h
    · cases h
    · exact .inl ⟨p, rfl, (Option.some.inj h).symm⟩

end Reader

/-- A string without an end is closed by a delimiter in the next line. -/
theorem Cursor.scan_unclosed {cs : List Char} {p : Position} (h : (stringBody '"' '\\' cs (p.step '"')).closed = false)
    (more : List Char) : ∃ (t : Token) (q : Position), t.kind = .string ∧
      (Cursor.mk ('"' :: (cs ++ '\n' :: '"' :: more)) p).scan standard =
        ((Cursor.mk more q).scan standard).prepend [t] := by
  have hbody := stringBody_append_of_unclosed (by decide) (by decide) ('"' :: more) cs _ h
  rw [stringBody_delimiter] at hbody
  have hread : readToken standard p '"' (cs ++ '\n' :: '"' :: more) =
      (⟨⟨.string, String.ofList ((stringBody '"' '\\' cs (p.step '"')).contents ++ ['\n']), p⟩, none⟩,
        ⟨more, ((p.step '"').after (cs ++ ['\n'])).step '"'⟩) := by
    show readString standard p '"' (cs ++ '\n' :: '"' :: more) = _
    simp only [readString, show standard.stringDelimiter = '"' from rfl, show standard.escape = '\\' from rfl, hbody,
      if_true]
  exact ⟨_, _, rfl, scan_cons standard_solid (by decide) hread⟩

namespace Reading

/-! ## How a reading fails -/

/-- **The ways in which a reading fails**, and what the innermost cause tells about them. -/
theorem ofText_error_cases {text : List Char} {e : ReadError} (h : (ofText standard text).error = some e) :
    (e.innermost.cause ≠ .endOfStream ∧
      ∃ x : Reading, Reader.start.advance standard (Scan.ofText standard text).tokens = .error x ∧
        x.error.isSome = true) ∨
    ∃ r : Reader, r.Sound ∧ Reader.start.advance standard (Scan.ofText standard text).tokens = .ok r ∧
      ((e.innermost.cause ≠ .endOfStream ∧ ∃ e', r.endRun standard = .error e') ∨
        ∃ r', r.endRun standard = .ok r' ∧
          ((e.innermost.cause = .endOfStream ∧ ∃ p, (Scan.ofText standard text).ending = .finished p) ∨
            ∃ t e', (Scan.ofText standard text).ending = .broken t e' ∧ e.innermost = e'.innermost)) := by
  have hreg := Cursor.scan_regular Cursor.standard_solid (Cursor.start text)
  rw [ofText, Reader.readAll_eq_advance] at h
  cases ha : Reader.start.advance standard (Scan.ofText standard text).tokens with
  | error x =>
    rw [ha] at h
    obtain ⟨e', he', hcause⟩ := Reader.advance_error _ _ x ha
    cases he'.symm.trans h
    exact .inl ⟨hcause, x, rfl, by simp [he']⟩
  | ok r =>
    rw [ha] at h
    refine .inr ⟨r, Reader.advance_sound Reader.start_sound hreg ha, rfl, ?_⟩
    cases hr : r.endRun standard with
    | error e' =>
      refine .inl ⟨?_, e', rfl⟩
      have he : e = e' := by
        rcases Reader.finish_error h with ⟨p, -, rfl⟩ | ⟨t, e₁, -, rfl⟩ <;> exact Reader.interrupted_of_error hr _
      rw [he]
      exact Reader.endRun_error hr
    | ok r' =>
      refine .inr ⟨r', rfl, ?_⟩
      rcases Reader.finish_error h with ⟨p, hend, rfl⟩ | ⟨t, e', hend, rfl⟩
      · exact .inl ⟨by rw [Reader.interrupted_of_ok hr, ReadError.innermost_single], p, hend⟩
      · exact .inr ⟨t, e', hend, Reader.interrupted_of_ok hr e'⟩

/-- The tokens of a text stay its first tokens when lines are added. -/
theorem tokens_append_newline (text more : List Char) : ∃ s : Scan,
    Scan.ofText standard (text ++ '\n' :: more) = s.prepend (Scan.ofText standard text).tokens := by
  obtain ⟨ts, c', hscan, happ, hend⟩ := Cursor.scan_append_newline (Cursor.start text)
  have hnil : (c'.scan standard).tokens = [] := by
    rcases hend with hend | ⟨hend, t, e, c'', hn⟩
    · rw [Cursor.scan_of_atEnd hend]
    · rw [Cursor.scan_of_error hend hn]
  have htokens : (Scan.ofText standard text).tokens = ts := by
    rw [Scan.ofText, hscan, Scan.prepend_tokens, hnil, List.append_nil]
  exact ⟨_, by rw [htokens]; exact happ more⟩

/-- **An error that is not the end of the text** is repaired by no further lines. -/
theorem error_append_of_final {text : List Char} {e : ReadError} (h : (ofText standard text).error = some e)
    (hcause : e.innermost.cause ≠ .endOfStream) (more : List Char) :
    (ofText standard (text ++ '\n' :: more)).error.isSome = true := by
  obtain ⟨s, hs⟩ := tokens_append_newline text more
  rcases ofText_error_cases h with ⟨-, x, hx, hsome⟩ | ⟨r, hr, ha, ⟨-, e', he⟩ | ⟨r', -, hend⟩⟩
  · rw [ofText, hs, Scan.prepend_tokens, Reader.readAll_eq_advance, Reader.advance_append, hx]
    exact hsome
  · rw [ofText, hs, Scan.prepend_tokens, Reader.readAll_of_advance ha]
    exact Reader.readAll_of_endRun_error hr he _ _
  · rcases hend with ⟨heos, -⟩ | ⟨t, e', hend, hinner⟩
    · exact absurd heos hcause
    · have hscan : (Cursor.start text).scan standard = ⟨(Scan.ofText standard text).tokens, .broken t e'⟩ := by
        rw [← hend]
        rfl
      rcases Cursor.scan_append_of_broken hscan with ⟨-, hsame⟩ | ⟨cs, p, q, rfl, -⟩
      · have hsame : Scan.ofText standard (text ++ '\n' :: more) = Scan.ofText standard text := by
          rw [Scan.ofText, Scan.ofText, hscan]
          exact hsame more
        rw [ofText, hsame]
        exact Option.isSome_of_eq_some h
      · rw [hinner] at hcause
        exact absurd (by simp) hcause

/-- Tokens that leave nothing open, up to the end of the text, are read without error. -/
theorem error_eq_none_of_advance {text : List Char} {ts us : List Token} {q : Position} {r : Reader}
    {finished : List Node} (hscan : Scan.ofText standard text = ⟨ts ++ us, .finished q⟩)
    (hr : Reader.start.advance standard ts = .ok r) (hus : r.advance standard us = .ok ⟨finished, [], none⟩) :
    (ofText standard text).error = none := by
  rw [ofText, hscan, Reader.readAll_of_advance hr, Reader.readAll_eq_advance, hus]
  rfl

/-- **A text that just ends** is completed by some further lines. -/
theorem exists_append_of_endOfStream {text : List Char} {e : ReadError} (h : (ofText standard text).error = some e)
    (hcause : e.innermost.cause = .endOfStream) : ∃ more, (ofText standard (text ++ '\n' :: more)).error = none := by
  rcases ofText_error_cases h with ⟨hne, -⟩ | ⟨r, hr, ha, ⟨hne, -⟩ | ⟨r', hr', hend⟩⟩
  · exact absurd hcause hne
  · exact absurd hcause hne
  obtain ⟨more, hstops, hmore⟩ := Reader.exists_completion hr hr'
  rcases hend with ⟨-, p, hend⟩ | ⟨t, e', hend, hinner⟩
  · have hscan : (Cursor.start text).scan standard = ⟨(Scan.ofText standard text).tokens, .finished p⟩ := by
      rw [← hend]
      rfl
    have hx := Cursor.scan_atom (List.cons_ne_nil 'x' []) (by decide) hstops (p.step '\n')
    obtain ⟨ts, q, finished, hclose, hadv⟩ := hmore ⟨.atom, "x", p.step '\n'⟩ ((p.step '\n').after ['x']) (.inl rfl)
    refine ⟨'x' :: more, error_eq_none_of_advance (q := q) ?_ ha hadv⟩
    rw [hclose] at hx
    exact (Cursor.scan_append_of_finished hscan ('x' :: more)).trans (congrArg (Scan.prepend _) hx)
  · have hscan : (Cursor.start text).scan standard = ⟨(Scan.ofText standard text).tokens, .broken t e'⟩ := by
      rw [← hend]
      rfl
    rcases Cursor.scan_append_of_broken hscan with ⟨⟨q, b, rfl⟩, -⟩ | ⟨cs, p, q, rfl, hopen, happ⟩
    · rw [hinner, ReadError.innermost_single] at hcause
      cases hcause
    · obtain ⟨t', q', ht', hstring⟩ := Cursor.scan_unclosed hopen more
      obtain ⟨ts, q'', finished, hclose, hadv⟩ := hmore t' q' (.inr ht')
      refine ⟨'"' :: more, error_eq_none_of_advance (q := q'') ?_ ha hadv⟩
      rw [hclose] at hstring
      exact (happ ('"' :: more)).trans (congrArg (Scan.prepend _) hstring)

end Reading

namespace Prompt

/-- **The prompt asks for another line exactly if that can help**: if the text is read with an error, and some further
text in the lines below makes it one without error. -/
theorem incomplete_iff_exists_completion (text : String) :
    incomplete text = true ↔ (Reading.ofText standard text.toList).error.isSome = true ∧
      ∃ more : String, (Reading.ofText standard (text ++ "\n" ++ more).toList).error = none := by
  have hcat : ∀ more : String, (text ++ "\n" ++ more).toList = text.toList ++ '\n' :: more.toList := by
    intro more
    simp
  unfold incomplete
  cases h : (Reading.ofText standard text.toList).error with
  | none => simp
  | some e =>
    simp only [beq_iff_eq, Option.isSome_some, true_and, hcat]
    constructor
    · intro hcause
      obtain ⟨more, hmore⟩ := Reading.exists_append_of_endOfStream h hcause
      exact ⟨String.ofList more, by rw [String.toList_ofList]; exact hmore⟩
    · rintro ⟨more, hmore⟩
      by_contra hcause
      have := Reading.error_append_of_final h hcause more.toList
      rw [hmore] at this
      cases this

end Prompt
end QuasiScript
