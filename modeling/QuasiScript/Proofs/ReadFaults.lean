import QuasiScript.Proofs.Cuts
import QuasiScript.Proofs.Descent

/-!
# What read errors point at

A reading fails at one moment: the reader has taken the tokens up to some cursor, and then the text ends with something
open, or the next token is spoilt, or it is one that the reader refuses (`Fails`). What the reader holds at that moment
was opened by tokens before the cursor, so the faults of the error stand one behind the other (`Fails.ordered`). And
since nothing is finished while something stays open (`step_finished`), the top-level node that fails begins at one
token, and what stands before that token is read by itself to the nodes that the whole text gives (`Fails.exists_unit`).
-/
namespace QuasiScript
open Dialect (standard)
open Position (behind)

/-- The token is one of those of a text, and it is read there behind `before`. -/
def Lexed.At (d : Dialect) (text before : List Char) (l : Lexed) : Prop :=
  l ∈ (Scan.ofText d text).lexed ∧
    ∃ c rest, text = before ++ c :: rest ∧ (Cursor.readToken d (behind before) c rest).1 = l

theorem Lexed.At.pos {d : Dialect} {text before : List Char} {l : Lexed} (h : l.At d text before) :
    l.token.pos = behind before := by
  obtain ⟨-, c, rest, -, rfl⟩ := h
  exact Cursor.readToken_pos _ c rest

/-- **What a fault of reading points at**: the end of the text if that came too early, an illegal character where it
stands behind the rest of an atom, and else the beginning of a token. -/
def Fault.Points (d : Dialect) (text : List Char) (f : Fault) : Prop :=
  match f.cause with
  | .endOfStream => f.pos = behind text
  | .illegalCharacter b => ∃ (before : List Char) (l : Lexed) (rest : List Char), l.At d text before ∧
      l.token.kind = .atom ∧ text = before ++ l.token.lexeme.toList ++ b :: rest ∧
      f.pos = behind (before ++ l.token.lexeme.toList)
  | _ => ∃ (before : List Char) (l : Lexed), l.At d text before ∧ f.pos = behind before

namespace Cursor
variable {d : Dialect} {text : List Char} {c c' : Cursor} {t : Token} {ts us : List Token}

/-! ## Tokens in their places -/

/-- The next token is read behind the text so far and the whitespace after it. -/
theorem next_eq_readToken {taken : List Char} (htext : text = taken ++ c.rest) (hpos : c.pos = behind taken)
    (hend : c.atEnd d = false) : ∃ ch rest, c.rest.dropWhile d.isWhitespace = ch :: rest ∧
      text = taken ++ c.rest.takeWhile d.isWhitespace ++ ch :: rest ∧
      c.next d = readToken d (behind (taken ++ c.rest.takeWhile d.isWhitespace)) ch rest := by
  obtain ⟨ch, rest, hrest, -⟩ := exists_of_not_atEnd hend
  refine ⟨ch, rest, hrest, ?_, ?_⟩
  · rw [List.append_assoc, ← hrest, List.takeWhile_append_dropWhile]
    exact htext
  · rw [next_of_dropWhile hrest, Position.behind_append, ← hpos]
    rfl

theorem Reads.place (hd : "" ∉ d.longPunctuation) (h : (start text).Reads d ts c) :
    ∃ taken, text = taken ++ c.rest ∧ c.pos = behind taken := by
  obtain ⟨taken, htext, hpos⟩ := h.passes hd
  exact ⟨taken, htext, hpos.trans (Position.start_after taken)⟩

theorem Reads.next_mem (hd : "" ∉ d.longPunctuation) (h : (start text).Reads d ts c) (hend : c.atEnd d = false) :
    (c.next d).1 ∈ (Scan.ofText d text).lexed := by
  have hv := next_not_void hd hend
  rcases hn : c.next d with ⟨⟨t, e⟩, c'⟩
  rw [hn] at hv
  rw [Scan.ofText, h.scan hd]
  cases e with
  | none =>
    rw [scan_of_token hend hn hv]
    simp [Scan.lexed]
  | some e =>
    rw [scan_of_error hend hn]
    simp [Scan.lexed, Scan.prepend]

theorem Reads.next_at (hd : "" ∉ d.longPunctuation) (h : (start text).Reads d ts c) (hend : c.atEnd d = false) :
    ∃ before, (c.next d).1.At d text before := by
  obtain ⟨taken, htext, hpos⟩ := h.place hd
  obtain ⟨ch, rest, -, hcat, hnext⟩ := next_eq_readToken htext hpos hend
  exact ⟨_, h.next_mem hd hend, ch, rest, hcat, by rw [hnext]⟩

theorem Reads.split (h : c.Reads d (ts ++ us) c') : ∃ c₁, c.Reads d ts c₁ ∧ c₁.Reads d us c' := by
  induction ts generalizing c with
  | nil => exact ⟨c, .nil c, h⟩
  | cons t ts ih =>
    cases h with
    | cons hend hn h =>
      obtain ⟨c₁, hts, hus⟩ := ih h
      exact ⟨c₁, .cons hend hn hts, hus⟩

/-- The tokens on the way to a cursor stand before it. -/
theorem Reads.token_at (hd : "" ∉ d.longPunctuation) (h : (start text).Reads d ts c) (ht : t ∈ ts) :
    (∃ (before : List Char) (l : Lexed), l.At d text before ∧ t.pos = behind before) ∧ t.pos.Before c.pos := by
  obtain ⟨us, vs, rfl⟩ := List.append_of_mem ht
  obtain ⟨c₁, hus, hvs⟩ := h.split
  cases hvs with
  | cons hend hn hvs =>
    obtain ⟨before, hat⟩ := hus.next_at hd hend
    have hbefore := (next_passes hd hend hn).2.2
    refine ⟨⟨before, _, hat, ?_⟩, ?_⟩
    · rw [← hat.pos, hn]
    · rcases (hvs.passes hd).pos with heq | hlater
      · rw [heq]
        exact hbefore
      · exact hbefore.trans hlater

/-- A token with an error is a string without end or an atom that something illegal follows. -/
theorem readToken_kind_of_error {p : Position} {ch : Char} {cs : List Char} {e : ReadError}
    (h : (readToken d p ch cs).1.error = some e) :
    ((readToken d p ch cs).1.token.kind = .string ∧
        ∃ q, e = .because p .unfinishedString (.single q .endOfStream)) ∨
      (readToken d p ch cs).1.token.kind = .atom ∧ ∃ q b, e = .single q (.illegalCharacter b) := by
  unfold readToken at h ⊢
  split at h
  · rw [if_pos ‹_›]
    simp only [readString] at h
    split at h
    · cases h
    · exact .inl ⟨rfl, _, (Option.some.inj h).symm⟩
  · rw [if_neg ‹_›]
    split at h
    · cases h
    · rw [if_neg ‹_›]
      split at h
      · cases h
      · rw [if_neg ‹_›]
        split at h
        · cases h
        · rw [if_neg ‹_›]
          split at h
          · cases h
          · rw [if_neg ‹_›]
            simp only [readAtom] at h
            split at h
            · cases h
            · split at h
              · cases h
              · exact .inr ⟨rfl, _, _, (Option.some.inj h).symm⟩

end Cursor

/-! ## Faults one behind the other -/

namespace ReadError
variable {d : Dialect} {text : List Char} {p q : Position} {cause : ReadCause} {e : ReadError}

/-- The faults of an error point into the text and stand one behind the other, none before a position. -/
structure Ordered (d : Dialect) (text : List Char) (p : Position) (e : ReadError) : Prop where
  points : ∀ f ∈ e.chain, f.Points d text
  later : ∀ f ∈ e.chain, f.pos = p ∨ p.Before f.pos
  increasing : e.chain.Pairwise fun f g => f.pos.Before g.pos

theorem ordered_single (hp : (Fault.mk p cause).Points d text) (hq : p = q ∨ q.Before p) :
    (single p cause).Ordered d text q :=
  ⟨by simpa [single, chain] using hp, by simpa [single, chain] using hq, by simp [single, chain]⟩

theorem Ordered.because (h : e.Ordered d text q) (hp : (Fault.mk p cause).Points d text) (hpq : p.Before q) :
    (ReadError.because p cause e).Ordered d text p := by
  have hlater : ∀ f ∈ e.chain, p.Before f.pos := by
    intro f hf
    rcases h.later f hf with heq | hqf
    · rw [heq]
      exact hpq
    · exact hpq.trans hqf
  refine ⟨List.forall_mem_cons.2 ⟨hp, h.points⟩, List.forall_mem_cons.2 ⟨.inl rfl, fun f hf => .inr (hlater f hf)⟩, ?_⟩
  exact List.pairwise_cons.2 ⟨hlater, h.increasing⟩

theorem Ordered.mono (h : e.Ordered d text q) (hpq : q = p ∨ p.Before q) : e.Ordered d text p := by
  refine ⟨h.points, fun f hf => ?_, h.increasing⟩
  rcases hpq with rfl | hpq
  · exact h.later f hf
  · rcases h.later f hf with heq | hqf
    · exact .inr (heq ▸ hpq)
    · exact .inr (hpq.trans hqf)

/-- The error of a spoilt token stands where the token begins or behind it. -/
theorem ordered_of_at {before : List Char} {l : Lexed} (hat : l.At d text before) (he : l.error = some e) :
    e.Ordered d text (behind before) ∧ e.chain.length ≤ 2 := by
  obtain ⟨hmem, c, rest, htext, hl⟩ := id hat
  have hlocated := Cursor.readToken_located (by rw [hl]; exact he)
  rw [← htext, hl] at hlocated
  have hkind := Cursor.readToken_kind_of_error (by rw [hl]; exact he)
  rw [hl] at hkind
  rcases hkind with ⟨-, q, rfl⟩ | ⟨hatom, q, b, rfl⟩
  · have hend : q = behind text := hlocated ⟨q, .endOfStream⟩ (by simp [chain, ReadError.because, single])
    have hpoints : (Fault.mk q .endOfStream).Points d text := hend
    have hbefore : (behind before).Before q := by
      rw [hend, htext, Position.behind_append]
      exact Position.before_after_cons rest _ c
    refine ⟨(ordered_single hpoints (.inl rfl)).because ⟨before, l, hat, rfl⟩ hbefore, ?_⟩
    simp [chain, ReadError.because, single]
  · obtain ⟨hq, -, more, hmore⟩ := hlocated ⟨q, .illegalCharacter b⟩ (by simp [chain, single])
    dsimp only at hq
    refine ⟨ordered_single ⟨before, l, more, hat, hatom, hmore, hq⟩ ?_, by simp [chain, single]⟩
    rw [hq, Position.behind_append]
    exact Position.eq_or_before_after _ _

end ReadError

namespace Reader
variable {d : Dialect} {text : List Char} {c c' : Cursor} {r r' : Reader} {t : Token} {e : ReadError}

/-! ## The moment of failure -/

def Arrives (d : Dialect) (text : List Char) (c : Cursor) (r : Reader) : Prop :=
  ∃ ts, (Cursor.start text).Reads d ts c ∧ start.advance d ts = .ok r

theorem arrives_start : start.Arrives d text (.start text) := ⟨[], .nil _, rfl⟩

theorem Arrives.step (h : r.Arrives d text c) (hend : c.atEnd d = false) (hn : c.next d = (⟨t, none⟩, c'))
    (hs : r.step d t = .ok r') : r'.Arrives d text c' := by
  obtain ⟨ts, hreads, hadv⟩ := h
  refine ⟨ts ++ [t], hreads.snoc hend hn, ?_⟩
  rw [advance_append, hadv]
  exact advance_cons hs []

/-- **How a reader fails** at a cursor. -/
inductive Fails (d : Dialect) (text : List Char) (c : Cursor) (r : Reader) (e : ReadError) : Prop where
  | atEnd : c.atEnd d = true → r.isIdle = false → e = r.interrupted d (.single (behind text) .endOfStream) →
      Fails d text c r e
  | spoilt {e' : ReadError} : c.atEnd d = false → (c.next d).1.error = some e' → e = r.interrupted d e' →
      Fails d text c r e
  | refused : c.atEnd d = false → (c.next d).1.error = none → r.step d (c.next d).1.token = .error e →
      Fails d text c r e

theorem Fails.resume (hd : "" ∉ d.longPunctuation) (h : r.Arrives d text c) (hf : r.Fails d text c e) :
    r.resume d c = ⟨r.finished.reverse, some e⟩ := by
  cases hf with
  | atEnd hend hidle he =>
    obtain ⟨ts, hreads, -⟩ := h
    obtain ⟨taken, htext, hpos⟩ := hreads.place hd
    rw [Reader.resume, Cursor.scan_of_atEnd hend, Cursor.skipWhitespace_of_atEnd hend, hpos, ← Position.behind_append,
      ← htext, he]
    simp [readAll, finish, hidle]
  | spoilt hend herror he =>
    rw [resume_eq_given hd (.inl hend), given_of_error herror, he]
  | refused hend herror hs =>
    rw [resume_eq_given hd (.inl hend), given_of_step_error herror hs]

/-- **A reading with an error fails at some cursor.** -/
theorem exists_fails (hd : "" ∉ d.longPunctuation) (c : Cursor) : ∀ r : Reader, r.Arrives d text c →
    (r.resume d c).error = some e → ∃ (c' : Cursor) (r' : Reader), r'.Arrives d text c' ∧ r'.Fails d text c' e ∧
      r.resume d c = r'.resume d c' := by
  induction c using Cursor.scan_induction hd with
  | atEnd c hend =>
    intro r harrives he
    obtain ⟨ts, hreads, -⟩ := id harrives
    obtain ⟨taken, htext, hpos⟩ := hreads.place hd
    rw [resume, Cursor.scan_of_atEnd hend, Cursor.skipWhitespace_of_atEnd hend, hpos, ← Position.behind_append,
      ← htext] at he
    cases hidle : r.isIdle with
    | true => simp [readAll, finish, hidle] at he
    | false =>
      refine ⟨c, r, harrives, .atEnd hend hidle ?_, rfl⟩
      simpa [readAll, finish, hidle, eq_comm] using he
  | error c c' t e' hend hn =>
    intro r harrives he
    have herror : (c.next d).1.error = some e' := by rw [hn]
    rw [resume_eq_given hd (.inl hend), given_of_error herror] at he
    exact ⟨c, r, harrives, .spoilt hend herror (Option.some.inj he).symm, rfl⟩
  | token c c' t hend hn _ ih =>
    intro r harrives he
    have herror : (c.next d).1.error = none := by rw [hn]
    cases hs : r.step d (c.next d).1.token with
    | error e' =>
      rw [resume_eq_given hd (.inl hend), given_of_step_error herror hs] at he
      obtain rfl : e' = e := Option.some.inj he
      exact ⟨c, r, harrives, .refused hend herror hs, rfl⟩
    | ok r' =>
      have hnext : r.resume d c = r'.resume d c' := by
        rw [resume_eq_given hd (.inl hend), given_of_step herror hs, hn]
      rw [hn] at hs
      obtain ⟨c₁, r₁, harrives', hfails, hsame⟩ := ih r' (harrives.step hend hn hs) (hnext ▸ he)
      exact ⟨c₁, r₁, harrives', hfails, hnext.trans hsame⟩

/-! ## What is open was opened before -/

theorem Arrives.represents (hd : "" ∉ d.longPunctuation) (h : r.Arrives d text c) :
    ∃ ts, (Cursor.start text).Reads d ts c ∧ Reading.Represents d r (Token.words ts) := by
  obtain ⟨ts, hreads, hadv⟩ := h
  have hkind : ∀ t ∈ ts, t.kind ≠ .endOfStream := by
    intro t ht hk
    have hregular := Cursor.scan_regular hd (.start text) t
    rw [hreads.scan hd, Scan.prepend_tokens] at hregular
    have := hregular (List.mem_append_left _ ht)
    simp [Token.Regular, hk] at this
  have hrepresents := Reading.advance_represents Reading.represents_start hkind hadv
  exact ⟨ts, hreads, by simpa using hrepresents⟩

def StandsBefore (d : Dialect) (text : List Char) (c : Cursor) (p : Position) : Prop :=
  (∃ (before : List Char) (l : Lexed), l.At d text before ∧ p = behind before) ∧ p.Before c.pos

theorem Arrives.opening (hd : "" ∉ d.longPunctuation) (h : r.Arrives d text c) {opening : Token} {es : List Node}
    {stack : List Pending} (hstack : r.stack = .bracket opening es :: stack) : StandsBefore d text c opening.pos := by
  obtain ⟨ts, hreads, us, vs, ws, hts, -, hopened, -⟩ := h.represents hd
  rw [hstack] at hopened
  have hmem : opening ∈ Token.words ts := by
    cases hopened
    rw [hts]
    simp
  exact hreads.token_at hd (List.mem_of_mem_filter hmem)

theorem Arrives.run (hd : "" ∉ d.longPunctuation) (h : r.Arrives d text c) {first : Token} (hrun : r.run = some first) :
    StandsBefore d text c first.pos := by
  obtain ⟨ts, hreads, us, vs, ws, hts, -, -, hgathered⟩ := h.represents hd
  rw [hrun] at hgathered
  obtain ⟨p, ps, rfl, -, rfl⟩ := hgathered
  have hmem : p ∈ Token.words ts := by
    rw [hts]
    simp
  exact hreads.token_at hd (t := p) (List.mem_of_mem_filter hmem)

/-- **The ways in which an interruption is reported**: punctuation before it that means nothing, the bracket around it,
or the interruption alone. -/
theorem interrupted_cases (r : Reader) (e : ReadError) :
    (∃ first, r.run = some first ∧ r.interrupted d e = .single first.pos (.unknownPunctuation first.lexeme)) ∨
      (∃ opening es stack, r.stack = .bracket opening es :: stack ∧
        r.interrupted d e = .because opening.pos (.unclosed opening.lexeme) e) ∨
      r.interrupted d e = e := by
  rcases r with ⟨finished, stack, run⟩
  cases run with
  | none =>
    rcases stack with _ | ⟨⟨opening, es⟩ | ⟨head, symbol⟩, stack⟩
    · exact .inr (.inr rfl)
    · exact .inr (.inl ⟨opening, es, stack, rfl, rfl⟩)
    · exact .inr (.inr rfl)
  | some first =>
    simp only [interrupted, endRun]
    cases d.punctuationSugar.get? first.lexeme with
    | none => exact .inl ⟨first, rfl, rfl⟩
    | some symbol => exact .inr (.inr rfl)

theorem close_error (h : r.close d t = .error e) :
    e = .single t.pos (.strayClose t.lexeme) ∨ ∃ opening es stack, r.stack = .bracket opening es :: stack ∧
      e = .because opening.pos (.closedByOther opening.lexeme) (.single t.pos (.mismatch t.lexeme opening.lexeme)) := by
  unfold close at h
  split at h
  · rename_i opening es stack hstack
    split at h
    · cases h
    · exact .inr ⟨opening, es, stack, hstack, (Except.error.inj h).symm⟩
  · exact .inl (Except.error.inj h).symm

theorem accept_error_cases (h : r.accept d t = .error e) : t.kind = .closeBracket ∧ r.close d t = .error e := by
  cases hk : t.kind with
  | closeBracket =>
    simp only [accept, hk] at h
    exact ⟨rfl, h⟩
  | comment | openBracket | string | punctuation | atom | endOfStream =>
    simp only [accept, hk] at h
    cases h

/-- **The ways in which a token is refused**: punctuation before it that means nothing, or a close bracket with nothing
or the wrong thing to close. -/
theorem step_error_cases (h : r.step d t = .error e) :
    (∃ first, r.run = some first ∧ e = .single first.pos (.unknownPunctuation first.lexeme)) ∨
      (t.kind = .closeBracket ∧ (e = .single t.pos (.strayClose t.lexeme) ∨
        ∃ opening es stack, r.stack = .bracket opening es :: stack ∧
          e = .because opening.pos (.closedByOther opening.lexeme)
            (.single t.pos (.mismatch t.lexeme opening.lexeme)))) := by
  cases hrun : r.run with
  | none =>
    rw [step_of_idle hrun] at h
    obtain ⟨hk, hclose⟩ := accept_error_cases h
    exact .inr ⟨hk, close_error hclose⟩
  | some first =>
    by_cases hl : t.kind = .punctuation ∧ d.beginsSugar (first.lexeme ++ t.lexeme) = true
    · rw [step_of_longer hrun hl] at h
      cases h
    · rw [step_of_ended hrun hl] at h
      unfold endRun at h
      rw [hrun] at h
      dsimp only at h
      cases hg : d.punctuationSugar.get? first.lexeme with
      | none =>
        rw [hg] at h
        exact .inl ⟨first, rfl, (Except.error.inj h).symm⟩
      | some symbol =>
        -- the punctuation is what waits now, and no bracket
        rw [hg] at h
        obtain ⟨hk, hclose⟩ := accept_error_cases (r := ⟨r.finished, .sugar first symbol :: r.stack, none⟩) h
        rcases close_error hclose with he | ⟨_, _, _, hstack, -⟩
        · exact .inr ⟨hk, .inl he⟩
        · cases hstack

/-- **The faults of a failure stand one behind the other**, and there are three at most. -/
theorem Fails.ordered (hd : "" ∉ d.longPunctuation) (h : r.Arrives d text c) (hf : r.Fails d text c e) :
    (∃ p, e.Ordered d text p) ∧ e.chain.length ≤ 3 := by
  obtain ⟨ts, hreads, -⟩ := id h
  -- what is reported with an interruption behind the cursor stands before the cursor
  have hinterrupted : ∀ e', e'.Ordered d text c.pos → e'.chain.length ≤ 2 → e = r.interrupted d e' →
      (∃ p, e.Ordered d text p) ∧ e.chain.length ≤ 3 := by
    intro e' he' hlength he
    rcases interrupted_cases (d := d) r e' with ⟨first, hrun, hi⟩ | ⟨opening, es, stack, hstack, hi⟩ | hi
    · rw [he, hi]
      exact ⟨⟨_, ReadError.ordered_single (h.run hd hrun).1 (.inl rfl)⟩, by simp [ReadError.chain, ReadError.single]⟩
    · obtain ⟨hat, hbefore⟩ := h.opening hd hstack
      rw [he, hi]
      exact ⟨⟨_, he'.because hat hbefore⟩, Nat.succ_le_succ hlength⟩
    · rw [he, hi]
      exact ⟨⟨_, he'⟩, hlength.trans (by decide)⟩
  cases hf with
  | atEnd hend hidle he =>
    have hpoints : (Fault.mk (behind text) .endOfStream).Points d text := rfl
    refine hinterrupted _ (ReadError.ordered_single hpoints ?_) (by simp [ReadError.chain, ReadError.single]) he
    obtain ⟨taken, htext, hpos⟩ := hreads.place hd
    rw [htext, Position.behind_append, hpos]
    exact Position.eq_or_before_after _ _
  | spoilt hend herror he =>
    obtain ⟨before, hat⟩ := hreads.next_at hd hend
    obtain ⟨hordered, hlength⟩ := ReadError.ordered_of_at hat herror
    refine hinterrupted _ (hordered.mono ?_) hlength he
    rw [← hat.pos, Cursor.next_pos]
    exact (Cursor.skipWhitespace_passes c).pos
  | refused hend herror hs =>
    obtain ⟨before, hat⟩ := hreads.next_at hd hend
    have hpoints : ∀ cause, (∀ p, (Fault.mk p cause).Points d text ↔
        ∃ (before : List Char) (l : Lexed), l.At d text before ∧ p = behind before) →
        (Fault.mk (c.next d).1.token.pos cause).Points d text :=
      fun cause hcause => (hcause _).2 ⟨before, _, hat, hat.pos⟩
    rcases step_error_cases hs with ⟨first, hrun, rfl⟩ | ⟨-, rfl | ⟨opening, es, stack, hstack, rfl⟩⟩
    · exact ⟨⟨_, ReadError.ordered_single (h.run hd hrun).1 (.inl rfl)⟩, by simp [ReadError.chain, ReadError.single]⟩
    · exact ⟨⟨_, ReadError.ordered_single (hpoints _ fun _ => Iff.rfl) (.inl rfl)⟩, by
        simp [ReadError.chain, ReadError.single]⟩
    · obtain ⟨hopening, hbefore⟩ := h.opening hd hstack
      have hclose : (ReadError.single (c.next d).1.token.pos
          (.mismatch (c.next d).1.token.lexeme opening.lexeme)).Ordered d text c.pos := by
        refine ReadError.ordered_single (hpoints _ fun _ => Iff.rfl) ?_
        rw [Cursor.next_pos]
        exact (Cursor.skipWhitespace_passes c).pos
      exact ⟨⟨_, hclose.because hopening hbefore⟩, by simp [ReadError.chain, ReadError.because, ReadError.single]⟩

/-! ## Where the failing node begins -/

def bare (r : Reader) : Reader := ⟨[], r.stack, r.run⟩

theorem onto_bare (r : Reader) : r.bare.onto r.finished = r := by
  simp [bare, onto]

theorem place_finished (finished : List Node) (stack : List Pending) (n : Node) :
    (place finished stack n).isIdle = true ∨ (place finished stack n).finished = finished := by
  induction stack generalizing n with
  | nil => exact .inl rfl
  | cons p stack ih =>
    cases p with
    | bracket opening es => exact .inr rfl
    | sugar head symbol => exact ih _

theorem accept_finished (h : r.accept d t = .ok r') : r'.isIdle = true ∨ r'.finished = r.finished := by
  cases hk : t.kind with
  | comment | openBracket | punctuation =>
    simp only [accept, hk] at h
    cases h
    exact .inr rfl
  | string | atom | endOfStream =>
    simp only [accept, hk] at h
    cases h
    exact place_finished _ _ _
  | closeBracket =>
    simp only [accept, hk, close] at h
    split at h
    · split at h
      · cases h
        exact place_finished _ _ _
      · cases h
    · cases h

/-- **Nothing is finished while something stays open.** -/
theorem step_finished (h : r.step d t = .ok r') : r'.isIdle = true ∨ r'.finished = r.finished := by
  cases hrun : r.run with
  | none =>
    rw [step_of_idle hrun] at h
    exact accept_finished h
  | some first =>
    by_cases hl : t.kind = .punctuation ∧ d.beginsSugar (first.lexeme ++ t.lexeme) = true
    · rw [step_of_longer hrun hl] at h
      cases h
      exact .inr rfl
    · rw [step_of_ended hrun hl] at h
      unfold endRun at h
      rw [hrun] at h
      dsimp only at h
      cases hg : d.punctuationSugar.get? first.lexeme with
      | none =>
        rw [hg] at h
        cases h
      | some symbol =>
        rw [hg] at h
        exact accept_finished (r := ⟨r.finished, .sugar first symbol :: r.stack, none⟩) h

theorem step_bare (h : r.step d t = .ok r') (hf : r'.finished = r.finished) : r.bare.step d t = .ok r'.bare := by
  have honto := step_onto (d := d) r.finished r.bare t
  rw [onto_bare, h] at honto
  cases hs : r.bare.step d t with
  | error e =>
    rw [hs] at honto
    cases honto
  | ok r₁ =>
    rw [hs] at honto
    obtain rfl := Except.ok.inj honto
    have hnil : r₁.finished = [] := by simpa [onto] using hf
    rcases r₁ with ⟨finished, stack, run⟩
    obtain rfl : finished = [] := hnil
    rfl

/-- The node that the reader is in begins at a token that is no comment, behind a cursor where nothing was open: what is
read from there on is read from here on, with the same things open. -/
def InUnit (d : Dialect) (text : List Char) (c : Cursor) (r : Reader) : Prop :=
  ∃ c₀ : Cursor, (Reader.mk r.finished [] none).Arrives d text c₀ ∧
    (r.isIdle = true ∧ c₀ = c ∨ r.isIdle = false ∧ c₀.atEnd d = false ∧ (c₀.next d).1.token.kind ≠ .comment ∧
      start.resume d c₀ = r.bare.resume d c)

theorem eq_of_isIdle (h : r.isIdle = true) : r = ⟨r.finished, [], none⟩ := by
  rcases r with ⟨finished, stack, run⟩
  cases stack <;> cases run <;> simp [isIdle] at h ⊢

theorem bare_eq_start (h : r.isIdle = true) : r.bare = start := by
  rw [eq_of_isIdle h]
  rfl

theorem inUnit_of_isIdle (h : r.Arrives d text c) (hidle : r.isIdle = true) : r.InUnit d text c :=
  ⟨c, by rwa [← eq_of_isIdle hidle], .inl ⟨hidle, rfl⟩⟩

/-- A comment leaves a reader with nothing open as it is. -/
theorem step_comment (hidle : r.isIdle = true) (ht : t.kind = .comment) : r.step d t = .ok r := by
  rw [eq_of_isIdle hidle, step_of_idle rfl]
  simp only [accept, ht]

theorem InUnit.step (hd : "" ∉ d.longPunctuation) (h : r.Arrives d text c) (hu : r.InUnit d text c)
    (hend : c.atEnd d = false) (hn : c.next d = (⟨t, none⟩, c')) (hs : r.step d t = .ok r') : r'.InUnit d text c' := by
  cases hidle : r'.isIdle with
  | true => exact inUnit_of_isIdle (h.step hend hn hs) hidle
  | false =>
    have hfinished : r'.finished = r.finished := (step_finished hs).resolve_left (by simp [hidle])
    have herror : (c.next d).1.error = none := by rw [hn]
    have hbare : r.bare.step d (c.next d).1.token = .ok r'.bare := by
      rw [hn]
      exact step_bare hs hfinished
    have hresume : r.bare.resume d c = r'.bare.resume d c' := by
      rw [resume_eq_given hd (.inl hend), given_of_step herror hbare, hn]
    obtain ⟨c₀, harrives, ⟨hr, rfl⟩ | ⟨-, hend₀, hkind, hsame⟩⟩ := hu
    · have hkind : t.kind ≠ .comment := by
        intro hk
        rw [step_comment hr hk] at hs
        obtain rfl := Except.ok.inj hs
        rw [hr] at hidle
        cases hidle
      refine ⟨c₀, hfinished ▸ harrives, .inr ⟨hidle, hend, by rwa [hn], ?_⟩⟩
      rw [← bare_eq_start hr, hresume]
    · exact ⟨c₀, hfinished ▸ harrives, .inr ⟨hidle, hend₀, hkind, hsame.trans hresume⟩⟩

theorem InUnit.advance (hd : "" ∉ d.longPunctuation) {ts : List Token} (hreads : c.Reads d ts c') :
    ∀ {r : Reader}, r.Arrives d text c → r.InUnit d text c → r.advance d ts = .ok r' → r'.InUnit d text c' := by
  induction hreads with
  | nil c =>
    intro r _ hu hadv
    cases hadv
    exact hu
  | @cons c c₁ c' t ts hend hn _ ih =>
    intro r harrives hu hadv
    cases hs : r.step d t with
    | error e =>
      rw [Reader.advance, hs] at hadv
      cases hadv
    | ok r₁ =>
      rw [advance_cons hs] at hadv
      exact ih (harrives.step hend hn hs) (hu.step hd harrives hend hn hs) hadv

theorem Arrives.inUnit (hd : "" ∉ d.longPunctuation) (h : r.Arrives d text c) : r.InUnit d text c := by
  obtain ⟨ts, hreads, hadv⟩ := h
  exact InUnit.advance hd hreads arrives_start (inUnit_of_isIdle arrives_start rfl) hadv

theorem resume_bare (h : r.resume d c = ⟨r.finished.reverse, some e⟩) : r.bare.resume d c = ⟨[], some e⟩ := by
  have honto := readAll_onto (d := d) r.finished (c.scan d).ending (c.scan d).tokens r.bare
  rw [onto_bare] at honto
  rcases hread : r.bare.resume d c with ⟨nodes, error⟩
  rw [show r.bare.readAll d (c.scan d).ending (c.scan d).tokens = ⟨nodes, error⟩ from hread] at honto
  obtain ⟨rfl, rfl⟩ : nodes = [] ∧ error = some e := by simpa using honto.symm.trans h
  rfl

/-- **Where the node that fails begins**: at a token that is no comment, behind a cursor where all nodes before it are
finished; and from there on no node is finished before the error. -/
theorem Fails.exists_unit (hd : "" ∉ d.longPunctuation) (h : r.Arrives d text c) (hf : r.Fails d text c e) :
    ∃ c₀ : Cursor, (Reader.mk r.finished [] none).Arrives d text c₀ ∧ c₀.atEnd d = false ∧
      (c₀.next d).1.token.kind ≠ .comment ∧ start.resume d c₀ = ⟨[], some e⟩ := by
  have hbare := resume_bare (hf.resume hd h)
  obtain ⟨c₀, harrives, ⟨hidle, rfl⟩ | ⟨-, hend, hkind, hsame⟩⟩ := h.inUnit hd
  · -- nothing was open, so the failing token itself begins the node
    rw [bare_eq_start hidle] at hbare
    cases hf with
    | atEnd _ hopen _ =>
      rw [hidle] at hopen
      cases hopen
    | spoilt hend herror _ =>
      refine ⟨c₀, harrives, hend, ?_, hbare⟩
      obtain ⟨ch, cs, hcs, -⟩ := Cursor.exists_of_not_atEnd hend
      rw [Cursor.next_of_dropWhile hcs] at herror ⊢
      rcases Cursor.readToken_kind_of_error herror with ⟨hk, -⟩ | ⟨hk, -⟩ <;> rw [hk] <;> decide
    | refused hend herror hs =>
      refine ⟨c₀, harrives, hend, fun hk => ?_, hbare⟩
      rw [step_comment hidle hk] at hs
      cases hs
  · exact ⟨c₀, harrives, hend, hkind, hsame.trans hbare⟩

end Reader

namespace Reading

/-- **Read errors point into the text, from the outside in.** The faults of an error stand one behind the other, three
at most, each at the beginning of a token, at an illegal character behind an atom, or at the end of the text if that is
what it complains about. The nodes that are read are those of the text up to some token, which is read without error.
That token begins the node that fails: it is no comment, and what is read from there on is the error and no node. -/
theorem ofText_error_points {text : List Char} {e : ReadError} (h : (ofText standard text).error = some e) :
    (e.chain.Pairwise fun f g => f.pos.Before g.pos) ∧ (∀ f ∈ e.chain, f.Points standard text) ∧ e.chain.length ≤ 3 ∧
      ∃ (before rest : List Char) (first : Lexed), text = before ++ rest ∧ first.At standard text before ∧
        first.token.kind ≠ .comment ∧ ofText standard before = ⟨(ofText standard text).nodes, none⟩ ∧
        Reader.start.resume standard ⟨rest, behind before⟩ = ⟨[], some e⟩ := by
  have hsolid := Cursor.standard_solid
  obtain ⟨c, r, harrives, hfails, hsame⟩ := Reader.exists_fails hsolid (.start text) _ Reader.arrives_start h
  obtain ⟨⟨p, hordered⟩, hlength⟩ := hfails.ordered hsolid harrives
  refine ⟨hordered.increasing, hordered.points, hlength, ?_⟩
  have hread : ofText standard text = ⟨r.finished.reverse, some e⟩ := hsame.trans (hfails.resume hsolid harrives)
  obtain ⟨c₀, ⟨ts, hreads, hadv⟩, hend, hkind, hresume⟩ := hfails.exists_unit hsolid harrives
  obtain ⟨taken, htext, hpos⟩ := hreads.place hsolid
  obtain ⟨ch, rest, hrest, hcat, hnext⟩ := Cursor.next_eq_readToken htext hpos hend
  have hblank : ∀ w ∈ c₀.rest.takeWhile standard.isWhitespace, standard.isWhitespace w = true :=
    fun w hw => List.mem_takeWhile_imp hw
  refine ⟨taken ++ c₀.rest.takeWhile standard.isWhitespace, ch :: rest, (c₀.next standard).1, hcat,
    ⟨hreads.next_mem hsolid hend, ch, rest, hcat, by rw [hnext]⟩, hkind, ?_, ?_⟩
  · rw [ofText, hreads.scan_cut htext (List.takeWhile_prefix _) hblank, hread, Reader.readAll_eq_advance, hadv]
    rfl
  · have hscan := Cursor.scan_whitespaces hsolid _ (ch :: rest) c₀.pos (List.all_eq_true.2 hblank)
    rw [← hrest, List.takeWhile_append_dropWhile] at hscan
    rw [← hresume, Reader.resume, Reader.resume, Position.behind_append, ← hpos, ← hrest, ← hscan]

theorem ofText_error_points_string :
    let text := "(a) ; b\n 'c\n\t(d '[\"e".toList
    let e : ReadError :=
      .because ⟨3, 9⟩ (.unclosed "[") (.because ⟨3, 10⟩ .unfinishedString (.single ⟨3, 12⟩ .endOfStream))
    (ofText standard text).error = some e ∧ (∀ f ∈ e.chain, f.Points standard text) ∧
      ∃ (before rest : List Char) (first : Lexed), text = before ++ rest ∧ first.At standard text before ∧
        first.token.kind ≠ .comment ∧ ofText standard before = ⟨(ofText standard text).nodes, none⟩ ∧
        Reader.start.resume standard ⟨rest, behind before⟩ = ⟨[], some e⟩ := by
  intro text e
  have herror : (ofText standard "(a) ; b\n 'c\n\t(d '[\"e".toList).error = some (.because ⟨3, 9⟩ (.unclosed "[")
      (.because ⟨3, 10⟩ .unfinishedString (.single ⟨3, 12⟩ .endOfStream))) := by cbv
  obtain ⟨-, hpoints, -, hunit⟩ := ofText_error_points herror
  exact ⟨herror, hpoints, hunit⟩

end Reading
end QuasiScript
