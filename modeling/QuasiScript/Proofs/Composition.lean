import QuasiScript.Proofs.Relocation

/-!
# Texts one after the other

The reader takes tokens one by one, so reading a list of tokens is reading its first part and going on from there
(`advance_append`), and the finished nodes of a reader are never looked at again (`readAll_onto`). With a newline
between them, a text that reads without error and any other text are read as their nodes one after the other
(`ofText_append_newline`).
-/
namespace QuasiScript

namespace ReadError

@[simp] theorem innermost_single (p : Position) (c : ReadCause) : (single p c).innermost = ⟨p, c⟩ := rfl

@[simp] theorem innermost_because (p : Position) (c : ReadCause) (e : ReadError) :
    (because p c e).innermost = e.innermost := by
  rw [because, innermost, List.getLastD_cons, innermost]

end ReadError

namespace Reader
variable {d : Dialect}

/-- The reader after some tokens, or the reading that an error among them ends with. -/
def advance (d : Dialect) : Reader → List Token → Except Reading Reader
  | r, [] => .ok r
  | r, t :: ts =>
    match r.step d t with
    | .ok r' => advance d r' ts
    | .error e => .error ⟨r.finished.reverse, some e⟩

theorem advance_cons {r r' : Reader} {t : Token} (h : r.step d t = .ok r') (ts : List Token) :
    advance d r (t :: ts) = advance d r' ts := by
  simp only [advance, h]

theorem advance_append (us : List Token) : ∀ (ts : List Token) (r : Reader),
    advance d r (ts ++ us) = (advance d r ts).bind fun r' => advance d r' us
  | [], _ => rfl
  | t :: ts, r => by
    rw [List.cons_append, advance, advance]
    cases r.step d t with
    | ok r' => exact advance_append us ts r'
    | error e => rfl

theorem readAll_eq_advance (ending : Ending) : ∀ (ts : List Token) (r : Reader),
    readAll d ending r ts =
      match advance d r ts with
      | .ok r' => r'.finish d ending
      | .error x => x
  | [], _ => rfl
  | t :: ts, r => by
    rw [readAll, advance]
    cases r.step d t with
    | ok r' => exact readAll_eq_advance ending ts r'
    | error e => rfl

theorem readAll_of_advance {r r' : Reader} {ts : List Token} (h : advance d r ts = .ok r') (ending : Ending)
    (us : List Token) : readAll d ending r (ts ++ us) = readAll d ending r' us := by
  rw [readAll_eq_advance, readAll_eq_advance, advance_append, h]
  rfl

theorem endRun_error {r : Reader} {e : ReadError} (h : r.endRun d = .error e) :
    e.innermost.cause ≠ .endOfStream := by
  unfold endRun at h
  split at h
  · cases h
  · split at h
    · cases h
    · cases h
      simp

theorem accept_error {r : Reader} {t : Token} {e : ReadError} (h : r.accept d t = .error e) :
    e.innermost.cause ≠ .endOfStream := by
  cases hk : t.kind with
  | closeBracket =>
    simp only [accept, hk, close] at h
    split at h
    · split at h
      · cases h
      · cases h
        simp
    · cases h
      simp
  | comment | openBracket | string | punctuation | atom | endOfStream =>
    simp only [accept, hk] at h
    cases h

/-- What a step complains about is never that the text ends. -/
theorem step_error {r : Reader} {t : Token} {e : ReadError} (h : r.step d t = .error e) :
    e.innermost.cause ≠ .endOfStream := by
  cases hr : r.run with
  | none =>
    rw [step_of_idle hr] at h
    exact accept_error h
  | some first =>
    by_cases hl : t.kind = .punctuation ∧ d.beginsSugar (first.lexeme ++ t.lexeme) = true
    · rw [step_of_longer hr hl] at h
      cases h
    · rw [step_of_ended hr hl] at h
      cases he : r.endRun d with
      | error e' =>
        rw [he] at h
        cases h
        exact endRun_error he
      | ok r' =>
        rw [he] at h
        exact accept_error h

theorem advance_error : ∀ (ts : List Token) (r : Reader) (x : Reading), advance d r ts = .error x →
    ∃ e, x.error = some e ∧ e.innermost.cause ≠ .endOfStream
  | [], _, _, h => by cases h
  | t :: ts, r, x, h => by
    rw [advance] at h
    cases hs : r.step d t with
    | ok r' =>
      rw [hs] at h
      exact advance_error ts r' x h
    | error e =>
      rw [hs] at h
      cases h
      exact ⟨e, rfl, step_error hs⟩

/-- **A reading without error** takes all tokens, ends with the text and leaves nothing open. -/
theorem readAll_error_eq_none {ending : Ending} {ts : List Token} {r : Reader}
    (h : (readAll d ending r ts).error = none) : ∃ finished p, advance d r ts = .ok ⟨finished, [], none⟩ ∧
      ending = .finished p ∧ (readAll d ending r ts).nodes = finished.reverse := by
  rw [readAll_eq_advance] at h ⊢
  cases ha : advance d r ts with
  | error x =>
    rw [ha] at h
    obtain ⟨e, he, -⟩ := advance_error ts r x ha
    cases he.symm.trans h
  | ok r' =>
    rw [ha] at h
    cases ending with
    | broken t e => simp [finish] at h
    | finished p =>
      rcases r' with ⟨finished, stack, run⟩
      cases stack <;> cases run <;> simp [finish, isIdle] at h ⊢

/-! ## Brackets -/

theorem step_open {r : Reader} (hr : r.run = none) {t : Token} (ht : t.kind = .openBracket) :
    r.step d t = .ok ⟨r.finished, .bracket t [] :: r.stack, none⟩ := by
  simp only [step_of_idle hr, accept, ht, hr]

theorem step_close {finished es : List Node} {opening t : Token} {stack : List Pending} (ht : t.kind = .closeBracket)
    (hm : t.lexeme = d.matching opening.lexeme) : step d ⟨finished, .bracket opening es :: stack, none⟩ t =
      .ok (place finished stack (.list (closedElements d opening es) opening)) := by
  simp only [step, accept, ht, close, hm, if_true]

/-! ## The finished nodes -/

def onto (base : List Node) (r : Reader) : Reader := { r with finished := r.finished ++ base }

def ontoStep (base : List Node) : Except ReadError Reader → Except ReadError Reader
  | .ok r => .ok (r.onto base)
  | .error e => .error e

theorem place_onto (base finished : List Node) : ∀ (stack : List Pending) (n : Node),
    place (finished ++ base) stack n = (place finished stack n).onto base
  | [], _ => rfl
  | .bracket _ _ :: _, _ => rfl
  | .sugar head symbol :: stack, n => by rw [place, place_onto base finished stack, place]

theorem endRun_onto (base : List Node) (r : Reader) : (r.onto base).endRun d = ontoStep base (r.endRun d) := by
  rcases r with ⟨finished, stack, run⟩
  cases run with
  | none => rfl
  | some first =>
    simp only [endRun, onto]
    cases d.punctuationSugar.get? first.lexeme <;> rfl

theorem accept_onto (base : List Node) (r : Reader) (t : Token) :
    (r.onto base).accept d t = ontoStep base (r.accept d t) := by
  rcases r with ⟨finished, stack, run⟩
  simp only [accept]
  cases t.kind with
  | comment => rfl
  | openBracket => rfl
  | punctuation => rfl
  | string => exact congrArg Except.ok (place_onto base finished stack _)
  | atom => exact congrArg Except.ok (place_onto base finished stack _)
  | endOfStream => exact congrArg Except.ok (place_onto base finished stack _)
  | closeBracket =>
    cases stack with
    | nil => rfl
    | cons p stack =>
      cases p with
      | sugar head symbol => rfl
      | bracket opening es =>
        simp only [close, onto]
        split
        · exact congrArg Except.ok (place_onto base finished stack _)
        · rfl

theorem step_onto (base : List Node) (r : Reader) (t : Token) :
    (r.onto base).step d t = ontoStep base (r.step d t) := by
  cases hr : r.run with
  | none =>
    rw [step_of_idle hr, step_of_idle (r := r.onto base) hr]
    exact accept_onto base r t
  | some first =>
    by_cases h : t.kind = .punctuation ∧ d.beginsSugar (first.lexeme ++ t.lexeme) = true
    · rw [step_of_longer hr h, step_of_longer (r := r.onto base) hr h]
      rfl
    · rw [step_of_ended hr h, step_of_ended (r := r.onto base) hr h, endRun_onto]
      cases r.endRun d with
      | error e => rfl
      | ok r' => exact accept_onto base r' t

theorem finish_onto (base : List Node) (r : Reader) (ending : Ending) :
    (r.onto base).finish d ending = ⟨base.reverse ++ (r.finish d ending).nodes, (r.finish d ending).error⟩ := by
  have hint : ∀ e, (r.onto base).interrupted d e = r.interrupted d e := by
    intro e
    simp only [interrupted, endRun_onto]
    cases r.endRun d with
    | error e' => rfl
    | ok r' => rfl
  have hfin : (r.onto base).finished.reverse = base.reverse ++ r.finished.reverse := by simp [onto]
  cases ending with
  | broken t e => simp only [finish, hint, hfin]
  | finished p =>
    simp only [finish, hint, hfin, show (r.onto base).isIdle = r.isIdle from rfl]
    split <;> rfl

theorem readAll_onto (base : List Node) (ending : Ending) : ∀ (ts : List Token) (r : Reader),
    readAll d ending (r.onto base) ts =
      ⟨base.reverse ++ (readAll d ending r ts).nodes, (readAll d ending r ts).error⟩
  | [], r => finish_onto base r ending
  | t :: ts, r => by
    rw [readAll, readAll, step_onto]
    cases r.step d t with
    | ok r' => exact readAll_onto base ending ts r'
    | error e => simp [ontoStep, onto]

end Reader

namespace Reading
open Dialect (standard)

/-- **Texts with a newline between them are read one after the other**, if the first reads without error: the second is
read as if it stood alone, but further down, below the line where the first ends. -/
theorem ofText_append_newline {s : List Char} (h : (ofText standard s).error = none) : ∃ p : Position,
    (Scan.ofText standard s).ending = .finished p ∧ ∀ s' : List Char,
      ofText standard (s ++ '\n' :: s') =
        ⟨(ofText standard s).nodes ++ ((ofText standard s').relocate (Position.down p.line)).nodes,
          ((ofText standard s').relocate (Position.down p.line)).error⟩ := by
  obtain ⟨finished, p, hadv, hend, hnodes⟩ := Reader.readAll_error_eq_none h
  refine ⟨p, hend, fun s' => ?_⟩
  have hscan : (Cursor.start s).scan standard = ⟨(Scan.ofText standard s).tokens, .finished p⟩ := by
    rw [← hend]
    rfl
  have hstart : p.step '\n' = Position.start.down p.line := by
    simp [Position.step, Position.start, Position.down, Int.add_comm]
  have happ : Scan.ofText standard (s ++ '\n' :: s') =
      (((Cursor.start s').scan standard).relocate (Position.down p.line)).prepend (Scan.ofText standard s).tokens := by
    rw [← Cursor.scan_relocate Cursor.standard_solid (Position.down_step p.line)]
    have := Cursor.scan_append_of_finished hscan s'
    rw [hstart] at this
    exact this
  have hidle : (⟨finished, [], none⟩ : Reader) = (Reader.start.relocate (Position.down p.line)).onto finished := rfl
  simp only [ofText, happ, Scan.prepend_tokens, Scan.prepend_ending]
  rw [Reader.readAll_of_advance hadv, hidle, Reader.readAll_onto, ← hnodes]
  simp only [Scan.relocate, Reader.readAll_relocate]
  rfl

end Reading
end QuasiScript
