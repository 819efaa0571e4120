import QuasiScript.Proofs.Scanning
import QuasiScript.Reading

/-!
# Reading a text that stands elsewhere

A change of positions `π` acts on everything that remembers a position. Scanning commutes with it as soon as `π`
commutes with one more character, as moving down some lines does (`scan_relocate`); reading tokens commutes with it
whatever it is (`readAll_relocate`). So a text that begins further down is read as the same nodes and the same errors
further down.
-/
namespace QuasiScript

/-! ## Positions, tokens and errors -/

namespace Position

def down (k : Int) (p : Position) : Position := ⟨p.line + k, p.column⟩

def inLine (p : Position) : Position := ⟨0, p.column⟩

theorem down_step (k : Int) (p : Position) (c : Char) : (p.step c).down k = (p.down k).step c := by
  unfold step
  split
  · rfl
  · split
    · simp only [down, Position.mk.injEq, and_true]
      omega
    · rfl

@[simp] theorem inLine_down (k : Int) (p : Position) : (p.down k).inLine = p.inLine := rfl

end Position

def Token.relocate (π : Position → Position) (t : Token) : Token := { t with pos := π t.pos }

@[simp] theorem Token.relocate_kind (π : Position → Position) (t : Token) : (t.relocate π).kind = t.kind := rfl

@[simp] theorem Token.relocate_lexeme (π : Position → Position) (t : Token) : (t.relocate π).lexeme = t.lexeme := rfl

@[simp] theorem Token.relocate_pos (π : Position → Position) (t : Token) : (t.relocate π).pos = π t.pos := rfl

def Fault.relocate (π : Position → Position) (f : Fault) : Fault := ⟨π f.pos, f.cause⟩

def ReadError.relocate (π : Position → Position) (e : ReadError) : ReadError :=
  ⟨e.outermost.relocate π, e.inner.map (Fault.relocate π)⟩

@[simp] theorem ReadError.relocate_single (π : Position → Position) (p : Position) (c : ReadCause) :
    (single p c).relocate π = single (π p) c := rfl

@[simp] theorem ReadError.relocate_because (π : Position → Position) (p : Position) (c : ReadCause) (e : ReadError) :
    (because p c e).relocate π = because (π p) c (e.relocate π) := rfl

/-! ## Nodes -/

namespace Node

mutual

def retoken (φ : Token → Token) : Node → Node
  | .leaf v t => .leaf v (φ t)
  | .list es t => .list (retokens φ es) (φ t)

def retokens (φ : Token → Token) : List Node → List Node
  | [] => []
  | n :: ns => retoken φ n :: retokens φ ns

end

@[simp] theorem retokens_eq_map (φ : Token → Token) : ∀ ns : List Node, retokens φ ns = ns.map (retoken φ)
  | [] => rfl
  | n :: ns => by rw [retokens, retokens_eq_map φ ns, List.map_cons]

mutual

theorem retoken_retoken (φ ψ : Token → Token) : ∀ n : Node, (n.retoken φ).retoken ψ = n.retoken (ψ ∘ φ)
  | .leaf v t => rfl
  | .list es t => by
    rw [retoken, retoken, retoken, retokens_retokens φ ψ es]
    rfl

theorem retokens_retokens (φ ψ : Token → Token) : ∀ ns : List Node, retokens ψ (retokens φ ns) = retokens (ψ ∘ φ) ns
  | [] => rfl
  | n :: ns => by
    rw [retokens, retokens, retokens, retoken_retoken φ ψ n, retokens_retokens φ ψ ns]

end

mutual

@[simp] theorem surface_retoken (φ : Token → Token) : ∀ n : Node, (n.retoken φ).surface = n.surface
  | .leaf v t => rfl
  | .list es t => by rw [retoken, surface, surface, surfaces_retokens φ es]

theorem surfaces_retokens (φ : Token → Token) : ∀ ns : List Node, surfaces (retokens φ ns) = surfaces ns
  | [] => rfl
  | n :: ns => by rw [retokens, surfaces, surfaces, surface_retoken φ n, surfaces_retokens φ ns]

end

def relocate (π : Position → Position) (n : Node) : Node := n.retoken (Token.relocate π)

@[simp] theorem relocate_leaf (π : Position → Position) (v : Value) (t : Token) :
    (leaf v t).relocate π = leaf v (t.relocate π) := rfl

@[simp] theorem relocate_list (π : Position → Position) (es : List Node) (t : Token) :
    (list es t).relocate π = list (es.map (relocate π)) (t.relocate π) := by
  rw [relocate, retoken, retokens_eq_map]
  rfl

theorem relocate_relocate (π ρ : Position → Position) (n : Node) :
    (n.relocate π).relocate ρ = n.relocate (ρ ∘ π) :=
  retoken_retoken _ _ n

end Node

/-! ## Scans -/

def Lexed.relocate (π : Position → Position) (l : Lexed) : Lexed :=
  ⟨l.token.relocate π, l.error.map (ReadError.relocate π)⟩

def Ending.relocate (π : Position → Position) : Ending → Ending
  | .finished p => .finished (π p)
  | .broken t e => .broken (t.relocate π) (e.relocate π)

def Scan.relocate (π : Position → Position) (s : Scan) : Scan := ⟨s.tokens.map (Token.relocate π), s.ending.relocate π⟩

namespace Cursor
variable {d : Dialect} {π : Position → Position}

def relocate (π : Position → Position) (c : Cursor) : Cursor := ⟨c.rest, π c.pos⟩

theorem after_relocate (hπ : ∀ p c, π (p.step c) = (π p).step c) :
    ∀ (cs : List Char) (p : Position), π (p.after cs) = (π p).after cs
  | [], _ => rfl
  | c :: cs, p => by rw [Position.after_cons, after_relocate hπ cs, hπ, Position.after_cons]

theorem stringBody_relocate (hπ : ∀ p c, π (p.step c) = (π p).step c) (del esc : Char) (cs : List Char) (p : Position) :
    stringBody del esc cs (π p) =
      { stringBody del esc cs p with next := (stringBody del esc cs p).next.relocate π } := by
  fun_induction stringBody del esc cs p with
  | case1 p => rfl
  | case2 p cs =>
    rw [stringBody_delimiter, ← hπ]
    rfl
  | case3 p hc =>
    rw [stringBody, if_neg hc, if_pos rfl, ← hπ]
    rfl
  | case4 p e cs hc body ih =>
    rw [stringBody_escape hc, ← hπ, ← hπ, ih]
    rfl
  | case5 p c cs hc he body ih =>
    rw [stringBody_char hc he, ← hπ, ih]
    rfl

theorem readString_relocate (hπ : ∀ p c, π (p.step c) = (π p).step c) (p : Position) (c : Char) (cs : List Char) :
    readString d (π p) c cs = ((readString d p c cs).1.relocate π, (readString d p c cs).2.relocate π) := by
  simp only [readString, ← hπ, stringBody_relocate hπ]
  cases (stringBody d.stringDelimiter d.escape cs (p.step c)).closed <;> rfl

theorem readAtom_relocate (hπ : ∀ p c, π (p.step c) = (π p).step c) (p : Position) (cs : List Char) :
    readAtom d (π p) cs = ((readAtom d p cs).1.relocate π, (readAtom d p cs).2.relocate π) := by
  simp only [readAtom, ← after_relocate hπ]
  cases cs.dropWhile (isAtomChar d) with
  | nil => rfl
  | cons b rest => cases hb : endsAtom d b <;> simp [Lexed.relocate, relocate, Token.relocate, hb]

theorem readToken_relocate (hπ : ∀ p c, π (p.step c) = (π p).step c) (p : Position) (c : Char) (cs : List Char) :
    readToken d (π p) c cs = ((readToken d p c cs).1.relocate π, (readToken d p c cs).2.relocate π) := by
  simp only [readToken]
  split
  · exact readString_relocate hπ p c cs
  · split
    · simp only [readComment, ← hπ, ← after_relocate hπ]
      rfl
    · split
      · simp only [readPunctuation, ← after_relocate hπ]
        rfl
      · split
        · simp only [readBracket, ← hπ]
          rfl
        · split
          · simp only [readBracket, ← hπ]
            rfl
          · exact readAtom_relocate hπ p (c :: cs)

theorem skipWhitespace_relocate (hπ : ∀ p c, π (p.step c) = (π p).step c) (c : Cursor) :
    (c.relocate π).skipWhitespace d = (c.skipWhitespace d).relocate π := by
  simp only [skipWhitespace, past, relocate, after_relocate hπ]

theorem next_relocate (hπ : ∀ p c, π (p.step c) = (π p).step c) {c : Cursor} (h : c.atEnd d = false) :
    (c.relocate π).next d = ((c.next d).1.relocate π, (c.next d).2.relocate π) := by
  obtain ⟨ch, cs, hcs, -⟩ := exists_of_not_atEnd h
  rw [next_of_dropWhile hcs, next_of_dropWhile (c := c.relocate π) hcs, skipWhitespace_relocate hπ]
  exact readToken_relocate hπ _ ch cs

/-- **A scan from elsewhere gives the same tokens elsewhere.** -/
theorem scan_relocate (hd : "" ∉ d.longPunctuation) (hπ : ∀ p c, π (p.step c) = (π p).step c) (c : Cursor) :
    (c.relocate π).scan d = (c.scan d).relocate π := by
  induction c using scan_induction hd with
  | atEnd c h =>
    rw [scan_of_atEnd h, scan_of_atEnd (c := c.relocate π) h, skipWhitespace_relocate hπ]
    rfl
  | error c c' t e h hn =>
    have hn' := next_relocate hπ h
    rw [hn] at hn'
    rw [scan_of_error h hn, scan_of_error (c := c.relocate π) h hn']
    rfl
  | token c c' t h hn hv ih =>
    have hn' := next_relocate hπ h
    rw [hn] at hn'
    rw [scan_of_token h hn hv, scan_of_token (c := c.relocate π) (t := t.relocate π) h hn' hv, ih]
    rfl

end Cursor

/-! ## Readers -/

def Pending.relocate (π : Position → Position) : Pending → Pending
  | .bracket opening es => .bracket (opening.relocate π) (es.map (Node.relocate π))
  | .sugar head symbol => .sugar (head.relocate π) symbol

def Reading.relocate (π : Position → Position) (r : Reading) : Reading :=
  ⟨r.nodes.map (Node.relocate π), r.error.map (ReadError.relocate π)⟩

namespace Reader
variable {d : Dialect} (π : Position → Position)

def relocate (r : Reader) : Reader :=
  ⟨r.finished.map (Node.relocate π), r.stack.map (Pending.relocate π), r.run.map (Token.relocate π)⟩

def relocateStep : Except ReadError Reader → Except ReadError Reader
  | .ok r => .ok (r.relocate π)
  | .error e => .error (e.relocate π)

theorem step_of_idle {r : Reader} (hr : r.run = none) (t : Token) : r.step d t = r.accept d t := by
  simp only [step, hr]

theorem step_of_longer {r : Reader} {first t : Token} (hr : r.run = some first)
    (h : t.kind = .punctuation ∧ d.beginsSugar (first.lexeme ++ t.lexeme) = true) :
    r.step d t = .ok { r with run := some { first with lexeme := first.lexeme ++ t.lexeme } } := by
  simp only [step, hr, if_pos h]

theorem step_of_ended {r : Reader} {first t : Token} (hr : r.run = some first)
    (h : ¬ (t.kind = .punctuation ∧ d.beginsSugar (first.lexeme ++ t.lexeme) = true)) :
    r.step d t = (r.endRun d).bind fun r' => r'.accept d t := by
  simp only [step, hr, if_neg h]
  rfl

theorem place_relocate (finished : List Node) : ∀ (stack : List Pending) (n : Node),
    place (finished.map (Node.relocate π)) (stack.map (Pending.relocate π)) (n.relocate π) =
      (place finished stack n).relocate π
  | [], _ => rfl
  | .bracket _ _ :: _, _ => rfl
  | .sugar head symbol :: stack, n => by
    rw [place, ← place_relocate finished stack, List.map_cons, Pending.relocate, place]
    simp

theorem closedElements_relocate (opening : Token) (es : List Node) :
    closedElements d (opening.relocate π) (es.map (Node.relocate π)) =
      (closedElements d opening es).map (Node.relocate π) := by
  simp only [closedElements, Token.relocate_lexeme]
  cases d.bracketSugar.get? opening.lexeme <;> simp

theorem endRun_relocate (r : Reader) : (r.relocate π).endRun d = relocateStep π (r.endRun d) := by
  rcases r with ⟨finished, stack, run⟩
  cases run with
  | none => rfl
  | some first =>
    simp only [endRun, relocate, Option.map_some, Token.relocate_lexeme]
    cases d.punctuationSugar.get? first.lexeme <;> rfl

theorem close_relocate (r : Reader) (t : Token) :
    (r.relocate π).close d (t.relocate π) = relocateStep π (r.close d t) := by
  rcases r with ⟨finished, stack, run⟩
  cases stack with
  | nil => rfl
  | cons p stack =>
    cases p with
    | sugar head symbol => rfl
    | bracket opening es =>
      simp only [close, relocate, List.map_cons, Pending.relocate, Token.relocate_lexeme, closedElements_relocate]
      by_cases h : t.lexeme = d.matching opening.lexeme
      · rw [if_pos h, if_pos h, relocateStep, ← place_relocate, Node.relocate_list]
      · rw [if_neg h, if_neg h]
        rfl

theorem accept_relocate (r : Reader) (t : Token) :
    (r.relocate π).accept d (t.relocate π) = relocateStep π (r.accept d t) := by
  simp only [accept, Token.relocate_kind, Token.relocate_lexeme]
  cases t.kind with
  | comment => rfl
  | openBracket => rfl
  | closeBracket => exact close_relocate π r t
  | punctuation => rfl
  | string => exact congrArg Except.ok (place_relocate π r.finished r.stack (.leaf (.string t.lexeme) t))
  | atom => exact congrArg Except.ok (place_relocate π r.finished r.stack (.leaf (d.atomValue t.lexeme) t))
  | endOfStream => exact congrArg Except.ok (place_relocate π r.finished r.stack (.leaf (d.atomValue t.lexeme) t))

theorem step_relocate (r : Reader) (t : Token) :
    (r.relocate π).step d (t.relocate π) = relocateStep π (r.step d t) := by
  cases hr : r.run with
  | none =>
    have hr' : (r.relocate π).run = none := by simp [relocate, hr]
    rw [step_of_idle hr, step_of_idle hr']
    exact accept_relocate π r t
  | some first =>
    have hr' : (r.relocate π).run = some (first.relocate π) := by simp [relocate, hr]
    by_cases h : t.kind = .punctuation ∧ d.beginsSugar (first.lexeme ++ t.lexeme) = true
    · rw [step_of_longer hr h, step_of_longer (t := t.relocate π) hr' h]
      rfl
    · rw [step_of_ended hr h, step_of_ended (t := t.relocate π) hr' h, endRun_relocate]
      cases r.endRun d with
      | error e => rfl
      | ok r' => exact accept_relocate π r' t

theorem interrupted_relocate (r : Reader) (e : ReadError) :
    (r.relocate π).interrupted d (e.relocate π) = (r.interrupted d e).relocate π := by
  simp only [interrupted, endRun_relocate]
  cases r.endRun d with
  | error e' => rfl
  | ok r' =>
    rcases r' with ⟨finished, stack, run⟩
    cases stack with
    | nil => rfl
    | cons p stack => cases p <;> rfl

theorem finish_relocate (r : Reader) (ending : Ending) :
    (r.relocate π).finish d (ending.relocate π) = (r.finish d ending).relocate π := by
  have hidle : (r.relocate π).isIdle = r.isIdle := by simp [isIdle, relocate]
  have hfin : (r.relocate π).finished.reverse = r.finished.reverse.map (Node.relocate π) := by simp [relocate]
  cases ending with
  | broken t e =>
    simp only [finish, Ending.relocate, interrupted_relocate, hfin]
    rfl
  | finished p =>
    simp only [finish, Ending.relocate, hidle, hfin, ← ReadError.relocate_single, interrupted_relocate]
    split <;> rfl

/-- **Tokens from elsewhere are read as the same nodes elsewhere.** -/
theorem readAll_relocate (ending : Ending) : ∀ (ts : List Token) (r : Reader),
    readAll d (ending.relocate π) (r.relocate π) (ts.map (Token.relocate π)) = (readAll d ending r ts).relocate π
  | [], r => finish_relocate π r ending
  | t :: ts, r => by
    rw [List.map_cons, readAll, readAll, step_relocate]
    cases r.step d t with
    | ok r' => exact readAll_relocate ending ts r'
    | error e =>
      simp only [relocateStep, Reading.relocate, relocate, List.map_reverse]
      rfl

end Reader
end QuasiScript
