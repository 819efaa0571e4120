import QuasiScript.Dialect
import QuasiScript.ReadError
import QuasiScript.Token

/-!
# From text to tokens

A cursor is a place in a source text: what is still to be read, and its position. `Cursor.next` reads one token after
any whitespace. It never fails: a lexical error is handed out with the token, which then holds what was read before the
error was found. `Cursor.scan` reads all tokens up to the end of the text or to the first error.
-/
namespace QuasiScript

structure Cursor where
  rest : List Char
  pos : Position

/-- A token as read, with the error that spoils it, if any. -/
structure Lexed where
  token : Token
  error : Option ReadError

namespace Cursor

def start (text : List Char) : Cursor := ⟨text, .start⟩

def past (c : Cursor) (raw rest : List Char) : Cursor := ⟨rest, c.pos.after raw⟩

def skipWhitespace (d : Dialect) (c : Cursor) : Cursor :=
  c.past (c.rest.takeWhile d.isWhitespace) (c.rest.dropWhile d.isWhitespace)

def atEnd (d : Dialect) (c : Cursor) : Bool := c.rest.all d.isWhitespace

/-! ## Strings and comments -/

def unescape (c : Char) : Char :=
  match c with
  | 'n' => '\n'
  | 't' => '\t'
  | c => c

/-- The inside of a string: its contents, the place after it, and whether its closing delimiter was found. -/
structure StringBody where
  contents : List Char
  next : Cursor
  closed : Bool

def stringBody (delimiter escape : Char) : List Char → Position → StringBody
  | [], pos => ⟨[], ⟨[], pos⟩, false⟩
  | c :: cs, pos =>
    if c = delimiter then ⟨[], ⟨cs, pos.step c⟩, true⟩
    else if c = escape then
      match cs with
      | [] => ⟨[], ⟨[], pos.step c⟩, false⟩
      | e :: cs =>
        let body := stringBody delimiter escape cs ((pos.step c).step e)
        { body with contents := unescape e :: body.contents }
    else
      let body := stringBody delimiter escape cs (pos.step c)
      { body with contents := c :: body.contents }

def readString (d : Dialect) (pos : Position) (c : Char) (cs : List Char) : Lexed × Cursor :=
  let body := stringBody d.stringDelimiter d.escape cs (pos.step c)
  let error := if body.closed then none
    else some (ReadError.because pos .unfinishedString (.single body.next.pos .endOfStream))
  (⟨⟨.string, String.ofList body.contents, pos⟩, error⟩, body.next)

/-- The comment after its first character `c`: the rest of the line, whose newline it takes along. -/
def readComment (pos : Position) (c : Char) (cs : List Char) : Lexed × Cursor :=
  let text := cs.takeWhile (· != '\n')
  let rest := cs.dropWhile (· != '\n')
  (⟨⟨.comment, String.ofList text, pos⟩, none⟩,
    ⟨rest.drop 1, ((pos.step c).after text).after (rest.take 1)⟩)

/-! ## Punctuation, brackets and atoms -/

/-- The first long punctuation that the text begins with, or one character. -/
def readPunctuation (d : Dialect) (pos : Position) (c : Char) (cs : List Char) : Lexed × Cursor :=
  let lexeme := (d.longPunctuation.find? fun p => p.toList.isPrefixOf (c :: cs)).getD (String.singleton c)
  let n := lexeme.length
  (⟨⟨.punctuation, lexeme, pos⟩, none⟩, ⟨(c :: cs).drop n, pos.after ((c :: cs).take n)⟩)

def readBracket (kind : Token.Kind) (pos : Position) (c : Char) (cs : List Char) : Lexed × Cursor :=
  (⟨⟨kind, String.singleton c, pos⟩, none⟩, ⟨cs, pos.step c⟩)

/-- Characters that end an atom without harm. -/
def endsAtom (d : Dialect) (c : Char) : Bool :=
  d.isWhitespace c || d.isClose (String.singleton c) || c == d.commentStart

/-- Characters that may not follow an atom directly. -/
def breaksAtom (d : Dialect) (c : Char) : Bool :=
  c == d.stringDelimiter || d.isOpen (String.singleton c) || d.isPunctuation c

def isAtomChar (d : Dialect) (c : Char) : Bool := !(endsAtom d c || breaksAtom d c)

/-- An atom, and an error if a character directly after it may not stand there. -/
def readAtom (d : Dialect) (pos : Position) (cs : List Char) : Lexed × Cursor :=
  let text := cs.takeWhile (isAtomChar d)
  let next : Cursor := ⟨cs.dropWhile (isAtomChar d), pos.after text⟩
  let error := match next.rest with
    | [] => none
    | c :: _ => if endsAtom d c then none else some (ReadError.single next.pos (.illegalCharacter c))
  (⟨⟨.atom, String.ofList text, pos⟩, error⟩, next)

/-! ## One token, all tokens -/

def readToken (d : Dialect) (pos : Position) (c : Char) (cs : List Char) : Lexed × Cursor :=
  if c = d.stringDelimiter then readString d pos c cs
  else if c = d.commentStart then readComment pos c cs
  else if d.isPunctuation c then readPunctuation d pos c cs
  else if d.isOpen (String.singleton c) then readBracket .openBracket pos c cs
  else if d.isClose (String.singleton c) then readBracket .closeBracket pos c cs
  else readAtom d pos (c :: cs)

/-- The next token and the place after it. Past the end of the text this is an end-of-stream token, again and again. -/
def next (d : Dialect) (c : Cursor) : Lexed × Cursor :=
  let c := c.skipWhitespace d
  match c.rest with
  | [] => (⟨⟨.endOfStream, "", c.pos⟩, some (.single c.pos .endOfStream)⟩, c)
  | ch :: cs => readToken d c.pos ch cs

end Cursor

/-- How a scan ends: at the end of the text, or with a token that carries an error. -/
inductive Ending where
  | finished (pos : Position)
  | broken (token : Token) (error : ReadError)

structure Scan where
  tokens : List Token
  ending : Ending

namespace Cursor

/-! ## Every token takes some of the text

Only an empty entry among the long punctuation gives a token that takes nothing. -/

/-- Whether a token takes nothing of the text. -/
def isVoid (t : Token) : Bool := t.kind == .punctuation && t.lexeme == ""

theorem stringBody_next_le (delimiter escape : Char) : ∀ (cs : List Char) (pos : Position),
    (stringBody delimiter escape cs pos).next.rest.length ≤ cs.length
  | [], _ => by simp [stringBody]
  | [c], pos => by
    rw [stringBody]
    split
    · simp
    · split <;> simp [stringBody]
  | c :: e :: cs, pos => by
    rw [stringBody]
    split
    · simp
    · split
      · have := stringBody_next_le delimiter escape cs ((pos.step c).step e)
        simp only [List.length_cons]
        omega
      · have := stringBody_next_le delimiter escape (e :: cs) (pos.step c)
        simp only [List.length_cons] at this ⊢
        omega

theorem length_dropWhile_le (p : Char → Bool) (cs : List Char) : (cs.dropWhile p).length ≤ cs.length :=
  (List.dropWhile_suffix p).length_le

theorem readToken_lt (d : Dialect) (pos : Position) (c : Char) (cs : List Char) (hc : d.isWhitespace c = false)
    (hv : isVoid (readToken d pos c cs).1.token = false) : (readToken d pos c cs).2.rest.length < cs.length + 1 := by
  rw [readToken] at hv ⊢
  split
  · have := stringBody_next_le d.stringDelimiter d.escape cs (pos.step c)
    simp only [readString]
    omega
  · split
    · have := length_dropWhile_le (· != '\n') cs
      simp only [readComment, List.length_drop]
      omega
    · split
      · rename_i h1 h2 h3
        simp only [h1, h2, h3, if_true, if_false, readPunctuation, isVoid, Bool.and_eq_false_iff, beq_self_eq_true,
          beq_eq_false_iff_ne, ne_eq, false_or, Bool.true_eq_false] at hv ⊢
        have : 0 < ((d.longPunctuation.find? fun p => p.toList.isPrefixOf (c :: cs)).getD (String.singleton c)).length :=
          Nat.pos_of_ne_zero fun h => hv (String.length_eq_zero_iff.1 h)
        simp only [List.length_drop, List.length_cons]
        omega
      · split
        · simp [readBracket]
        · split
          · simp [readBracket]
          · rename_i h1 h2 h3 h4 h5
            have hatom : isAtomChar d c = true := by
              simp only [isAtomChar, endsAtom, breaksAtom, hc, Bool.not_eq_true] at h3 h4 h5 ⊢
              simp [h1, h2, h3, h4, h5]
            have := length_dropWhile_le (isAtomChar d) cs
            simp only [readAtom, List.dropWhile_cons, hatom, if_true]
            omega

/-- Unless the text ends or the token takes nothing, less of the text is left. -/
theorem next_lt (d : Dialect) (c : Cursor) (he : c.atEnd d = false) (hv : isVoid (c.next d).1.token = false) :
    (c.next d).2.rest.length < c.rest.length := by
  have hle := length_dropWhile_le d.isWhitespace c.rest
  cases h : c.rest.dropWhile d.isWhitespace with
  | nil =>
    have hall : c.rest.takeWhile d.isWhitespace = c.rest := by
      have := List.takeWhile_append_dropWhile (p := d.isWhitespace) (l := c.rest)
      rwa [h, List.append_nil] at this
    have : c.atEnd d = true := by rw [atEnd, ← hall]; exact List.all_takeWhile
    rw [this] at he
    exact absurd he (by decide)
  | cons ch cs =>
    have hch : d.isWhitespace ch = false := by
      have := List.head?_dropWhile_not d.isWhitespace c.rest
      rw [h] at this
      simpa using this
    rw [h, List.length_cons] at hle
    simp only [next, skipWhitespace, past, h] at hv ⊢
    have := readToken_lt d _ ch cs hch hv
    omega

/-- Reads all tokens. A token that takes nothing would be read for ever, so the scan ends with it. -/
def scan (d : Dialect) (c : Cursor) : Scan :=
  if he : c.atEnd d then ⟨[], .finished (c.skipWhitespace d).pos⟩
  else
    match hn : c.next d with
    | (⟨t, some e⟩, _) => ⟨[], .broken t e⟩
    | (⟨t, none⟩, c') =>
      if hv : isVoid t then ⟨[t], .finished c'.pos⟩
      else
        have : c'.rest.length < c.rest.length := by
          have := next_lt d c (by simpa using he) (by rw [hn]; simpa using hv)
          rwa [hn] at this
        let s := scan d c'
        { s with tokens := t :: s.tokens }
termination_by c.rest.length

end Cursor

namespace Scan

def ofText (d : Dialect) (text : List Char) : Scan := (Cursor.start text).scan d

/-- The tokens as read, the one with the error included. -/
def lexed (s : Scan) : List Lexed :=
  s.tokens.map (⟨·, none⟩) ++
    match s.ending with
    | .finished _ => []
    | .broken t e => [⟨t, some e⟩]

end Scan

namespace Lexed

def describe (t : Lexed) : String :=
  match t.error with
  | none => t.token.describe
  | some e => t.token.describe ++ "  error: " ++ e.outermost.message

end Lexed
end QuasiScript
