/-!
# Reading UTF-8 leniently

Source files are bytes. A byte that begins no well-formed sequence stands for one replacement character, and reading
goes on with the byte after it, so every sequence of bytes is a text.
-/
namespace QuasiScript
namespace Text

/-- The character that stands for an undecodable byte. -/
def replacement : Char := Char.ofNat 0xfffd

def within (lo hi b : UInt8) : Bool := lo ≤ b && b ≤ hi

def isContinuation (b : UInt8) : Bool := within 0x80 0xbf b

/-- The range of the second byte of a sequence, which the first byte decides: it keeps out overlong forms, surrogates
and code points past the last. -/
def secondRange (a : UInt8) : UInt8 × UInt8 :=
  match a with
  | 0xe0 => (0xa0, 0xbf)
  | 0xed => (0x80, 0x9f)
  | 0xf0 => (0x90, 0xbf)
  | 0xf4 => (0x80, 0x8f)
  | _ => (0x80, 0xbf)

def payload (b : UInt8) : Nat := b.toNat % 0x40

/-- The character that begins with byte `a`, and how many of the bytes after `a` belong to it. -/
def leading (a : UInt8) (rest : List UInt8) : Char × Nat :=
  let bad := (replacement, 0)
  let (lo, hi) := secondRange a
  if a < 0x80 then (Char.ofNat a.toNat, 0)
  else if within 0xc2 0xdf a then
    match rest with
    | b :: _ => if isContinuation b then (Char.ofNat (a.toNat % 0x20 * 0x40 + payload b), 1) else bad
    | _ => bad
  else if within 0xe0 0xef a then
    match rest with
    | b :: c :: _ =>
      if within lo hi b && isContinuation c then
        (Char.ofNat ((a.toNat % 0x10 * 0x40 + payload b) * 0x40 + payload c), 2)
      else bad
    | _ => bad
  else if within 0xf0 0xf4 a then
    match rest with
    | b :: c :: d :: _ =>
      if within lo hi b && isContinuation c && isContinuation d then
        (Char.ofNat (((a.toNat % 0x8 * 0x40 + payload b) * 0x40 + payload c) * 0x40 + payload d), 3)
      else bad
    | _ => bad
  else bad

def decode : List UInt8 → List Char
  | [] => []
  | a :: rest => (leading a rest).1 :: decode (rest.drop (leading a rest).2)
termination_by bytes => bytes.length
decreasing_by simp only [List.length_drop, List.length_cons]; omega

end Text
end QuasiScript
