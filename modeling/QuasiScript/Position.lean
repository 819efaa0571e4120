/-!
# Positions in a source text

Lines and columns are counted from one. A tab is four columns wide, every other character one.
-/
namespace QuasiScript

structure Position where
  line : Int
  column : Int
deriving DecidableEq

namespace Position

def start : Position := ⟨1, 1⟩

def step (p : Position) (c : Char) : Position :=
  if c = '\t' then ⟨p.line, p.column + 4⟩
  else if c = '\n' then ⟨p.line + 1, 1⟩
  else ⟨p.line, p.column + 1⟩

def after (p : Position) (cs : List Char) : Position := cs.foldl step p

/-- A position as messages name it after a comma. -/
def describe (p : Position) : String := "line " ++ toString p.line ++ ", column " ++ toString p.column

/-- A message with the position it speaks about in front. -/
def label (p : Position) (message : String) : String :=
  "Line " ++ toString p.line ++ ", column " ++ toString p.column ++ ": " ++ message

@[simp] theorem after_nil (p : Position) : p.after [] = p := rfl

@[simp] theorem after_cons (p : Position) (c : Char) (cs : List Char) : p.after (c :: cs) = (p.step c).after cs := rfl

@[simp] theorem after_append (p : Position) (cs ds : List Char) : p.after (cs ++ ds) = (p.after cs).after ds :=
  List.foldl_append

end Position
end QuasiScript
