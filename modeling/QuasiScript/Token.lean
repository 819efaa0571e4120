import QuasiScript.Position
import QuasiScript.Text.Padded
import QuasiScript.Text.Quoted

/-!
# Tokens
-/
namespace QuasiScript
namespace Token

inductive Kind where
  /-- Read past the end of the text. -/
  | endOfStream
  | atom
  | string
  | comment
  | punctuation
  | openBracket
  | closeBracket
deriving DecidableEq

namespace Kind

def name : Kind → String
  | .endOfStream => "EOS"
  | .atom => "ATOM"
  | .string => "STRING"
  | .comment => "COMMENT"
  | .punctuation => "PUNCTUATION"
  | .openBracket => "OPEN-BRACKET"
  | .closeBracket => "CLOSE-BRACKET"

def all : List Kind := [.endOfStream, .atom, .string, .comment, .punctuation, .openBracket, .closeBracket]

def nameOfNumber (n : Int) : String :=
  match n with
  | .ofNat k => (all[k]?.map name).getD ("TokenKind(" ++ toString n ++ ")")
  | .negSucc _ => "TokenKind(" ++ toString n ++ ")"

end Kind
end Token

/-- A token: its kind, its text (for a string, the contents without escapes) and where it begins. -/
structure Token where
  kind : Token.Kind
  lexeme : String
  pos : Position
deriving DecidableEq

namespace Token

def describe (t : Token) : String :=
  Text.padRight 13 t.kind.name ++ " " ++ Text.padRight 14 (Text.quoted t.lexeme) ++ "  " ++ t.pos.describe

end Token
end QuasiScript
