/-!
# Columns of text
-/
namespace QuasiScript
namespace Text

def spaces (n : Nat) : String := String.ofList (List.replicate n ' ')

def padRight (width : Nat) (s : String) : String := s ++ spaces (width - s.length)

end Text
end QuasiScript
