import QuasiScript.Text.Blank

/-!
# Text without the blanks around it
-/
namespace QuasiScript
namespace Text

def trim (s : String) : String :=
  String.ofList ((s.toList.dropWhile isBlank).reverse.dropWhile isBlank).reverse

end Text
end QuasiScript
