/-
Texts of lists: items separated by a comma and a blank, and the same in square
brackets.
-/

namespace TensorGraph
namespace Text

def joined (between : String) : List String → String
  | [] => ""
  | [s] => s
  | s :: rest => s ++ between ++ joined between rest

def listed (items : List String) : String := joined ", " items

def bracketed (items : List String) : String := "[" ++ listed items ++ "]"

def numbers (ns : List Nat) : String := listed (ns.map toString)

def address (n : Nat) : String := "0x" ++ String.ofList (Nat.toDigits 16 n)

end Text
end TensorGraph
