/-
How a decimal is laid out as text.

The digits come from `Decimal.shortest`; a `Layout` says whether a whole number
keeps a point and between which powers of ten the number is written without an
exponent.
-/
import TensorGraph.Decimal.Shortest

namespace TensorGraph
namespace Decimal

/-- The choices of a number's text: whether a whole number ends in `.0`, and the
powers of ten of the leading digit for which no exponent is written, if there is
a limit. -/
structure Layout where
  wholePoint : Bool
  positional : Option (Int × Int)
  deriving Repr

def positionalText (layout : Layout) (d : Decimal) : String :=
  let digits := toString d.digits
  let point := if layout.wholePoint then ".0" else ""
  if d.exponent ≥ 0 then digits ++ String.ofList (List.replicate d.exponent.toNat '0') ++ point
  else
    let places := (-d.exponent).toNat
    let padded :=
      if places < digits.length then digits.toList
      else List.replicate (places + 1 - digits.length) '0' ++ digits.toList
    let whole := padded.length - places
    String.ofList (padded.take whole ++ '.' :: padded.drop whole)

def leading (d : Decimal) : Int := d.exponent + (toString d.digits).length - 1

def scientificText (d : Decimal) : String :=
  match (toString d.digits).toList with
  | [] => ""
  | [c] => String.ofList [c] ++ "e" ++ toString d.leading
  | c :: rest => String.ofList (c :: '.' :: rest) ++ "e" ++ toString d.leading

def text (layout : Layout) (d : Decimal) : String :=
  match layout.positional with
  | none => d.positionalText layout
  | some (least, limit) =>
    if d.digits = 0 ∨ (least ≤ d.leading ∧ d.leading < limit) then d.positionalText layout
    else d.scientificText

end Decimal

namespace Format

def text (f : Format) (layout : Decimal.Layout) (bits : Nat) : String :=
  match f.decode bits with
  | .nan .. => "NaN"
  | .infinite negative => (if negative then "-" else "") ++ "inf"
  | .finite negative coefficient exponent =>
    let d := if coefficient = 0 then ⟨0, 0⟩ else Decimal.shortest f coefficient exponent
    (if negative then "-" else "") ++ d.text layout

end Format
end TensorGraph
