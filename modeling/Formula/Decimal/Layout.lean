import Formula.Decimal.Shortest
/-!
# How numbers are written

The digits of a number are those of its shortest decimal. A `Layout` says where the point goes: in
results, trees and messages all numbers are written out in full, as `0.0000001`, while the log of
tokens tells whole numbers by `.0` and turns to powers of ten for the very large and very small.
-/

namespace Formula

/-- The choices that writing a number leaves open. -/
structure Layout where
  /-- What follows a whole number that is written out in full. -/
  wholeMark : List Char
  /-- A number is written out in full if its leading digit stands at a power of ten from the first of
  these up to, but without, the second; without bounds, always. -/
  bounds : Option (Int × Int)
  deriving Repr

namespace Layout

/-- Everything is written out in full: `100`, `0.5`, `0.0000001`. -/
def plain : Layout := ⟨[], none⟩

/-- Whole numbers carry `.0`, and numbers below `10 ^ -4` or from `10 ^ 16` on a power of ten: `100.0`,
`0.5`, `1e-7`. -/
def detailed : Layout := ⟨['.', '0'], some (-4, 16)⟩

end Layout

namespace Decimal

/-- The digits of `n`, with zeros in front up to `width`. -/
def padded (width n : Nat) : List Char :=
  let digits := Nat.toDigits 10 n
  List.replicate (width - digits.length) '0' ++ digits

/-- A decimal written out in full. -/
def writeFull (mark : List Char) (d : Decimal) : List Char :=
  match d.exponent with
  | .ofNat k => Nat.toDigits 10 (d.coefficient * Nat.pow 10 k) ++ mark
  | .negSucc k =>
    let unit := Nat.pow 10 (k + 1)
    Nat.toDigits 10 (d.coefficient / unit) ++ '.' :: padded (k + 1) (d.coefficient % unit)

/-- The power of ten of the leading digit. -/
def scale (d : Decimal) : Int := d.exponent + ((Nat.toDigits 10 d.coefficient).length - 1 : Nat)

/-- A decimal written with one digit before the point and a power of ten: `1.5e-7`. -/
def writeScaled (d : Decimal) : List Char :=
  let mantissa := match Nat.toDigits 10 d.coefficient with
    | first :: second :: rest => first :: '.' :: second :: rest
    | digits => digits
  mantissa ++ 'e' :: (toString d.scale).toList

/-- A decimal written as the layout asks; zero is always written out in full. -/
def write (layout : Layout) (d : Decimal) : List Char :=
  match layout.bounds with
  | none => d.writeFull layout.wholeMark
  | some (low, high) =>
    if d.coefficient = 0 ∨ (low ≤ d.scale ∧ d.scale < high) then d.writeFull layout.wholeMark
    else d.writeScaled

end Decimal

/-- The text of a number. -/
def writeNumber (layout : Layout) (x : Float) : List Char :=
  let m := Binary64.magnitude x
  if Binary64.infinity < m then ['N', 'a', 'N']
  else
    let digits := if m = Binary64.infinity then ['i', 'n', 'f'] else (Decimal.shortest m).write layout
    if Binary64.isNegative x then '-' :: digits else digits

/-- A number written out in full. -/
def numberText (x : Float) : String := .ofList (writeNumber .plain x)

end Formula
