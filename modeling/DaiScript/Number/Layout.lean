import DaiScript.Number.Nearest
import DaiScript.Number.Shortest

/-! How numbers are written. All texts show the shortest digits that read back; they differ in where
positional notation ends, in the mark of an exponent, and in the texts of whole, zero and infinite
numbers. -/
namespace DaiScript

namespace Decimal

def positional (d : Decimal) (whole : String) : String :=
  match d.scale with
  | .ofNat k =>
    let front := d.digits.take (k + 1) ++ List.replicate (k + 1 - d.digits.length) '0'
    let back := d.digits.drop (k + 1)
    String.ofList front ++ if back.isEmpty then whole else "." ++ String.ofList back
  | .negSucc k => "0." ++ String.ofList (List.replicate k '0' ++ d.digits)

def scientific (d : Decimal) (rising : String) : String :=
  let front := d.digits.take 1
  let back := d.digits.drop 1
  String.ofList front ++ (if back.isEmpty then "" else "." ++ String.ofList back) ++
    (if d.scale < 0 then "e" else rising) ++ toString d.scale

end Decimal

structure Layout where
  /-- Which magnitudes are written without an exponent. -/
  isPositional : Nat → Bool
  /-- What follows a whole number. -/
  whole : String
  /-- What stands before an exponent that is not negative. -/
  rising : String
  /-- Whether a zero shows its sign. -/
  signedZero : Bool
  infinity : String

namespace Layout

/-- As programs print numbers: positional from a millionth up to below `1e21`. -/
def printed : Layout where
  isPositional m :=
    (Number.nearest 1 (Nat.pow 10 6)).magnitude ≤ m &&
      m < (Number.ofNat (Nat.pow 10 21)).magnitude
  whole := ""
  rising := "e+"
  signedZero := false
  infinity := "Infinity"

/-- As tokens show numbers: never an exponent. -/
def plain : Layout where
  isPositional _ := true
  whole := ""
  rising := "e"
  signedZero := true
  infinity := "inf"

/-- As trees show numbers: always with a point or an exponent. -/
def outlined : Layout where
  isPositional m :=
    (Number.nearest 1 (Nat.pow 10 4)).magnitude ≤ m &&
      m < (Number.ofNat (Nat.pow 10 16)).magnitude
  whole := ".0"
  rising := "e"
  signedZero := true
  infinity := "inf"

def render (l : Layout) (n : Number) : String :=
  if n.isNaN then "NaN"
  else
    let sign := if n.isNegative && (l.signedZero || !n.isZero) then "-" else ""
    sign ++
      if n.isInfinite then l.infinity
      else if n.isZero then "0" ++ l.whole
      else if l.isPositional n.magnitude then n.shortest.positional l.whole
      else n.shortest.scientific l.rising

end Layout

end DaiScript
