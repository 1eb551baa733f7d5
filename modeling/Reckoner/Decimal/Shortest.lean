/-
This file writes doubles with the fewest digits that read back.
-/

import Reckoner.Decimal.FixedPoint

namespace Reckoner

open Float.Model (UnpackedFloat)

/-- One digit is kept at first, and one more each time that neither neighbour is read back. -/
def FixedPoint.shortest (number : FixedPoint) (double : Float) : FixedPoint :=
  let count := number.digits.length
  let readBack := (List.range count).findSome? fun index =>
    (number.neighbours (count - (index + 1))).find? fun candidate =>
      candidate.toDecimal.toFloat == double
  readBack.getD number

def signText : UnpackedFloat.Sign → String
  | .negative => "-"
  | .positive => ""

/-- Zero keeps its sign. -/
def shortestText (x : Float) : String :=
  match x.toModel.unpack with
  | .notANumber => "NaN"
  | .infinity sign => signText sign ++ "inf"
  | .zero sign => signText sign ++ "0"
  | .finite sign mantissa exponent _ =>
      let shortest := (FixedPoint.ofBinary mantissa exponent).shortest (Scalar.magnitude x)
      signText sign ++ String.ofList shortest.text

end Reckoner
