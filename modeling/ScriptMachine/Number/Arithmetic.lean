import ScriptMachine.Bytes
import ScriptMachine.Number.Binary

/-! Reading of literals and the exact remainder. -/
namespace ScriptMachine.Number

/-- The remainder of division toward zero, exact, with the sign of the dividend. Undefined for an
infinite dividend or a zero divisor. -/
def remainder (x y : Float) : Float :=
  match shape x, shape y with
  | .nan, _ | _, .nan | .infinite _, _ => 0.0 / 0.0
  | .finite .., .infinite _ => x
  | .finite negative m e, .finite _ n f =>
    if n = 0 then 0.0 / 0.0
    else
      let low := min e f
      assemble negative ((m * twoTo (e - low).toNat) % (n * twoTo (f - low).toNat)) low

/-- The double nearest to `whole.fraction`, unless it leaves the range of doubles: too large, or
not zero and too small. -/
def ofLiteral? (whole fraction : Bytes) : Option Float :=
  let digits := decimalValue (whole ++ fraction)
  let value := Float.ofScientific digits true fraction.length
  match shape value with
  | .finite _ 0 _ => if digits = 0 then some value else none
  | .finite .. => some value
  | _ => none

end ScriptMachine.Number
