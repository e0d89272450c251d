/-! The fields of a double: a finite one is `mantissa * 2 ^ exponent` with a sign. -/
namespace ScriptMachine.Number

inductive Shape where
  | nan
  | infinite (negative : Bool)
  | finite (negative : Bool) (mantissa : Nat) (exponent : Int)
  deriving DecidableEq, Repr

/-- A power of two. -/
abbrev twoTo (n : Nat) : Nat :=
  1 <<< n

/-- Reads sign, exponent and fraction off the 64 bits. -/
def Shape.ofBits (bits : Nat) : Shape :=
  let negative := decide (twoTo 63 ≤ bits)
  let field : Nat := bits / twoTo 52 % twoTo 11
  let fraction : Nat := bits % twoTo 52
  if field = 2047 then
    if fraction = 0 then .infinite negative else .nan
  else if field = 0 then .finite negative fraction (-1074)
  else .finite negative (twoTo 52 + fraction) ((field : Int) - 1075)

def shape (value : Float) : Shape :=
  .ofBits value.toBits.toNat

/-- The double `mantissa * 2 ^ exponent`, for a value that is representable. -/
def assemble (negative : Bool) (mantissa : Nat) (exponent : Int) : Float :=
  let magnitude := Float.scaleB (Float.ofNat mantissa) exponent
  if negative then -magnitude else magnitude

end ScriptMachine.Number
