import ScriptMachine.Bytes
import ScriptMachine.Number.Shortest

/-! How numbers are written: shortest digits, positional or scientific, whichever text is shorter
and positional on a tie. A positional whole number is written exactly. -/
namespace ScriptMachine.Number

/-- The exponent has a sign and at least two digits. -/
def scientific (d : Decimal) : Bytes :=
  let mantissa :=
    match decimal d.digits with
    | [] => []
    | [digit] => [digit]
    | digit :: rest => digit :: 46 :: rest
  let power := decimal d.order.natAbs
  mantissa ++ ascii (if d.order < 0 then "e-" else "e+") ++
    (if power.length < 2 then 48 :: power else power)

/-- `whole` is the exact value when the decimal has no fraction. -/
def positional (d : Decimal) (whole : Nat) : Bytes :=
  if 0 ≤ d.exponent then decimal whole
  else
    let digits := decimal d.digits
    let places := (-d.exponent).toNat
    if places < digits.length then
      digits.take (digits.length - places) ++ 46 :: digits.drop (digits.length - places)
    else ascii "0." ++ List.replicate (places - digits.length) 48 ++ digits

def magnitudeText (mantissa : Nat) (exponent : Int) : Bytes :=
  if mantissa = 0 then ascii "0"
  else
    let d := shortest mantissa exponent
    let plain := positional d (mantissa * twoTo exponent.toNat / twoTo (-exponent).toNat)
    let short := scientific d
    if plain.length ≤ short.length then plain else short

/-- The printed form of a number. A NaN has none of its own here: its sign, which the processor chooses, is
left out of the text, so that zero divided by zero is `nan` where a machine may show it as `-nan`. -/
def text (value : Float) : Bytes :=
  match shape value with
  | .nan => ascii "nan"
  | .infinite negative => ascii (if negative then "-inf" else "inf")
  | .finite negative mantissa exponent =>
    if negative then 45 :: magnitudeText mantissa exponent else magnitudeText mantissa exponent

end ScriptMachine.Number
