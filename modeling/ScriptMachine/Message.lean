import ScriptMachine.Bytes

/-! Messages are assembled from fixed wording and from parts that come out of a program. A part ends
at its first zero byte, and a message of 2048 bytes or more is cut short. -/
namespace ScriptMachine.Message

/-- The part of a text that a message can show. -/
def visible (text : Bytes) : Bytes :=
  text.takeWhile (· ≠ 0)

def limit : Nat := 2048

/-- Messages stay below the limit; a longer one ends in three dots. -/
def fit (text : Bytes) : Bytes :=
  if text.length < limit then text else text.take (limit - 4) ++ ascii "..."

theorem length_fit_lt (text : Bytes) : (fit text).length < limit := by
  unfold fit
  split
  · assumption
  · have : (ascii "...").length = 3 := by decide
    simp only [List.length_append, List.length_take, this, limit] at *
    omega

end ScriptMachine.Message
