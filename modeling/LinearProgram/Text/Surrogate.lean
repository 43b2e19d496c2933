/-!
# Halves of surrogate pairs

An escape may name half of a surrogate pair alone. A half is no character, so text carries it as one
of the last private characters (`Surrogate.carrier`), and shows the code of the half instead of that
character's.
-/

namespace LinearProgram.Surrogate

def isHigh (n : Nat) : Bool := 0xD800 ≤ n && n < 0xDC00

def isLow (n : Nat) : Bool := 0xDC00 ≤ n && n < 0xE000

/-- The code of the character that carries the first half. -/
def first : Nat := 0x10F800

/-- The character that carries a half. -/
def carrier (n : Nat) : Char := Char.ofNat (first + (n - 0xD800))

/-- The character that two halves form. -/
def join (high low : Nat) : Char :=
  Char.ofNat (0x10000 + (high - 0xD800) * 0x400 + (low - 0xDC00))

/-- The character of a code, or the one that carries it. -/
def charOf (n : Nat) : Char := if isHigh n || isLow n then carrier n else Char.ofNat n

/-- The code that a character shows. -/
def code (c : Char) : Nat := if first ≤ c.toNat then 0xD800 + (c.toNat - first) else c.toNat

end LinearProgram.Surrogate
