import LinearProgram.Error

/-!
# Arithmetic of values

Numbers are added and multiplied as numbers, while text and sequences are joined by a sum and
repeated by a product with an integer. No other values have sums and products.
-/

namespace LinearProgram.Value

/-- How often a value says that something is repeated; a negative number counts as never. -/
def times? : Value → Option Nat
  | number x => x.toInt?.map Int.toNat
  | _ => Option.none

/-- Items over and over, unless there are too many. -/
def repeatItems {α : Type} (n : Nat) (items : List α) : Except Error (List α) :=
  if maxLength < n then breakDown .overflow
  else if maxItems < n * items.length then breakDown .outOfMemory
  else .ok (List.replicate n items).flatten

/-- A value that is no number, repeated. -/
def repeated (n : Nat) : Value → Except Error Value
  | str s => do pure (str (String.ofList (← repeatItems n s.toList)))
  | list items => do pure (list (← repeatItems n items))
  | tuple items => do pure (tuple (← repeatItems n items))
  | _ => breakDown .unsupported

/-- The sum of numbers, or the join of sequences. -/
def add : Value → Value → Except Error Value
  | number x, number y => do pure (number (← orOverflow (x.add y)))
  | str s, str t => .ok (str (s ++ t))
  | list xs, list ys => .ok (list (xs ++ ys))
  | tuple xs, tuple ys => .ok (tuple (xs ++ ys))
  | _, _ => breakDown .unsupported

def sub : Value → Value → Except Error Value
  | number x, number y => do pure (number (← orOverflow (x.sub y)))
  | _, _ => breakDown .unsupported

/-- The product of numbers, or a repetition. -/
def mul : Value → Value → Except Error Value
  | number x, number y => do pure (number (← orOverflow (x.mul y)))
  | left, right =>
    match left.times?, right.times? with
    | some n, _ => repeated n right
    | _, some n => repeated n left
    | _, _ => breakDown .unsupported

/-- The quotient of numbers; the divisor must not be zero. -/
def div : Value → Value → Except Error Value
  | number x, number y =>
    if y.isZero then breakDown .zeroDivisor else do pure (number (← orOverflow (x.div y)))
  | _, _ => breakDown .unsupported

end LinearProgram.Value
