import LinearProgram.Value.Basic

/-!
# Order of values

Numbers are ordered by value, strings by code point, and sequences of one kind by their first
difference. All other pairs have no order.
-/

namespace LinearProgram

/-- The four ways to ask for an order. -/
inductive OrderTest where
  | less | lessEq | greater | greaterEq
  deriving Repr, DecidableEq

namespace OrderTest

/-- The answer to an order question about values that compare as given; NaN compares as `none`. -/
def holds : OrderTest → Option Ordering → Bool
  | _, none => false
  | less, some o => o == .lt
  | lessEq, some o => o != .gt
  | greater, some o => o == .gt
  | greaterEq, some o => o != .lt

end OrderTest

namespace Value

mutual

/-- The answer to an order question; `none` if the two values have no order. -/
def ordered? (test : OrderTest) : Value → Value → Option Bool
  | number x, number y | number x, cell y | cell x, number y | cell x, cell y =>
    some (test.holds (x.compare? y))
  | str s, str t => some (test.holds (some (compare s t)))
  | list xs, list ys | tuple xs, tuple ys => orderedItems? test xs ys
  | set xs, set ys =>
    let below := includedItems xs ys
    let above := includedItems ys xs
    some (match test with
      | .less => below && !above
      | .lessEq => below
      | .greater => above && !below
      | .greaterEq => above)
  | _, _ => Option.none

/-- Sequences: the first unequal pair decides, else the lengths. -/
def orderedItems? (test : OrderTest) : List Value → List Value → Option Bool
  | [], ys => some (test.holds (some (compare 0 ys.length)))
  | _ :: xs, [] => some (test.holds (some (compare (xs.length + 1) 0)))
  | x :: xs, y :: ys => if same x y then orderedItems? test xs ys else ordered? test x y

end

end Value

end LinearProgram
