import EffectFibers.Text.Blank

/-!
# Reading whole numbers

A numeral is an optional sign and one or more ASCII digits; nothing else is allowed, and the
number has to lie in the range that is asked for.  A minus sign is refused where the range holds
no negative numbers, even in front of zero.
-/

namespace EffectFibers.Text

/-- The value of a decimal digit. -/
def digit? (c : Char) : Option Nat :=
  if '0' ≤ c ∧ c ≤ '9' then some (c.toNat - 48) else none

/-- One or more digits, most significant first. -/
def digits? (cs : List Char) : Option Nat :=
  match cs with
  | [] => none
  | _ => cs.foldlM (fun n c => (digit? c).map (n * 10 + ·)) 0

/-- A number without negative values, up to `max`. -/
def natural? (max : Nat) (s : String) : Option Nat :=
  let digits := match s.toList with
    | '+' :: cs => digits? cs
    | cs => digits? cs
  digits.filter (· ≤ max)

/-- A number between `min` and `max`. -/
def integer? (min max : Int) (s : String) : Option Int :=
  let value := match s.toList with
    | '+' :: cs => (digits? cs).map Int.ofNat
    | '-' :: cs => (digits? cs).map fun n => - Int.ofNat n
    | cs => (digits? cs).map Int.ofNat
  value.filter fun n => min ≤ n ∧ n ≤ max

/-- The largest number of a given number of bits. -/
def maxOfBits (bits : Nat) : Nat := (1 <<< bits) - 1

end EffectFibers.Text
