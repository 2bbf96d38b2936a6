/-
The two decimal parsers of lib.c, `string_to_char` and `atoi`.

A string is the list of its bytes, without the NUL. `int` is an integer
that wraps, which is what the compiler makes of an overflow here.
-/
import RojocOS.Lib.Word

namespace RojocOS.Clib

/-- The `switch` of both. -/
def digit : UInt8 → Option Int
  | 48 => some 0
  | 49 => some 1
  | 50 => some 2
  | 51 => some 3
  | 52 => some 4
  | 53 => some 5
  | 54 => some 6
  | 55 => some 7
  | 56 => some 8
  | 57 => some 9
  | _ => none

/-- `n * 10 + digit`. -/
def addDigit (n d : Int) : Int := Int.bmod (n * 10 + d) (2 ^ 32)

/-- The loop of `string_to_char`: the result and `*dest`. -/
def stringToCharLoop : List UInt8 → Int → Int × Int
  | [], dest => (0, dest)
  | c :: str, dest =>
      match digit c with
      | none => (-1, dest)
      | some d => stringToCharLoop str (addDigit dest d)

/-- `string_to_char(str, &dest)`. -/
def stringToChar (str : List UInt8) (dest : Int) : Int × Int :=
  if str = [] then (-1, dest) else stringToCharLoop str 0

/-- The loop of `atoi`. Behind it is a `return 0`. -/
def atoiLoop : List UInt8 → Int → Int
  | [], _ => 0
  | c :: str, n =>
      match digit c with
      | none => -1
      | some d => atoiLoop str (addDigit n d)

/-- `atoi(str)`. -/
def atoi (str : List UInt8) : Int := if str = [] then -1 else atoiLoop str 0

end RojocOS.Clib
