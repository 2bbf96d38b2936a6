/-
Machine integers as naturals: the conversions and the wrapping
operations of the fixed-width C types, one definition each.
-/
import Mathlib.Algebra.Group.Int.Defs
import Mathlib.Algebra.GroupWithZero.Nat

namespace RojocOS

/-- Conversion to `uint32_t`. -/
def u32 (n : Nat) : Nat := n % 2 ^ 32

/-- Conversion to `uint64_t`. -/
def u64 (n : Nat) : Nat := n % 2 ^ 64

/-- A `uint32_t` converted to `int` and sign-extended to 64 bits. -/
def sext (n : Nat) : Nat :=
  if u32 n < 2 ^ 31 then u32 n else u32 n + (2 ^ 64 - 2 ^ 32)

/-- The difference of two `uint32_t`. -/
def subU32 (a b : Nat) : Nat := u32 (a + (2 ^ 32 - u32 b))

/-- Conversion to `int`. -/
def i32 (n : Nat) : Int :=
  if u32 n < 2 ^ 31 then u32 n else (u32 n : Int) - 2 ^ 32

/-- An integer as the 64-bit pattern a register holds. -/
def reg64 (i : Int) : Nat := (i % 2 ^ 64).toNat

theorem u64_of_lt {n : Nat} (h : n < 2 ^ 64) : u64 n = n :=
  Nat.mod_eq_of_lt h

theorem u32_lt (n : Nat) : u32 n < 2 ^ 32 :=
  Nat.mod_lt _ (by decide)

end RojocOS
