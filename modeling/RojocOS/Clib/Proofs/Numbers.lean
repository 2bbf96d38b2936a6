/-
What the two decimal parsers make of a string.

Both go through the digits with the same `switch` and the same Horner
step, and reject the same strings. `string_to_char` stores the value;
`atoi` computes it and returns 0. So they agree on a number exactly if it
is 0 (`parsers_agree_iff`), and `testmalloc` gets no size from its
argument.
-/
import Mathlib.Data.Nat.Digits.Defs
import RojocOS.Clib.Numbers

namespace RojocOS.Clib

variable {str : List UInt8} {c : UInt8} {d n : Nat}

-- ==== decimal numbers

/-- One digit at least, and nothing else. -/
def IsDecimal (str : List UInt8) : Prop := str ≠ [] ∧ ∀ c ∈ str, 48 ≤ c ∧ c ≤ 57

instance (str : List UInt8) : Decidable (IsDecimal str) :=
  @instDecidableAnd _ _ _ (List.decidableBAll _ _)

/-- The number that the digits stand for. -/
def decimalValue (str : List UInt8) : Nat :=
  Nat.ofDigits 10 (str.reverse.map fun c => c.toNat - 48)

/-- The digits by their codes. -/
theorem digit_eq (c : UInt8) :
    digit c = if 48 ≤ c ∧ c ≤ 57 then some ((c.toNat - 48 : Nat) : Int) else none := by
  have hall : ∀ n < 256, digit (UInt8.ofNat n)
      = if 48 ≤ UInt8.ofNat n ∧ UInt8.ofNat n ≤ 57 then
          some (((UInt8.ofNat n).toNat - 48 : Nat) : Int) else none := by decide +kernel
  have hc := hall c.toNat c.toNat_lt
  rwa [UInt8.ofNat_toNat] at hc

theorem digit_some (h : 48 ≤ c ∧ c ≤ 57) :
    digit c = some ((c.toNat - 48 : Nat) : Int) := (digit_eq c).trans (if_pos h)

theorem digit_none (h : ¬ (48 ≤ c ∧ c ≤ 57)) : digit c = none :=
  (digit_eq c).trans (if_neg h)

-- ==== the loops

/-- The value of digits that follow `n`. -/
def hornerFrom (n : Nat) (str : List UInt8) : Nat :=
  str.foldl (fun n c => n * 10 + (c.toNat - 48)) n

theorem hornerFrom_eq (str : List UInt8) : ∀ n : Nat,
    hornerFrom n str = n * 10 ^ str.length + decimalValue str := by
  induction str with
  | nil => exact fun n => by simp [hornerFrom, decimalValue]
  | cons c str ih =>
    intro n
    have hcons : decimalValue (c :: str)
        = decimalValue str + 10 ^ str.length * (c.toNat - 48) := by
      unfold decimalValue
      rw [List.reverse_cons, List.map_append, Nat.ofDigits_append, List.length_map,
        List.length_reverse]
      simp
    show hornerFrom (n * 10 + (c.toNat - 48)) str = _
    rw [ih, hcons, List.length_cons, pow_succ]
    ring

theorem le_hornerFrom (str : List UInt8) (n : Nat) : n ≤ hornerFrom n str := by
  rw [hornerFrom_eq]
  exact Nat.le_add_right_of_le (Nat.le_mul_of_pos_right n (by positivity))

/-- A step that stays in range. -/
theorem addDigit_nat (h : n * 10 + d < 2 ^ 31) : addDigit n d = (n * 10 + d : Nat) := by
  unfold addDigit
  rw [Int.bmod_eq_of_le (by omega) (by omega)]
  push_cast
  rfl

/-- The digits so far are in `dest`. No step overflows if the value does
not. -/
theorem stringToCharLoop_value (str : List UInt8) : ∀ n : Nat,
    (∀ c ∈ str, 48 ≤ c ∧ c ≤ 57) → hornerFrom n str < 2 ^ 31 →
    stringToCharLoop str n = (0, (hornerFrom n str : Int)) := by
  induction str with
  | nil => exact fun n _ _ => rfl
  | cons c str ih =>
    intro n hd hfit
    have hstep : hornerFrom n (c :: str) = hornerFrom (n * 10 + (c.toNat - 48)) str := rfl
    have hle := le_hornerFrom str (n * 10 + (c.toNat - 48))
    rw [hstep] at hfit ⊢
    rw [stringToCharLoop, digit_some (hd c (.head _))]
    show stringToCharLoop str (addDigit n (c.toNat - 48 : Nat)) = _
    rw [addDigit_nat (by omega)]
    exact ih _ (fun x hx => hd x (.tail c hx)) hfit

/-- Both loops end with 0 or, at a byte that is no digit, with -1. -/
theorem loops_result (str : List UInt8) : ∀ m n : Int,
    ((∀ c ∈ str, 48 ≤ c ∧ c ≤ 57) → (stringToCharLoop str m).1 = 0 ∧ atoiLoop str n = 0)
      ∧ ((¬ ∀ c ∈ str, 48 ≤ c ∧ c ≤ 57) →
        (stringToCharLoop str m).1 = -1 ∧ atoiLoop str n = -1) := by
  induction str with
  | nil => exact fun m n => ⟨fun _ => ⟨rfl, rfl⟩, fun h => absurd (by simp) h⟩
  | cons c str ih =>
    intro m n
    simp only [List.forall_mem_cons]
    by_cases hc : 48 ≤ c ∧ c ≤ 57
    · rw [stringToCharLoop, atoiLoop, digit_some hc]
      simp only [hc, true_and]
      exact ih _ _
    · rw [stringToCharLoop, atoiLoop, digit_none hc]
      exact ⟨fun h => absurd h.1 hc, fun _ => ⟨rfl, rfl⟩⟩

-- ==== the parsers

theorem stringToChar_result (str : List UInt8) (dest : Int) :
    (stringToChar str dest).1 = if IsDecimal str then 0 else -1 := by
  unfold stringToChar
  by_cases h : str = []
  · rw [if_pos h, if_neg fun hx : IsDecimal str => hx.1 h]
  rw [if_neg h]
  split
  case isTrue hd => exact ((loops_result str 0 0).1 hd.2).1
  case isFalse hd => exact ((loops_result str 0 0).2 fun hx => hd ⟨h, hx⟩).1

/-- `atoi` never returns anything but 0 and -1. -/
theorem atoi_result (str : List UInt8) : atoi str = if IsDecimal str then 0 else -1 := by
  unfold atoi
  by_cases h : str = []
  · rw [if_pos h, if_neg fun hx : IsDecimal str => hx.1 h]
  rw [if_neg h]
  split
  case isTrue hd => exact ((loops_result str 0 0).1 hd.2).2
  case isFalse hd => exact ((loops_result str 0 0).2 fun hx => hd ⟨h, hx⟩).2

theorem stringToChar_value (h : IsDecimal str) (hfit : decimalValue str < 2 ^ 31)
    (dest : Int) : (stringToChar str dest).2 = decimalValue str := by
  have hv : hornerFrom 0 str = decimalValue str := by
    rw [hornerFrom_eq, Nat.zero_mul, Nat.zero_add]
  have hrun := stringToCharLoop_value str 0 h.2 (by rwa [hv])
  unfold stringToChar
  rw [if_neg h.1]
  rw [hv] at hrun
  exact congrArg Prod.snd hrun

/-- The parsers reject the same strings, and what they accept has one
value for both. -/
def ParsersAgree (str : List UInt8) (dest : Int) : Prop :=
  (atoi str = -1 ↔ (stringToChar str dest).1 = -1)
    ∧ ((stringToChar str dest).1 ≠ -1 →
      atoi str = (stringToChar str dest).2 ∧ (stringToChar str dest).2 = decimalValue str)

/-- Both return -1 for the strings that are no decimal numbers and for no
others, and `string_to_char` stores the value. They agree exactly on what
they reject and on 0; and no string gives the kernel a size to allocate. -/
theorem parsers_agree_iff (str : List UInt8) (dest : Int)
    (hfit : IsDecimal str → decimalValue str < 2 ^ 31) :
    (atoi str = -1 ↔ ¬ IsDecimal str) ∧ ((stringToChar str dest).1 = -1 ↔ ¬ IsDecimal str)
      ∧ (IsDecimal str → stringToChar str dest = (0, (decimalValue str : Int)))
      ∧ (ParsersAgree str dest ↔ (IsDecimal str → decimalValue str = 0))
      ∧ ¬ (0 < reg64 (atoi str) ∧ reg64 (atoi str) ≤ 4096 - 16) := by
  unfold ParsersAgree
  rw [atoi_result, stringToChar_result]
  by_cases h : IsDecimal str
  · have hvalue := stringToChar_value h (hfit h) dest
    have hpair : stringToChar str dest = (0, (decimalValue str : Int)) := by
      refine Prod.ext ?_ hvalue
      rw [stringToChar_result, if_pos h]
    rw [hvalue]
    simp only [h, if_true, hpair, not_true, true_implies]
    refine ⟨by decide, by decide, trivial, ⟨fun hx => ?_, fun hx => ?_⟩, by decide⟩
    · have := (hx.2 (by decide)).1
      omega
    · refine ⟨trivial, fun _ => ⟨?_, trivial⟩⟩
      omega
  · simp only [h, if_false, not_false_eq_true, false_implies]
    exact ⟨by decide, by decide, trivial, ⟨fun _ => trivial, fun _ => ⟨trivial, fun hx => absurd rfl hx⟩⟩,
      by decide⟩

/-- "0" and "12a". -/
theorem parsers_agree_zero : ParsersAgree [48] 7 ∧ ParsersAgree [49, 50, 97] 7 :=
  ⟨(parsers_agree_iff [48] 7 (by decide)).2.2.2.1.mpr (by decide),
    (parsers_agree_iff [49, 50, 97] 7 (by decide)).2.2.2.1.mpr (by decide)⟩

/-- "42": `string_to_char` stores 42, `atoi` returns 0. -/
theorem atoi_forgets : stringToChar [52, 50] 7 = (0, 42) ∧ decimalValue [52, 50] = 42
    ∧ atoi [52, 50] = 0 ∧ ¬ ParsersAgree [52, 50] 7 := by
  refine ⟨by decide, by decide, by decide, fun h => ?_⟩
  exact absurd (h.2 (by decide)).1 (by decide)

end RojocOS.Clib
