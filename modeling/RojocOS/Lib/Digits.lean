/-
Numbers in base 256, and counters stored as byte strings.

`digit N i` is byte `i` of `N`. Adding two numbers adds their digits with
carries (`digit_add`), where the carry into position `i` is a function of
the two numbers (`carry`). A byte string is read as a number from either
end: `ByteMap.load` has the first byte lowest, `big` has it highest, and
`digit_load` and `digit_big` recover the bytes.
-/
import RojocOS.Lib.Bytes

namespace Digits

variable {J M N i n : Nat} {m m' : ByteMap}

-- ==== addition

/-- Digit `i` in base 256. -/
def digit (N i : Nat) : Nat := N / 256 ^ i % 256

/-- The carry into position `i` of a sum. -/
def carry (N J i : Nat) : Nat := (N % 256 ^ i + J % 256 ^ i) / 256 ^ i

theorem digit_lt (N i : Nat) : digit N i < 256 := Nat.mod_lt _ (by decide)

@[simp] theorem carry_zero (N J : Nat) : carry N J 0 = 0 := by
  simp [carry, Nat.mod_one]

theorem carry_le (N J i : Nat) : carry N J i ≤ 1 := by
  have hpos : 0 < 256 ^ i := Nat.pow_pos (by decide)
  have h1 := Nat.mod_lt N hpos
  have h2 := Nat.mod_lt J hpos
  have : carry N J i < 2 := Nat.div_lt_of_lt_mul (by omega)
  omega

/-- The carry out of a position. -/
theorem carry_succ (N J i : Nat) :
    carry N J (i + 1) = (digit N i + digit J i + carry N J i) / 256 := by
  have hpos : 0 < 256 ^ i := Nat.pow_pos (by decide)
  have hsplit : ∀ M : Nat, M % 256 ^ (i + 1) = M % 256 ^ i + 256 ^ i * digit M i :=
    fun M => Nat.mod_pow_succ
  unfold carry
  rw [hsplit N, hsplit J, Nat.pow_succ, ← Nat.div_div_eq_div_mul]
  congr 1
  have hsum : N % 256 ^ i + 256 ^ i * digit N i + (J % 256 ^ i + 256 ^ i * digit J i)
      = (N % 256 ^ i + J % 256 ^ i) + 256 ^ i * (digit N i + digit J i) := by
    rw [Nat.mul_add]
    omega
  rw [hsum, Nat.add_mul_div_left _ _ hpos, Nat.add_comm]

/-- Schoolbook addition, one position. -/
theorem digit_add (N J i : Nat) :
    digit N i + digit J i + carry N J i = digit (N + J) i + 256 * carry N J (i + 1) := by
  have hpos : 0 < 256 ^ i := Nat.pow_pos (by decide)
  have hdiv : (N + J) / 256 ^ i = N / 256 ^ i + J / 256 ^ i + carry N J i := by
    have hN := Nat.div_add_mod N (256 ^ i)
    have hJ := Nat.div_add_mod J (256 ^ i)
    have hsum : N + J = (N % 256 ^ i + J % 256 ^ i)
        + 256 ^ i * (N / 256 ^ i + J / 256 ^ i) := by
      rw [Nat.mul_add]
      omega
    unfold carry
    rw [hsum, Nat.add_mul_div_left _ _ hpos, Nat.add_comm]
  have hmod : digit (N + J) i = (digit N i + digit J i + carry N J i) % 256 := by
    unfold digit
    rw [hdiv]
    omega
  rw [hmod, carry_succ]
  omega

/-- Where nothing is added a carry can only die out. -/
theorem carry_anti (h : digit J i = 0) : carry N J (i + 1) ≤ carry N J i := by
  have h1 := digit_lt N i
  rw [carry_succ, h]
  omega

/-- Reducing modulo a power keeps the digits below it. -/
theorem digit_mod (h : i < n) : digit (N % 256 ^ n) i = digit N i := by
  unfold digit
  have hn : n = i + 1 + (n - (i + 1)) := by omega
  have hdvd : 256 ^ (i + 1) ∣ 256 ^ n := ⟨256 ^ (n - (i + 1)), by rw [← Nat.pow_add, ← hn]⟩
  have h1 : ∀ M : Nat, M / 256 ^ i % 256 = M % 256 ^ (i + 1) / 256 ^ i := by
    intro M
    rw [Nat.pow_succ, Nat.mod_mul_right_div_self]
  rw [h1, h1, Nat.mod_mod_of_dvd _ hdvd]

/-- Shifting by one position. -/
theorem digit_shift_zero (J : Nat) : digit (256 * J) 0 = 0 := by
  unfold digit
  omega

theorem digit_shift (J i : Nat) : digit (256 * J) (i + 1) = digit J i := by
  unfold digit
  rw [Nat.pow_succ, Nat.mul_comm (256 ^ i) 256, ← Nat.div_div_eq_div_mul,
    Nat.mul_div_cancel_left _ (by decide)]

/-- A small number has no high digits. -/
theorem digit_of_lt (h : J < 256 ^ n) (hi : n ≤ i) : digit J i = 0 := by
  unfold digit
  have : J < 256 ^ i := Nat.lt_of_lt_of_le h (Nat.pow_le_pow_right (by decide) hi)
  rw [Nat.div_eq_of_lt this]

section Window

/- Two adjacent ones added at `lo`, where the digits above `lo` are full
up to `hi`. -/
variable {N J lo hi : Nat} (hJ : ∀ i, digit J i = if i = lo ∨ i = lo + 1 then 1 else 0)
  (hlt : lo + 1 < hi) (hlo : digit N lo ≠ 255) (hhi : digit N hi ≠ 255)
  (hfull : ∀ i, lo < i → i < hi → digit N i = 255)

include hJ hlt hlo hhi hfull

/-- The carry runs from the upper one to `hi` and stops there. -/
theorem carry_window (i : Nat) : carry N J i = if lo + 2 ≤ i ∧ i ≤ hi then 1 else 0 := by
  induction i with
  | zero => rw [carry_zero, if_neg (by omega)]
  | succ i ih =>
    have hb := digit_lt N i
    rw [carry_succ, hJ, ih]
    rcases Nat.lt_trichotomy i lo with h | h | h
    · rw [if_neg (by omega), if_neg (by omega), if_neg (by omega)]
      omega
    · subst h
      rw [if_pos (by omega), if_neg (by omega), if_neg (by omega)]
      omega
    · rcases Nat.lt_trichotomy i hi with h' | h' | h'
      · rw [hfull i h h', if_pos (by omega : lo + 2 ≤ i + 1 ∧ i + 1 ≤ hi)]
        split <;> split <;> omega
      · subst h'
        rw [if_neg (by omega), if_pos (by omega), if_neg (by omega)]
        omega
      · rw [if_neg (by omega), if_neg (by omega), if_neg (by omega)]
        omega

/-- So the digits in between are cleared and both ends go up by one. -/
theorem digit_window (i : Nat) :
    digit (N + J) i = if lo < i ∧ i < hi then 0
      else if i = lo ∨ i = hi then digit N i + 1 else digit N i := by
  have hadd := digit_add N J i
  have hb := digit_lt N i
  rw [hJ, carry_window hJ hlt hlo hhi hfull, carry_window hJ hlt hlo hhi hfull] at hadd
  by_cases hin : lo < i ∧ i < hi
  · rw [hfull i hin.1 hin.2, if_pos (by omega : lo + 2 ≤ i + 1 ∧ i + 1 ≤ hi)] at hadd
    rw [if_pos hin]
    split at hadd <;> split at hadd <;> omega
  · rw [if_neg (by omega : ¬ (lo + 2 ≤ i + 1 ∧ i + 1 ≤ hi))] at hadd
    rw [if_neg hin]
    split at hadd <;> split at hadd <;> split <;> omega

end Window

-- ==== byte strings

/-- The first `n` bytes with the first one highest. -/
def big (m : ByteMap) : Nat → Nat
  | 0 => 0
  | n + 1 => big m n * 256 + (m n).toNat

theorem big_congr (h : ∀ i < n, m' i = m i) : big m' n = big m n := by
  induction n with
  | zero => rfl
  | succ n ih =>
    rw [big, big, h n (Nat.lt_succ_self n), ih fun i hi => h i (Nat.lt_succ_of_lt hi)]

theorem big_lt (m : ByteMap) (n : Nat) : big m n < 256 ^ n := by
  induction n with
  | zero => exact Nat.one_pos
  | succ n ih =>
    have := (m n).toNat_lt
    rw [big, Nat.pow_succ]
    omega

/-- Byte `n - 1 - d` of the string is digit `d`. -/
theorem digit_big (m : ByteMap) (n : Nat) :
    ∀ d < n, digit (big m n) d = (m (n - 1 - d)).toNat := by
  induction n with
  | zero => exact fun d hd => absurd hd (Nat.not_lt_zero d)
  | succ n ih =>
    intro d hd
    have hb := (m n).toNat_lt
    cases d with
    | zero =>
      unfold digit
      rw [big, Nat.pow_zero, Nat.div_one, Nat.add_sub_cancel, Nat.sub_zero]
      omega
    | succ d =>
      have hdiv : digit (big m (n + 1)) (d + 1) = digit (big m n) d := by
        unfold digit
        rw [Nat.pow_succ, Nat.mul_comm (256 ^ d) 256, ← Nat.div_div_eq_div_mul, big]
        have : (big m n * 256 + (m n).toNat) / 256 = big m n := by omega
        rw [this]
      rw [hdiv, ih d (by omega)]
      congr 2
      omega

/-- Byte `a + i` of the store is digit `i` of the number loaded. -/
theorem digit_load (m : ByteMap) (k : Nat) :
    ∀ a, ∀ i < k, digit (ByteMap.load m a k) i = (m (a + i)).toNat := by
  induction k with
  | zero => exact fun _ i hi => absurd hi (Nat.not_lt_zero i)
  | succ k ih =>
    intro a i hi
    have hb := (m a).toNat_lt
    cases i with
    | zero =>
      show ByteMap.load m a (k + 1) / 1 % 256 = (m a).toNat
      rw [ByteMap.load, Nat.div_one]
      omega
    | succ i =>
      have hdiv : digit (ByteMap.load m a (k + 1)) (i + 1)
          = digit (ByteMap.load m (a + 1) k) i := by
        unfold digit
        rw [Nat.pow_succ, Nat.mul_comm (256 ^ i) 256, ← Nat.div_div_eq_div_mul,
          ByteMap.load]
        have : ((m a).toNat + 256 * ByteMap.load m (a + 1) k) / 256
            = ByteMap.load m (a + 1) k := by omega
        rw [this]
      rw [hdiv, ih (a + 1) i (by omega)]
      congr 2
      omega

/-- Equal numbers, equal bytes. -/
theorem big_inj (h : big m' n = big m n) : ∀ i < n, m' i = m i := by
  intro i hi
  have h1 := digit_big m n (n - 1 - i) (by omega)
  have h2 := digit_big m' n (n - 1 - i) (by omega)
  have hidx : n - 1 - (n - 1 - i) = i := by omega
  rw [hidx] at h1 h2
  exact UInt8.toNat_inj.mp (h2.symm.trans ((congrArg (digit · _) h).trans h1))

/-- Numbers of `n` digits are equal when their digits are. -/
theorem eq_of_digits :
    ∀ n, N < 256 ^ n → M < 256 ^ n → (∀ i < n, digit N i = digit M i) → N = M := by
  intro n
  induction n generalizing N M with
  | zero =>
    intro hN hM _
    omega
  | succ n ih =>
    intro hN hM h
    have h0 := h 0 (Nat.succ_pos n)
    have hdiv : ∀ K i : Nat, digit (K / 256) i = digit K (i + 1) := by
      intro K i
      unfold digit
      rw [Nat.pow_succ, Nat.mul_comm (256 ^ i) 256, ← Nat.div_div_eq_div_mul]
    rw [Nat.pow_succ] at hN hM
    have hrest : N / 256 = M / 256 := by
      refine ih (Nat.div_lt_of_lt_mul (by omega)) (Nat.div_lt_of_lt_mul (by omega)) ?_
      intro i hi
      rw [hdiv, hdiv]
      exact h (i + 1) (Nat.succ_lt_succ hi)
    unfold digit at h0
    rw [Nat.pow_zero, Nat.div_one, Nat.div_one] at h0
    omega

end Digits
