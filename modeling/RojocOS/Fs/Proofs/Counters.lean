/-
Which counters a block is encrypted under, and which it is read under.

# The two counters

`fs_read` sets a context up afresh for every block, with the base IV plus
the block's position, a 128-bit addition on a little-endian machine.
`fs_write` and `copy_block` set one context up and let it run through all
the blocks; `AES_CTR_xcrypt_buffer` leaves it incremented 256 times per
block, with the last byte of the IV lowest. So block `j` of a run is
written under the IV read big-endian plus `256 * j`, and read under the
IV read little-endian plus `j`.

# Where they meet

On the first block (`j = 0`), and otherwise almost never: adding `j` from
one end and `256 * j` from the other gives the same sixteen bytes only if
the carries of the two sums run through the middle of the IV in opposite
directions (`Mirror`). For `j` below `2^32` that forces `j = 257 * 256^t`
with `t < 3`, and a run of `255` bytes between byte `t` and byte `14 - t`
(`Aligned`).
-/
import Mathlib.Tactic.IntervalCases
import RojocOS.Lib.Digits
import RojocOS.Fs.Proofs.ReadBack

namespace RojocOS.Fs

open ByteMap Digits

variable {i iv j n p t x : Nat} {ctx ctx' : AesCtx} {E : FsEnv}

-- ==== the two carries

/-- The carries `c` of adding `j` from the low end of a sixteen-byte
string and the carries `f`, indexed from the other end, of adding
`256 * j` from there, when the two sums are the same string. -/
structure Mirror (c f j : Nat → Nat) : Prop where
  lt : ∀ i, j i < 256
  le : ∀ i, c i ≤ 1
  le' : ∀ i, f i ≤ 1
  start : c 0 = 0
  start' : f 16 = 0
  low : ∀ i < 4, j i + c i + 256 * f i = f (i + 1) + 256 * c (i + 1)
  mid : ∀ i, 4 ≤ i → i < 11 → c i + 256 * f i = f (i + 1) + 256 * c (i + 1)
  high : ∀ i < 4, c (14 - i) + 256 * f (14 - i) = j i + f (15 - i) + 256 * c (15 - i)
  last : c 15 + 256 * f 15 = f 16 + 256 * c 16
  anti : ∀ i, 4 ≤ i → c (i + 1) ≤ c i
  mono : ∀ i ≤ 10, f i ≤ f (i + 1)

namespace Mirror

variable {c f j : Nat → Nat} (h : Mirror c f j)

include h

/-- In the middle each carry hands over to the other. -/
theorem swap (h4 : 4 ≤ i) (h11 : i < 11) : c i = f (i + 1) ∧ c (i + 1) = f i := by
  have := h.mid i h4 h11
  have := h.le i
  have := h.le' (i + 1)
  omega

/-- So the middle carries all, or not at all. -/
theorem flat : (∀ i, 4 ≤ i → i ≤ 11 → c i = c 4) ∧ f 4 = c 4 ∧ f 11 = c 4 := by
  have h45 : c 5 ≤ c 4 := h.anti 4 (Nat.le_refl 4)
  have h56 : c 6 ≤ c 5 := h.anti 5 (by decide)
  have s4 : c 4 = f 5 ∧ c 5 = f 4 := h.swap (by decide) (by decide)
  have s5 : c 5 = f 6 ∧ c 6 = f 5 := h.swap (by decide) (by decide)
  have s6 : c 6 = f 7 ∧ c 7 = f 6 := h.swap (by decide) (by decide)
  have s7 : c 7 = f 8 ∧ c 8 = f 7 := h.swap (by decide) (by decide)
  have s8 : c 8 = f 9 ∧ c 9 = f 8 := h.swap (by decide) (by decide)
  have s9 : c 9 = f 10 ∧ c 10 = f 9 := h.swap (by decide) (by decide)
  have s10 : c 10 = f 11 ∧ c 11 = f 10 := h.swap (by decide) (by decide)
  refine ⟨?_, by omega, by omega⟩
  intro i h4 h11
  interval_cases i <;> omega

theorem outer : c 1 = f 0 ∧ f 1 = j 0 ∧ c 14 = j 0 ∧ f 14 = 0 ∧ c 15 = 0 := by
  have l0 : j 0 + c 0 + 256 * f 0 = f 1 + 256 * c 1 := h.low 0 (by decide)
  have r0 : c 14 + 256 * f 14 = j 0 + f 15 + 256 * c 15 := h.high 0 (by decide)
  have hlast := h.last
  have hanti : c 16 ≤ c 15 := h.anti 15 (by decide)
  rw [h.start] at l0
  rw [h.start'] at hlast
  have := h.lt 0
  have := h.le 15
  have := h.le' 1
  omega

theorem inner : j 1 = c 13 ∧ f 13 = j 0 ∧ c 2 = j 0 ∧ j 1 + c 1 = f 2 := by
  obtain ⟨h1, h2, h3, h4, h5⟩ := h.outer
  have l1 : j 1 + c 1 + 256 * f 1 = f 2 + 256 * c 2 := h.low 1 (by decide)
  have r1 : c 13 + 256 * f 13 = j 1 + f 14 + 256 * c 14 := h.high 1 (by decide)
  rw [h4, h3] at r1
  rw [h2] at l1
  have := h.lt 1
  have := h.le 1
  have := h.le 13
  have := h.le' 2
  omega

theorem no_carry (hp : c 4 = 0) : ∀ i < 4, j i = 0 := by
  obtain ⟨f1, f2, f3⟩ := h.flat
  obtain ⟨o1, o2, o3, o4, o5⟩ := h.outer
  obtain ⟨n1, n2, n3, n4⟩ := h.inner
  have l3 : j 3 + c 3 + 256 * f 3 = f 4 + 256 * c 4 := h.low 3 (by decide)
  have l2 : j 2 + c 2 + 256 * f 2 = f 3 + 256 * c 3 := h.low 2 (by decide)
  have h3 : j 3 = 0 ∧ c 3 = 0 ∧ f 3 = 0 := by omega
  have h2 : j 2 = 0 ∧ j 0 = 0 ∧ f 2 = 0 := by omega
  intro i hi
  interval_cases i
  · exact h2.2.1
  · omega
  · exact h2.1
  · exact h3.1

theorem full_carry (hp : c 4 = 1) :
    c 1 = 0 ∧ c 2 = j 0 ∧ c 3 = j 1 ∧ c 12 = 1 ∧ c 13 = j 1 ∧ c 14 = j 0
      ∧ j 0 + j 2 = 1 ∧ j 1 + j 3 = 1 ∧ j 0 ≤ j 1 := by
  obtain ⟨f1, f2, f3⟩ := h.flat
  have f11 := f1 11 (by decide) (by decide)
  obtain ⟨o1, o2, o3, o4, o5⟩ := h.outer
  obtain ⟨n1, n2, n3, n4⟩ := h.inner
  have l3 : j 3 + c 3 + 256 * f 3 = f 4 + 256 * c 4 := h.low 3 (by decide)
  have l2 : j 2 + c 2 + 256 * f 2 = f 3 + 256 * c 3 := h.low 2 (by decide)
  have r3 : c 11 + 256 * f 11 = j 3 + f 12 + 256 * c 12 := h.high 3 (by decide)
  have r2 : c 12 + 256 * f 12 = j 2 + f 13 + 256 * c 13 := h.high 2 (by decide)
  have m1 : f 1 ≤ f 2 := h.mono 1 (by decide)
  have := h.le 3
  have := h.lt 2
  have := h.lt 3
  have h3 : f 3 = 1 ∧ j 3 + c 3 = 1 := by omega
  omega

/-- The addend is two adjacent ones, and the carry runs from the upper
one to its mirror image. -/
theorem shape (hp : c 4 = 1) :
    ∃ t < 3, (∀ i < 4, j i = if i = t ∨ i = t + 1 then 1 else 0)
      ∧ ∀ i ≤ 15, c i = if t + 2 ≤ i ∧ i ≤ 14 - t then 1 else 0 := by
  obtain ⟨k1, k2, k3, k12, k13, k14, j02, j13, j01⟩ := h.full_carry hp
  obtain ⟨o1, o2, o3, o4, k15⟩ := h.outer
  have k0 := h.start
  have hmid := h.flat.1
  have hcase : (j 0 = 1 ∧ j 1 = 1) ∨ (j 0 = 0 ∧ j 1 = 1) ∨ (j 0 = 0 ∧ j 1 = 0) := by omega
  have hin : ∀ t < 3, (∀ i ≤ 3, c i = if t + 2 ≤ i ∧ i ≤ 14 - t then 1 else 0) →
      (∀ i, 12 ≤ i → i ≤ 15 → c i = if t + 2 ≤ i ∧ i ≤ 14 - t then 1 else 0) →
      ∀ i ≤ 15, c i = if t + 2 ≤ i ∧ i ≤ 14 - t then 1 else 0 := by
    intro t ht hlo hhi i hi
    by_cases h3 : i ≤ 3
    · exact hlo i h3
    · by_cases h12 : 12 ≤ i
      · exact hhi i h12 hi
      · rw [if_pos (by omega), hmid i (by omega) (by omega), hp]
  rcases hcase with ⟨a, b⟩ | ⟨a, b⟩ | ⟨a, b⟩
  · refine ⟨0, by decide, ?_, hin 0 (by decide) ?_ ?_⟩
    all_goals intro i
    all_goals intros
    all_goals interval_cases i <;> simp <;> omega
  · refine ⟨1, by decide, ?_, hin 1 (by decide) ?_ ?_⟩
    all_goals intro i
    all_goals intros
    all_goals interval_cases i <;> simp <;> omega
  · refine ⟨2, by decide, ?_, hin 2 (by decide) ?_ ?_⟩
    all_goals intro i
    all_goals intros
    all_goals interval_cases i <;> simp <;> omega

end Mirror

-- ==== one string

/-- When the byte string of `iv` counted up `256 * j` times from its last
byte is the byte string of `iv + j`. -/
def Aligned (iv j : Nat) : Prop :=
  j = 0 ∨ ∃ t < 3, j = 257 * 256 ^ t
    ∧ digit iv t ≠ 255 ∧ digit iv (14 - t) ≠ 255
    ∧ ∀ i, t < i → i < 14 - t → digit iv i = 255

theorem load_ivBytes (iv : Nat) : load (ivBytes iv) 0 16 = iv % 256 ^ 16 :=
  load_store_same _ _ _ _

theorem digit_iv (hi : i < 16) : (ivBytes iv i).toNat = digit iv i := by
  have h := digit_load (ivBytes iv) 16 0 i hi
  rw [load_ivBytes, digit_mod hi, Nat.zero_add] at h
  exact h.symm

/-- The big-endian reading has the digits in the opposite order. -/
theorem digit_big_iv (iv : Nat) (hi : i < 16) :
    digit (big (ivBytes iv) 16) (15 - i) = digit iv i := by
  have hidx : 16 - 1 - (15 - i) = i := by omega
  rw [digit_big _ _ _ (by omega), hidx, digit_iv hi]

section Agreement

variable {iv j : Nat}

/-- The two sums, digit by digit. -/
theorem two_sums (h : big (ivBytes ((iv + j) % 256 ^ 16)) 16
      = (big (ivBytes iv) 16 + 256 * j) % 256 ^ 16) (hi : i < 16) :
    digit j i + carry iv j i + 256 * carry (big (ivBytes iv) 16) (256 * j) (16 - i)
      = digit (256 * j) (15 - i) + carry (big (ivBytes iv) 16) (256 * j) (16 - (i + 1))
        + 256 * carry iv j (i + 1) := by
  have hlow := digit_add iv j i
  have hhigh := digit_add (big (ivBytes iv) 16) (256 * j) (15 - i)
  have hd := congrArg (digit · (15 - i)) h
  simp only [digit_big_iv _ hi, digit_mod hi, digit_mod (show 15 - i < 16 by omega)] at hd
  have h1 : 15 - i + 1 = 16 - i := by omega
  have h2 : 16 - (i + 1) = 15 - i := by omega
  rw [digit_big_iv _ hi, h1] at hhigh
  rw [h2]
  omega

theorem mirror_of_eq (hj : j < 256 ^ 4)
    (h : big (ivBytes ((iv + j) % 256 ^ 16)) 16
      = (big (ivBytes iv) 16 + 256 * j) % 256 ^ 16) :
    Mirror (carry iv j) (fun i => carry (big (ivBytes iv) 16) (256 * j) (16 - i))
      (digit j) := by
  have hzero : ∀ i, 4 ≤ i → digit j i = 0 := fun i hi => digit_of_lt hj hi
  have hshift : ∀ i, digit (256 * j) (i + 1) = digit j i := digit_shift j
  refine ⟨digit_lt j, carry_le iv j, fun i => carry_le _ _ _, carry_zero _ _,
    carry_zero _ _, ?_, ?_, ?_, ?_, fun i hi => carry_anti (hzero i hi), ?_⟩
  · intro i hi
    have h15 : 15 - i = 14 - i + 1 := by omega
    have hs := two_sums h (i := i) (by omega)
    rw [h15, hshift, hzero (14 - i) (by omega), Nat.zero_add] at hs
    exact hs
  · intro i h4 h11
    have h15 : 15 - i = 14 - i + 1 := by omega
    have hs := two_sums h (i := i) (by omega)
    rw [h15, hshift, hzero (14 - i) (by omega), hzero i h4, Nat.zero_add,
      Nat.zero_add] at hs
    exact hs
  · intro i hi
    have h15 : 15 - (14 - i) = i + 1 := by omega
    have h14 : 14 - i + 1 = 15 - i := by omega
    have hs := two_sums h (i := 14 - i) (by omega)
    rw [h15, hshift, hzero (14 - i) (by omega), h14, Nat.zero_add] at hs
    exact hs
  · have hs := two_sums h (i := 15) (by decide)
    rw [Nat.sub_self, digit_shift_zero, hzero 15 (by decide), Nat.zero_add,
      Nat.zero_add] at hs
    exact hs
  · intro i hi
    have h1 : 16 - i = 14 - i + 1 + 1 := by omega
    have h2 : 16 - (i + 1) = 14 - i + 1 := by omega
    rw [h1, h2]
    refine carry_anti ?_
    rw [hshift]
    exact hzero _ (by omega)

/-- A byte the carry passes through is full; one it stops at is not. -/
theorem full_of_carry (hin : digit j i + carry iv j i = 1)
    (hout : carry iv j (i + 1) = 1) : digit iv i = 255 := by
  have h1 := digit_add iv j i
  have h2 := digit_lt iv i
  omega

theorem not_full_of_carry (hin : digit j i + carry iv j i = 1)
    (hout : carry iv j (i + 1) = 0) : digit iv i ≠ 255 := by
  have h1 := digit_add iv j i
  have h2 := digit_lt (iv + j) i
  omega

theorem aligned_of_eq (hj : j < 256 ^ 4)
    (h : big (ivBytes ((iv + j) % 256 ^ 16)) 16
      = (big (ivBytes iv) 16 + 256 * j) % 256 ^ 16) : Aligned iv j := by
  have hm := mirror_of_eq hj h
  have hval : j = digit j 0 + 256 * digit j 1 + 65536 * digit j 2
      + 16777216 * digit j 3 := by
    unfold digit
    omega
  have h4 := hm.le 4
  by_cases hp : carry iv j 4 = 0
  · left
    have hz := hm.no_carry hp
    rw [hz 0 (by decide), hz 1 (by decide), hz 2 (by decide), hz 3 (by decide)] at hval
    exact hval
  right
  obtain ⟨t, ht, hdig, hc⟩ := hm.shape (by omega)
  -- at every byte from `t` to `14 - t` exactly one comes in
  have hin : ∀ i, t ≤ i → i ≤ 14 - t → digit j i + carry iv j i = 1 := by
    intro i h1 h2
    by_cases h3 : i < 4
    · rw [hdig i h3, hc i (by omega)]
      split <;> split <;> omega
    · rw [digit_of_lt hj (by omega), hc i (by omega), if_pos (by omega)]
  refine ⟨t, ht, ?_, not_full_of_carry (hin t (by omega) (by omega)) ?_,
    not_full_of_carry (hin (14 - t) (by omega) (by omega)) ?_,
    fun i h1 h2 => full_of_carry (hin i (by omega) (by omega)) ?_⟩
  · rw [hdig 0 (by decide), hdig 1 (by decide), hdig 2 (by decide),
      hdig 3 (by decide)] at hval
    interval_cases t <;> exact hval
  · rw [hc (t + 1) (by omega), if_neg (by omega)]
  · rw [hc (14 - t + 1) (by omega), if_neg (by omega)]
  · rw [hc (i + 1) (by omega), if_pos (by omega)]

theorem digit_ones (ht : t < 3) (i : Nat) :
    digit (257 * 256 ^ t) i = if i = t ∨ i = t + 1 then 1 else 0 := by
  by_cases h4 : i < 4
  · interval_cases t <;> interval_cases i <;> rfl
  · have hlt : 257 * 256 ^ t < 256 ^ 4 := by interval_cases t <;> decide
    rw [digit_of_lt hlt (by omega), if_neg (by omega)]

theorem eq_of_aligned (h : Aligned iv j) (hiv : iv < 256 ^ 16) :
    big (ivBytes ((iv + j) % 256 ^ 16)) 16
      = (big (ivBytes iv) 16 + 256 * j) % 256 ^ 16 := by
  have hbig : big (ivBytes iv) 16 < 256 ^ 16 := big_lt _ 16
  obtain rfl | ⟨t, ht, rfl, hlo, hhi, hfull⟩ := h
  · rw [Nat.add_zero, Nat.mul_zero, Nat.add_zero, Nat.mod_eq_of_lt hiv,
      Nat.mod_eq_of_lt hbig]
  have hJ := digit_ones ht
  have hJ' : ∀ i, digit (256 * (257 * 256 ^ t)) i
      = if i = t + 1 ∨ i = t + 1 + 1 then 1 else 0 := by
    intro i
    cases i with
    | zero => rw [digit_shift_zero, if_neg (by omega)]
    | succ i =>
      rw [digit_shift, hJ]
      simp only [Nat.add_right_cancel_iff]
  -- seen from the other end the same bytes are full
  have hrev : ∀ i < 16, digit (big (ivBytes iv) 16) i = digit iv (15 - i) := by
    intro i hi
    have h15 : 15 - (15 - i) = i := by omega
    have := digit_big_iv iv (show 15 - i < 16 by omega)
    rwa [h15] at this
  have hrlo : digit (big (ivBytes iv) 16) (t + 1) ≠ 255 := by
    have h1 : 15 - (t + 1) = 14 - t := by omega
    rwa [hrev _ (by omega), h1]
  have hrhi : digit (big (ivBytes iv) 16) (15 - t) ≠ 255 := by
    have h1 : 15 - (15 - t) = t := by omega
    rwa [hrev _ (by omega), h1]
  have hrfull : ∀ i, t + 1 < i → i < 15 - t → digit (big (ivBytes iv) 16) i = 255 := by
    intro i h1 h2
    rw [hrev i (by omega)]
    exact hfull _ (by omega) (by omega)
  have hlow := digit_window hJ (by omega) hlo hhi hfull
  have hhigh := digit_window hJ' (by omega) hrlo hrhi hrfull
  refine eq_of_digits 16 (big_lt _ 16) (Nat.mod_lt _ (by decide)) fun i hi => ?_
  have h15 : 15 - (15 - i) = i := by omega
  have hd := digit_big_iv ((iv + 257 * 256 ^ t) % 256 ^ 16) (show 15 - i < 16 by omega)
  rw [h15, digit_mod (by omega), hlow] at hd
  rw [hd, digit_mod hi, hhigh, hrev i hi]
  by_cases h1 : t < 15 - i ∧ 15 - i < 14 - t
  · rw [if_pos h1, if_pos (by omega)]
  · rw [if_neg h1, if_neg (show ¬ (t + 1 < i ∧ i < 15 - t) by omega)]
    by_cases h2 : 15 - i = t ∨ 15 - i = 14 - t
    · rw [if_pos h2, if_pos (by omega)]
    · rw [if_neg h2, if_neg (by omega)]

end Agreement

-- ==== the contexts

/-- Counter `i` of a context: what the cipher is applied to for bytes
`16 * i` to `16 * i + 15`. -/
def counter (ctx : AesCtx) (i : Nat) : ByteMap := slice (ctrInc^[i] ctx.Iv) 0 16

/-- Two contexts run through the same counters over one block. -/
def SameCounters (ctx ctx' : AesCtx) : Prop :=
  ∀ i < 256, counter ctx i = counter ctx' i

/-- The context `fs_read` decrypts position `k` with, which is also the
one `fs_write` starts from when `offset / BLOCK_SIZE` is `k`. -/
def readerCtx (E : FsEnv) (key : ByteMap) (iv k : Nat) : AesCtx :=
  aesInitCtxIv E key ((iv + k) % 2 ^ 128)

/-- The context after `j` blocks of a run that started at position
`p`. -/
def writerCtx (E : FsEnv) (key : ByteMap) (iv p j : Nat) : AesCtx :=
  (nextCtx E)^[j] (readerCtx E key iv p)

theorem ctrIncFrom_of_le (h : n ≤ x) (Iv : ByteMap) : ctrIncFrom Iv n x = Iv x := by
  induction n generalizing Iv with
  | zero => rfl
  | succ n ih =>
    unfold ctrIncFrom
    split
    · rw [ih (by omega), store_of_not_mem (by omega)]
    · exact store_of_not_mem (by omega)

/-- The loop of `AES_CTR_xcrypt_buffer` over the IV adds one. -/
theorem big_ctrIncFrom (n : Nat) (Iv : ByteMap) :
    big (ctrIncFrom Iv n) n = (big Iv n + 1) % 256 ^ n := by
  induction n generalizing Iv with
  | zero => exact (Nat.mod_one _).symm
  | succ n ih =>
    have hlt := big_lt Iv n
    have hb := (Iv n).toNat_lt
    rw [big, ctrIncFrom, big]
    by_cases hfull : Iv n = 255
    · have hlow : big (store Iv n 1 0) n = big Iv n :=
        big_congr fun i hi => store_of_not_mem (by omega)
      have h0 : (ctrIncFrom (store Iv n 1 0) n n).toNat = 0 := by
        rw [ctrIncFrom_of_le (Nat.le_refl n)]
        simp [store]
      have h255 : (Iv n).toNat = 255 := by rw [hfull]; rfl
      rw [if_pos hfull, ih, hlow, h0, h255, Nat.pow_succ, Nat.add_zero,
        show big Iv n * 256 + 255 + 1 = (big Iv n + 1) * 256 by omega,
        Nat.mul_mod_mul_right]
    · have hlow : big (store Iv n 1 ((Iv n).toNat + 1)) n = big Iv n :=
        big_congr fun i hi => store_of_not_mem (by omega)
      have hne : (Iv n).toNat ≠ 255 := fun h => hfull (UInt8.toNat_inj.mp h)
      have h1 : (store Iv n 1 ((Iv n).toNat + 1) n).toNat = (Iv n).toNat + 1 := by
        simp [store]
        omega
      rw [if_neg hfull, hlow, h1, Nat.pow_succ, Nat.mod_eq_of_lt (by omega)]
      omega

theorem big_ctrInc_iterate (i : Nat) (Iv : ByteMap) :
    big (ctrInc^[i] Iv) 16 = (big Iv 16 + i) % 256 ^ 16 := by
  induction i with
  | zero => rw [Function.iterate_zero_apply, Nat.add_zero, Nat.mod_eq_of_lt (big_lt Iv 16)]
  | succ i ih =>
    rw [Function.iterate_succ_apply', ctrInc, big_ctrIncFrom, ih, Nat.mod_add_mod,
      Nat.add_assoc]

/-- The first counter decides all of them. -/
theorem sameCounters_iff : SameCounters ctx ctx' ↔ big ctx.Iv 16 = big ctx'.Iv 16 := by
  constructor
  · intro h
    refine big_congr fun i hi => ?_
    have h0 := congrFun (h 0 (by decide)) i
    unfold counter at h0
    rwa [slice_of_lt hi, slice_of_lt hi, Nat.zero_add] at h0
  · intro h i _
    refine slice_congr fun x _ hx => ?_
    refine big_inj ?_ x (by omega)
    rw [big_ctrInc_iterate, big_ctrInc_iterate, h]

theorem nextCtx_eq (E : FsEnv) (ctx : AesCtx) :
    nextCtx E ctx = { ctx with Iv := ctrInc^[256] ctx.Iv } := by
  unfold nextCtx aesCtrXcryptBuffer
  simp only [Nat.reduceAdd, Nat.reduceDiv]

theorem nextCtx_iterate (E : FsEnv) (j : Nat) (ctx : AesCtx) :
    (nextCtx E)^[j] ctx = { ctx with Iv := ctrInc^[256 * j] ctx.Iv } := by
  induction j with
  | zero => rfl
  | succ j ih =>
    rw [Function.iterate_succ_apply', ih, nextCtx_eq, ← Function.iterate_add_apply,
      Nat.mul_succ, Nat.add_comm]

/-- The reader's and the writers' counters, in full. -/
theorem writerCtx_iff (E : FsEnv) (key : ByteMap) (hj : j < 2 ^ 32) :
    SameCounters (writerCtx E key iv p j) (readerCtx E key iv (p + j))
      ↔ Aligned ((iv + p) % 2 ^ 128) j := by
  have hpow : (2 : Nat) ^ 128 = 256 ^ 16 := by decide
  have hmod : (iv + (p + j)) % 2 ^ 128 = ((iv + p) % 2 ^ 128 + j) % 2 ^ 128 := by
    rw [Nat.mod_add_mod, Nat.add_assoc]
  rw [sameCounters_iff, writerCtx, nextCtx_iterate, big_ctrInc_iterate]
  show (big (ivBytes ((iv + p) % 2 ^ 128)) 16 + 256 * j) % 256 ^ 16
      = big (ivBytes ((iv + (p + j)) % 2 ^ 128)) 16 ↔ _
  rw [hmod, hpow]
  constructor
  · exact fun h => aligned_of_eq (by omega) h.symm
  · exact fun h => (eq_of_aligned h (Nat.mod_lt _ (by decide))).symm

/-- Equal counters and an equal key make the same key stream. -/
theorem xcrypt_congr (hkey : ctx.RoundKey = ctx'.RoundKey)
    (h : SameCounters ctx ctx') (buf : ByteMap) :
    (aesCtrXcryptBuffer E ctx buf 0 4096).2 = (aesCtrXcryptBuffer E ctx' buf 0 4096).2 := by
  funext x
  show (if _ then buf x ^^^ keyStream E ctx (x - 0) else buf x)
    = (if _ then buf x ^^^ keyStream E ctx' (x - 0) else buf x)
  by_cases hx : 0 ≤ x ∧ x < 0 + 4096
  · rw [if_pos hx, if_pos hx]
    unfold keyStream
    rw [hkey, show slice (ctrInc^[(x - 0) / 16] ctx.Iv) 0 16
      = slice (ctrInc^[(x - 0) / 16] ctx'.Iv) 0 16 from h _ (by omega)]
  · rw [if_neg hx, if_neg hx]

end RojocOS.Fs
