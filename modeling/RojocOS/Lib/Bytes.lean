/-
Byte-addressed stores: the one notion of memory every layer above uses,
whether the bytes are a disk, physical memory, a caller's buffer or a
struct on the stack.

# Representation

A store is a total function `Nat → UInt8`. Bulk operations (`copy`,
`fill`, `store`) are given in closed form, one `if` on the address, so
a single byte of a long chain of updates can be read back without
running the loops that wrote it. Integers are little-endian: `load m a k`
reads `k` bytes at `a`, `store m a k v` writes the low `k` bytes of `v`.

# What is proved

Each operation has one lemma for addresses inside its range and one for
addresses outside it, and `load` has the three laws the layers above
live on: it depends only on the bytes it covers (`load_congr`), it reads
back what `store` put there (`load_store_same`), and it does not see a
store to a disjoint range (`load_store_of_disjoint`).
-/
import Mathlib.Algebra.Group.Nat.Defs

/-- A byte-addressed store. -/
abbrev ByteMap := Nat → UInt8

namespace ByteMap

variable {dst m m' src t : ByteMap} {a b c k n o v x : Nat}

-- ==== operations

/-- `n` bytes of `src` from `b` on, placed at `a`. -/
def copy (dst : ByteMap) (a : Nat) (src : ByteMap) (b n : Nat) : ByteMap :=
  fun x => if a ≤ x ∧ x < a + n then src (b + (x - a)) else dst x

/-- `n` bytes from `a` on, all set to `c`. -/
def fill (m : ByteMap) (a n : Nat) (c : UInt8) : ByteMap :=
  fun x => if a ≤ x ∧ x < a + n then c else m x

/-- The `n` bytes at `a`, rebased to `0` and zero past their end. -/
def slice (m : ByteMap) (a n : Nat) : ByteMap :=
  fun i => if i < n then m (a + i) else 0

/-- The little-endian `k`-byte integer at `a`. -/
def load (m : ByteMap) (a : Nat) : Nat → Nat
  | 0 => 0
  | k + 1 => (m a).toNat + 256 * load m (a + 1) k

/-- The low `k` bytes of `v`, little-endian, written at `a`. -/
def store (m : ByteMap) (a k v : Nat) : ByteMap :=
  fun x => if a ≤ x ∧ x < a + k then UInt8.ofNat (v / 256 ^ (x - a)) else m x

/-- The store that is zero everywhere. -/
def zero : ByteMap := fun _ => 0

-- ==== one byte at a time

theorem copy_of_mem (h : a ≤ x ∧ x < a + n) : copy dst a src b n x = src (b + (x - a)) :=
  if_pos h

theorem copy_of_not_mem (h : ¬ (a ≤ x ∧ x < a + n)) : copy dst a src b n x = dst x :=
  if_neg h

theorem fill_of_mem {c : UInt8} (h : a ≤ x ∧ x < a + n) : fill m a n c x = c :=
  if_pos h

theorem fill_of_not_mem {c : UInt8} (h : ¬ (a ≤ x ∧ x < a + n)) : fill m a n c x = m x :=
  if_neg h

theorem store_of_not_mem (h : ¬ (a ≤ x ∧ x < a + k)) : store m a k v x = m x :=
  if_neg h

theorem slice_of_lt {i : Nat} (h : i < n) : slice m a n i = m (a + i) :=
  if_pos h

/-- A slice depends only on the bytes it covers. -/
theorem slice_congr (h : ∀ x, a ≤ x → x < a + n → m' x = m x) :
    slice m' a n = slice m a n := by
  funext i
  unfold slice
  by_cases hi : i < n
  · rw [if_pos hi, if_pos hi]
    exact h _ (by omega) (by omega)
  · rw [if_neg hi, if_neg hi]

/-- Two copies that meet are one. -/
theorem copy_append (b src : ByteMap) (a c n m : Nat) :
    copy (copy b a src c n) (a + n) src (c + n) m
      = copy b a src c (n + m) := by
  funext x
  by_cases h2 : a + n ≤ x ∧ x < a + n + m
  · rw [copy_of_mem h2, copy_of_mem (by omega)]
    congr 1
    omega
  · rw [copy_of_not_mem h2]
    by_cases h1 : a ≤ x ∧ x < a + n
    · rw [copy_of_mem h1, copy_of_mem (by omega)]
    · rw [copy_of_not_mem h1, copy_of_not_mem (by omega)]

/-- A copy reads only the source bytes it covers. -/
theorem copy_congr {b src' : ByteMap} {c' : Nat}
    (h : ∀ i < n, src (c + i) = src' (c' + i)) :
    copy b a src c n = copy b a src' c' n := by
  funext x
  by_cases hx : a ≤ x ∧ x < a + n
  · rw [copy_of_mem hx, copy_of_mem hx]
    exact h _ (by omega)
  · rw [copy_of_not_mem hx, copy_of_not_mem hx]

/-- A copy out of a copy. -/
theorem copy_through {b : ByteMap} (h : o + n ≤ k) :
    copy b a (copy t 0 src c k) o n = copy b a src (c + o) n := by
  apply copy_congr
  intro i hi
  rw [copy_of_mem (by omega)]
  congr 1
  omega

/-- Reading a range, changing a part of it and writing it back changes
that part. -/
theorem copy_patch {b : ByteMap} (h : o + n ≤ k) :
    copy b a (copy (copy t 0 b a k) o src c n) 0 k = copy b (a + o) src c n := by
  funext x
  by_cases hx : a ≤ x ∧ x < a + k
  · rw [copy_of_mem hx, Nat.zero_add]
    by_cases hp : a + o ≤ x ∧ x < a + o + n
    · rw [copy_of_mem (by omega), copy_of_mem hp]
      congr 1
      omega
    · rw [copy_of_not_mem (by omega), copy_of_not_mem hp, copy_of_mem (by omega)]
      congr 1
      omega
  · rw [copy_of_not_mem hx, copy_of_not_mem (by omega)]

theorem copy_zero (b src : ByteMap) (a c : Nat) : copy b a src c 0 = b :=
  funext fun _ => copy_of_not_mem (by omega)

-- ==== loading

/-- A load depends only on the bytes it covers. -/
theorem load_congr (h : ∀ x, a ≤ x → x < a + k → m' x = m x) :
    load m' a k = load m a k := by
  induction k generalizing a with
  | zero => rfl
  | succ k ih =>
    have hhd := h a (by omega) (by omega)
    have htl := ih (a := a + 1) fun x h1 h2 => h x (by omega) (by omega)
    simp only [load, hhd, htl]

/-- The same bytes elsewhere. -/
theorem load_move (h : ∀ d < k, m' (b + d) = m (a + d)) : load m' b k = load m a k := by
  induction k generalizing a b with
  | zero => rfl
  | succ k ih =>
    have hhd := h 0 (by omega)
    have htl := ih (a := a + 1) (b := b + 1) fun d hd => by
      rw [Nat.add_right_comm, Nat.add_right_comm a]
      exact h (d + 1) (by omega)
    rw [Nat.add_zero, Nat.add_zero] at hhd
    simp only [load, hhd, htl]

/-- A `k`-byte load is below `256 ^ k`. -/
theorem load_lt (m : ByteMap) (a k : Nat) : load m a k < 256 ^ k := by
  induction k generalizing a with
  | zero => simp [load]
  | succ k ih =>
    have h1 := ih (a + 1)
    have h2 := (m a).toNat_lt
    simp only [load, Nat.pow_succ]
    omega

/-- A load is zero exactly when every byte it covers is. -/
theorem load_eq_zero : load m a k = 0 ↔ ∀ x, a ≤ x → x < a + k → m x = 0 := by
  induction k generalizing a with
  | zero =>
    constructor
    · intro _ x h1 h2
      omega
    · intro _
      rfl
  | succ k ih =>
    have hih := ih (a := a + 1)
    constructor
    · intro h x h1 h2
      simp only [load] at h
      have hhd : (m a).toNat = 0 := by omega
      have htl : load m (a + 1) k = 0 := by omega
      rcases Nat.lt_or_ge a x with hx | hx
      · exact hih.mp htl x (by omega) (by omega)
      · have : x = a := by omega
        subst this
        exact UInt8.toNat_inj.mp hhd
    · intro h
      have hhd : (m a).toNat = 0 := by rw [h a (by omega) (by omega)]; rfl
      have htl := hih.mpr fun x h1 h2 => h x (by omega) (by omega)
      simp only [load, hhd, htl]

/-- Loading back what was stored. -/
theorem load_store_same (m : ByteMap) (a k v : Nat) :
    load (store m a k v) a k = v % 256 ^ k := by
  induction k generalizing m a v with
  | zero => simp [load, Nat.mod_one]
  | succ k ih =>
    -- the tail of the store is the store of `v / 256` one byte on
    have htl : load (store m a (k + 1) v) (a + 1) k
        = load (store m (a + 1) k (v / 256)) (a + 1) k := by
      apply load_congr
      intro x h1 h2
      unfold store
      rw [if_pos (by omega), if_pos (by omega)]
      have hx : x - a = (x - (a + 1)) + 1 := by omega
      rw [hx, Nat.pow_succ, Nat.mul_comm, Nat.div_div_eq_div_mul]
    have hhd : (store m a (k + 1) v a).toNat = v % 256 := by
      unfold store
      rw [if_pos (by omega)]
      simp
    simp only [load]
    rw [htl, ih, hhd, Nat.pow_succ, Nat.mul_comm (256 ^ k) 256, Nat.mod_mul]

theorem load_store_of_lt (h : v < 256 ^ k) : load (store m a k v) a k = v := by
  rw [load_store_same, Nat.mod_eq_of_lt h]

theorem store_byte (m : ByteMap) (a : Nat) (c : UInt8) : store m a 1 c.toNat a = c := by
  unfold store
  rw [if_pos (by omega), Nat.sub_self, Nat.pow_zero, Nat.div_one]
  exact UInt8.ofNat_toNat

/-- A load does not see a store to a disjoint range. -/
theorem load_store_of_disjoint (h : a + k ≤ b ∨ b + n ≤ a) :
    load (store m b n v) a k = load m a k := by
  apply load_congr
  intro x h1 h2
  exact store_of_not_mem (by omega)

/-- A load inside a zeroed range. -/
theorem load_fill_zero (h : b ≤ a ∧ a + k ≤ b + n) : load (fill m b n 0) a k = 0 := by
  rw [load_eq_zero]
  intro x h1 h2
  exact fill_of_mem (by omega)

/-- A load does not see a fill of a disjoint range. -/
theorem load_fill_of_disjoint {c : UInt8} (h : a + k ≤ b ∨ b + n ≤ a) :
    load (fill m b n c) a k = load m a k := by
  apply load_congr
  intro x h1 h2
  exact fill_of_not_mem (by omega)

/-- A load does not see a copy onto a disjoint range. -/
theorem load_copy_of_disjoint (h : a + k ≤ b ∨ b + n ≤ a) :
    load (copy m b src c n) a k = load m a k := by
  apply load_congr
  intro x h1 h2
  exact copy_of_not_mem (by omega)

/-- A load inside a copied range is the load at the source. -/
theorem load_copy_of_mem (h : b ≤ a ∧ a + k ≤ b + n) :
    load (copy m b src c n) a k = load src (c + (a - b)) k := by
  induction k generalizing a with
  | zero => rfl
  | succ k ih =>
    have htl := ih (a := a + 1) (by omega)
    have hhd : copy m b src c n a = src (c + (a - b)) :=
      copy_of_mem (by omega)
    simp only [load, hhd, htl]
    have : c + (a + 1 - b) = c + (a - b) + 1 := by omega
    rw [this]

/-- A load inside a slice is the load at the source. -/
theorem load_slice (h : b + k ≤ n) : load (slice m a n) b k = load m (a + b) k := by
  induction k generalizing b with
  | zero => rfl
  | succ k ih =>
    have htl := ih (b := b + 1) (by omega)
    have hhd : slice m a n b = m (a + b) := slice_of_lt (by omega)
    simp only [load, hhd, htl]
    have : a + (b + 1) = a + b + 1 := by omega
    rw [this]

end ByteMap
