/-
Strings and arrays of strings as C has them in memory: a string ends with a
zero byte, and an array of strings with a null pointer.
-/
import RojocOS.Lib.Bytes

namespace ByteMap

variable {m m' : ByteMap} {a : Nat} {str : List UInt8}

/-- The string at `a`. -/
def StringAt (m : ByteMap) : Nat → List UInt8 → Prop
  | a, [] => m a = 0
  | a, c :: cs => c ≠ 0 ∧ m a = c ∧ StringAt m (a + 1) cs

/-- The array of strings at `a`, of 8-byte pointers. -/
def ArrayAt (m : ByteMap) : Nat → List (List UInt8) → Prop
  | a, [] => load m a 8 = 0
  | a, str :: strs => load m a 8 ≠ 0 ∧ StringAt m (load m a 8) str ∧ ArrayAt m (a + 8) strs

/-- A string is its bytes and the zero behind them, wherever they are. -/
theorem StringAt.move : ∀ {a b : Nat}, StringAt m a str →
    (∀ d < str.length + 1, m' (b + d) = m (a + d)) → StringAt m' b str := by
  induction str with
  | nil =>
    intro a b h hx
    exact (hx 0 (Nat.succ_pos _)).trans h
  | cons c str ih =>
    rintro a b ⟨hc, ha, hrest⟩ hx
    refine ⟨hc, (hx 0 (Nat.succ_pos _)).trans ha, ih hrest fun d hd => ?_⟩
    rw [Nat.add_right_comm, Nat.add_right_comm a]
    exact hx (d + 1) (Nat.succ_lt_succ hd)

theorem StringAt.congr (h : StringAt m a str)
    (hx : ∀ x, a ≤ x → x < a + (str.length + 1) → m' x = m x) : StringAt m' a str :=
  h.move fun d hd => hx (a + d) (by omega) (by omega)

end ByteMap
