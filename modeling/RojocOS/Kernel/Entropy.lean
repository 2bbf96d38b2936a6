/-
The entropy pool of k-entropy.c: `request_user_entropy` and
`refresh_entropy`.

A keystroke is what a polling loop ends with: the character, the number of
polls it took, and the cycle counter read afterwards. The prompts on the
console are left out.
-/
import Mathlib.Data.List.FinRange

namespace RojocOS.Kernel

structure Keystroke where
  ch : UInt64
  timing : UInt64
  tsc : UInt64

/-- `ch ^ tsc ^ (tsc >> 8) ^ (tsc >> 16) ^ timing`, as a byte. -/
def Keystroke.byte (k : Keystroke) : UInt8 :=
  (k.ch ^^^ k.tsc ^^^ (k.tsc >>> 8) ^^^ (k.tsc >>> 16) ^^^ k.timing).toUInt8

/-- `entropy_buffer`, of `ENTROPY_NEEDED_BYTES` bytes. -/
abbrev Pool := Fin 16 → UInt8

structure Entropy where
  buffer : Pool
  initialized : Bool
  usageCounter : Nat

/-- A keystroke for every byte of the buffer. -/
def collect (keys : Fin 16 → Keystroke) (buffer : Pool) : Pool :=
  (List.finRange 16).foldl (fun b i => Function.update b i (keys i).byte) buffer

/-- `(i + 7) & (ENTROPY_NEEDED_BYTES - 1)`. -/
def partner (i : Fin 16) : Fin 16 :=
  ⟨(i.val + 7) &&& 15, Nat.lt_succ_of_le Nat.and_le_right⟩

/-- `entropy_buffer[i] ^= entropy_buffer[(i + 7) & 15]`. -/
def mixByte (b : Pool) (i : Fin 16) : Pool := Function.update b i (b i ^^^ b (partner i))

/-- The pass over the buffer, in place. -/
def mix (b : Pool) : Pool := (List.finRange 16).foldl mixByte b

/-- `request_user_entropy()`. -/
def requestUserEntropy (keys : Fin 16 → Keystroke) (e : Entropy) : Entropy where
  buffer := mix (collect keys e.buffer)
  initialized := true
  usageCounter := 0

/-- `refresh_entropy()`. -/
def refreshEntropy (keys : Fin 16 → Keystroke) (e : Entropy) : Entropy :=
  { e with buffer := mix (collect keys e.buffer), usageCounter := 0 }

end RojocOS.Kernel
