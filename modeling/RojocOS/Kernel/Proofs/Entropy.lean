/-
Mixing the entropy pool.

The pass changes the buffer it reads, so a byte may be mixed with one that
is mixed already. But no step mixes a byte with itself, so each undoes
itself, and the steps in reverse order undo the pass.
-/
import RojocOS.Kernel.Entropy

namespace RojocOS.Kernel

theorem partner_ne (i : Fin 16) : partner i ≠ i := by
  revert i
  decide

/-- One step, done twice, is none. -/
theorem mixByte_involutive (i : Fin 16) : Function.Involutive fun b => mixByte b i := by
  intro b
  have hpartner : mixByte b i (partner i) = b (partner i) :=
    Function.update_of_ne (partner_ne i) _ _
  have hself : mixByte b i i = b i ^^^ b (partner i) := Function.update_self _ _ _
  show Function.update (mixByte b i) i (mixByte b i i ^^^ mixByte b i (partner i)) = b
  rw [hself, hpartner, UInt8.xor_assoc, UInt8.xor_self, UInt8.xor_zero, mixByte,
    Function.update_idem, Function.update_eq_self]

/-- The steps in reverse order take a mixed buffer back. -/
theorem foldl_mixByte_reverse (l : List (Fin 16)) (b : Pool) :
    l.reverse.foldl mixByte (l.foldl mixByte b) = b := by
  induction l generalizing b with
  | nil => rfl
  | cons i l ih =>
    rw [List.foldl_cons, List.reverse_cons, List.foldl_append, ih (mixByte b i)]
    exact mixByte_involutive i b

theorem mix_injective : Function.Injective mix :=
  Function.LeftInverse.injective (g := fun b => (List.finRange 16).reverse.foldl mixByte b)
    fun b => foldl_mixByte_reverse (List.finRange 16) b

/-- Two buffers mix to the same pool only if they are the same. So the
pools that two collections leave, at the start or later, are the same only
if the collected bytes are. -/
theorem entropy_mixing_injective :
    Function.Injective mix
      ∧ ∀ (keys keys' : Fin 16 → Keystroke) (e e' : Entropy),
        ((requestUserEntropy keys e).buffer = (requestUserEntropy keys' e').buffer
            ↔ collect keys e.buffer = collect keys' e'.buffer)
          ∧ ((refreshEntropy keys e).buffer = (refreshEntropy keys' e').buffer
            ↔ collect keys e.buffer = collect keys' e'.buffer)
          ∧ ((requestUserEntropy keys e).buffer = (refreshEntropy keys' e').buffer
            ↔ collect keys e.buffer = collect keys' e'.buffer) :=
  ⟨mix_injective, fun _ _ _ _ => ⟨mix_injective.eq_iff, mix_injective.eq_iff,
    mix_injective.eq_iff⟩⟩

end RojocOS.Kernel
