/-
The permissions `virtual_memory_lookup` reports.

The processor lets a process write a page if all four entries of the walk
have `PTE_W`, and reach it at all from user mode if all four have
`PTE_U`. The loop of `virtual_memory_lookup` masks every entry with the
complement of the previous result instead of with the result itself. Over
four levels the first entry drops out, and what is left of a flag is

    last entry ∧ (¬ third entry ∨ second entry)

(`maskedEntry_flag`). The tables the kernel builds have both flags in
every upper entry, where this is the last entry's flag and right;
`lookup_permissions_iff` says exactly for which entries it is.

The address is never affected, since masking touches the two flags only.
-/
import RojocOS.Kernel.Proofs.Tables

namespace RojocOS.Kernel

open ByteMap

variable {flag level n : Nat}

-- ==== the walk

/-- The entry of `va` at `level`, whatever the entries above hold: the
table is where the entry above points. -/
def walkEntry (m : ByteMap) (pagetable va : Nat) : Nat → Nat
  | 0 => getEntry m pagetable (pageindex va 0)
  | level + 1 =>
      getEntry m (pteAddr (walkEntry m pagetable va level)) (pageindex va (level + 1))

/-- `va` is present: all four entries have `PTE_P`. -/
def Present (m : ByteMap) (pagetable va : Nat) : Prop :=
  ∀ level, level < 4 → walkEntry m pagetable va level % 2 = 1

instance (m : ByteMap) (pagetable va : Nat) : Decidable (Present m pagetable va) :=
  inferInstanceAs (Decidable (∀ level, level < 4 → _))

/-- `flag` is set in `pe`; `PTE_W` is 2 and `PTE_U` is 4. -/
def HasFlag (flag pe : Nat) : Prop := pe / flag % 2 = 1

instance (flag pe : Nat) : Decidable (HasFlag flag pe) :=
  inferInstanceAs (Decidable (_ = _))

/-- What the processor enforces: every entry of the walk has the flag. -/
def Effective (m : ByteMap) (pagetable va flag : Nat) : Prop :=
  ∀ level, level < 4 → HasFlag flag (walkEntry m pagetable va level)

instance (m : ByteMap) (pagetable va flag : Nat) :
    Decidable (Effective m pagetable va flag) :=
  inferInstanceAs (Decidable (∀ level, level < 4 → _))

-- ==== the masking

/-- What the loop holds after `level`: the entry, masked by what it held
before. -/
def maskedEntry (m : ByteMap) (pagetable va : Nat) : Nat → Nat
  | 0 => maskFlags (walkEntry m pagetable va 0) 7
  | level + 1 =>
      maskFlags (walkEntry m pagetable va (level + 1)) (maskedEntry m pagetable va level)

@[simp]
theorem maskFlags_addr (e pe : Nat) : pteAddr (maskFlags e pe) = pteAddr e := by
  unfold maskFlags pteAddr
  split <;> split <;> omega

@[simp]
theorem maskFlags_present (e pe : Nat) : maskFlags e pe % 2 = e % 2 := by
  unfold maskFlags
  split <;> split <;> omega

/-- Masking clears a flag the previous entry has. -/
theorem maskFlags_flag (hf : flag = 2 ∨ flag = 4) (e pe : Nat) :
    HasFlag flag (maskFlags e pe) ↔ HasFlag flag e ∧ ¬ HasFlag flag pe := by
  unfold HasFlag maskFlags
  rcases hf with rfl | rfl <;> split <;> split <;> omega

section Walk

variable {m : ByteMap} {pagetable va : Nat}

@[simp]
theorem maskedEntry_addr (level : Nat) :
    pteAddr (maskedEntry m pagetable va level)
      = pteAddr (walkEntry m pagetable va level) := by
  cases level <;> simp [maskedEntry]

@[simp]
theorem maskedEntry_present (level : Nat) :
    maskedEntry m pagetable va level % 2
      = walkEntry m pagetable va level % 2 := by
  cases level <;> simp [maskedEntry]

/-- From the second level on, a turn of the loop takes one masked entry
to the next. -/
theorem lookupLoop_masked (hp : walkEntry m pagetable va level % 2 = 1) :
    lookupLoop m va (n + 1) (level + 1) (pteAddr (maskedEntry m pagetable va level))
        (maskedEntry m pagetable va level)
      = lookupLoop m va n (level + 2) (pteAddr (maskedEntry m pagetable va (level + 1)))
          (maskedEntry m pagetable va (level + 1)) := by
  refine lookupLoop_step ((maskedEntry_present level).trans hp) ?_ rfl
  rw [maskedEntry_addr]
  rfl

/-- Where `va` is present the loop ends with the last masked entry. -/
theorem Present.lookupLoop_eq (h : Present m pagetable va) :
    lookupLoop m va 4 0 pagetable 7 = maskedEntry m pagetable va 3 := by
  rw [lookupLoop_step (by decide) rfl rfl]
  change lookupLoop m va 3 1 (pteAddr (maskedEntry m pagetable va 0))
    (maskedEntry m pagetable va 0) = _
  rw [lookupLoop_masked (h 0 (by decide)), lookupLoop_masked (h 1 (by decide)),
    lookupLoop_masked (h 2 (by decide))]
  rfl

theorem Present.lookup_eq (h : Present m pagetable va) :
    virtualMemoryLookup m pagetable va
      = { pn := i32 (maskedEntry m pagetable va 3 / 4096)
          pa := pteAddr (walkEntry m pagetable va 3) + va % 4096
          perm := maskedEntry m pagetable va 3 % 4096 } := by
  have hp : maskedEntry m pagetable va 3 % 2 = 1 :=
    (maskedEntry_present 3).trans (h 3 (by decide))
  unfold virtualMemoryLookup
  rw [h.lookupLoop_eq, if_pos hp, maskedEntry_addr]

theorem hasFlag_mod (hf : flag = 2 ∨ flag = 4) (pe : Nat) :
    HasFlag flag (pe % 4096) ↔ HasFlag flag pe := by
  unfold HasFlag
  rcases hf with rfl | rfl <;> omega

/-- The reported flag is the effective one. -/
def Reported (m : ByteMap) (pagetable va flag : Nat) : Prop :=
  HasFlag flag (virtualMemoryLookup m pagetable va).perm
    ↔ Effective m pagetable va flag

/-- The entries of a walk for which the masking comes out right: a flag
of the last entry is in all the others too, or the third entry has it and
the second does not, when the loop clears it. -/
def Sound (m : ByteMap) (pagetable va flag : Nat) : Prop :=
  HasFlag flag (walkEntry m pagetable va 3) →
    Effective m pagetable va flag
      ∨ HasFlag flag (walkEntry m pagetable va 2)
        ∧ ¬ HasFlag flag (walkEntry m pagetable va 1)

instance (m : ByteMap) (pagetable va flag : Nat) :
    Decidable (Sound m pagetable va flag) :=
  inferInstanceAs (Decidable (_ → _ ∨ _ ∧ ¬ _))

theorem Present.reported_iff (h : Present m pagetable va) (hf : flag = 2 ∨ flag = 4) :
    Reported m pagetable va flag ↔ Sound m pagetable va flag := by
  have h7 : HasFlag flag 7 := by
    rcases hf with rfl | rfl <;> decide
  unfold Reported Sound
  -- the first entry does not matter: it is masked by a value with both flags
  simp only [h.lookup_eq, hasFlag_mod hf, maskedEntry, maskFlags_flag hf, h7,
    not_true_eq_false, and_false, not_false_eq_true, and_true, not_and, not_not]
  constructor
  · intro hiff h3
    by_cases hmask : HasFlag flag (walkEntry m pagetable va 2) →
        HasFlag flag (walkEntry m pagetable va 1)
    · exact .inl (hiff.mp ⟨h3, hmask⟩)
    · exact .inr (Classical.not_imp.mp hmask)
  · intro hs
    constructor
    · intro hr
      rcases hs hr.1 with he | ⟨h2, h1⟩
      · exact he
      · exact absurd (hr.2 h2) h1
    · intro he
      exact ⟨he 3 (by decide), fun _ => he 1 (by decide)⟩

/-- For every page table and every address present in it,
`virtual_memory_lookup` reports the last entry's address, and `PTE_W` and
`PTE_U` as the processor enforces them exactly if both come out right of
the masking. -/
theorem lookup_permissions_iff (m : ByteMap) (pagetable va : Nat)
    (h : Present m pagetable va) :
    (virtualMemoryLookup m pagetable va).pa
        = pteAddr (walkEntry m pagetable va 3) + va % 4096
      ∧ ((Reported m pagetable va 2 ∧ Reported m pagetable va 4)
        ↔ (Sound m pagetable va 2 ∧ Sound m pagetable va 4)) := by
  refine ⟨by rw [h.lookup_eq], ?_⟩
  rw [h.reported_iff (.inl rfl), h.reported_iff (.inr rfl)]

end Walk

/-- Four tables with one entry each, for address 0: the flags of the
entries are the arguments. -/
def fourTables (f₀ f₁ f₂ f₃ : Nat) : ByteMap :=
  store (store (store (store zero 0x1000 8 (0x2000 + f₀)) 0x2000 8 (0x3000 + f₁))
    0x3000 8 (0x4000 + f₂)) 0x4000 8 (0x5000 + f₃)

/-- With all flags in all entries, as the kernel's own tables have them. -/
theorem lookup_permissions_iff_full :
    Present (fourTables 7 7 7 7) 0x1000 0
      ∧ Reported (fourTables 7 7 7 7) 0x1000 0 2
      ∧ Reported (fourTables 7 7 7 7) 0x1000 0 4 := by
  have hp : Present (fourTables 7 7 7 7) 0x1000 0 := by decide +kernel
  exact ⟨hp, (lookup_permissions_iff _ _ _ hp).2.mpr (by decide +kernel)⟩

/-- The entry above the last one is read-only, so the processor refuses
the write; the lookup reports the page as writable. -/
theorem lookup_reports_readonly_writable :
    Present (fourTables 7 7 5 7) 0x1000 0
      ∧ (virtualMemoryLookup (fourTables 7 7 5 7) 0x1000 0).perm = 7
      ∧ ¬ HasFlag 2 (walkEntry (fourTables 7 7 5 7) 0x1000 0 2)
      ∧ ¬ Effective (fourTables 7 7 5 7) 0x1000 0 2 := by
  decide +kernel

end RojocOS.Kernel
