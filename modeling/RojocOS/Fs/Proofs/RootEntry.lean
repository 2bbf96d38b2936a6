/-
The entry of inode 0.

A tree node with the value 0 is a directory, so no file may have that
number. `search_available_inode` starts at 1 and `fs_remove` releases no
inode 0, so the calls that are given a path leave the entry alone. What
is left is `fs_write`, which takes the number as an argument: on inode 0
it goes through when it starts at the beginning, and the size it stores
is the first thing in the entry (`fsWrite_root`). While the entry is zero
a read from inode 0 delivers nothing (`fsRead_root`).
-/
import RojocOS.Fs.Proofs.Maps

namespace RojocOS.Fs

open ByteMap Prog

variable {E : FsEnv} {w w' : FsWorld} {size offset a fuel ino n new : Nat}
  {aba : Option Nat} {disk e : ByteMap}

/-- The bytes of entry 0. -/
def InRoot (a : Nat) : Prop := 12 ≤ a ∧ a < 316

theorem InRoot.lt (h : InRoot a) : a < 316 := h.2

theorem InRoot.low (h : InRoot a) : Low a := Nat.lt_trans h.2 (by decide)

theorem zeroed_root_iff : Zeroed InRoot disk ↔ entryAt disk 0 = zero := by
  constructor
  · intro h
    funext x
    show (if x < 304 then disk (12 + x) else 0) = 0
    split
    · exact h _ ⟨by omega, by omega⟩
    · rfl
  · intro h a ha
    obtain ⟨h12, h316⟩ := ha
    have hx : entryAt disk 0 (a - 12) = 0 := by rw [h]; rfl
    rw [entryAt, slice_of_lt (by omega)] at hx
    rw [← hx]
    congr 1
    show a = 12 + 0 * 304 + (a - 12)
    omega

/-- What is read of entry 0. -/
theorem readEntry_root (h : Zeroed InRoot w.disk) : readEntry w.disk 0 = zero :=
  zeroed_root_iff.mp h

/-- A write to inode 0 that gets as far as its entry is at offset 0; if it
is of no bytes the entry is the one that was read. -/
theorem Front.root (h : Zeroed InRoot w.disk)
    (hf : Front E 0 size offset w w' aba new e) :
    offset = 0 ∧ (size = 0 → new = 0 ∧ e = zero) := by
  obtain ⟨-, hin, hnew, hcrowd, -, hstay, -, -⟩ := hf
  rw [zeroed_root_iff.mp h] at hin hnew hcrowd hstay
  obtain rfl : offset = 0 := Nat.le_zero.mp hin
  refine ⟨rfl, fun hs => ?_⟩
  subst hs
  have h0 : new = 0 := hnew
  refine ⟨h0, (hstay fun ha => ?_).1⟩
  obtain ⟨k, hk, -⟩ := hcrowd.mp ha
  exact Nat.not_lt_zero k (h0 ▸ hk)

/-- `fs_write` on another inode, or on inode 0 with no bytes or beyond its
end. -/
theorem fsWrite_root (h32 : ino < 2 ^ 32) (h : Zeroed InRoot w.disk)
    (hroot : ino = 0 → size = 0 ∨ offset ≠ 0) :
    Zeroed InRoot (fsWrite E fsdesc ino size offset w).2.disk := by
  refine fsWrite_zeroed (fun a ha => ha.low) h32 h ?_
  intro r w1 e w2 hrun hrest x hx
  by_cases h0 : ino = 0
  · subst h0
    obtain ⟨hoff, hfront⟩ := (writeFront_spec h32 hrun).root h
    have hs := (hroot rfl).resolve_right (not_not.mpr hoff)
    obtain ⟨hnew, hzero⟩ := hfront hs
    subst hoff hs
    rw [hnew, hzero, writeRest, if_neg (not_not.mpr rfl)] at hrest
    cases hrest
    show store zero 8 8 0 x = 0
    unfold store
    split
    · simp
    · rfl
  · have hlt := hx.lt
    unfold entryAddr at hlt
    omega

/-- A file of no bytes. -/
theorem fsRead_root (h : Zeroed InRoot w.disk)
    (hrun : fsRead E fsdesc fuel 0 size offset w = (.ok n, w')) : n = 0 := by
  unfold fsRead at hrun
  split at hrun
  · cases hrun
  obtain ⟨e, w1, he, hrun⟩ := bind_ok.mp hrun
  obtain ⟨hread, -⟩ := fsdr_ok he
  obtain rfl : e = zero := hread.trans (readEntry_root h)
  have hsize : Entry.size zero = 0 := load_eq_zero.mpr fun _ _ _ => rfl
  rw [hsize, if_pos (Nat.zero_le _)] at hrun
  cases hrun
  rfl

end RojocOS.Fs
