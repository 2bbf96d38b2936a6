/-
`sys_touch` on the runs that leave no content in an unowned entry.

The handler allocates an inode and links the path to it. The inode comes
from `fs_alloc_inode`, which clears nothing, so what the file starts with
is what the entry was left with (Fs/Proofs/NewFile.lean); `fs_touch`
writes to the tree only.
-/
import RojocOS.Fs.Proofs.Isolation
import RojocOS.Fs.Proofs.NewFile
import RojocOS.Kernel.Proofs.FailedTouch

namespace RojocOS.Kernel

open ByteMap Fs

variable {E : KEnv} {s s₁ s' : KState} {p : Path}

/-- A `sys_touch` that answers 0 has allocated an inode and linked the
path to it. -/
theorem sysTouch_success (hE : E.fsEnv.Reliable) (hd : s.desc = fsdesc)
    (hp : pathArg E s = (.ok p, s₁)) (h : sysTouch E s = (.ok (), s'))
    (hrax : s'.cur.registers.rax = 0) :
    ∃ i w w', fsAllocInode E.fsEnv fsdesc s.world = (.ok i, w)
      ∧ fsTouch E.fsEnv fsdesc p (u32 i) w = (.ok (), w') ∧ s'.disk = w'.disk := by
  rcases ha : fsAllocInode E.fsEnv fsdesc s.world with ⟨e | i, w⟩
  · obtain ⟨rfl, -, -⟩ := fsAllocInode_error hE ha
    obtain ⟨t, -, hrun⟩ := sysTouch_noInode hd hp ha
    rw [(setRax_ok (hrun.symm.trans h)).1] at hrax
    exact absurd hrax (by decide)
  obtain ⟨t, htd, hrun⟩ := sysTouch_inode hd hp ha
  rcases ht : fsTouch E.fsEnv fsdesc p (u32 i) w with ⟨(c | _ | _ | _) | u, w'⟩
  all_goals
    rw [ht] at hrun htd
    have hset := hrun.symm.trans h
  · rcases fsTouch_outcome hE p (u32 i) w with ⟨-, c', hc, hres⟩ | ⟨-, hres⟩
    · rw [ht] at hres
      cases hres
      rw [(setRax_ok hset).1] at hrax
      exact absurd hrax (reg64_ne_zero hc.2 (by have := hc.1; omega))
    · rw [ht] at hres
      exact absurd rfl (hres c)
  · cases hset
  · cases hset
  · cases hset
  · refine ⟨i, w, w', rfl, ht, ?_⟩
    have hs' : (setRax 0 t).2 = s' := congrArg Prod.snd hset
    rw [← hs']
    exact htd

/-- In every state of a run whose writes are `Tended`, a `sys_touch` that
answers 0 has given the path an inode without size and blocks, of which a
read returns nothing. On a well-formed tree this is the inode the path is
then found to have. -/
theorem new_file_empty (hE : E.fsEnv.Reliable) {w : FsWorld}
    (hrun : FsRun E.fsEnv Tended (start E.fsEnv) w) (hd : s.desc = fsdesc)
    (hdisk : s.disk = w.disk) (hp : pathArg E s = (.ok p, s₁))
    (h : sysTouch E s = (.ok (), s')) (hrax : s'.cur.registers.rax = 0) :
    ∃ i k, 1 ≤ i ∧ i < 16 ∧ s.disk (4892 + k) = 0 ∧ s'.disk (4892 + k) ≠ 0
      ∧ Node.value (nodeAt s'.disk k) = i
      ∧ Entry.size (entryAt s'.disk i) = 0 ∧ Entry.blockCount (entryAt s'.disk i) = 0
      ∧ (∀ fuel size offset, size ≤ FS_IO_MAX_SIZE →
          readResult E.fsEnv s'.disk fuel i size offset = .ok [])
      ∧ (∀ c, WellFormed s.disk → Normpath p → (names p).getLast? = some c → c.length ≤ 30 →
          (fsGetattr E.fsEnv fsdesc p s'.world).1 = .ok i) := by
  obtain ⟨i, w₁, w₂, ha, ht, hs'⟩ := sysTouch_success hE hd hp h hrax
  obtain ⟨h1, h16, hempty, htree⟩ := fsAllocInode_fresh hE
    (w := s.world) (by rw [show s.world.disk = w.disk from hdisk]; exact hrun.unused hE) ha
  have h32 : u32 i = i := Nat.mod_eq_of_lt (by omega)
  rw [h32] at ht
  obtain ⟨par, name, u, k, hsplit, hok, hw₂⟩ := fsTouch_ok hE ht
  have hentry : entryAt s'.disk i = entryAt w₁.disk i := by
    rw [hs']
    exact entryAt_of_low (fun a ha => by
      have := fsTouch_spares (E := E.fsEnv) p i w₁ a ha
      rwa [ht] at this) h16
  have hval : Node.value (nodeAt s'.disk k) = i := by
    rw [hs', hw₂, touchDisk_new, newNode_value (by omega)]
  have hused : s'.disk (4892 + k) ≠ 0 := by
    rw [hs', hw₂, touchDisk_usage hok.index.2, if_pos rfl]
    decide
  have hclear : s.disk (4892 + k) = 0 := by
    rw [← hok.free]
    exact (htree _ (by omega)).symm
  have hsize : Entry.size (entryAt s'.disk i) = 0 := by rw [hentry]; exact hempty.1
  have hcount : Entry.blockCount (entryAt s'.disk i) = 0 := by rw [hentry]; exact hempty.2
  refine ⟨i, k, h1, h16, hclear, hused, hval, hsize, hcount, fun fuel size offset hmax => ?_,
    fun c hwf hnp hlast hc => ?_⟩
  · rw [readResult_empty hE h16 hsize, if_neg (Nat.not_lt.mpr hmax)]
  · obtain ⟨cs, hn⟩ := List.getLast?_eq_some_iff.mp hlast
    have hwf₁ : WellFormed w₁.disk := hwf.congr fun a ha => htree a (by omega)
    obtain ⟨rfl, -, -, -, hfound⟩ := hwf₁.treeOk.touch_found hnp hn hc hsplit hok i
    rw [← hw₂, ← hs'] at hfound
    rw [fsGetattr_lookup hE hnp.1, show s'.world.disk = s'.disk from rfl, hfound]
    exact congrArg Except.ok hval

/-- A file with a byte in it, removed. -/
def removedFile : List FsOp :=
  [.allocInode, .touch [slash, 97] 1, .write 1 (fun _ => 65) 1 0, .remove [slash, 97]]

/-- `sys_touch("/a")` after it. -/
theorem new_file_empty_again :
    let s := touchingA (runAll plainKEnv.fsEnv (start plainKEnv.fsEnv) removedFile).disk
    ∃ i, Entry.size (entryAt (sysTouch plainKEnv s).2.disk i) = 0
      ∧ readResult plainKEnv.fsEnv (sysTouch plainKEnv s).2.disk 1 i 1 0 = .ok [] := by
  intro s
  have hrun : FsRun plainKEnv.fsEnv Tended (start plainKEnv.fsEnv)
      (runAll plainKEnv.fsEnv (start plainKEnv.fsEnv) removedFile) := by
    refine runAll_run _ _ _ ⟨trivial, by decide +kernel, trivial, by decide +kernel, ⟨by decide, ?_⟩,
      by decide +kernel, trivial, by decide +kernel, trivial⟩
    exact .inr (.inr ⟨by decide +kernel, .inr (.inr (.inl ⟨by decide, by decide +kernel⟩))⟩)
  have hp := Prog.eq_of_toOption
    (by decide +kernel : (pathArg plainKEnv s).1.toOption = some [slash, 97])
  have hok := Prog.eq_of_toOption
    (by decide +kernel : (sysTouch plainKEnv s).1.toOption = some ())
  obtain ⟨i, k, -, -, -, -, -, hsize, -, hread, -⟩ := new_file_empty (fun _ _ _ => rfl) hrun rfl
    rfl hp hok (by decide +kernel)
  exact ⟨i, hsize, hread 1 1 0 (by decide)⟩

/-- The file is removed before the byte is written. -/
def staleWrite : List FsOp :=
  [.allocInode, .touch [slash, 97] 1, .remove [slash, 97], .write 1 (fun _ => 65) 1 0]

/-- The new `/a` starts with one block and one byte. -/
theorem new_file_keeps_content :
    let w := runAll plainKEnv.fsEnv (start plainKEnv.fsEnv) staleWrite
    let s := touchingA w.disk
    FsRun plainKEnv.fsEnv (fun _ _ => True) (start plainKEnv.fsEnv) w
      ∧ (sysTouch plainKEnv s).1.toOption = some ()
      ∧ (sysTouch plainKEnv s).2.cur.registers.rax = 0
      ∧ (fsGetattr plainKEnv.fsEnv fsdesc [slash, 97] (sysTouch plainKEnv s).2.world).1.toOption
        = some 1
      ∧ Entry.size (entryAt (sysTouch plainKEnv s).2.disk 1) = 1
      ∧ Entry.blockCount (entryAt (sysTouch plainKEnv s).2.disk 1) = 1
      ∧ (readResult plainKEnv.fsEnv (sysTouch plainKEnv s).2.disk 2 1 1 0).toOption = some [65] := by
  intro w s
  refine ⟨runAll_run _ _ _ ⟨trivial, by decide +kernel, trivial, by decide +kernel, trivial,
    by decide +kernel, trivial, by decide +kernel, trivial⟩, ?_⟩
  decide +kernel

end RojocOS.Kernel
