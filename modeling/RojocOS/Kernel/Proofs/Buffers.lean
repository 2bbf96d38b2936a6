/-
The system calls that are given a buffer.

A handler translates the first byte of a buffer and works on physical
memory from there. `UserBuffer` says that this is right: the buffer is one
piece of physical memory, and the process may write all of it. Then what
the kernel writes is the process's own, and the invariant is kept
(`KInv.getcwd` to `KInv.write`).

For `sys_write` the buffer is not what is asked for, but the blocks by
which the file grows: `fs_write` encrypts them where they are.
-/
import RojocOS.Fs.Proofs.CallerBuffer
import RojocOS.Kernel.Proofs.DescTable
import RojocOS.Kernel.Proofs.Entries

namespace RojocOS.Kernel

open ByteMap Fs Prog

variable {E : KEnv} {G O : Prop} {role : Roles} {used : List Blk} {s s' : KState}
  {a n pa va x : Nat} {i r : Int} {off : Nat → Nat}

/-- The `n` bytes from `va` on are mapped for writing by the process, one
behind the other in memory. -/
def UserBuffer (s : KState) (va n : Nat) : Prop :=
  ∀ d, d < n →
    (virtualMemoryLookup s.mem s.cur.pagetable (va + d)).pa
        = (virtualMemoryLookup s.mem s.cur.pagetable va).pa + d
      ∧ (virtualMemoryLookup s.mem s.cur.pagetable (va + d)).perm % 8 = 7

section

variable (h : KInv E G O role used s)

include h

/-- What a translation with `PTE_U` gives is the process's own. -/
theorem KInv.lookup_user (hlive : s.Live s.current)
    (hperm : (virtualMemoryLookup s.mem s.cur.pagetable va).perm / 4 % 2 = 1) :
    UserByte role s s.current (virtualMemoryLookup s.mem s.cur.pagetable va).pa := by
  obtain ⟨root, hroot, hsp, -⟩ := (h.live _ hlive).space
  have hcur : s.cur.pagetable = root * 4096 := hroot
  rw [hcur] at hperm ⊢
  rcases hsp.entry va with h0 | ⟨hodd, hlt, hown⟩
  · rw [h.mach.tables.lookup_none hsp.isRoot (by rw [h0]; decide)] at hperm
    exact absurd hperm (by decide)
  · rw [h.mach.tables.lookup_some hsp.isRoot hodd hlt] at hperm ⊢
    dsimp only at hperm ⊢
    unfold UserByte
    rw [show (leafEntry s.mem root va / 4096 * 4096 + va % 4096) / 4096
      = leafEntry s.mem root va / 4096 by omega]
    exact hown (by omega)

theorem KInv.bufferOk (hlive : s.Live s.current)
    (hbuf : UserBuffer s va n) : BufferOk role s va n := by
  intro d hd
  obtain ⟨hpa, hperm⟩ := hbuf d hd
  rw [← hpa]
  exact h.lookup_user hlive (by omega)

-- ==== getcwd, wait

theorem KInv.getcwd (hbuf : BufferOk role s (u64 s.cur.registers.rdi) (s.cur.cwd.length + 1))
    (hrun : sysGetcwd E s = (.ok (), s')) : KInv E G O role used s' := by
  have h2 := bind_step hrun rfl
  have h4 := bind_step h2 rfl
  obtain ⟨_, s3, h5, h6⟩ := bind_ok.mp h4
  exact (h.writeAt hbuf (Nat.le_refl _) h5).minor ((setRax_minor _).of_run h6)

/-- `sys_wait` writes the exit code, or remembers where it is to go. -/
theorem KInv.wait (hlive : s.Live s.current)
    (hbuf : BufferOk role s (u64 s.cur.registers.rsi) 4)
    (hrun : sysWait E s = (.ok (), s')) : KInv E G O role used s' := by
  have h2 := bind_step hrun rfl
  have h4 := bind_step h2 rfl
  obtain ⟨-, h6⟩ := assert_bind_ok h4
  obtain ⟨-, h8⟩ := assert_bind_ok h6
  obtain ⟨_, s5, h9, h10⟩ := bind_ok.mp h8
  have hm := (setRax_minor 0).of_run h9
  have hk := h.minor hm
  have hbytes : ∀ d < 4, UserByte role s5 s5.current
      ((virtualMemoryLookup s.mem s.cur.pagetable (u64 s.cur.registers.rsi)).pa + d) :=
    fun d hd => hm.current.symm ▸ hm.userByte (hbuf d hd)
  split at h10
  · obtain ⟨_, s6, h11, h12⟩ := bind_ok.mp h10
    have hs : s6 = s5 := by
      obtain ⟨-, h14⟩ := failIf_bind_ok h11
      exact (failIf_ok h14).2
    subst hs
    cases h12
    exact hk.store_user hk.numbered.current.1 hbytes
  · cases h10
    have hlive5 : s5.Live s5.current := by
      unfold KState.Live
      rw [hm.current, (hm.role _).state]
      exact hlive
    exact hk.blocked hlive5 hbytes

end

-- ==== read, write

/-- Memory and its accounts are as they were, and the same process runs. -/
structure Aside (s s' : KState) : Prop where
  mach : SameMach s s'
  current : s'.current = s.current

theorem Aside.refl (s : KState) : Aside s s := ⟨⟨rfl, rfl, rfl, rfl, rfl⟩, rfl⟩

theorem Aside.bind {α β : Type} {x : KM α} {f : α → KM β} (hx : Keeps Aside x)
    (hf : ∀ a, Keeps Aside (f a)) : Keeps Aside (x >>= f) := by
  refine Keeps.bind (fun h h' => ?_) hx hf
  obtain ⟨⟨h1, h2, h3, h4, h5⟩, h6⟩ := h
  obtain ⟨⟨k1, k2, k3, k4, k5⟩, k6⟩ := h'
  exact ⟨⟨k1.trans h1, k2.trans h2, k3.trans h3, k4.trans h4, k5.trans h5⟩, k6.trans h6⟩

/-- The search moves the list's head only. -/
theorem fdlistSearchEntry_aside (fd fuel : Nat) :
    Keeps Aside (fdlistSearchEntry fd fuel) := by
  have hadvance : Keeps Aside fdAdvance := by
    refine Aside.bind Aside.refl fun s => Aside.bind (Keeps.failIf Aside.refl _ _) fun _ => ?_
    exact fun s => ⟨⟨rfl, rfl, rfl, rfl, rfl⟩, rfl⟩
  induction fuel with
  | zero => exact Keeps.stop Aside.refl _
  | succ fuel ih =>
    refine Aside.bind Aside.refl fun s => Keeps.ite (Keeps.pure Aside.refl _) ?_
    refine Aside.bind (Keeps.failIf Aside.refl _ _) fun _ => ?_
    exact Keeps.ite (Keeps.pure Aside.refl _) (Aside.bind hadvance fun _ => ih)

theorem Aside.userByte (h : Aside s s') (hx : UserByte role s i x) :
    UserByte role s' i x := by
  unfold UserByte OwnPage
  rw [h.mach.pageinfo]
  exact hx

/-- The offset of the entry at the head moves on. -/
theorem KInv.advance (h : KInv E G O role used s)
    (ha : s.cur.fdList = a) (hrun : advance E a n r s = (.ok (), s')) :
    KInv E G O role used s' := by
  by_cases h0 : s.cur.fdList = 0
  · -- there is no entry at address 0: the write faults
    obtain ⟨_, s1, h1, -⟩ := bind_ok.mp hrun
    obtain ⟨_, s2, h3, -⟩ := bind_ok.mp h1
    exact absurd (failIf_ok h3).1 (by omega)
  · obtain ⟨v, heq⟩ := h.advance_eq h0
    rw [ha] at heq
    rw [heq] at hrun
    rw [← ha] at hrun
    exact (h.store_offset h0 v).minor ((setRax_minor _).of_run hrun)

/-- A file system call on a buffer, and what the handler makes of its
result: an error code, or the new offset of the entry. -/
theorem KInv.transfer {x : FsM Nat} {ret : Nat → Int}
    (h : KInv E G O role used s) (ha : s.cur.fdList = a)
    (hx : ∀ w : FsWorld, w.disk = s.disk → FillsWithin n w (x w).2)
    (hbuf : ∀ d < n, UserByte role s s.current (pa + d)) (hrun : (do
      let r ← Kernel.fsCallBuf E pa x
      match r with
      | .error c => setRax (reg64 c)
      | .ok v => if i32 v < 0 then setRax (reg64 (i32 v)) else Kernel.advance E a (off v) (ret v)
        : KM Unit) s = (.ok (), s')) :
    KInv E G O role used s' := by
  obtain ⟨r, s1, h1, h2⟩ := bind_ok.mp hrun
  have hk : KInv E G O role used s1 := by
    refine h.fsCallBuf (fun d hd => hbuf d ?_) h1
    by_contra hge
    exact hd (hx _ rfl d (by omega))
  cases r with
  | error c => exact hk.minor ((setRax_minor _).of_run h2)
  | ok v =>
    dsimp only at h2
    by_cases hneg : i32 v < 0
    · rw [if_pos hneg] at h2
      exact hk.minor ((setRax_minor _).of_run h2)
    · rw [if_neg hneg] at h2
      have hlist := (fsCallBuf_calm pa x).of_run h1
      refine hk.advance ?_ h2
      rw [KState.cur, hlist.processes, hlist.current]
      exact ha

theorem KInv.read (h : KInv E G O role used s)
    (hbuf : BufferOk role s (u64 s.cur.registers.rsi) (u64 s.cur.registers.rdx))
    (hrun : sysRead E s = (.ok (), s')) : KInv E G O role used s' := by
  have h2 := bind_step hrun rfl
  have h4 := bind_step h2 rfl
  obtain ⟨entry, s3, h5, h6⟩ := bind_ok.mp h4
  obtain ⟨hk, ha, -⟩ := h.fdlistSearchEntry h5
  have haside := (fdlistSearchEntry_aside _ _).of_run h5
  obtain ⟨-, h8⟩ := failIf_bind_ok h6
  rw [get_bind] at h8
  refine hk.transfer ha (fun w _ => fsRead_within _ _ _ _ w) (fun d hd => ?_) h8
  rw [haside.current]
  exact haside.userByte (hbuf d hd)

/-- The blocks by which a write through the descriptor at the head makes
the file grow. -/
def writeBlocks (s : KState) : Nat :=
  newBlocks (readEntry s.disk (load s.mem (s.cur.fdList + 4) 4)) (u64 s.cur.registers.rdx)
    (sext (load s.mem (s.cur.fdList + 8) 4))

theorem KInv.write (h : KInv E G O role used s)
    (hbuf : AtHead s (u32 s.cur.registers.rdi) →
      BufferOk role s (u64 s.cur.registers.rsi) (4096 * writeBlocks s))
    (hrun : sysWrite E s = (.ok (), s')) : KInv E G O role used s' := by
  have h2 := bind_step hrun rfl
  have h4 := bind_step h2 rfl
  obtain ⟨entry, s3, h5, h6⟩ := bind_ok.mp h4
  have hk := (h.fdlistSearchEntry h5).1
  rcases h.searched h5 with ⟨hat, rfl, rfl⟩ | ⟨-, rfl, -⟩
  · rw [if_neg hat.1] at h6
    obtain ⟨-, h8⟩ := failIf_bind_ok h6
    rw [get_bind] at h8
    refine hk.transfer rfl (fun w hw => ?_) (hbuf hat) h8
    have hwithin := fsWrite_within (E := E.fsEnv) (d := s3.desc)
      (load s3.mem (s3.cur.fdList + 4) 4) (u64 s3.cur.registers.rdx)
      (sext (load s3.mem (s3.cur.fdList + 8) 4)) w
    rw [hw] at hwithin
    exact hwithin
  · rw [if_pos rfl] at h6
    exact hk.minor ((setRax_minor _).of_run h6)

end RojocOS.Kernel
