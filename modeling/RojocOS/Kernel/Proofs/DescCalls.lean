/-
The system calls that take a descriptor, and the invariant.

A descriptor is an entry in a block of the kernel's heap. Reading and
writing look it up, let the file system work on the caller's buffer and
add to the offset in the entry. `KInv.fsCallBuf` is about the buffer and
`KInv.store_offset` about the entry; the lookup may lose the descriptor,
but what it leaves is a list again (`KInv.fdlistSearchEntry`).
-/
import RojocOS.Kernel.Proofs.PathCalls

namespace RojocOS.Kernel

open ByteMap Fs Prog

variable {E : KEnv} {G O : Prop} {role : Roles} {used used' : List Blk} {b : Blk}
  {s s' : KState} {α : Type} {a fd fuel inode n pa x : Nat} {r : Int} {w : FsWorld}

-- ==== blocks

theorem KInv.perm (h : KInv E G O role used s) (hp : used.Perm used') :
    KInv E G O role used' s := by
  obtain ⟨free, hinv⟩ := h.mach.heap
  have hmach : MInv E role used' s := { h.mach with heap := ⟨free, hinv.perm_used hp⟩ }
  refine { h with mach := hmach, fd := fun i h0 h16 => ?_ }
  exact (h.fd i h0 h16).imp_right fun ⟨c, hc, hrest⟩ => ⟨c, hp.mem_iff.mp hc, hrest⟩

/-- A byte of a block in use is plain memory. -/
theorem KInv.used_byte (h : KInv E G O role used s) (hb : b ∈ used) (hx : b.Has x) :
    4096 ≤ x ∧ x < 0x200000 ∧ ¬ E.KernelPage (x / 4096) := by
  obtain ⟨free, hinv⟩ := h.mach.heap
  have hin := hinv.tiles.mem (List.mem_append_right _ hb) hx
  obtain ⟨h1, h2⟩ := InPages.low hinv.page hin
  refine ⟨h1, h2, fun hk => ?_⟩
  obtain ⟨p, hp, h3, h4⟩ := hin
  have hal := hinv.page p hp
  have hown := h.mach.heapOwn p hp
  rw [show p / 4096 = x / 4096 by omega] at hown
  have hboot := h.mach.boot (x / 4096) (by omega) (by rw [bootOwner_kernel hk]; decide)
  rw [hown, bootOwner_kernel hk] at hboot
  cases hboot

/-- A write inside a page that is not the kernel's. -/
theorem guardWrite_eq (h0 : 4096 ≤ a) (hn : a + n ≤ 0x200000)
    (hpage : (a + n - 1) / 4096 = a / 4096) (hk : ¬ E.KernelPage (a / 4096)) :
    guardWrite E a n s = (.ok (), s) := by
  unfold guardWrite
  rw [failIf_bind (by omega)]
  refine failIf_of_not ?_
  rintro ⟨hpos, hlow | hstack⟩
  · exact hk (.inl ⟨by omega, hlow.2⟩)
  · exact hk (.inr (by omega))

-- ==== the descriptor

/-- The entry at the head of the list. -/
theorem KInv.head (h : KInv E G O role used s) (h0 : s.cur.fdList ≠ 0) :
    ∃ b ∈ used, s.cur.fdList = b.h + 16 ∧ 24 ≤ b.size ∧ b.h % 16 = 0 := by
  have hcur := h.numbered.current
  obtain ⟨b, hb, ha, hsize, -⟩ := (h.fd s.current (by omega) hcur.2).resolve_left h0
  obtain ⟨free, hinv⟩ := h.mach.heap
  exact ⟨b, hb, ha, hsize, (hinv.align b (List.mem_append_right _ hb)).1⟩

theorem KInv.fdlistSearchEntry : ∀ {fuel : Nat} {s s' : KState},
    KInv E G O role used s → fdlistSearchEntry fd fuel s = (.ok a, s') →
    KInv E G O role used s' ∧ s'.cur.fdList = a ∧ SameRole s.cur s'.cur := by
  intro fuel
  induction fuel with
  | zero =>
    intro s s' h hrun
    cases hrun
  | succ fuel ih =>
    intro s s' h hrun
    rw [Kernel.fdlistSearchEntry, get_bind] at hrun
    by_cases h0 : s.cur.fdList = 0
    · rw [if_pos h0] at hrun
      cases hrun
      exact ⟨h, h0, SameRole.refl _⟩
    rw [if_neg h0] at hrun
    obtain ⟨-, h2⟩ := failIf_bind_ok hrun
    by_cases hfd : load s.mem s.cur.fdList 4 = fd
    · rw [if_pos hfd] at h2
      cases h2
      exact ⟨h, rfl, SameRole.refl _⟩
    · rw [if_neg hfd] at h2
      obtain ⟨_, s2, h3, h4⟩ := bind_ok.mp h2
      obtain ⟨hk, ha, hrole⟩ := ih (h.fdAdvance h0 h3) h4
      exact ⟨hk, ha, ((Serves.service (E := plainKEnv)).fdAdvance.of_run h3).role.trans hrole⟩

section

variable (h : KInv E G O role used s)

include h

/-- The descriptor at the head is found. -/
theorem KInv.search_head (hd : Descriptor s fd inode) :
    Kernel.fdlistSearchEntry fd (fuel + 1) s = (.ok s.cur.fdList, s) := by
  obtain ⟨b, hb, ha, hsize, -⟩ := h.head hd.some
  have hlast := h.used_byte hb (x := b.h + 39) (Blk.has_iff.mpr (by omega))
  rw [Kernel.fdlistSearchEntry, get_bind, if_neg hd.some, guardRead,
    failIf_bind (by omega), if_pos hd.fd]
  rfl

/-- The offset in the entry is not part of the list. -/
theorem KInv.store_offset (h0 : s.cur.fdList ≠ 0) (v : Nat) :
    KInv E G O role used { s with mem := store s.mem (s.cur.fdList + 8) 4 v } := by
  obtain ⟨b, hb, ha, hsize, -⟩ := h.head h0
  obtain ⟨free, hinv⟩ := h.mach.heap
  classical
  have hp := List.perm_cons_erase hb
  refine ((h.perm hp).write_block (fun x hx => ?_) fun i hi0 hi16 => ?_).1.perm hp.symm
  · by_contra hout
    exact hx (store_of_not_mem (by omega))
  · refine (h.fd i hi0 hi16).imp_right fun ⟨c, hc, hac, hcs, hz⟩ =>
      ⟨c, hp.mem_iff.mp hc, hac, hcs, ?_⟩
    rw [← hz]
    refine load_congr fun x h1 h2 => store_of_not_mem fun hin => ?_
    -- a byte of both blocks would make them one
    have heq : b = c := hinv.tiles.eq_of_inside (List.mem_append_right _ hb)
      (List.mem_append_right _ hc) (a := x) (Blk.has_iff.mpr (by omega))
      (Blk.has_iff.mpr (by omega))
    subst heq
    omega

/-- `advance` writes the offset. -/
theorem KInv.advance_eq (h0 : s.cur.fdList ≠ 0) :
    ∃ v, advance E s.cur.fdList n r s
      = setRax (reg64 r) { s with mem := store s.mem (s.cur.fdList + 8) 4 v } := by
  obtain ⟨b, hb, ha, hsize, halign⟩ := h.head h0
  obtain ⟨h1, h2, hk⟩ := h.used_byte hb (x := s.cur.fdList + 8) (Blk.has_iff.mpr (by omega))
  unfold advance
  rw [bind_of_ok (guardWrite_eq h1 (by omega) (by omega) hk)]
  exact ⟨_, rfl⟩

-- ==== the buffer

/-- The file system changed bytes of the process. -/
theorem KInv.fsCallBuf {x : FsM α} {r : Except Int α}
    (hbuf : ∀ d, (x { disk := s.disk, io := s.io, rng := s.draws
                      buf := fun i => s.mem (pa + i) }).2.buf d ≠ s.mem (pa + d) →
      UserByte role s s.current (pa + d))
    (hrun : fsCallBuf E pa x s = (.ok r, s')) : KInv E G O role used s' := by
  unfold Kernel.fsCallBuf at hrun
  rcases hx : x { disk := s.disk, io := s.io, rng := s.draws
                  buf := fun i => s.mem (pa + i) } with ⟨res, w⟩
  rw [hx] at hrun hbuf
  have hkeep : KInv E G O role used { s with
      disk := w.disk, io := w.io, draws := w.rng
      mem := fun a => if pa ≤ a then w.buf (a - pa) else s.mem a } := by
    have hmem : KInv E G O role used
        { s with mem := fun a => if pa ≤ a then w.buf (a - pa) else s.mem a } :=
      h.write_user h.numbered.current.1 fun a ha => ?_
    · exact hmem.of_same ⟨rfl, rfl, rfl, rfl, rfl⟩ rfl rfl
    · by_cases hpa : pa ≤ a
      · rw [if_pos hpa] at ha
        have hsub : pa + (a - pa) = a := Nat.add_sub_cancel' hpa
        have := hbuf (a - pa)
        rw [hsub] at this
        exact this ha
      · rw [if_neg hpa] at ha
        exact absurd rfl ha
  dsimp only at hrun
  cases hstop : w.trace.reverse.findSome? (accessStop E pa) with
  | some e =>
    rw [hstop] at hrun
    cases hrun
  | none =>
    rw [hstop] at hrun
    rcases res with e | a
    · cases e with
      | err c =>
        cases hrun
        exact hkeep
      | panic => cases hrun
      | hang => cases hrun
      | wild => cases hrun
    · cases hrun
      exact hkeep

end

-- ==== write

/-- What the file system sees of the state with the buffer at `pa`. -/
def KState.worldAt (s : KState) (pa : Nat) : FsWorld :=
  { disk := s.disk, io := s.io, rng := s.draws, buf := fun i => s.mem (pa + i) }

/-- `sys_write` through the descriptor at the head of the list. -/
theorem KInv.write_eq (h : KInv E G O role used s)
    (hd : Descriptor s fd inode) (hfuel : 0 < E.fuel) (hfd : u32 s.cur.registers.rdi = fd)
    (hpa : (virtualMemoryLookup s.mem s.cur.pagetable (u64 s.cur.registers.rsi)).pa = pa)
    (hfs : fsWrite E.fsEnv s.desc inode (u64 s.cur.registers.rdx) 0 (s.worldAt pa) = (.ok n, w))
    (hn : 0 ≤ i32 n) (htrace : w.trace.reverse.findSome? (accessStop E pa) = none)
    (hbuf : ∀ d, w.buf d ≠ s.mem (pa + d) → UserByte role s s.current (pa + d)) :
    ∃ s', sysWrite E s = (.ok (), s') ∧ s'.disk = w.disk ∧ KInv E G O role used s' := by
  obtain ⟨t, ht⟩ : ∃ t : KState, t = { s with
      disk := w.disk, io := w.io, draws := w.rng
      mem := fun a => if pa ≤ a then w.buf (a - pa) else s.mem a } := ⟨_, rfl⟩
  have hcall : Kernel.fsCallBuf E pa (fsWrite E.fsEnv s.desc inode (u64 s.cur.registers.rdx) 0) s
      = (.ok (.ok n), t) := by
    unfold KState.worldAt at hfs
    unfold Kernel.fsCallBuf
    rw [hfs]
    dsimp only
    rw [htrace, ht]
  have hbuf' : ∀ d, (fsWrite E.fsEnv s.desc inode (u64 s.cur.registers.rdx) 0
      (s.worldAt pa)).2.buf d ≠ s.mem (pa + d) → UserByte role s s.current (pa + d) := by
    rw [hfs]
    exact hbuf
  have hk := h.fsCallBuf hbuf' hcall
  have hlist : t.cur.fdList = s.cur.fdList := by
    rw [ht]
    rfl
  have h0 : t.cur.fdList ≠ 0 := hlist.symm ▸ hd.some
  obtain ⟨b, hb, ha, hsize, -⟩ := h.head hd.some
  have hlast := h.used_byte hb (x := b.h + 39) (Blk.has_iff.mpr (by omega))
  obtain ⟨fuel, hf⟩ : ∃ fuel, E.fuel = fuel + 1 := ⟨E.fuel - 1, by omega⟩
  obtain ⟨v, hadv⟩ := hk.advance_eq
    h0
  have hlook : lookupVa (u64 s.cur.registers.rsi) s = (.ok pa, s) := by
    rw [← hpa]
    rfl
  have hoff : sext 0 = 0 := rfl
  refine ⟨_, ?_, ?_, (hk.store_offset h0 v).rax (reg64 (u64 s.cur.registers.rdx))⟩
  · unfold sysWrite
    rw [get_bind, bind_of_ok hlook, hfd, hf,
      bind_of_ok (h.search_head hd), if_neg hd.some, guardRead,
      failIf_bind (by omega), get_bind, hd.inode, hd.offset, hoff, bind_of_ok hcall]
    dsimp only
    rw [if_neg (by omega), ← hlist, hadv]
    rfl
  · show t.disk = _
    rw [ht]

end RojocOS.Kernel
