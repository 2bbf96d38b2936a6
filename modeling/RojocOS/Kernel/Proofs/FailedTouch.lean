/-
A failed `sys_touch`.

The call is two file system operations, an inode allocated and a name
linked to it. Each changes nothing when it answers with an error code,
but nothing undoes the first when the second fails: the inode keeps the
reference it was given and no name leads to it. So a call that fails
leaves the disk exactly when it is the allocation that fails, and this is
decided by the disk and the path alone.
-/
import RojocOS.Fs.Proofs.Refusal
import RojocOS.Fs.Proofs.Remove
import RojocOS.Kernel.Proofs.FileCalls

namespace RojocOS.Kernel

open ByteMap Fs Prog

variable {E : KEnv} {α : Type} {c : Int} {i : Nat} {w : FsWorld}

-- ==== answers

/-- A file system call hands the operation's answer to the handler. -/
theorem fsCall_result (x : FsM α) (s : KState) :
    ∃ t, t.disk = (x s.world).2.disk
      ∧ fsCall x s = match (x s.world).1 with
        | .ok a => (.ok (.ok a), t)
        | .error (.err c) => (.ok (.error c), t)
        | .error e => (.error e, t) := by
  unfold fsCall KState.world
  rcases x { disk := s.disk, io := s.io, rng := s.draws, buf := zero } with ⟨r, w⟩
  refine ⟨{ s with disk := w.disk, io := w.io, draws := w.rng }, rfl, ?_⟩
  rcases r with (c | _ | _ | _) | a <;> rfl

/-- The handler answered with a negative value. -/
def Failed (s : KState) : Prop := 2 ^ 63 ≤ s.cur.registers.rax

instance (s : KState) : Decidable (Failed s) := inferInstanceAs (Decidable (_ ≤ _))

theorem negative_of_errorCode (h : ErrorCode c) : 2 ^ 63 ≤ reg64 c := by
  obtain ⟨h1, h2⟩ := h
  unfold reg64
  omega

-- ==== the handler

section Handler

variable {s s₁ : KState} {p : Path}

/-- `INT_SYS_TOUCH` when no inode is left. -/
theorem sysTouch_noInode (hd : s.desc = fsdesc) (hp : pathArg E s = (.ok p, s₁))
    (ha : fsAllocInode E.fsEnv fsdesc s.world = (.error (.err c), w)) :
    ∃ t, t.disk = w.disk ∧ sysTouch E s = setRax (reg64 c) t := by
  have hsame := (pathArg_ok hp).1
  obtain ⟨t, htd, hcall⟩ := fsCall_result (fsAllocInode E.fsEnv fsdesc) s₁
  rw [hsame.world, ha] at hcall htd
  refine ⟨t, htd, ?_⟩
  unfold sysTouch
  rw [bind_of_ok hp, get_bind, hsame.desc.trans hd, bind_of_ok hcall]

/-- `INT_SYS_TOUCH` with an inode: the answer is that of `fs_touch`. -/
theorem sysTouch_inode (hd : s.desc = fsdesc) (hp : pathArg E s = (.ok p, s₁))
    (ha : fsAllocInode E.fsEnv fsdesc s.world = (.ok i, w)) :
    ∃ t, t.disk = (fsTouch E.fsEnv fsdesc p (u32 i) w).2.disk
      ∧ sysTouch E s = match (fsTouch E.fsEnv fsdesc p (u32 i) w).1 with
        | .ok _ => setRax 0 t
        | .error (.err c) => setRax (reg64 c) t
        | .error e => (.error e, t) := by
  have hsame := (pathArg_ok hp).1
  obtain ⟨s2, ⟨a, h1, h2⟩ | ⟨c, h1, -⟩ | ⟨e, h1, -⟩⟩ :=
    fsCall_cases (fsAllocInode_sameBuf E.fsEnv fsdesc) s₁
  case inl =>
    rw [hsame.world, ha] at h1
    cases h1
    obtain ⟨t, htd, hcall⟩ := fsCall_result (fsTouch E.fsEnv fsdesc p (u32 i)) s2
    refine ⟨t, htd, ?_⟩
    unfold sysTouch
    rw [bind_of_ok hp, get_bind, hsame.desc.trans hd, bind_of_ok h2]
    dsimp only
    rcases hr : (fsTouch E.fsEnv fsdesc p (u32 i) s2.world).1 with (c | _ | _ | _) | u
    all_goals rw [hr] at hcall
    · rw [bind_of_ok hcall]
    · rw [bind_of_error hcall]
    · rw [bind_of_error hcall]
    · rw [bind_of_error hcall]
    · rw [bind_of_ok hcall]
  all_goals
    rw [hsame.world, ha] at h1
    cases h1

end Handler

-- ==== the theorem

/-- A failing call leaves the disk exactly if there was no inode to take,
or nothing to fail after taking one. -/
theorem failed_touch_iff (hE : E.fsEnv.Reliable) {s s₁ : KState} {p : Path}
    (hd : s.desc = fsdesc) (hp : pathArg E s = (.ok p, s₁)) :
    (∀ s', sysTouch E s = (.ok (), s') → Failed s' → s'.disk = s.disk)
      ↔ InodesUsed s.disk ∨ ¬ TouchRefused s.disk p := by
  rcases ha : fsAllocInode E.fsEnv fsdesc s.world with ⟨e | i, w⟩
  case error =>
    -- nothing was allocated, and nothing is done after that
    obtain ⟨rfl, hused, hw⟩ := fsAllocInode_error hE ha
    obtain ⟨t, htd, hrun⟩ := sysTouch_noInode hd hp ha
    refine ⟨fun _ => .inl hused, fun _ s' hs' _ => ?_⟩
    rw [hrun] at hs'
    cases hs'
    exact htd.trans hw
  obtain ⟨h1, h16, hfree, htaken, htree⟩ := fsAllocInode_ok hE ha
  obtain ⟨t, htd, hrun⟩ := sysTouch_inode hd hp ha
  have hnot : ¬ InodesUsed s.disk := fun h => h i h1 h16 hfree
  rcases fsTouch_outcome hE p (u32 i) w with ⟨hr, c, hc, hres⟩ | ⟨hr, hres⟩
  · -- the name is refused: the inode stays allocated
    rw [hres] at hrun
    have hsame : t.disk = w.disk := htd.trans (funext fun a =>
      fsTouch_errSpares (P := fun _ => True) p (u32 i) w c _ (Prod.ext hres rfl) a trivial)
    refine ⟨fun h => ?_, fun h => ?_⟩
    · have hneg : Failed (setRax (reg64 c) t).2 := by
        unfold Failed
        rw [setRax_rax]
        exact negative_of_errorCode hc
      have heq : w.disk = s.disk := hsame.symm.trans (h (setRax (reg64 c) t).2 hrun hneg)
      rw [heq] at htaken
      cases htaken.symm.trans hfree
    · exact absurd (hr.tree fun a ha => (htree a (by omega)).symm) (h.resolve_left hnot)
  · refine ⟨fun _ => .inr fun h => hr (h.tree fun a ha => htree a (by omega)),
      fun _ s' hs' hneg => ?_⟩
    -- the call succeeds, or does not return
    rcases hx : (fsTouch E.fsEnv fsdesc p (u32 i) w).1 with (c | _ | _ | _) | u
    · exact absurd hx (hres c)
    all_goals rw [hx] at hrun
    · cases hrun.symm.trans hs'
    · cases hrun.symm.trans hs'
    · cases hrun.symm.trans hs'
    · have hs'' : (setRax 0 t).2 = s' := congrArg Prod.snd (hrun.symm.trans hs')
      unfold Failed at hneg
      rw [← hs'', setRax_rax] at hneg
      cases hneg

/-- A process in `/` that passes the string `/a`, which its page table
has at address 0. -/
def touchingA (disk : ByteMap) : KState :=
  { Kernel.blank with
    mem := store (store (store (store (store zero 0x1000 8 0x2007) 0x2000 8 0x3007)
      0x3000 8 0x4007) 0x4000 8 0x5007) 0x5000 8 (47 + 97 * 256)
    pageno := 6
    processes := fun i => { Proc.zero i with pagetable := 0x1000, cwd := [slash] }
    desc := fsdesc
    disk := disk }

/-- The calls that made the name, and used up the inodes. -/
def fullOps : List FsOp := .touch [slash, 97] 0 :: List.replicate 15 .allocInode

/-- With no inode left the failing call changes nothing. -/
theorem failed_touch_full :
    let s := touchingA (runAll plainEnv (start plainEnv) fullOps).disk
    (sysTouch plainKEnv s).1.toOption = some () ∧ Failed (sysTouch plainKEnv s).2
      ∧ (sysTouch plainKEnv s).2.disk = s.disk := by
  intro s
  have hok : (sysTouch plainKEnv s).1.toOption = some () := by decide +kernel
  have hneg : Failed (sysTouch plainKEnv s).2 := by decide +kernel
  have hused : InodesUsed s.disk := by
    have h : ∀ i < 16, 1 ≤ i → Entry.ref (entryAt s.disk i) ≠ 0 := by decide +kernel
    exact fun i h1 h16 => h i h16 h1
  have hp := eq_of_toOption
    (by decide +kernel : (pathArg plainKEnv s).1.toOption = some [slash, 97])
  exact ⟨hok, hneg, (failed_touch_iff (fun _ _ _ => rfl) rfl hp).mpr (.inl hused) _
    (eq_of_toOption hok) hneg⟩

/-- `/a` is a directory. A `sys_touch` of it fails and takes an inode,
and fifteen of them leave none. -/
theorem failed_touch_takes_inode :
    let w := runAll plainEnv (start plainEnv) [.touch [slash, 97] 0]
    let s := touchingA w.disk
    FsRun plainEnv (fun _ _ => True) (start plainEnv) w
      ∧ (sysTouch plainKEnv s).1.toOption = some () ∧ Failed (sysTouch plainKEnv s).2
      ∧ Entry.ref (entryAt s.disk 1) = 0
      ∧ Entry.ref (entryAt (sysTouch plainKEnv s).2.disk 1) = 1
      ∧ InodesUsed ((fun t => (sysTouch plainKEnv t).2)^[15] s).disk := by
  intro w s
  refine ⟨runAll_run plainEnv _ _ ⟨trivial, by decide +kernel, trivial⟩, by decide +kernel,
    by decide +kernel, by decide +kernel, by decide +kernel, ?_⟩
  have h : ∀ i < 16, 1 ≤ i →
      Entry.ref (entryAt ((fun t => (sysTouch plainKEnv t).2)^[15] s).disk i) ≠ 0 := by
    decide +kernel
  exact fun i h1 h16 => h i h16 h1

end RojocOS.Kernel
