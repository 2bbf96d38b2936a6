/-
The disk failures that the kernel's callers learn of.

`INT_SYS_LISTDIR` reads the directory once to count its entries and once
more for every name. A name that cannot be read ends the list, and the
error code put in `%rax` there is replaced by 0 a few lines further down.
So the listing of a directory that has an entry can succeed although the
disk failed, and no other can.
-/
import RojocOS.Fs.Proofs.Faults
import RojocOS.Kernel.Proofs.FailedTouch

namespace RojocOS.Kernel

open ByteMap Fs Prog

/-- The kernel on a disk with the failures of `f`. -/
def KEnv.failing (E : KEnv) (f : Pattern) : KEnv := { E with fs := E.fs.failing f }

variable {E : KEnv} {f : Pattern}

theorem mallocLoop_failing (alloc : KM Nat) (size fuel : Nat) :
    mallocLoop (E.failing f) alloc size fuel = mallocLoop E alloc size fuel := by
  induction fuel with
  | zero => rfl
  | succ fuel ih =>
    unfold mallocLoop
    rw [ih]
    rfl

/-- The disk is not read on the way to it. -/
theorem pathArg_failing (E : KEnv) (f : Pattern) : pathArg (E.failing f) = pathArg E := by
  unfold pathArg resolvePath kmalloc kernelMalloc
  simp only [mallocLoop_failing]
  rfl

theorem writeAt_failing (E : KEnv) (f : Pattern) : writeAt (E.failing f) = writeAt E := rfl

-- ==== the handler

/-- The address the listing goes to. -/
def listBuffer (s : KState) : Nat :=
  (virtualMemoryLookup s.mem s.cur.pagetable (u64 s.cur.registers.rsi)).pa

/-- `INT_SYS_LISTDIR` after `fs_readdir_init`. -/
def listRest (E : KEnv) (buffer : Nat) : Except Int (Nat × Int) → KM Unit
  | .error c => setRax (reg64 c)
  | .ok (nodeIndex, count) =>
      if count < 0 then setRax (reg64 count)
      else do
        let names ← listNames E nodeIndex count.toNat 0
        writeAt E buffer (strBytes names) (names.length + 1)
        setRax 0

/-- The handler lists a directory with an entry, and can write to its
buffer. -/
def ListdirLoops (E : KEnv) (s : KState) : Prop :=
  ∃ path s₁ u, pathArg E s = (.ok path, s₁) ∧ path.head? = some slash
    ∧ lookup s.disk 0 (pathParts path) = .ok u
    ∧ 0 < Node.childrenCount (nodeAt s.disk u)
    ∧ guardWrite E (listBuffer s₁) 1 s₁ = (.ok (), s₁)

section Handler

variable {s s₁ s' : KState} {path : Path}

theorem sysListdir_eq (hp : pathArg E s = (.ok path, s₁)) :
    sysListdir (E.failing f) s
      = (fsCall (fsReaddirInit (E.fsEnv.failing f) s₁.desc path)
          >>= listRest (E.failing f) (listBuffer s₁)) s₁ := by
  unfold sysListdir
  rw [pathArg_failing, bind_of_ok hp, get_bind]
  refine (bind_of_ok rfl).trans ?_
  refine congrFun (congrArg (fsCall _ >>= ·) (funext fun r => ?_)) s₁
  rcases r with c | ⟨u, count⟩ <;> rfl

/-- What can be written at all can be written one byte of. -/
theorem guardWrite_one {a n : Nat} {t t' r : KState}
    (h : guardWrite E a (n + 1) t = (.ok (), t')) : guardWrite E a 1 r = (.ok (), r) := by
  obtain ⟨_, t1, h1, h2⟩ := bind_ok.mp h
  have h1 := (failIf_ok h1).1
  have h2 := (failIf_ok h2).1
  unfold guardWrite
  rw [failIf_bind (by omega), failIf_of_not (by omega)]

/-- The listing of an empty directory looks at every access. -/
theorem listdir_reported (hd : s.desc = fsdesc) (hno : ¬ ListdirLoops E s)
    (h : sysListdir (E.failing f) s = (.ok (), s')) (hrax : s'.cur.registers.rax = 0) :
    Succeeded f s.io s'.io := by
  obtain ⟨path, s₁, hp⟩ : ∃ path s₁, pathArg E s = (.ok path, s₁) := by
    obtain ⟨path, s₁, hp, -⟩ := bind_ok.mp h
    exact ⟨path, s₁, by rw [← pathArg_failing E f]; exact hp⟩
  have hsame := (pathArg_ok hp).1
  rw [sysListdir_eq hp, hsame.desc.trans hd] at h
  obtain ⟨r, s2, hcall, hrest⟩ := bind_ok.mp h
  obtain ⟨w, rfl, ⟨⟨u, count⟩, rfl, hinit⟩ | ⟨c, rfl, hinit⟩⟩ := fsCall_back hcall
  case inr =>
    -- an error code is not the 0 of success
    have hc := fsReaddirInit_code _ hinit
    rw [(setRax_ok hrest).1] at hrax
    exact absurd hrax (reg64_ne_zero hc.2 (by have := hc.1; omega))
  have hgood := (fsReaddirInit_audited E.fsEnv fsdesc path).checked f _ _ _ hinit
  have hinit := (fsReaddirInit_audited E.fsEnv fsdesc path).allWell hinit
  obtain ⟨⟨u', nd⟩, w1, hsearch, hpure⟩ := bind_ok.mp hinit
  obtain ⟨hhd, hl, rfl, n, rfl⟩ := searchNode_ok (reliable_allWell _) hsearch
  cases hpure
  rw [hsame.world] at hl hgood hrest
  rw [show s.world.disk = s.disk from rfl, listRest] at hrest
  by_cases hneg : Node.childrenCount (nodeAt s.disk u) < 0
  · rw [if_pos hneg] at hrest
    rw [(setRax_ok hrest).1] at hrax
    refine absurd hrax (reg64_ne_zero hneg ?_)
    unfold Node.childrenCount
    split <;> omega
  rw [if_neg hneg] at hrest
  obtain ⟨names, s3, hnames, hrest⟩ := bind_ok.mp hrest
  obtain ⟨_, s4, hwrite, hset⟩ := bind_ok.mp hrest
  rw [writeAt_failing] at hwrite
  obtain ⟨hguard, rfl⟩ := writeAt_state hwrite
  have hzero : Node.childrenCount (nodeAt s.disk u) = 0 := by
    by_contra hne
    exact hno ⟨path, s₁, u, hp, hhd, hl, by omega, guardWrite_one hguard⟩
  rw [hzero] at hnames
  cases hnames
  rw [(setRax_ok hset).2]
  exact hgood

/-- The first name cannot be read, and the call succeeds. -/
theorem listdir_unreported (hd : s.desc = fsdesc) (h : ListdirLoops E s) :
    ∃ f s', sysListdir (E.failing f) s = (.ok (), s') ∧ s'.cur.registers.rax = 0
      ∧ ¬ Succeeded f s.io s'.io := by
  obtain ⟨path, s₁, u, hp, hhd, hl, hcount, hguard⟩ := h
  have hsame := (pathArg_ok hp).1
  obtain ⟨n, hsearch⟩ := searchNode_lookup (reliable_allWell E.fsEnv) hhd s.world
  rw [show lookup s.world.disk 0 (pathParts path) = .ok u from hl] at hsearch
  have hinit : fsReaddirInit (E.fsEnv.failing allWell) fsdesc path s.world
      = (.ok (u, Node.childrenCount (nodeAt s.disk u)), { s.world with io := n }) :=
    (bind_of_ok hsearch).trans rfl
  have hsn : s.io ≤ n := by
    have := (fsReaddirInit_audited E.fsEnv fsdesc path).mono allWell s.world
    rwa [hinit] at this
  have hinit' := (fsReaddirInit_audited E.fsEnv fsdesc path).toLocal.failAt hinit (Nat.le_refl n)
  rw [← hsame.world] at hinit'
  have hcall := fsCall_of_ok hinit'
  generalize hs2 : s₁.afterFs { s₁.world with io := n } = s2 at hcall
  have hio2 : s2.io = n := by rw [← hs2]; rfl
  have hnext : listNames (E.failing (failAt n)) u (Node.childrenCount (nodeAt s.disk u)).toNat 0 s2
      = (.ok [], s2.afterFs { s2.world with io := n + 1 }) := by
    obtain ⟨k, hk⟩ : ∃ k, (Node.childrenCount (nodeAt s.disk u)).toNat = k + 1 :=
      ⟨(Node.childrenCount (nodeAt s.disk u)).toNat - 1, by omega⟩
    rw [hk, listNames, get_bind]
    have hread := fsdr_failAt E.fsEnv (s2.desc.treeOffset + u * 1160) 1160 s2.world
    rw [show s2.world.io = n from hio2] at hread
    have hfail : fsReaddirNext (E.fsEnv.failing (failAt n)) s2.desc u 0 s2.world
        = (.error (.err (-eio)), { s2.world with io := n + 1 }) := bind_of_error hread
    exact (bind_of_ok (fsCall_of_err hfail)).trans rfl
  generalize hs3 : s2.afterFs { s2.world with io := n + 1 } = s3 at hnext
  have hwrite : writeAt (E.failing (failAt n)) (listBuffer s₁) (strBytes []) 1 s3
      = (.ok (), { s3 with mem := copy s3.mem (listBuffer s₁) (strBytes []) 0 1 }) := by
    rw [writeAt_failing]
    exact bind_of_ok (guardWrite_one hguard)
  generalize hs4 : ({ s3 with mem := copy s3.mem (listBuffer s₁) (strBytes []) 0 1 } : KState)
    = s4 at hwrite
  have hio4 : s4.io = n + 1 := by rw [← hs4, ← hs3]; rfl
  refine ⟨failAt n, (setRax 0 s4).2, ?_, setRax_rax 0 s4, not_succeeded_failAt hsn ?_⟩
  · rw [sysListdir_eq hp, hsame.desc.trans hd, bind_of_ok hcall, listRest,
      if_neg (Int.not_lt.mpr (Int.le_of_lt hcount)), bind_of_ok hnext]
    exact (bind_of_ok hwrite).trans rfl
  · show n < s4.io
    rw [hio4]
    exact Nat.lt_succ_self n

end Handler

-- ==== the theorem

/-- An operation of the file system, and the listing of a directory, that
report success have had no failing access, for every pattern, exactly if
they get to none of the places where a result is ignored. -/
theorem failures_reported_iff (E : KEnv) (w : FsWorld) (op : DiskOp) {s : KState}
    (hd : s.desc = fsdesc) :
    ((∀ f v w', op.call (E.fsEnv.failing f) fsdesc w = (.ok v, w') → Succeeded f w.io w'.io)
        ↔ ¬ Unreported E.fsEnv w.disk op)
      ∧ ((∀ f s', sysListdir (E.failing f) s = (.ok (), s') → s'.cur.registers.rax = 0 →
          Succeeded f s.io s'.io) ↔ ¬ ListdirLoops E s) := by
  refine ⟨⟨fun h hun => ?_, fun hno f v w' hrun => call_reported hno hrun⟩,
    ⟨fun h hun => ?_, fun hno f s' hrun hrax => listdir_reported hd hno hrun hrax⟩⟩
  · obtain ⟨f, v, w', hrun, hbad⟩ := call_unreported hun
    exact hbad (h f v w' hrun)
  · obtain ⟨f, s', hrun, hrax, hbad⟩ := listdir_unreported hd hun
    exact hbad (h f s' hrun hrax)

/-- The empty directory `/a`, and an inode. -/
theorem failures_reported_directory :
    let w := runAll plainEnv (start plainEnv) [.touch [slash, 97] 0]
    (∀ f v w', DiskOp.allocInode.call (plainKEnv.fsEnv.failing f) fsdesc w = (.ok v, w') →
        Succeeded f w.io w'.io)
      ∧ ∀ f s', sysListdir (plainKEnv.failing f) (touchingA w.disk) = (.ok (), s') →
          s'.cur.registers.rax = 0 → Succeeded f (touchingA w.disk).io s'.io := by
  intro w
  obtain ⟨hop, hlist⟩ := failures_reported_iff plainKEnv w .allocInode
    (s := touchingA w.disk) rfl
  refine ⟨hop.mpr id, hlist.mpr ?_⟩
  rintro ⟨path, s₁, u, hp, -, hl, hcount, -⟩
  have hp' := eq_of_toOption
    (by decide +kernel : (pathArg plainKEnv (touchingA w.disk)).1.toOption = some [slash, 97])
  cases hp.symm.trans hp'
  have hl' : (lookup (touchingA w.disk).disk 0 (pathParts [slash, 97])).toOption = some 1 := by
    decide +kernel
  rw [hl] at hl'
  cases hl'
  exact absurd hcount (by decide +kernel)

/-- The directory's block is not written. `fs_touch` returns 0, and there
is no file. -/
theorem touch_failure_unreported :
    let w := start plainEnv
    let r := (DiskOp.touch [slash, 97] 1).call (plainEnv.failing (failAt (w.io + 3))) fsdesc w
    r.1.toOption = some 0 ∧ ¬ Succeeded (failAt (w.io + 3)) w.io r.2.io
      ∧ (fsGetattr plainEnv fsdesc [slash, 97] r.2).1.toOption = none := by
  intro w r
  refine ⟨by decide +kernel, not_succeeded_failAt (Nat.le_add_right _ 3) ?_, by decide +kernel⟩
  show w.io + 3 < r.2.io
  decide +kernel

end RojocOS.Kernel
