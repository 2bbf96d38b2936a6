/-
The pages of the kernel.

A page changes its account when `page_alloc` takes it or when a release
loop finds its owner. `page_alloc` looks for free pages only (`Takes`).
The release loops compare with a pid, and the owners of the kernel's pages
are numbers too: `-1`, `-2` and `-3`. `sys_exit` and `sys_execv` pass the
pid of a process, `sys_kill` passes what it is given.
-/
import RojocOS.Kernel.Proofs.Enter

namespace RojocOS.Kernel

open Prog

variable {E : KEnv} {s s' s'' : KState} {ev : Event} {o pid : Int} {p : Nat} {t : Trap}

/-- `PO_RESERVED`, `PO_KERNEL` or `PO_KERNEL_HEAP`. -/
def KernelOwner (o : Int) : Prop := o = PO_RESERVED ∨ o = PO_KERNEL ∨ o = PO_KERNEL_HEAP

instance (o : Int) : Decidable (KernelOwner o) := inferInstanceAs (Decidable (_ ∨ _))

/-- The accounts of the kernel's pages are as they were. -/
structure Reserves (s s' : KState) : Prop where
  pages : ∀ pn, KernelOwner (s.pageinfo pn).owner → s'.pageinfo pn = s.pageinfo pn
  heap : HeapOwned s → HeapOwned s'

theorem Takes.reserves (h : Takes s s') : Reserves s s' := by
  refine ⟨fun pn hk => h.pages pn fun h0 => ?_, h.heap⟩
  rw [h0] at hk
  revert hk
  decide

theorem Reserves.trans (h : Reserves s s') (h' : Reserves s' s'') : Reserves s s'' := by
  refine ⟨fun pn hk => ?_, fun hs => h'.heap (h.heap hs)⟩
  have h1 := h.pages pn hk
  exact (h'.pages pn (h1.symm ▸ hk)).trans h1

/-- A release loop for an owner that is not the kernel. -/
theorem Reserves.release (keep : Nat → Prop) [DecidablePred keep]
    (hpid : ¬ KernelOwner pid) (hh : s'.heapPages = s.heapPages)
    (hp : s'.pageinfo = fun pn =>
      if pn < 512 ∧ (s.pageinfo pn).owner = pid ∧ keep pn then ⟨PO_FREE, 0⟩
      else s.pageinfo pn) : Reserves s s' := by
  have hkeep : ∀ pn, KernelOwner (s.pageinfo pn).owner → s'.pageinfo pn = s.pageinfo pn := by
    intro pn hk
    have hne : ¬ (pn < 512 ∧ (s.pageinfo pn).owner = pid ∧ keep pn) :=
      fun hx => hpid (hx.2.1 ▸ hk)
    rw [hp]
    exact if_neg hne
  refine ⟨hkeep, fun hs p hmem => ?_⟩
  rw [hh] at hmem
  rw [hkeep _ (.inr (.inr (hs p hmem)))]
  exact hs p hmem

theorem processKill_spares (hpid : ¬ KernelOwner pid)
    (h : processKill E pid s = (.ok (), s')) : Reserves s s' := by
  obtain ⟨-, hh, hp⟩ := processKill_current h
  refine Reserves.release (fun _ => True) hpid hh ?_
  simp only [and_true]
  exact hp

/-- A handler spares them, `sys_kill` of an owner of theirs apart. -/
theorem Act.reserves (h : Act E t s s') (hs : Numbered s)
    (hkill : t = .kill → ¬ KernelOwner (i32 s.cur.registers.rdi)) : Reserves s s' := by
  have hself : ¬ KernelOwner s.cur.pid := by
    rw [hs.cur]
    have := hs.current
    rintro (h | h | h) <;> (rw [h] at this; revert this; decide)
  cases h with
  | serve h => exact h.reserves
  | fault => exact (Takes.updProc s _ _).reserves
  | forget hpid hlo hhi hparent hstate h =>
    exact ((Takes.updProc s _ _).trans h.toTakes).reserves
  | block hpid hlo hparent hstate h => exact (h.toTakes.trans (Takes.updProc _ _ _)).reserves
  | exit ht h hk => exact h.reserves.trans (processKill_spares hself hk)
  | kill h hk => exact h.reserves.trans (processKill_spares (hkill rfl) hk)
  | @fork _ s1 _ c pagetable hslot h h' =>
    have h0 : Takes s { s with current := (c : Int) } := Takes.of_same rfl rfl
    have h1 : Takes s1 { forkChild s.current c pagetable s1 with current := s.current } :=
      Takes.of_same rfl rfl
    exact (h0.trans (h.toTakes.trans (h1.trans h'.toTakes))).reserves
  | @exec _ s1 s2 s3 _ n keep h hrelease hsetup h' =>
    have hrel : Reserves s1 s2 := by
      rw [releasePages_ok hrelease]
      exact Reserves.release (fun pn => keep pn = false) hself rfl rfl
    exact h.reserves.trans (hrel.trans
      ((processSetup_ok hsetup).toTakes.reserves.trans h'.reserves))

-- ==== runs

/-- The step is not a `sys_kill` whose argument is an owner of the
kernel's pages. -/
def SparesKernel (_ : KState) : Event → Prop
  | .user _ => True
  | .trap regs => trapOf regs.intno = .kill → ¬ KernelOwner (i32 regs.rdi)

theorem Numbered.reserves (hs : Numbered s) (hC : SparesKernel s ev)
    (h : KStep E s ev s') : Reserves s s' := by
  cases h with
  | user h => exact ⟨fun _ _ => rfl, fun h => h⟩
  | trap h =>
    obtain ⟨s1, s2, hin, hact, hout⟩ := exception_act h
    obtain ⟨-, -, hp, hh, -⟩ := hout.rest.same
    have hend : Takes s2 s' := Takes.of_same hp hh
    refine hin.serves.reserves.trans (.trans (hact.reserves (hin.serves.numbered hs) ?_)
      hend.reserves)
    intro ht
    rw [hin.registers]
    exact hC ht

theorem Numbered.run_spares (hs : Numbered s) (h : KRun E SparesKernel s s') :
    Reserves s s' := by
  have hall : Numbered s' ∧ Reserves s s' := by
    induction h with
    | refl => exact ⟨hs, (Takes.refl s).reserves⟩
    | tail _ hlast ih =>
      obtain ⟨ev, hC, hev⟩ := hlast
      exact ⟨ih.1.step hev, ih.2.trans (ih.1.reserves hC hev)⟩
  exact hall.2

/-- `page_alloc` returns a page that was free. -/
theorem pageAlloc_free (h : pageAlloc o s = (.ok p, s')) (hp : p ≠ 0) :
    (s.pageinfo (p / 4096)).owner = PO_FREE := by
  have hloop : ∀ n s, pageAllocLoop o n s = (.ok p, s') →
      (s.pageinfo (p / 4096)).owner = PO_FREE := by
    intro n
    induction n with
    | zero =>
      intro s h
      cases h
      exact absurd rfl hp
    | succ n ih =>
      intro s h
      rw [pageAllocLoop, get_bind] at h
      by_cases hfree : (s.pageinfo s.pageno).owner = PO_FREE
      · rw [if_pos hfree] at h
        cases h
        rw [Nat.mul_div_cancel _ (by decide)]
        exact hfree
      · rw [if_neg hfree, bind_of_ok (modify_apply _ s)] at h
        exact ih { s with pageno := (s.pageno + 1) % 512 } h
  exact hloop 512 s h

/-- `sys_kill(-2)` by process 1, right after boot. -/
def killKernel : Registers := { intno := 65, rdi := 2 ^ 32 - 2 }

end RojocOS.Kernel
