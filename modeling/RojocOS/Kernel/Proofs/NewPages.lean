/-
Pages for a process that runs: `sys_page_alloc` and `sys_execv`.

Both take pages for the running process and write to its table
(`KInv.built`). `sys_page_alloc` maps a page wherever it is asked to, also
over the kernel: the process keeps the kernel's mappings exactly if the
address is not one of them (`KInv.pageAlloc`).
-/
import RojocOS.Kernel.Proofs.Entries
import RojocOS.Kernel.Proofs.Mapping
import RojocOS.Kernel.Proofs.PathCalls

namespace RojocOS.Kernel

open ByteMap Prog

variable {E : KEnv} {G O : Prop} {role role' : Roles} {used : List Blk} {s s' : KState}
  {e k : Nat} {o r : Int}
variable {pn root va : Nat}

-- ==== the own table

/-- A table entry for a page of the process, with all three flags. -/
def GivesOwn (role : Roles) (s : KState) (o : Int) (e : Nat) : Prop :=
  ∃ pn, pn < 512 ∧ e = pn * 4096 + 7 ∧ OwnPage role s o pn

theorem GivesOwn.entryOk (h : GivesOwn role s o e) : EntryOk role s o e := by
  obtain ⟨pn, hlt, rfl, hown⟩ := h
  refine .inr ⟨by omega, by omega, fun _ => .inr ?_⟩
  rwa [show (pn * 4096 + 7) / 4096 = pn by omega]

/-- Work for the running process that puts pages of its own into its
table, at addresses that are not the kernel's. -/
theorem KInv.built (h : KInv E G O role used s) (hlive : s.Live s.current)
    (hb : Built s.current k role s role' s') (hm : MInv E role' used s')
    (hroot : s.cur.pagetable = root * 4096)
    (hent : ∀ va, leafEntry s'.mem root va = leafEntry s.mem root va
      ∨ GivesOwn role' s' s.current (leafEntry s'.mem root va))
    (hker : G → ∀ v, E.KernelPage v →
      leafEntry s'.mem root (v * 4096) = leafEntry s.mem root (v * 4096)) :
    KInv E G O role' used s' := by
  have hcur := h.numbered.current
  have h0 : s.current ≠ 0 := by omega
  have hproc : ∀ i, s'.processes i = s.processes i := fun i => congrFun hb.processes i
  have hok := h.live _ hlive
  obtain ⟨root', hroot', hsp, hfit⟩ := hok.space
  obtain rfl : root' = root := by
    have : s.cur.pagetable = root' * 4096 := hroot'
    omega
  have hsp' : Space role' s' s.current root' := hsp.work h.mach hb.toWork fun va =>
    (hent va).imp_right GivesOwn.entryOk
  refine h.work hb.toWork hm hcur (hb.current.symm ▸ hcur)
    (fun i _ => hproc i ▸ ⟨SameRole.refl _, rfl⟩) ?_ ?_ (fun _ => ⟨⟨root', ?_, hsp', fun hG => ?_⟩,
      fun hw d hd => ?_⟩) ?_ ?_
  · rw [hproc]
    exact h.numbered.pids _ (by omega) hcur.2
  · rw [hproc]
    rcases hlive.2.2 with hst | hst <;> rw [hst] <;> exact fun hx => by cases hx
  · rw [hproc]
    exact hroot'
  · obtain ⟨-, hk, v, h1, h2, pn, he, hown⟩ := hfit hG
    refine ⟨hsp', fun v hv => (hker hG v hv).trans (hk v hv), v, h1, h2, ?_⟩
    rcases hent (v * 4096) with hsame | ⟨q, -, hq, hown'⟩
    · exact ⟨pn, hsame.trans he, hown.work hb.toWork h0⟩
    · exact ⟨q, hq, hown'⟩
  · rw [hproc] at hw ⊢
    exact (hok.wait hw d hd).imp_right fun hown => hown.work hb.toWork h0
  · rw [hproc]
    exact h.table _ (by omega) hcur.2
  · rw [hproc]
    exact h.fd _ (by omega) hcur.2

/-- A page for the running process. -/
structure Received (E : KEnv) (G O : Prop) (role : Roles) (used : List Blk) (s : KState) (pn : Nat)
    (s' : KState) : Prop where
  call : pageAlloc s.cur.pid s = (.ok (pn * 4096), s')
  pos : pn ≠ 0
  lt : pn < 512
  inv : KInv E G O role used s'
  built : Built s.current 1 role s role s'
  own : OwnPage role s' s.current pn
  free : (s.pageinfo pn).owner = 0
  clear : s'.mem = fill s.mem (pn * 4096) 4096 0

theorem KInv.received (h : KInv E G O role used s) (hlive : s.Live s.current) :
    (freeQueue s = [] ∧ pageAlloc s.cur.pid s = (.ok 0, s))
      ∨ ∃ pn s1, Received E G O role used s pn s1 := by
  have hpid := h.numbered.cur
  have h1 := hlive.1
  rcases h.mach.page_alloc (o := s.current) (by omega)
    with ⟨hnil, heq⟩ | ⟨pn, rest, s1, hq, hpos, hlt, hr, heq, hb, hm, hinfo, hmem, hframe⟩
  · exact .inl ⟨hnil, hpid.symm ▸ heq⟩
  obtain ⟨root, hroot, hsp, -⟩ := (h.live _ hlive).space
  have hsame : ∀ va, leafEntry s1.mem root va = leafEntry s.mem root va := fun va =>
    h.mach.leafEntry_frame hsp.isRoot hframe (fun hF => hF) va
  refine .inr ⟨pn, s1, hpid.symm ▸ heq, hpos, hlt, ?_, hb, ⟨by rw [hinfo], hr⟩, ?_, hmem⟩
  · exact h.built hlive hb hm hroot (fun va => .inl (hsame va)) fun _ v _ => hsame _
  · exact (mem_freeQueue.mp (hq ▸ List.mem_cons_self)).2

theorem Received.cur (h : Received E G O role used s pn s') : s'.cur = s.cur :=
  h.built.cur

theorem Received.live (h : Received E G O role used s pn s')
    (hlive : s.Live s.current) : s'.Live s'.current := by
  unfold KState.Live
  rw [h.built.current, h.built.processes]
  exact hlive

/-- What `virtual_memory_map` of one page, without an allocator, does to
the table of the running process: nothing where there is no table to write
to, and one entry otherwise. -/
structure Placed (E : KEnv) (role : Roles) (used : List Blk) (s : KState) (root va pn : Nat)
    (s' : KState) : Prop where
  built : Built s.current 0 role s role s'
  mach : MInv E role used s'
  entry : (s' = s ∧ (va / 2 ^ 21 % 2 ^ 32 = 2 ^ 32 - 1 ∨ leafTable s.mem root va = none))
    ∨ ∀ va', leafEntry s'.mem root va'
      = if vpn va' = vpn va then pn * 4096 + 7 else leafEntry s.mem root va'

section

variable (h : KInv E G O role used s) (hlive : s.Live s.current)
  (hroot : s.cur.pagetable = root * 4096) (hpn : pn < 512)

include h hlive hroot hpn

theorem KInv.placed (hva : va % 4096 = 0) (h64 : va < 2 ^ 64) :
    ∃ r s', virtualMemoryMap s.cur.pagetable va (pn * 4096) 4096 7 none s = (.ok r, s')
      ∧ Placed E role used s root va pn s' := by
  obtain ⟨root', hroot', hsp, -⟩ := (h.live _ hlive).space
  obtain rfl : root' = root := by
    have : s.cur.pagetable = root' * 4096 := hroot'
    omega
  obtain ⟨r, s', heq, hb, hm, -, hcase⟩ := h.mach.map_none hlive.1 hsp.isRoot hva h64
    (Nat.mul_mod_left pn 4096) (by omega) (show 7 < 4096 by decide) (by decide)
  rw [← hroot] at heq
  refine ⟨r, s', heq, hb, hm, ?_⟩
  exact hcase.imp (fun hno => hno.2) fun hdone => hdone.2

theorem KInv.placed_of_run (h64 : va < 2 ^ 64)
    (hrun : virtualMemoryMap s.cur.pagetable va (pn * 4096) 4096 7 none s = (.ok r, s')) :
    Placed E role used s root va pn s' := by
  obtain ⟨hva, -⟩ := virtualMemoryMap_ok (by decide) hrun
  obtain ⟨r', s1, heq, hp⟩ := h.placed hlive hroot hpn hva h64
  rw [heq] at hrun
  cases hrun
  exact hp

end

/-- A page of its own is mapped where the running process wants it. -/
theorem Placed.inv (hp : Placed E role used s root va pn s')
    (h : KInv E G O role used s) (hlive : s.Live s.current)
    (hroot : s.cur.pagetable = root * 4096) (hown : OwnPage role s s.current pn) (hpn : pn < 512)
    (hk : G → ¬ E.KernelPage (vpn va)) : KInv E G O role used s' := by
  have hent : ∀ va', leafEntry s'.mem root va' = leafEntry s.mem root va'
      ∨ (vpn va' = vpn va ∧ leafEntry s'.mem root va' = pn * 4096 + 7) := by
    intro va'
    rcases hp.entry with ⟨rfl, -⟩ | hent
    · exact .inl rfl
    · rw [hent va']
      by_cases hv : vpn va' = vpn va
      · exact .inr ⟨hv, if_pos hv⟩
      · exact .inl (if_neg hv)
  have h0 : s.current ≠ 0 := by
    have := hlive.1
    omega
  refine h.built hlive hp.built hp.mach hroot (fun va' => ?_) fun hG v hv => ?_
  · exact (hent va').imp_right fun ⟨_, he⟩ => ⟨pn, hpn, he, hown.work hp.built.toWork h0⟩
  · have hlt := E.kernelPage_lt hv
    refine (hent (v * 4096)).resolve_right fun ⟨hvpn, _⟩ => hk hG ?_
    rw [vpn_page (by omega)] at hvpn
    exact hvpn ▸ hv

-- ==== page_alloc

/-- `sys_page_alloc` finds no page, or maps one. -/
theorem KInv.pageAlloc_cases (h : KInv E G O role used s)
    (hlive : s.Live s.current) (hroot : s.cur.pagetable = root * 4096)
    (hrun : sysPageAlloc s = (.ok (), s')) :
    (freeQueue s = [] ∧ s' = (setRax (reg64 (-1)) s).2)
      ∨ ∃ pn s1 s2, Received E G O role used s pn s1
        ∧ Placed E role used s1 root (u64 s.cur.registers.rdi) pn s2
        ∧ s' = (setRax (u64 s.cur.registers.rdi) s2).2 := by
  have h2 := bind_step hrun rfl
  rcases h.received hlive with ⟨hnil, heq⟩ | ⟨pn, s1, ht⟩
  · rw [bind_of_ok heq, if_pos rfl] at h2
    cases h2
    exact .inl ⟨hnil, rfl⟩
  · have hpos := ht.pos
    rw [bind_of_ok ht.call, if_neg (by omega)] at h2
    obtain ⟨r, s2, h3, h4⟩ := bind_ok.mp h2
    cases h4
    have hpt : s1.cur.pagetable = s.cur.pagetable := congrArg Proc.pagetable ht.cur
    rw [← hpt] at h3
    exact .inr ⟨pn, s1, s2, ht, ht.inv.placed_of_run (ht.live hlive) (hpt.trans hroot) ht.lt
      (Nat.mod_lt _ (by decide)) h3, rfl⟩

/-- `sys_page_alloc` keeps the invariant, and the kernel's mappings if it
is not asked for one of their pages. -/
theorem KInv.pageAlloc (h : KInv E G O role used s) (hlive : s.Live s.current)
    (hk : G → ¬ E.KernelPage (vpn (u64 s.cur.registers.rdi)))
    (hrun : sysPageAlloc s = (.ok (), s')) : KInv E G O role used s' := by
  obtain ⟨root, hroot, -, -⟩ := (h.live _ hlive).space
  rcases h.pageAlloc_cases hlive hroot hrun with ⟨-, rfl⟩ | ⟨pn, s1, s2, ht, hp, rfl⟩
  · exact h.rax _
  · have hown : OwnPage role s1 s1.current pn := ht.built.current.symm ▸ ht.own
    exact (hp.inv ht.inv (ht.live hlive) (ht.cur ▸ hroot) hown ht.lt hk).rax _

end RojocOS.Kernel
