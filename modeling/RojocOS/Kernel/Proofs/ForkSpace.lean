/-
What `sys_fork` leaves of the kernel's invariant.

A fork that returns has mapped the kernel for the child. The copy loop
does not look at the results of its mappings, but it asserts that it got
the pages for its copies: a mapping fails only when no page is left, the
kernel's pages come before the ones of the program, and every live process
has one of those. So the invariant goes through any fork that returns,
complete or not (`KInv.fork`), and one that has a free page for the child's
table and four for every page it maps does return (`KInv.fork_eq`).
-/
import RojocOS.Kernel.Proofs.Enter
import RojocOS.Kernel.Proofs.Fork

namespace RojocOS.Kernel

open ByteMap Prog

variable {E : KEnv} {role role' : Roles} {used : List Blk} {s s' : KState}
  {p c i : Int} {root₀ root k v e e' f n va' : Nat} {m : ByteMap}

-- ==== one turn

/-- `sys_fork` of `p` works on `root`, the table of its child `c`. -/
structure Forking (E : KEnv) (used : List Blk) (p c : Int) (root₀ root : Nat) (role : Roles)
    (s : KState) : Prop where
  inv : MInv E role used s
  parent : Space role s p root₀
  child : Space role s c root
  cur : s.cur.pid = c
  table : (s.processes p).pagetable = root₀ * 4096
  pid : (s.processes p).pid = p
  apart : p ≠ c
  pos : 1 ≤ c
  live : 1 ≤ p

/-- The child's entry for a page that the parent has as `e`: a page of the
parent is copied, any other is shared. -/
def CopyOf (role : Roles) (s : KState) (p c : Int) (e e' : Nat) : Prop :=
  if (s.pageinfo (e / 4096)).owner = p then
    ∃ pn, e' = pn * 4096 + e % 4096 ∧ OwnPage role s c pn
  else e' = e

section

variable (h : Forking E used p c root₀ root role s) (hb : Built c k role s role' s')

include h hb

theorem Forking.built (hinv : MInv E role' used s')
    (hent : ∀ va, leafEntry s'.mem root va = leafEntry s.mem root va
      ∨ EntryOk role' s' c (leafEntry s'.mem root va)) :
    Forking E used p c root₀ root role' s' := by
  refine ⟨hinv, h.parent.frame h.inv hb.toWork.frame h.apart, h.child.work h.inv hb.toWork hent,
    ?_, ?_, ?_, h.apart, h.pos, h.live⟩
  · rw [hb.cur]
    exact h.cur
  · rw [hb.processes]
    exact h.table
  · rw [hb.processes]
    exact h.pid

/-- The parent's entries stay. -/
theorem Forking.entry (va : Nat) : leafEntry s'.mem root₀ va = leafEntry s.mem root₀ va :=
  h.inv.leafEntry_frame h.parent.isRoot hb.toWork.frame h.apart va

/-- A page of the parent, or none. -/
theorem Forking.owner (pn : Nat) :
    (s'.pageinfo pn).owner = p ↔ (s.pageinfo pn).owner = p := by
  have hp : p ≠ 0 := (h.inv.own root₀ _ h.parent.isRoot).2
  rw [hb.pages]
  by_cases hin : pn ∈ (freeQueue s).take k
  · have hfree := (mem_freeQueue.mp (List.mem_of_mem_take hin)).2
    rw [if_pos hin, hfree]
    exact ⟨fun heq => absurd heq.symm h.apart, fun heq => absurd heq.symm hp⟩
  · rw [if_neg hin]

end

theorem CopyOf.built (hc : CopyOf role s p c e e')
    (h : Forking E used p c root₀ root role s) (hb : Built c k role s role' s') :
    CopyOf role' s' p c e e' := by
  have hpos := h.pos
  unfold CopyOf at *
  by_cases ho : (s.pageinfo (e / 4096)).owner = p
  · rw [if_pos ho] at hc
    rw [if_pos ((h.owner hb _).mpr ho)]
    obtain ⟨pn, he, hown⟩ := hc
    exact ⟨pn, he, hown.work hb.toWork (by omega)⟩
  · rw [if_neg ho] at hc
    rw [if_neg fun hx => ho ((h.owner hb _).mp hx)]
    exact hc

theorem page_of_entry (pn : Nat) (hf : f < 4096) : (pn * 4096 + f) / 4096 = pn := by
  omega

/-- Mapping one page in the child: it works, or there is no page for a
table. -/
theorem Forking.map (h : Forking E used p c root₀ root role s) (hv : v < 768)
    (pn perm : Nat) (hpn : pn < 512) (hperm : perm < 4096) (hodd : perm % 2 = 1)
    (huser : perm / 4 % 2 = 1 → pn = 0xB8 ∨ OwnPage role s c pn) :
    ∃ r s' role' k, virtualMemoryMap (root * 4096) (v * 4096) (pn * 4096) 4096 perm
          (some pagetableAlloc) s = (.ok r, s')
      ∧ Built c k role s role' s' ∧ k ≤ 3 ∧ Forking E used p c root₀ root role' s'
      ∧ (∀ va, vpn va ≠ v → leafEntry s'.mem root va = leafEntry s.mem root va)
      ∧ (leafEntry s'.mem root (v * 4096) = pn * 4096 + perm
        ∨ (freeQueue s' = [] ∧ leafTable s.mem root (v * 4096) = none)) := by
  have hpos := h.pos
  have hpage := page_of_entry pn hperm
  have hbit : (pn * 4096 + perm) / 4 % 2 = perm / 4 % 2 := by omega
  have hfirst : (pn * 4096 + perm) % 2 = 1 := by omega
  have hend : pn * 4096 + perm < 0x200000 := by omega
  have hi : pageindex (v * 4096) 3 + 1 ≤ 512 := pageindex_lt _ _
  have hdiv : v * 4096 / 4096 = v := Nat.mul_div_cancel _ (by decide)
  obtain ⟨r, role', s', k, hrun, hb, ⟨hinv, -, -⟩, hcase⟩ := (Tending.mapper hpos).map
    ⟨h.inv, h.cur, h.child.isRoot⟩ (v * 4096) (pn * 4096) 1 perm
    ⟨Nat.mul_mod_left _ _, by decide, hi, by omega, Nat.mul_mod_left _ _, by omega, hperm, hodd⟩
  have hmost := missing_le s.mem root (v * 4096)
  have hk : k ≤ 3 := by omega
  rcases hcase with ⟨-, hnil, -, hg, hless⟩ | ⟨-, hm, -⟩
  · refine ⟨r, s', role', k, hrun, hb, hk, h.built hb hinv fun va => .inl (hg.entry va),
      fun va _ => hg.entry va, .inr ⟨hnil, ?_⟩⟩
    by_contra hne
    rw [missing_eq_zero.mpr hne] at hless
    exact Nat.not_lt_zero k hless
  · have hother : ∀ va, vpn va ≠ v → leafEntry s'.mem root va = leafEntry s.mem root va := by
      intro va hne
      rw [hm.entry va, hdiv, if_neg (by omega)]
    have hhere : ∀ va, vpn va = v → leafEntry s'.mem root va = pn * 4096 + perm := by
      intro va heq
      rw [hm.entry va, hdiv, if_pos (by omega), heq]
      omega
    refine ⟨r, s', role', k, hrun, hb, hk, h.built hb hinv fun va => ?_, hother,
      .inl (hhere _ (vpn_page (by omega)))⟩
    by_cases heq : vpn va = v
    · rw [hhere va heq]
      refine .inr (.inr ⟨hfirst, hend, fun hU => ?_⟩)
      rw [hpage]
      rw [hbit] at hU
      exact (huser hU).imp_right fun hown => hown.work hb.toWork (by omega)
    · exact .inl (hother va heq)

/-- What turn `v` of the loop leaves: `k` pages are taken, and the page is
mapped in the child or there was no page for a table. -/
structure Turned (E : KEnv) (used : List Blk) (p c : Int) (root₀ root v k : Nat) (role : Roles)
    (s : KState) (role' : Roles) (s' : KState) : Prop where
  built : Built c k role s role' s'
  few : k ≤ if leafEntry s.mem root₀ (v * 4096) = 0 then 0 else 4
  forking : Forking E used p c root₀ root role' s'
  others : ∀ va, vpn va ≠ v → leafEntry s'.mem root va = leafEntry s.mem root va
  page : leafEntry s.mem root₀ (v * 4096) ≠ 0 →
    CopyOf role' s' p c (leafEntry s.mem root₀ (v * 4096)) (leafEntry s'.mem root (v * 4096))
      ∨ (freeQueue s' = [] ∧ leafTable s.mem root (v * 4096) = none)

section

variable (h : Forking E used p c root₀ root role s)

include h

/-- What the parent's table says of the page. -/
theorem Forking.lookup (he : leafEntry s.mem root₀ (v * 4096) = e) (h0 : e ≠ 0) :
    virtualMemoryLookup s.mem (s.processes p).pagetable (v * 4096)
        = ⟨(e / 4096 : Nat), e / 4096 * 4096, e % 4096⟩
      ∧ e % 2 = 1 ∧ e < 0x200000
      ∧ (e / 4 % 2 = 1 → e / 4096 = 0xB8 ∨ OwnPage role s p (e / 4096)) := by
  rcases h.parent.entry (v * 4096) with hz | ⟨hodd, hlt, hU⟩
  · exact absurd (he.symm.trans hz) h0
  · rw [he] at hodd hlt hU
    rw [h.table, h.inv.tables.lookup_some h.parent.isRoot (by rw [he]; exact hodd)
      (by rw [he]; exact hlt), he, Nat.mul_mod_left, Nat.add_zero]
    exact ⟨rfl, hodd, hlt, hU⟩

/-- A page that is not the parent's is shared. -/
theorem Forking.share (hv : v < 768)
    (he : leafEntry s.mem root₀ (v * 4096) = e) (h0 : e ≠ 0)
    (hown : (s.pageinfo (e / 4096)).owner ≠ p) :
    ∃ s' role' k, forkPage p c (root * 4096) (v * 4096) s = (.ok (), s')
      ∧ Turned E used p c root₀ root v k role s role' s' := by
  obtain ⟨hlook, hodd, hlt, hU⟩ := h.lookup he h0
  have hdiv : e / 4096 * 4096 + e % 4096 = e := Nat.div_add_mod' e 4096
  obtain ⟨r, s', role', k, hrun, hb, hk, hf, hothers, hcase⟩ := h.map hv (e / 4096)
    (e % 4096) (by omega) (by omega) (by omega) fun hx => by
      refine .inl ((hU (by omega)).resolve_right fun hp => hown hp.1)
  refine ⟨s', role', k, ?_, hb, ?_, hf, hothers, fun _ => ?_⟩
  · rw [forkPage_shared hlook (by rwa [h.pid]), bind_of_ok hrun]
    rfl
  · rw [he, if_neg h0]
    omega
  · rw [he]
    refine hcase.imp_left fun heq => ?_
    unfold CopyOf
    rw [if_neg fun hx => hown ((h.owner hb _).mp hx), heq, hdiv]

/-- A page of the parent is copied, if there is a page for the copy. -/
theorem Forking.copy (hv : v < 768)
    (he : leafEntry s.mem root₀ (v * 4096) = e) (h0 : e ≠ 0)
    (hown : (s.pageinfo (e / 4096)).owner = p) :
    (freeQueue s = [] ∧ ∀ u s', forkPage p c (root * 4096) (v * 4096) s ≠ (.ok u, s'))
      ∨ (freeQueue s ≠ [] ∧ ∃ s' role' k,
        forkPage p c (root * 4096) (v * 4096) s = (.ok (), s')
        ∧ Turned E used p c root₀ root v k role s role' s') := by
  have hpos := h.pos
  obtain ⟨hlook, hodd, hlt, -⟩ := h.lookup he h0
  rw [forkPage_owned hlook (by rwa [h.pid])]
  rcases h.inv.page_alloc (o := c) (by omega)
    with ⟨hnil, heq⟩ | ⟨pn, rest, s1, hq, hpn0, hpn, hrole, heq, hb1, hinv1, hinfo, -, hframe⟩
  · refine .inl ⟨hnil, fun u s' hrun => ?_⟩
    rw [bind_of_ok heq, bind_of_error (assert_of_not fun hx => hx rfl)] at hrun
    cases hrun
  · refine .inr ⟨by rw [hq]; exact List.cons_ne_nil _ _, ?_⟩
    have hown1 : OwnPage role s1 c pn := ⟨by rw [hinfo], hrole⟩
    -- the new page is nobody's table, so neither tree sees the copy
    have hwrite : ∀ x, ByteMap.copy s1.mem (pn * 4096) s1.mem (e / 4096 * 4096) 4096 x
        ≠ s1.mem x → (s1.pageinfo (x / 4096)).owner = c ∧ role (x / 4096) = none := by
      intro x hx
      have hin : pn * 4096 ≤ x ∧ x < pn * 4096 + 4096 := by
        by_contra hn
        exact hx (copy_of_not_mem hn)
      have hxp : x / 4096 = pn := by omega
      rw [hxp]
      exact hown1
    have h1 := h.built hb1 hinv1 fun va =>
      .inl (h.inv.leafEntry_frame h.child.isRoot hframe (fun hf => hf) va)
    obtain ⟨hb2, hinv2⟩ := hinv1.write hpos hwrite
    have hsame2 := fun va => (hinv1.tables.leafEntry_write h1.child.isRoot
      (fun x hx => (hwrite x hx).2) va)
    have h2 := h1.built hb2 hinv2 fun va => .inl (hsame2 va).1
    generalize hs2 : ({ s1 with
      mem := ByteMap.copy s1.mem (pn * 4096) s1.mem (e / 4096 * 4096) 4096 } : KState) = s₂
      at h2 hb2 hinv2
    have hmem2 : ∀ va, leafEntry s₂.mem root va = leafEntry s.mem root va
        ∧ leafTable s₂.mem root va = leafTable s.mem root va := by
      intro va
      rw [← hs2]
      exact ⟨(hsame2 va).1.trans (h.inv.leafEntry_frame h.child.isRoot hframe (fun hf => hf) va),
        (hsame2 va).2.trans (h.inv.leafTable_frame h.child.isRoot hframe (fun hf => hf) va)⟩
    obtain ⟨r, s', role', k, hrun, hb, hk, hf, hothers, hcase⟩ := h2.map hv pn (e % 4096) hpn
      (by omega) (by omega) fun _ =>
        .inr (hown1.work hb2.toWork (by omega))
    have hall := (hb1.trans hb2).trans hb
    refine ⟨s', role', 1 + 0 + k, ?_, hall, ?_, hf, fun va hva => ?_, fun _ => ?_⟩
    · have hread : guardRead (e / 4096 * 4096) 4096 s1 = (.ok (), s1) :=
        failIf_of_not (by omega)
      rw [bind_of_ok heq, assert_bind (by omega), bind_of_ok hread,
        bind_of_ok (x := Prog.modify _) rfl, hs2, bind_of_ok hrun]
      rfl
    · rw [he, if_neg h0]
      omega
    · rw [hothers va hva]
      exact (hmem2 va).1
    · rw [he]
      refine hcase.imp (fun heq' => ?_) fun ⟨hnil, hnone⟩ => ⟨hnil, ?_⟩
      · unfold CopyOf
        rw [if_pos ((h.owner hall _).mpr hown)]
        exact ⟨pn, heq', (hown1.work hb2.toWork (by omega)).work hb.toWork (by omega)⟩
      · exact (hmem2 _).2.symm.trans hnone

/-- One turn of the loop: it returns, or there is no page for a copy. -/
theorem Forking.turn (hv : v < 768) :
    (freeQueue s = [] ∧ leafEntry s.mem root₀ (v * 4096) ≠ 0
        ∧ ∀ u s', forkPage p c (root * 4096) (v * 4096) s ≠ (.ok u, s'))
      ∨ ∃ s' role' k, forkPage p c (root * 4096) (v * 4096) s = (.ok (), s')
          ∧ Turned E used p c root₀ root v k role s role' s'
          ∧ (leafEntry s.mem root₀ (v * 4096) ≠ 0 →
            (s.pageinfo (leafEntry s.mem root₀ (v * 4096) / 4096)).owner = p →
            freeQueue s ≠ []) := by
  generalize he : leafEntry s.mem root₀ (v * 4096) = e
  by_cases h0 : e = 0
  · have hz : leafEntry s.mem root₀ (v * 4096) % 2 ≠ 1 := by
      rw [he, h0]
      decide
    refine .inr ⟨s, role, 0, ?_, ⟨Built.refl, Nat.zero_le _, h, fun _ _ => rfl,
      fun hne => absurd (he.trans h0) hne⟩, fun hne => absurd h0 hne⟩
    unfold forkPage
    rw [get_bind, h.table, h.inv.tables.lookup_none h.parent.isRoot hz]
    rfl
  · by_cases hown : (s.pageinfo (e / 4096)).owner = p
    · rcases h.copy hv he h0 hown with ⟨hnil, hno⟩ | ⟨hne, s', role', k, hrun, hturn⟩
      · exact .inl ⟨hnil, h0, hno⟩
      · exact .inr ⟨s', role', k, hrun, hturn, fun _ _ => hne⟩
    · obtain ⟨s', role', k, hrun, hturn⟩ := h.share hv he h0 hown
      exact .inr ⟨s', role', k, hrun, hturn, fun _ hx => absurd hx hown⟩

/-- A turn that returned. -/
theorem Forking.turn_run (hv : v < 768)
    (hrun : forkPage p c (root * 4096) (v * 4096) s = (.ok (), s')) :
    ∃ role' k, Turned E used p c root₀ root v k role s role' s'
      ∧ (leafEntry s.mem root₀ (v * 4096) ≠ 0 →
        (s.pageinfo (leafEntry s.mem root₀ (v * 4096) / 4096)).owner = p →
        freeQueue s ≠ []) := by
  rcases h.turn hv with ⟨-, -, hno⟩ | ⟨s1, role', k, hrun', hturn⟩
  · exact absurd hrun (hno () s')
  · rw [hrun] at hrun'
    cases hrun'
    exact ⟨role', k, hturn⟩

end

-- ==== the loop

/-- The loop, taken apart. -/
theorem forkPages_add (n m v : Nat) : forkPages p c (root * 4096) (n + m) (v * 4096) = (do
    forkPages p c (root * 4096) n (v * 4096)
    forkPages p c (root * 4096) m ((v + n) * 4096)) := by
  induction n generalizing v with
  | zero =>
    rw [Nat.zero_add, forkPages, Prog.pure_bind, Nat.add_zero]
  | succ n ih =>
    have hnext : v * 4096 + 4096 = (v + 1) * 4096 := by omega
    have hend : v + 1 + n = v + (n + 1) := by omega
    rw [Nat.add_right_comm, forkPages, forkPages, Prog.bind_assoc, hnext]
    refine congrArg _ (funext fun _ => ?_)
    rw [ih, hend]

/-- What the turns `v .. v + n - 1` leave. -/
structure Looped (E : KEnv) (used : List Blk) (p c : Int) (root₀ root v n k : Nat) (role : Roles)
    (s : KState) (role' : Roles) (s' : KState) : Prop where
  built : Built c k role s role' s'
  forking : Forking E used p c root₀ root role' s'
  others : ∀ va, ¬ (v ≤ vpn va ∧ vpn va < v + n) →
    leafEntry s'.mem root va = leafEntry s.mem root va
  pages : ∀ w, v ≤ w → w < v + n → leafEntry s.mem root₀ (w * 4096) ≠ 0 →
    CopyOf role' s' p c (leafEntry s.mem root₀ (w * 4096)) (leafEntry s'.mem root (w * 4096))
      ∨ freeQueue s' = []

theorem Forking.loop : ∀ n {v s role}, Forking E used p c root₀ root role s → v + n ≤ 768 →
    forkPages p c (root * 4096) n (v * 4096) s = (.ok (), s') →
    ∃ role' k, Looped E used p c root₀ root v n k role s role' s' := by
  intro n
  induction n with
  | zero =>
    intro v s role h _ hrun
    cases hrun
    exact ⟨role, 0, Built.refl, h, fun _ _ => rfl, fun w h1 h2 => by omega⟩
  | succ n ih =>
    intro v s role h hle hrun
    obtain ⟨_, s1, hfirst, hrest⟩ := bind_ok.mp hrun
    have hnext : v * 4096 + 4096 = (v + 1) * 4096 := by omega
    rw [hnext] at hrest
    obtain ⟨role1, k1, hturn, -⟩ := h.turn_run (by omega) hfirst
    obtain ⟨role', k, hloop⟩ := ih hturn.forking (by omega) hrest
    refine ⟨role', k1 + k, hturn.built.trans hloop.built, hloop.forking, fun va hva => ?_,
      fun w h1 h2 he => ?_⟩
    · rw [hloop.others va (by omega)]
      exact hturn.others va (by omega)
    · by_cases hw : w = v
      · subst hw
        have hsame : leafEntry s'.mem root (w * 4096) = leafEntry s1.mem root (w * 4096) := by
          refine hloop.others _ ?_
          rw [vpn_page (by omega)]
          omega
        rw [hsame]
        rcases hturn.page he with hcopy | ⟨hnil, -⟩
        · exact .inl (hcopy.built hturn.forking hloop.built)
        · refine .inr ?_
          rw [hloop.built.queue, hnil, List.drop_nil]
      · have hpar := h.entry hturn.built (w * 4096)
        rw [← hpar] at he ⊢
        exact hloop.pages w (by omega) (by omega) he

/-- An entry that is not 0 is in a table. -/
theorem leafTable_of_entry (va : Nat) (h : leafEntry m root va' ≠ 0)
    (hr : region va = region va') : leafTable m root va ≠ none := by
  intro hnone
  rw [leafTable_of_region hr] at hnone
  unfold leafEntry at h
  rw [hnone] at h
  exact h rfl

/-- The kernel is mapped in the child as soon as it is in the parent, unless
there is no page left. -/
theorem Looped.kernel (h : Forking E used p c root₀ root role s)
    (hl : Looped E used p c root₀ root 0 n k role s role' s')
    (hk : KMap E.KernelPage s.mem root₀) (hn : 0xA0 ≤ n) (hne : freeQueue s' ≠ []) :
    KMap E.KernelPage s'.mem root := by
  intro v hv
  have hlt := E.kernelPage_lt hv
  have hcopy := hl.pages v (Nat.zero_le v) (by omega) (by rw [hk v hv]; omega)
  have hcopy := hcopy.resolve_right hne
  have hboot := hl.forking.inv.boot v (by omega) (by rw [bootOwner_kernel hv]; decide)
  rw [bootOwner_kernel hv] at hboot
  have hp := h.live
  unfold CopyOf at hcopy
  rw [hk v hv, page_of_entry v (by decide), hboot, if_neg (show ¬ (-2 : Int) = p by omega)]
    at hcopy
  exact hcopy

/-- The kernel and a page of the program are mapped in the child: there
were pages left when the program was copied. -/
theorem Forking.fitted (h : Forking E used p c root₀ root role s)
    (hfit : Fitted E role s p root₀)
    (hrun : forkPages p c (root * 4096) 768 (0 * 4096) s = (.ok (), s')) :
    ∃ role' k, Built c k role s role' s' ∧ Forking E used p c root₀ root role' s'
      ∧ Fitted E role' s' c root := by
  obtain ⟨t, ht1, ht2, pn, het, hown⟩ := hfit.text
  obtain ⟨r, hr⟩ : ∃ r, 768 = t + (1 + r) := ⟨768 - t - 1, by omega⟩
  rw [hr, forkPages_add, Nat.zero_add, forkPages_add] at hrun
  obtain ⟨_, s1, hrun1, hrest⟩ := bind_ok.mp hrun
  obtain ⟨_, s₂, hrun2, hrun3⟩ := bind_ok.mp hrest
  -- up to the text page
  obtain ⟨role1, k1, h1⟩ := h.loop t (by omega) hrun1
  have het1 : leafEntry s1.mem root₀ (t * 4096) = pn * 4096 + 7 :=
    (h.entry h1.built _).trans het
  have hpage := page_of_entry pn (show 7 < 4096 by decide)
  have hown1 : (s1.pageinfo pn).owner = p := (h.owner h1.built pn).mpr hown.1
  -- the text page
  obtain ⟨_, t2, hturn2, hdone⟩ := bind_ok.mp hrun2
  cases hdone
  obtain ⟨role2, k2, h2, hleft⟩ := h1.forking.turn_run (by omega) hturn2
  have hne1 : leafEntry s1.mem root₀ (t * 4096) ≠ 0 := by
    rw [het1]
    exact Nat.succ_ne_zero _
  have hqueue := hleft hne1 (by rw [het1, hpage]; exact hown1)
  have hk1 := h1.kernel h hfit.kernel (by omega) hqueue
  have hk2 : KMap E.KernelPage s₂.mem root := by
    intro v hv
    have hlt := E.kernelPage_lt hv
    rw [h2.others _ (by rw [vpn_page (by omega)]; omega)]
    exact hk1 v hv
  have htext2 : UserMap role2 s₂ c root t := by
    have hstack : leafEntry s1.mem root (0x9F * 4096) ≠ 0 := by
      rw [hk1 0x9F (.inr rfl)]
      decide
    have hthere := leafTable_of_entry (t * 4096) hstack
      ((region_low (by omega)).trans (region_low (by decide)).symm)
    have hcopy := (h2.page hne1).resolve_right fun hx => hthere hx.2
    unfold CopyOf at hcopy
    rw [het1, hpage, if_pos ((h1.forking.owner h2.built pn).mpr hown1)] at hcopy
    obtain ⟨q, hq, hownq⟩ := hcopy
    refine ⟨q, hq.trans ?_, hownq⟩
    omega
  -- the rest
  obtain ⟨role', k3, h3⟩ := h2.forking.loop r (by omega) hrun3
  have hkeep : ∀ v ≤ t, leafEntry s'.mem root (v * 4096) = leafEntry s₂.mem root (v * 4096) := by
    intro v hv
    refine h3.others _ ?_
    rw [vpn_page (by omega)]
    omega
  refine ⟨role', k1 + k2 + k3, (h1.built.trans h2.built).trans h3.built, h3.forking,
    h3.forking.child, fun v hv => ?_, t, ht1, ht2, ?_⟩
  · have hlt := E.kernelPage_lt hv
    rw [hkeep v (by omega)]
    exact hk2 v hv
  · have hpos := h.pos
    exact htext2.same (by omega) h3.built.toWork (hkeep t (Nat.le_refl t))

-- ==== enough pages

/-- The pages `v .. v + n - 1` that a table maps. -/
def mappedPages (m : ByteMap) (root v n : Nat) : Nat :=
  (List.range' v n).countP fun w => leafEntry m root (w * 4096) ≠ 0

theorem mappedPages_succ (m : ByteMap) (root v n : Nat) : mappedPages m root v (n + 1)
    = mappedPages m root (v + 1) n + if leafEntry m root (v * 4096) = 0 then 0 else 1 := by
  unfold mappedPages
  rw [List.range'_succ, List.countP_cons]
  by_cases h0 : leafEntry m root (v * 4096) = 0
  · rw [if_pos h0, if_neg (by simp [h0])]
  · rw [if_neg h0, if_pos (by simp [h0])]

/-- Four pages for every page of the parent are enough. -/
theorem Forking.loop_ok : ∀ n
    {v s role}, Forking E used p c root₀ root role s → v + n ≤ 768 →
    4 * mappedPages s.mem root₀ v n ≤ (freeQueue s).length →
    ∃ s', forkPages p c (root * 4096) n (v * 4096) s = (.ok (), s')
      ∧ (freeQueue s).length ≤ (freeQueue s').length + 4 * mappedPages s.mem root₀ v n := by
  intro n
  induction n with
  | zero =>
    intro v s role h _ _
    exact ⟨s, rfl, Nat.le_add_right _ _⟩
  | succ n ih =>
    intro v s role h hle hroom
    have hnext : v * 4096 + 4096 = (v + 1) * 4096 := by omega
    rw [mappedPages_succ] at hroom ⊢
    rcases h.turn (v := v) (by omega) with ⟨hnil, he, -⟩ | ⟨s1, role1, k1, hfirst, hturn, -⟩
    · rw [if_neg he, hnil, List.length_nil] at hroom
      omega
    have hsame : mappedPages s1.mem root₀ (v + 1) n = mappedPages s.mem root₀ (v + 1) n := by
      refine List.countP_congr fun w _ => ?_
      rw [h.entry hturn.built]
    have hlen : (freeQueue s1).length = (freeQueue s).length - k1 := by
      rw [hturn.built.queue, List.length_drop]
    have hfew := hturn.few
    have hcost : 4 * (if leafEntry s.mem root₀ (v * 4096) = 0 then 0 else 1)
        = if leafEntry s.mem root₀ (v * 4096) = 0 then 0 else 4 := by
      split <;> rfl
    obtain ⟨s', hrest, hleft⟩ := ih (v := v + 1) hturn.forking (by omega)
      (by rw [hsame]; omega)
    rw [hsame] at hleft
    refine ⟨s', ?_, by omega⟩
    rw [forkPages, bind_of_ok hfirst, hnext]
    exact hrest

-- ==== the call

section Call

variable {G O : Prop} {s₂ : KState} {c : Nat}

theorem forkDone_other (hi : i ≠ c) (hne : i ≠ s.current)
    (hp : s₂.processes = s.processes) :
    (forkDone s c root s₂).processes i = s.processes i := by
  show (KState.updProc _ s.current _).processes i = _
  rw [KState.updProc_other _ _ hne]
  unfold forkChild
  rw [KState.updProc_other _ _ hi, hp]

section

variable (h : KInv E G O role used s)

include h

/-- The invariant with the child in its slot. -/
theorem KInv.forkDone (h1 : 1 ≤ c) (h16 : c < 16)
    (hne : (c : Int) ≠ s.current) (hw : Work c k role s role' s₂)
    (hp : s₂.processes = s.processes)
    (hf : Forking E used s.current c root₀ root role' s₂)
    (hfit : G → Fitted E role' s₂ c root) :
    KInv E G O role' used (forkDone s c root s₂) := by
  have hchild : (Kernel.forkDone s c root s₂).processes c = _ := forkDone_child hne hp
  have hw' : Work c k role s role' (Kernel.forkDone s c root s₂) :=
    ⟨hw.heapPages, hw.freeList, hw.enough, hw.queue, hw.pages, hw.role, hw.mem⟩
  refine h.work hw' (hf.inv.of_same rfl rfl rfl rfl rfl) ⟨by omega, by omega⟩ h.numbered.current
    (fun i hi => ?_) ?_ ?_ (fun _ => ?_) ?_ ?_
  · by_cases hcur : i = s.current
    · have hpar : (Kernel.forkDone s c root s₂).processes s.current = _ :=
        forkDone_parent root hne hp
      rw [hcur, hpar]
      exact ⟨⟨rfl, rfl, rfl, rfl, rfl, rfl⟩, rfl⟩
    · rw [forkDone_other hi hcur hp]
      exact ⟨SameRole.refl _, rfl⟩
  · rw [hchild]
    exact h.numbered.pids c (by omega) (by omega)
  · rw [hchild]
    exact fun hx => by cases hx
  · rw [hchild]
    refine ⟨⟨root, rfl, ⟨hf.child.isRoot, hf.child.entry⟩, fun hG => ?_⟩, fun hx => ?_⟩
    · exact Fitted.of_same (s := s₂) rfl rfl (hfit hG)
    · exact absurd (show (1 : Int) ≤ -1 from hx) (by decide)
  · rw [hchild]
    exact hf.inv.root_ne (by omega) hf.child.isRoot
  · rw [hchild]
    exact h.fd c (by omega) (by omega)

/-- The first page of the child is its root table. -/
theorem KInv.forkStart (hlive : s.Live s.current) (hslot : freeSlot s = some c) :
    (freeQueue s = [] ∧ pagetableAlloc { s with current := (c : Int) }
        = (.ok 0, { s with current := (c : Int) }))
      ∨ ∃ root₀ root s1 role1, freeQueue s ≠ [] ∧ root ≠ 0
          ∧ s.cur.pagetable = root₀ * 4096
          ∧ pagetableAlloc { s with current := (c : Int) } = (.ok (root * 4096), s1)
          ∧ Built c 1 role { s with current := (c : Int) } role1 s1
          ∧ Forking E used s.current c root₀ root role1 s1
          ∧ (G → Fitted E role1 s1 s.current root₀) := by
  obtain ⟨h1, h16, hfree⟩ := freeSlot_some hslot
  have hne : s.current ≠ c := by
    intro heq
    rw [← heq] at hfree
    rcases hlive.2.2 with hst | hst <;> · rw [hfree] at hst; cases hst
  obtain ⟨root₀, hroot0, hsp, hfit⟩ := (h.live _ hlive).space
  have hm : MInv E role used { s with current := (c : Int) } := h.mach.of_same rfl rfl rfl rfl rfl
  have hsp' : Space role { s with current := (c : Int) } s.current root₀ := ⟨hsp.isRoot, hsp.entry⟩
  have hcur : ({ s with current := (c : Int) } : KState).cur.pid = c :=
    h.numbered.pids c (by omega) (by omega)
  rcases hm.new_root hcur (by omega)
    with hnil | ⟨root, rest, s1, hq, hroot, heq, hb, hinv, hempty⟩
  · exact .inl hnil
  have hpar := hsp'.frame hm hb.toWork.frame hne
  refine .inr ⟨root₀, root, s1, _, ?_, hroot, hroot0, heq, hb,
    ⟨hinv, hpar, ⟨Roles.add_same, fun va => .inl ?_⟩, ?_, ?_, ?_, hne, by omega, hlive.1⟩,
    fun hG => ?_⟩
  · have hq : freeQueue s = root :: rest := hq
    rw [hq]
    exact List.cons_ne_nil _ _
  · unfold leafEntry
    rw [leafTable_eq_reach, hempty va 3 (by decide)]
  · rw [hb.cur]
    exact hcur
  · rw [hb.processes]
    exact hroot0
  · rw [hb.processes]
    exact h.numbered.cur
  · have hfit' : Fitted E role { s with current := (c : Int) } s.current root₀ :=
      Fitted.of_same (s := s) rfl rfl (hfit hG)
    exact hfit'.frame hm hb.toWork.frame hne

/-- A fork that returns keeps the invariant. -/
theorem KInv.fork (hlive : s.Live s.current) (hrun : sysFork s = (.ok (), s')) :
    (s' = forkRefused s ∨ ∃ c root s₂, freeSlot s = some c ∧ s₂.processes = s.processes
        ∧ s' = Kernel.forkDone s c root s₂)
      ∧ ∃ role', KInv E G O role' used s' := by
  have hrefused : KInv E G O role used (forkRefused s) :=
    h.minor (Minor.own (fun _ => ⟨rfl, rfl, rfl, rfl, rfl, rfl⟩) fun _ => rfl)
  unfold sysFork at hrun
  rw [get_bind] at hrun
  rcases hslot : freeSlot s with - | c
  · rw [hslot] at hrun
    cases hrun
    exact ⟨.inl rfl, role, hrefused⟩
  rw [hslot] at hrun
  obtain ⟨h1, h16, hfree⟩ := freeSlot_some hslot
  rcases h.forkStart hlive hslot
    with ⟨-, heq⟩ | ⟨root₀, root, s1, role1, -, hroot, -, heq, hb, hf, hfit⟩
  · dsimp only at hrun
    unfold forkInto at hrun
    rw [get_bind, bind_of_ok (x := Prog.modify _) rfl, bind_of_ok heq] at hrun
    cases hrun
    exact ⟨.inl rfl, role, hrefused⟩
  · dsimp only at hrun
    unfold forkInto at hrun
    rw [get_bind, bind_of_ok (x := Prog.modify _) rfl,
      bind_of_ok heq, if_neg (by omega)] at hrun
    obtain ⟨_, s₂, hloop, hend⟩ := bind_ok.mp hrun
    cases hend
    obtain ⟨role2, k, hb2, hf2, hfit2⟩ : ∃ role2 k, Built c k role1 s1 role2 s₂
        ∧ Forking E used s.current c root₀ root role2 s₂ ∧ (G → Fitted E role2 s₂ c root) := by
      by_cases hG : G
      · obtain ⟨role2, k, hb2, hf2, hfit2⟩ := hf.fitted (hfit hG) hloop
        exact ⟨role2, k, hb2, hf2, fun _ => hfit2⟩
      · obtain ⟨role2, k, hl⟩ := hf.loop 768 (v := 0) (by decide) hloop
        exact ⟨role2, k, hl.built, hl.forking, fun hx => absurd hx hG⟩
    have hproc : s₂.processes = s.processes := hb2.processes.trans hb.processes
    have hstart : Work c 0 role s role { s with current := (c : Int) } :=
      Work.of_same rfl rfl rfl rfl rfl
    have hw := hstart.trans (hb.trans hb2).toWork
    exact ⟨.inr ⟨c, root, s₂, rfl, hproc, rfl⟩, role2,
      h.forkDone h1 h16 (Ne.symm hf.apart) hw hproc hf2 hfit2⟩

/-- With enough pages it returns a child. -/
theorem KInv.fork_eq (hlive : s.Live s.current)
    (hslot : freeSlot s = some c) (hroot0 : s.cur.pagetable = root₀ * 4096)
    (hroom : 1 + 4 * mappedPages s.mem root₀ 0 768 ≤ freePages s) :
    ∃ root s₂, sysFork s = (.ok (), Kernel.forkDone s c root s₂)
      ∧ s₂ = { s with
          mem := s₂.mem, pageinfo := s₂.pageinfo, pageno := s₂.pageno, current := c }
      ∧ (∀ va, leafEntry s₂.mem root₀ va = leafEntry s.mem root₀ va)
      ∧ freePages s ≤ freePages s₂ + (1 + 4 * mappedPages s.mem root₀ 0 768) := by
  rw [← length_freeQueue] at hroom
  rcases h.forkStart hlive hslot
    with ⟨hnil, -⟩ | ⟨root1, root, s1, role1, -, hroot, hroot1, heq, hb, hf, -⟩
  · rw [hnil] at hroom
    exact absurd hroom (by rw [List.length_nil]; omega)
  obtain rfl : root1 = root₀ := by omega
  obtain ⟨h1, -, -⟩ := freeSlot_some hslot
  have hq1 : (freeQueue s1).length = (freeQueue s).length - 1 := by
    rw [hb.queue, List.length_drop]
    rfl
  have hentry : ∀ va, leafEntry s1.mem root1 va = leafEntry s.mem root1 va := by
    obtain ⟨root', hroot', hsp, -⟩ := (h.live _ hlive).space
    obtain rfl : root' = root1 := by
      have : s.cur.pagetable = root' * 4096 := hroot'
      omega
    have hframe : Frame (fun q => q = (c : Int)) role s role1 s1 := hb.toWork.frame
    exact fun va => h.mach.leafEntry_frame hsp.isRoot hframe hf.apart va
  have hsame : mappedPages s1.mem root1 0 768 = mappedPages s.mem root1 0 768 := by
    refine List.countP_congr fun w _ => ?_
    rw [hentry]
  obtain ⟨s₂, hloop, hleft⟩ := hf.loop_ok 768 (v := 0) (by decide) (by rw [hsame]; omega)
  obtain ⟨role2, k, hl⟩ := hf.loop 768 (by decide) hloop
  refine ⟨root, s₂, ?_, ?_, fun va => ?_, ?_⟩
  · unfold sysFork
    rw [get_bind, hslot]
    dsimp only
    unfold forkInto
    rw [get_bind, bind_of_ok (x := Prog.modify _) rfl, bind_of_ok heq, if_neg (by omega)]
    exact bind_of_ok hloop
  · rw [hl.built.mach, hb.mach]
  · exact (hf.entry hl.built va).trans (hentry va)
  · rw [← length_freeQueue, ← length_freeQueue]
    rw [hsame] at hleft
    omega

end

end Call

end RojocOS.Kernel
