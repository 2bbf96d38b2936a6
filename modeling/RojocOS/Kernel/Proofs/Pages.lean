/-
Who owns which page.

# The machine's invariant

`MInv` is what `pageinfo`, the page tables and the kernel heap have to do
with each other, whatever the processes are: a page that is a table of
some tree belongs to the tree's owner, the pages of the kernel are the
kernel's, a free page has no reference. Its ghost state is the map of
tables (`Roles`) and the list of used heap blocks.

# Working for one owner

`page_alloc` is a queue (`pageAlloc_eq`): it delivers the head of
`freeQueue`. `Built o k` is what the kernel does while it works for one
owner `o`: it takes `k` pages from the queue, writes to them and to what
`o` has already, and leaves everything else. `Frame S` is the part of it
that the other owners see.
-/
import RojocOS.Kernel.Run
import RojocOS.Kernel.Proofs.HeapRun
import RojocOS.Lib.Ring

namespace RojocOS.Kernel

open ByteMap

variable {E : KEnv} {l pre : Nat} {n : Int} {p : Place}
variable {s : KState} {pn : Nat} {o : Int} {m' : ByteMap}
variable {S : Int → Prop} {role role' role'' : Roles} {s' s'' : KState} {used : List Blk}

-- ==== page_alloc

/-- The pages `page_alloc` will deliver, in order. -/
def freeQueue (s : KState) : List Nat :=
  Ring.queue 512 (fun pn => (s.pageinfo pn).owner = PO_FREE) s.pageno

theorem mem_freeQueue : pn ∈ freeQueue s ↔ pn < 512 ∧ (s.pageinfo pn).owner = 0 := by
  rw [freeQueue, Ring.mem_queue (by decide), decide_eq_true_eq]
  rfl

/-- The pages without an owner. -/
def freePages (s : KState) : Nat :=
  ((List.range 512).filter fun pn => (s.pageinfo pn).owner = PO_FREE).length

theorem length_freeQueue (s : KState) : (freeQueue s).length = freePages s := by
  refine List.Perm.length_eq ((List.perm_ext_iff_of_nodup Ring.nodup_queue
    (List.nodup_range.filter _)).mpr fun pn => ?_)
  rw [List.mem_filter, List.mem_range, decide_eq_true_eq]
  exact mem_freeQueue

/-- The scan goes around without finding anything, or stops at the first
free page. -/
theorem pageAllocLoop_eq (o : Int) : ∀ n s, s.pageno < 512 →
    ((∀ i ∈ Ring.scan 512 s.pageno n, (s.pageinfo i).owner ≠ PO_FREE)
        ∧ pageAllocLoop o n s
          = (.ok 0, { s with pageno := (s.pageno + n) % 512 }))
      ∨ ∃ j, j < n
          ∧ (∀ i ∈ Ring.scan 512 s.pageno j, (s.pageinfo i).owner ≠ PO_FREE)
          ∧ (s.pageinfo ((s.pageno + j) % 512)).owner = PO_FREE
          ∧ pageAllocLoop o n s
            = (.ok ((s.pageno + j) % 512 * 4096),
                takePage o { s with pageno := (s.pageno + j) % 512 }) := by
  intro n
  induction n with
  | zero =>
    intro s hc
    refine .inl ⟨fun i hi => absurd hi List.not_mem_nil, ?_⟩
    rw [Nat.add_zero, Nat.mod_eq_of_lt hc]
    rfl
  | succ n ih =>
    intro s hc
    have hc' : s.pageno % 512 = s.pageno := Nat.mod_eq_of_lt hc
    by_cases hfree : (s.pageinfo s.pageno).owner = PO_FREE
    · refine .inr ⟨0, Nat.succ_pos n, fun i hi => absurd hi List.not_mem_nil, ?_⟩
      rw [Nat.add_zero, hc']
      refine ⟨hfree, ?_⟩
      rw [pageAllocLoop, Prog.get_bind, if_pos hfree]
      rfl
    · have hstep : pageAllocLoop o (n + 1) s
          = pageAllocLoop o n { s with pageno := (s.pageno + 1) % 512 } := by
        rw [pageAllocLoop, Prog.get_bind, if_neg hfree]
        rfl
      have hmod : ∀ k, ((s.pageno + 1) % 512 + k) % 512
          = (s.pageno + (k + 1)) % 512 := fun k => by omega
      have hskip : ∀ k, (∀ i ∈ Ring.scan 512 ((s.pageno + 1) % 512) k,
            (s.pageinfo i).owner ≠ PO_FREE) →
          ∀ i ∈ Ring.scan 512 s.pageno (k + 1), (s.pageinfo i).owner ≠ PO_FREE := by
        intro k hk i hi
        rw [Ring.scan_succ, hc'] at hi
        rcases List.mem_cons.mp hi with rfl | hi
        · exact hfree
        · exact hk i (by rwa [Ring.scan_mod])
      rw [hstep]
      rcases ih { s with pageno := (s.pageno + 1) % 512 }
        (Nat.mod_lt _ (by decide)) with ⟨hnone, heq⟩ | ⟨j, hj, hsk, hf, heq⟩
      · refine .inl ⟨hskip n hnone, ?_⟩
        rw [heq, hmod]
      · refine .inr ⟨j + 1, Nat.succ_lt_succ hj, hskip j hsk, ?_, ?_⟩
        · rw [← hmod]
          exact hf
        · rw [heq, hmod]

/-- `page_alloc` takes the head of the queue; without one it changes
nothing. -/
theorem pageAlloc_eq (hc : s.pageno < 512) (ho : o ≠ 0) :
    (freeQueue s = [] ∧ pageAlloc o s = (.ok 0, s))
      ∨ ∃ pn rest, freeQueue s = pn :: rest
          ∧ pageAlloc o s
            = (.ok (pn * 4096), takePage o { s with pageno := pn })
          ∧ freeQueue (takePage o { s with pageno := pn }) = rest := by
  rcases pageAllocLoop_eq o 512 s hc with ⟨hnone, heq⟩ | ⟨j, hj, hsk, hf, heq⟩
  · refine .inl ⟨Ring.queue_nil fun i hi => decide_eq_false (hnone i hi), ?_⟩
    rw [pageAlloc, heq, Nat.add_mod_right, Nat.mod_eq_of_lt hc]
  · obtain ⟨rest, hq, hrest⟩ := Ring.queue_take
      hj
      (fun i hi => decide_eq_false (hsk i hi)) (decide_eq_true hf)
    refine .inr ⟨_, rest, hq, heq, hrest _ ?_ fun i hi => ?_⟩
    · refine decide_eq_false ?_
      show (if _ then _ else _ : PageInfo).owner ≠ 0
      rw [if_pos rfl]
      exact ho
    · show decide ((if _ then _ else _ : PageInfo).owner = _) = _
      rw [if_neg hi]

-- ==== frames

/-- What the owners outside `S` see: their pages stay theirs, with the
same place and the same bytes. -/
def Frame (S : Int → Prop) (role : Roles) (s : KState) (role' : Roles)
    (s' : KState) : Prop :=
  ∀ pn, (s.pageinfo pn).owner ≠ 0 → ¬ S (s.pageinfo pn).owner →
    s'.pageinfo pn = s.pageinfo pn ∧ role' pn = role pn
      ∧ ∀ x, x / 4096 = pn → s'.mem x = s.mem x

section Frame

variable {S' : Int → Prop}

theorem Frame.refl : Frame S role s role s :=
  fun _ _ _ => ⟨rfl, rfl, fun _ _ => rfl⟩

theorem Frame.trans (h : Frame S role s role' s')
    (h' : Frame S role' s' role'' s'') : Frame S role s role'' s'' := by
  intro pn h0 hS
  obtain ⟨hp, hr, hm⟩ := h pn h0 hS
  obtain ⟨hp', hr', hm'⟩ := h' pn (hp ▸ h0) (hp ▸ hS)
  exact ⟨hp'.trans hp, hr'.trans hr, fun x hx => (hm' x hx).trans (hm x hx)⟩

theorem Frame.mono (h : Frame S role s role' s') (hS : ∀ o, S o → S' o) :
    Frame S' role s role' s' :=
  fun pn h0 hn => h pn h0 fun hs => hn (hS _ hs)

/-- A page of known owner. -/
theorem Frame.page (h : Frame S role s role' s')
    (hp : s.pageinfo pn = ⟨o, n⟩) (h0 : o ≠ 0) (hS : ¬ S o) :
    s'.pageinfo pn = ⟨o, n⟩ ∧ role' pn = role pn
      ∧ ∀ x, pn * 4096 ≤ x → x < pn * 4096 + 4096 → s'.mem x = s.mem x := by
  have ho : (s.pageinfo pn).owner = o := by rw [hp]
  obtain ⟨h1, h2, h3⟩ := h pn (ho.symm ▸ h0) (ho.symm ▸ hS)
  exact ⟨h1.trans hp, h2, fun x hx1 hx2 => h3 x (by omega)⟩

end Frame

-- ==== invariant

/-- The invariant of memory, `pageinfo` and the heap. -/
structure MInv (E : KEnv) (role : Roles) (used : List Blk) (s : KState) : Prop where
  tables : Tables s.mem role
  kernel : KernelTree E s.mem role
  /-- The kernel's table maps every page to itself. -/
  identity : ∀ pn, pn < 512 → ∃ f, leafEntry s.mem E.ktab (pn * 4096)
    = pn * 4096 + f ∧ f % 2 = 1 ∧ f < 8 ∧ (E.KernelPage pn → f = 7)
  own : ∀ pn p, role pn = some p → s.pageinfo pn = ⟨p.owner, 1⟩ ∧ p.owner ≠ 0
  boot : ∀ pn, pn < 512 → bootOwner E pn ≠ 0 → s.pageinfo pn = ⟨bootOwner E pn, 1⟩
  count : ∀ pn, pn < 512 →
    (s.pageinfo pn).refcount = if (s.pageinfo pn).owner = 0 then 0 else 1
  heap : ∃ free, HeapInv s.mem s.freeList s.heapPages free used
  heapOwn : ∀ p ∈ s.heapPages, s.pageinfo (p / 4096) = ⟨-3, 1⟩
  cursor : s.pageno < 512

theorem bootOwner_cases (E : KEnv) (pn : Nat) :
    bootOwner E pn = -1 ∨ bootOwner E pn = -2 ∨ bootOwner E pn = 0 := by
  unfold bootOwner
  split
  · exact .inl rfl
  · split
    · exact .inr (.inl rfl)
    · exact .inr (.inr rfl)

section

variable (h : MInv E role used s)

include h

/-- Page 0 is never free. -/
theorem MInv.free_pos (hpn : pn ∈ freeQueue s) : pn ≠ 0 := by
  rintro rfl
  have hb := h.boot 0 (by decide) (show (-1 : Int) ≠ 0 by decide)
  have h0 := (mem_freeQueue.mp hpn).2
  rw [hb] at h0
  cases h0

/-- Page 0 holds no table of a process. -/
theorem MInv.role_pos (hp : role pn = some ⟨o, l, pre⟩) (ho : 1 ≤ o) : pn ≠ 0 := by
  rintro rfl
  have hb := h.boot 0 (by decide) (show (-1 : Int) ≠ 0 by decide)
  rw [(h.own 0 _ hp).1] at hb
  have : o = -1 := congrArg PageInfo.owner hb
  omega

/-- A free page is nobody's table. -/
theorem MInv.free_role (hpn : pn ∈ freeQueue s) : role pn = none := by
  rcases hr : role pn with - | p
  · rfl
  · obtain ⟨hp, hne⟩ := h.own pn p hr
    have h0 := (mem_freeQueue.mp hpn).2
    rw [hp] at h0
    exact absurd h0 hne

theorem MInv.free_info (hpn : pn ∈ freeQueue s) : s.pageinfo pn = ⟨0, 0⟩ := by
  obtain ⟨hlt, h0⟩ := mem_freeQueue.mp hpn
  have hc := h.count pn hlt
  rw [h0, if_pos rfl] at hc
  rcases hp : s.pageinfo pn with ⟨o, n⟩
  rw [hp] at h0 hc
  cases h0
  cases hc
  rfl

/-- Work for processes leaves what is the kernel's. -/
theorem MInv.of_frame (hf : Frame S role s role' s') (hS : ∀ o, S o → 1 ≤ o)
    (hpages : s'.heapPages = s.heapPages) (hfl : s'.freeList = s.freeList)
    (ht : Tables s'.mem role')
    (hown : ∀ pn p, role' pn = some p → s'.pageinfo pn = ⟨p.owner, 1⟩ ∧ p.owner ≠ 0)
    (hcount : ∀ pn < 512,
      (s'.pageinfo pn).refcount = if (s'.pageinfo pn).owner = 0 then 0 else 1)
    (hcur : s'.pageno < 512) : MInv E role' used s' := by
  have hneg : ∀ {pn : Nat} {o n : Int}, s.pageinfo pn = ⟨o, n⟩ → o < 0 →
      s'.pageinfo pn = ⟨o, n⟩ ∧ role' pn = role pn
        ∧ ∀ x, pn * 4096 ≤ x → x < pn * 4096 + 4096 → s'.mem x = s.mem x :=
    fun hp ho => hf.page hp (by omega) fun hs => by
      have := hS _ hs
      omega
  have hktab : ∀ pn l pre, role pn = some ⟨-2, l, pre⟩ →
      ∀ x, pn * 4096 ≤ x → x < pn * 4096 + 4096 → s'.mem x = s.mem x :=
    fun pn l pre hp => (hneg (h.own pn _ hp).1 (show (-2 : Int) < 0 by decide)).2.2
  have hroot := (hneg (h.own _ _ h.kernel.root).1 (by decide)).2.1
  refine ⟨ht, ⟨hroot.trans h.kernel.root, fun va hva => ?_⟩, fun pn hpn => ?_,
    hown, fun pn hpn h0 => ?_, hcount, ?_, ?_, hcur⟩
  · rw [h.tables.leafTable_congr h.kernel.root fun pn l pre hp _ =>
      hktab pn l pre hp, h.kernel.leaf va hva]
  · rw [h.tables.leafEntry_congr h.kernel.root hktab]
    exact h.identity pn hpn
  · refine (hneg (h.boot pn hpn h0) ?_).1
    rcases bootOwner_cases E pn with hb | hb | hb
    · omega
    · omega
    · exact absurd hb h0
  · obtain ⟨free, hinv⟩ := h.heap
    refine ⟨free, ?_⟩
    rw [hfl, hpages]
    refine hinv.frame_pages fun x hx => ?_
    obtain ⟨p, hp, h1, h2⟩ := hx
    have hal := hinv.page p hp
    exact (hneg (h.heapOwn p hp) (by decide)).2.2 x (by omega) (by omega)
  · rw [hpages]
    exact fun p hp => (hneg (h.heapOwn p hp) (by decide)).1

/-- The invariant is about memory, `pageinfo` and the heap only. -/
theorem MInv.of_same (hm : s'.mem = s.mem)
    (hp : s'.pageinfo = s.pageinfo) (hc : s'.pageno = s.pageno)
    (hh : s'.heapPages = s.heapPages) (hf : s'.freeList = s.freeList) :
    MInv E role used s' := by
  obtain ⟨h1, h2, h3, h4, h5, h6, h7, h8, h9⟩ := h
  exact ⟨hm ▸ h1, hm ▸ h2, hm ▸ h3, hp ▸ h4, hp ▸ h5, hp ▸ h6,
    by rw [hm, hf, hh]; exact h7, by rw [hh, hp]; exact h8, hc ▸ h9⟩

/-- Taking a free page touches nothing that is in use. -/
theorem MInv.take_page (hpn : pn ∈ freeQueue s) (ho : o ≠ 0) :
    Frame (fun _ => False) role s role (takePage o { s with pageno := pn })
      ∧ MInv E role used (takePage o { s with pageno := pn })
      ∧ (takePage o { s with pageno := pn }).pageinfo pn = ⟨o, 1⟩ := by
  obtain ⟨hlt, hfree⟩ := mem_freeQueue.mp hpn
  have hinfo : (takePage o { s with pageno := pn }).pageinfo pn = ⟨o, 1⟩ := by
    show (if pn = pn then _ else _ : PageInfo) = _
    rw [if_pos rfl, h.free_info hpn]
    rfl
  have hother : ∀ q ≠ pn,
      (takePage o { s with pageno := pn }).pageinfo q = s.pageinfo q :=
    fun q hq => if_neg hq
  have hmem : ∀ q ≠ pn, ∀ x, x / 4096 = q →
      (takePage o { s with pageno := pn }).mem x = s.mem x := by
    intro q hq x hx
    refine fill_of_not_mem fun hin => hq ?_
    dsimp only at hin
    omega
  have hframe : Frame (fun _ => False) role s role
      (takePage o { s with pageno := pn }) := by
    intro q h0 _
    have hq : q ≠ pn := fun hq => h0 (hq ▸ hfree)
    exact ⟨hother q hq, rfl, hmem q hq⟩
  have hrole : ∀ q p, role q = some p → q ≠ pn := by
    rintro q p hq rfl
    rw [h.free_role hpn] at hq
    cases hq
  refine ⟨hframe, h.of_frame hframe (fun _ hs => hs.elim) rfl rfl ?_ ?_ ?_ hlt, hinfo⟩
  · exact h.tables.congr fun q p hq _ x h1 h2 =>
      hmem q (hrole q p hq) x (by omega)
  · intro q p hq
    rw [hother q (hrole q p hq)]
    exact h.own q p hq
  · intro q hq
    by_cases hqp : q = pn
    · rw [hqp, hinfo, if_neg ho]
    · rw [hother q hqp]
      exact h.count q hq

end

-- ==== working for an owner

/-- The kernel takes `k` pages for `o`, and writes to them and to the
pages `o` has. -/
structure Work (o : Int) (k : Nat) (role : Roles) (s : KState)
    (role' : Roles) (s' : KState) : Prop where
  heapPages : s'.heapPages = s.heapPages
  freeList : s'.freeList = s.freeList
  enough : k ≤ (freeQueue s).length
  queue : freeQueue s' = (freeQueue s).drop k
  pages : ∀ pn, s'.pageinfo pn
    = if pn ∈ (freeQueue s).take k then ⟨o, 1⟩ else s.pageinfo pn
  role : ∀ pn, pn ∉ freeQueue s → role' pn = role pn
  mem : ∀ x, x / 4096 ∉ freeQueue s →
    (s.pageinfo (x / 4096)).owner ≠ o → s'.mem x = s.mem x

/-- Work that touches no other variable of the kernel. -/
structure Built (o : Int) (k : Nat) (role : Roles) (s : KState)
    (role' : Roles) (s' : KState) : Prop extends Work o k role s role' s' where
  mach : s' = { s with
    mem := s'.mem, pageinfo := s'.pageinfo, pageno := s'.pageno }

section Built

variable {k k' : Nat}

/-- Other variables of the kernel change. -/
theorem Work.of_same (hm : s'.mem = s.mem) (hp : s'.pageinfo = s.pageinfo)
    (hc : s'.pageno = s.pageno) (hh : s'.heapPages = s.heapPages)
    (hf : s'.freeList = s.freeList) : Work o 0 role s role s' where
  heapPages := hh
  freeList := hf
  enough := Nat.zero_le _
  queue := by
    rw [freeQueue, hp, hc]
    rfl
  pages := fun pn => by
    rw [hp, List.take_zero, if_neg List.not_mem_nil]
  role := fun _ _ => rfl
  mem := fun x _ _ => congrFun hm x

section

variable (h : Work o k role s role' s')

include h

theorem Work.trans (h' : Work o k' role' s' role'' s'') : Work o
    (k + k') role s role'' s'' := by
  have hq : ∀ pn, pn ∉ freeQueue s → pn ∉ freeQueue s' := fun pn hn hin =>
    hn (List.mem_of_mem_drop (h.queue ▸ hin))
  have hinfo : ∀ pn, pn ∉ freeQueue s → s'.pageinfo pn = s.pageinfo pn :=
    fun pn hn => (h.pages pn).trans (if_neg fun hin => hn (List.mem_of_mem_take hin))
  refine ⟨h'.heapPages.trans h.heapPages, h'.freeList.trans h.freeList, ?_, ?_,
    fun pn => ?_, fun pn hn => ?_, fun x hn ho => ?_⟩
  · have h1 := h.enough
    have h2 := h'.enough
    rw [h.queue, List.length_drop] at h2
    omega
  · rw [h'.queue, h.queue, List.drop_drop]
  · rw [h'.pages, h.pages, h.queue, List.take_add]
    by_cases h1 : pn ∈ (freeQueue s).take k
    · rw [if_pos h1, if_pos (List.mem_append_left _ h1), ite_self]
    · by_cases h2 : pn ∈ ((freeQueue s).drop k).take k'
      · rw [if_pos h2, if_pos (List.mem_append_right _ h2)]
      · rw [if_neg h2, if_neg h1, if_neg fun hin => (List.mem_append.mp hin).elim h1 h2]
  · rw [h'.role pn (hq pn hn), h.role pn hn]
  · rw [h'.mem x (hq _ hn) (by rwa [hinfo _ hn]), h.mem x hn ho]

theorem Work.info (hn : pn ∉ freeQueue s) : s'.pageinfo pn = s.pageinfo pn :=
  (h.pages pn).trans (if_neg fun hin => hn (List.mem_of_mem_take hin))

theorem Work.frame : Frame (fun q => q = o) role s role' s' := by
  intro pn h0 ho
  have hn : pn ∉ freeQueue s := fun hin => h0 (mem_freeQueue.mp hin).2
  exact ⟨h.info hn, h.role pn hn, fun x hx => h.mem x (hx ▸ hn) (hx ▸ ho)⟩

/-- The tables there are keep their places. -/
theorem Work.role_some (hinv : MInv E role used s)
    (hp : role pn = some p) : role' pn = some p := by
  rw [h.role pn fun hin => ?_, hp]
  rw [hinv.free_role hin] at hp
  cases hp

end

theorem Built.refl : Built o 0 role s role s :=
  { Work.of_same rfl rfl rfl rfl rfl with mach := rfl }

section

variable (h : Built o k role s role' s')

include h

theorem Built.trans (h' : Built o k' role' s' role'' s'') : Built o
    (k + k') role s role'' s'' :=
  { h.toWork.trans h'.toWork with mach := by rw [h'.mach, h.mach] }

theorem Built.processes : s'.processes = s.processes := by rw [h.mach]

theorem Built.current : s'.current = s.current := by rw [h.mach]

theorem Built.cur : s'.cur = s.cur := by
  rw [KState.cur, h.processes, h.current]
  rfl

end

/-- Writing to pages that `o` has. -/
theorem Built.of_mem (hm : ∀ x, (s.pageinfo (x / 4096)).owner ≠ o → m' x = s.mem x) :
    Built o 0 role s role { s with mem := m' } :=
  { (Built.refl : Built o 0 role s role s) with
    mach := rfl
    mem := fun x _ ho => hm x ho }

/-- A write to pages of a process that hold no table. -/
theorem MInv.write (h : MInv E role used s) (ho : 1 ≤ o)
    (hm : ∀ x, m' x ≠ s.mem x →
      (s.pageinfo (x / 4096)).owner = o ∧ role (x / 4096) = none) :
    Built o 0 role s role { s with mem := m' }
      ∧ MInv E role used { s with mem := m' } := by
  have hsame : ∀ x, ((s.pageinfo (x / 4096)).owner ≠ o
      ∨ role (x / 4096) ≠ none) → m' x = s.mem x := by
    intro x hx
    by_contra hne
    obtain ⟨h1, h2⟩ := hm x hne
    exact hx.elim (fun hx => hx h1) fun hx => hx h2
  have hb : Built o 0 role s role { s with mem := m' } :=
    Built.of_mem fun x hx => hsame x (.inl hx)
  refine ⟨hb, h.of_frame hb.frame (fun q hq => hq ▸ ho) rfl rfl ?_ h.own h.count h.cursor⟩
  refine h.tables.congr fun pn p hp _ x h1 h2 => hsame x (.inr ?_)
  have hx : x / 4096 = pn := by omega
  rw [hx, hp]
  exact Option.some_ne_none p

/-- `page_alloc` for a process. -/
theorem MInv.page_alloc (h : MInv E role used s) (ho : o ≠ 0) :
    (freeQueue s = [] ∧ pageAlloc o s = (.ok 0, s))
      ∨ ∃ pn rest s', freeQueue s = pn :: rest ∧ pn ≠ 0 ∧ pn < 512
          ∧ role pn = none ∧ pageAlloc o s = (.ok (pn * 4096), s')
          ∧ Built o 1 role s role s' ∧ MInv E role used s'
          ∧ s'.pageinfo pn = ⟨o, 1⟩
          ∧ s'.mem = fill s.mem (pn * 4096) 4096 0
          ∧ Frame (fun _ => False) role s role s' := by
  rcases pageAlloc_eq h.cursor ho with hnil | ⟨pn, rest, hq, heq, hrest⟩
  · exact .inl hnil
  have hpn : pn ∈ freeQueue s := hq ▸ List.mem_cons_self
  obtain ⟨hframe, hinv, hinfo⟩ := h.take_page hpn ho
  refine .inr ⟨pn, rest, _, hq, h.free_pos hpn, (mem_freeQueue.mp hpn).1,
    h.free_role hpn, heq, ⟨⟨rfl, rfl, ?_, ?_, fun q => ?_, fun _ _ => rfl,
      fun x hn _ => ?_⟩, rfl⟩, hinv, hinfo, rfl, hframe⟩
  · rw [hq]
    exact Nat.succ_pos _
  · rw [hrest, hq]
    rfl
  · rw [hq]
    show _ = if q ∈ [pn] then _ else _
    by_cases hqp : q = pn
    · rw [hqp, if_pos (List.mem_singleton_self pn), hinfo]
    · rw [if_neg fun hin => hqp (List.mem_singleton.mp hin)]
      exact if_neg hqp
  · refine fill_of_not_mem fun hin => hn ?_
    have hx : x / 4096 = pn := by
      dsimp only at hin
      omega
    rwa [hx]

end Built

end RojocOS.Kernel
