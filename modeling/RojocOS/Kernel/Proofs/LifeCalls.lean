/-
Runs of a kernel on which nobody types, call by call.

A `Stage` is a state of such a run: the full invariant holds, and it is
known who is running and where every process is in its life cycle. The
lemmas are the traps of the life cycle with their results, so that a run
can be put together from them. The next process to run is the first
runnable one behind the one that stops (`Follows`).
-/
import RojocOS.Kernel.Proofs.Entries
import RojocOS.Kernel.Proofs.LifeCycle
import RojocOS.Kernel.Proofs.ForkSpace
import RojocOS.Kernel.Proofs.DescCalls
import Mathlib.Data.List.Find

namespace RojocOS.Kernel

open ByteMap Prog

variable {E : KEnv} {s s' t s'' s2 : KState} {regs : Registers} {cur o : Int}
  {L : Int → Life} {m : ByteMap} {n' pn root0 : Nat}
variable {i next : Int} {f : Proc → Proc} {x : KM Unit} {L' : Int → Life} {c n root : Nat}
variable {role : Roles} {used : List Blk}

-- ==== lives

theorem KState.lives_minor (s : KState)
    (hf : ∀ p, (f p).life = p.life) : (s.updProc i f).lives = s.lives := by
  rw [s.lives_updProc, hf]
  exact Function.update_eq_self i s.lives

/-- One entry changes. -/
theorem lives_update {g : Life → Life}
    (hl : ∀ i : Int, 0 ≤ i → i < 16 → s.lives i = L i) (hf : ∀ p, (f p).life = g p.life)
    (o i : Int) (h0 : 0 ≤ i) (h16 : i < 16) :
    (s.updProc o f).lives i = Function.update L o (g (L o)) i := by
  rw [s.lives_updProc]
  by_cases hi : i = o
  · subst hi
    rw [Function.update_self, Function.update_self, hf, ← hl i h0 h16]
    rfl
  · rw [Function.update_of_ne hi, Function.update_of_ne hi]
    exact hl i h0 h16

theorem trapped_lives (regs : Registers) (s : KState) : (trapped regs s).lives = s.lives :=
  s.lives_minor (f := fun p => { p with registers := regs }) fun _ => rfl

theorem trapped_minor (regs : Registers) (s : KState) : Minor s (trapped regs s) :=
  (Minor.own (f := fun p => { p with registers := regs })
    (fun _ => ⟨rfl, rfl, rfl, rfl, rfl, rfl⟩) fun _ => rfl).trans
      (Minor.of_same ⟨rfl, rfl, rfl, rfl, rfl⟩ rfl rfl)

theorem setRax_lives (v : Nat) (s : KState) : (setRax v s).2.lives = s.lives :=
  s.lives_minor
    (f := fun p => { p with registers := { p.registers with rax := v } }) fun _ => rfl

/-- The slot that `fork` takes. -/
def firstFree (L : Int → Life) : Option Nat :=
  (List.range' 1 15).find? fun i : Nat => (L i).state = .free

theorem freeSlot_lives (hl : ∀ i : Int, 0 ≤ i → i < 16 → s.lives i = L i) :
    freeSlot s = firstFree L := by
  refine List.find?_congr fun i hi => ?_
  rw [List.mem_range'_1] at hi
  rw [← hl i (by omega) (by omega)]
  rfl

-- ==== stages

/-- Where a run has got to. -/
structure Stage (E : KEnv) (cur : Int) (L : Int → Life) (s : KState) : Prop where
  inv : ∃ role used, KInv E True True role used s
  current : s.current = cur
  lives : ∀ i : Int, 0 ≤ i → i < 16 → s.lives i = L i
  running : (L cur).state = .runnable

/-- Process `next` is the first runnable one behind `cur`. -/
def Follows (L : Int → Life) (cur next : Int) : Prop :=
  ∃ k : Nat, k < 16 ∧ next = (cur + 1 + k) % 16 ∧ (L next).state = .runnable
    ∧ ∀ i : Nat, i < k → (L ((cur + 1 + i) % 16)).state ≠ .runnable

section

variable (h : Stage E cur L s)

include h

theorem Stage.range : 1 ≤ cur ∧ cur < 16 := by
  obtain ⟨role, used, hinv⟩ := h.inv
  exact h.current ▸ hinv.numbered.current

theorem Stage.runnable : (s.lives s.current).state = .runnable := by
  have hr := h.range
  rw [h.current, h.lives cur (by omega) hr.2]
  exact h.running

theorem Stage.live : s.Live s.current := by
  have hr := h.range
  exact ⟨h.current.symm ▸ hr.1, h.current.symm ▸ hr.2, .inl h.runnable⟩

theorem Stage.in_kernel (regs : Registers) (i : Int) (h0 : 0 ≤ i)
    (h16 : i < 16) : (trapped regs s).lives i = L i := by
  rw [trapped_lives, h.lives i h0 h16]

/-- A call after which the caller goes on. -/
theorem Stage.stay (hq : Silent E)
    (hx : dispatch E (trapOf regs.intno) = x >>= fun _ => resume E)
    (hok : x (trapped regs s) = (.ok (), t)) (ht : KInv E True True role used t)
    (hc : t.current = cur) (hl : ∀ i : Int, 0 ≤ i → i < 16 → t.lives i = L' i)
    (hrun : (L' cur).state = .runnable) :
    exception E regs s = (.ok (), t) ∧ Stage E cur L' t := by
  obtain ⟨role0, used0, hinv⟩ := h.inv
  have hr := h.range
  have hst : t.cur.state = .runnable := by
    have := hl cur (by omega) hr.2
    rw [← hrun, ← this, ← hc]
    rfl
  exact ⟨hinv.call_eq hq h.live hx hok ht hst, ⟨role, used, ht⟩, hc, hl, hrun⟩

end

/-- The scheduler picks the next process. -/
theorem KInv.stage_schedule (ht : KInv E True True role used t) (hq : Silent E)
    (hc : t.current = cur) (hl : ∀ i : Int, 0 ≤ i → i < 16 → t.lives i = L i)
    (hnext : Follows L cur next) :
    ∃ t', schedule E t = (.ok (), t') ∧ t' = { t with current := next, polls := t'.polls }
      ∧ Stage E next L t' := by
  obtain ⟨k, hk, rfl, hrun, hnot⟩ := hnext
  have hlives : ∀ i : Int, (t.processes (i % 16)).state = (L (i % 16)).state := fun i =>
    congrArg Life.state (hl (i % 16) (by omega) (by omega))
  have heq := KInv.scheduleLoop_eq hq t.current ht hk (fun i hi => ?_) ?_
  · unfold schedule
    rw [get_bind, ht.numbered.cur]
    refine ⟨_, heq, by rw [hc], ⟨role, used, ?_⟩, by rw [hc], hl, hrun⟩
    have hne : (t.current + 1 + k) % 16 ≠ 0 := by
      intro h0
      have hz : (L ((cur + 1 + k) % 16)).state = .free := by
        rw [← hlives, ← hc, h0]
        exact ht.zero
      rw [hrun] at hz
      cases hz
    exact ht.of_entries ⟨rfl, rfl, rfl, rfl, rfl⟩ ⟨by dsimp only; omega, by dsimp only; omega⟩
      (fun _ => SameRole.refl _) ht.fd
  · rw [hlives, hc]
    exact hnot i hi
  · rw [hlives, hc]
    exact hrun

/-- A call after which the caller does not go on. -/
theorem Stage.leave (h : Stage E cur L s) (hq : Silent E)
    (hx : dispatch E (trapOf regs.intno) = x >>= fun _ => resume E)
    (hok : x (trapped regs s) = (.ok (), t)) (ht : KInv E True True role used t)
    (hc : t.current = cur) (hl : ∀ i : Int, 0 ≤ i → i < 16 → t.lives i = L' i)
    (hstop : (L' cur).state ≠ .runnable) (hnext : Follows L' cur next) :
    ∃ t', exception E regs s = (.ok (), t') ∧ t' = { t with current := next, polls := t'.polls }
      ∧ Stage E next L' t' := by
  obtain ⟨role0, used0, hinv⟩ := h.inv
  have hr := h.range
  obtain ⟨t', heq, hrest⟩ := ht.stage_schedule hq hc hl hnext
  refine ⟨t', ?_, hrest⟩
  have hst : t.cur.state ≠ .runnable := by
    have := hl cur (by omega) hr.2
    intro hx
    refine hstop ?_
    rw [← this, ← hc]
    exact hx
  rw [hinv.exception_eq hq h.live, hx, bind_of_ok hok]
  unfold resume
  rw [get_bind, if_neg hst]
  exact heq

-- ==== calls

/-- What a step leaves of process `i`'s table, with `n` pages taken, of the
descriptors and of the file system. -/
structure Passes (i : Int) (n : Nat) (s s' : KState) : Prop where
  table : (s'.processes i).pagetable = (s.processes i).pagetable
  entries : ∀ root, (s.processes i).pagetable = root * 4096 →
    ∀ va, leafEntry s'.mem root va = leafEntry s.mem root va
  free : freePages s ≤ freePages s' + n
  fds : ∀ j, (s'.processes j).fdList = (s.processes j).fdList
    ∧ (s'.processes j).fdMax = (s.processes j).fdMax
  world : s'.desc = s.desc ∧ s'.disk = s.disk ∧ s'.heapPages = s.heapPages

theorem Passes.trans (h : Passes i n s s')
    (h' : Passes i n' s' s'') : Passes i (n + n') s s'' := by
  obtain ⟨h1, h2, h3⟩ := h.world
  obtain ⟨h1', h2', h3'⟩ := h'.world
  refine ⟨h'.table.trans h.table, fun root hroot va => ?_, ?_, fun j => ?_,
    h1'.trans h1, h2'.trans h2, h3'.trans h3⟩
  · exact (h'.entries root (h.table.trans hroot) va).trans (h.entries root hroot va)
  · have := h.free
    have := h'.free
    omega
  · exact ⟨(h'.fds j).1.trans (h.fds j).1, (h'.fds j).2.trans (h.fds j).2⟩

/-- Memory, pages and the table are not touched. -/
theorem Passes.of_same (hm : s'.mem = s.mem) (hi : s'.pageinfo = s.pageinfo)
    (hpt : (s'.processes i).pagetable = (s.processes i).pagetable)
    (hfd : ∀ j, (s'.processes j).fdList = (s.processes j).fdList
      ∧ (s'.processes j).fdMax = (s.processes j).fdMax)
    (hw : s'.desc = s.desc ∧ s'.disk = s.disk ∧ s'.heapPages = s.heapPages) :
    Passes i 0 s s' := by
  refine ⟨hpt, fun root _ va => by rw [hm], ?_, hfd, hw⟩
  unfold freePages
  rw [hi]
  exact Nat.le_add_right _ _

/-- One entry changes, but not in what it has open. -/
theorem Passes.entry (hpt : ∀ p, (f p).pagetable = p.pagetable)
    (hfd : ∀ p, (f p).fdList = p.fdList ∧ (f p).fdMax = p.fdMax) :
    Passes i 0 s (s.updProc o f) := by
  have hsame : ∀ j, (s.updProc o f).processes j
      = if j = o then f (s.processes j) else s.processes j := fun _ => rfl
  refine Passes.of_same rfl rfl ?_ (fun j => ?_) ⟨rfl, rfl, rfl⟩
  · rw [hsame]
    split
    · exact hpt _
    · rfl
  · rw [hsame]
    split
    · exact hfd _
    · exact ⟨rfl, rfl⟩

theorem trapped_passes (i : Int) (regs : Registers) (s : KState) :
    Passes i 0 s (trapped regs s) := by
  have hsaved : Passes i 0 s (s.updProc s.current fun p => { p with registers := regs }) :=
    Passes.entry (fun _ => rfl) fun _ => ⟨rfl, rfl⟩
  have hpoll : Passes i 0 (saved regs s) (trapped regs s) :=
    Passes.of_same rfl rfl rfl (fun _ => ⟨rfl, rfl⟩) ⟨rfl, rfl, rfl⟩
  exact hsaved.trans hpoll

theorem setRax_passes (i : Int) (v : Nat) (s : KState) : Passes i 0 s (setRax v s).2 := by
  have hrax : Passes i 0 s (s.updProc s.current fun p =>
      { p with registers := { p.registers with rax := v } }) :=
    Passes.entry (fun _ => rfl) fun _ => ⟨rfl, rfl⟩
  exact hrax

theorem forkDone_lives (s2 : KState) (c : Int) (root : Nat)
    (hp : s2.processes = s.processes) :
    (forkDone s c root s2).lives
      = Function.update s.lives c ⟨.runnable, (s.processes s.current).pid, -1⟩ := by
  have hl : s2.lives = s.lives := by
    unfold KState.lives
    rw [hp]
  refine (KState.lives_minor _ ?_).trans ?_
  · exact fun _ => rfl
  show (forkChild s.current c (root * 4096) s2).lives = _
  unfold forkChild
  rw [s2.lives_updProc, hl, hp]
  rfl

theorem forkDone_passes {c : Int} (hs2 : s2 = { s with
      mem := s2.mem, pageinfo := s2.pageinfo, pageno := s2.pageno, current := c })
    (hne : c ≠ s.current) (hroot0 : s.cur.pagetable = root0 * 4096)
    (hentry : ∀ va, leafEntry s2.mem root0 va = leafEntry s.mem root0 va)
    (hfree : freePages s ≤ freePages s2 + n) :
    Passes s.current n s (forkDone s c root s2) := by
  have hproc : ∀ j, (forkDone s c root s2).processes j = if j = s.current then
      { s2.processes j with registers := { (s2.processes j).registers with rax := reg64 c } }
      else (forkChild s.current c (root * 4096) s2).processes j := by
    intro j
    show (if j = s.current then _ else _ : Proc) = _
    by_cases hj : j = s.current
    · rw [if_pos hj, if_pos hj]
      rw [forkChild_processes, if_neg (by rw [hj]; exact Ne.symm hne)]
    · rw [if_neg hj, if_neg hj]
  have hsame : s2.processes = s.processes := by rw [hs2]
  refine ⟨?_, fun root hroot va => ?_, hfree, fun j => ?_, ?_, ?_, ?_⟩
  · rw [hproc, if_pos rfl, hsame]
  · obtain rfl : root = root0 := by
      have : root * 4096 = root0 * 4096 := hroot.symm.trans hroot0
      omega
    exact hentry va
  · rw [hproc, forkChild_processes, hsame]
    split
    · exact ⟨rfl, rfl⟩
    · split <;> exact ⟨rfl, rfl⟩
  · show s2.desc = s.desc
    rw [hs2]
  · show s2.disk = s.disk
    rw [hs2]
  · show s2.heapPages = s.heapPages
    rw [hs2]

/-- A new process in the first free slot. -/
theorem Stage.fork (h : Stage E cur L s) (hq : Silent E)
    (hslot : firstFree L = some c) (hroot : (s.processes cur).pagetable = root * 4096)
    (hroom : 1 + 4 * mappedPages s.mem root 0 768 ≤ freePages s) :
    ∃ s', exception E { intno := 62 } s = (.ok (), s')
      ∧ Stage E cur (Function.update L c ⟨.runnable, cur, -1⟩) s'
      ∧ Passes cur (1 + 4 * mappedPages s.mem root 0 768) s s' := by
  obtain ⟨role, used, hinv⟩ := h.inv
  have ht := hinv.trapped { intno := 62 }
  have hlives := trapped_lives { intno := 62 } s
  have hcur := trapped_cur { intno := 62 } s
  have hlive : (trapped { intno := 62 } s).Live s.current := by
    have := h.live
    refine ⟨this.1, this.2.1, .inl ?_⟩
    rw [← h.runnable, ← hlives]
    rfl
  have hfree : freeSlot (trapped { intno := 62 } s) = some c := by
    rw [← hslot]
    exact freeSlot_lives (h.in_kernel _)
  have hroot' : (trapped { intno := 62 } s).cur.pagetable = root * 4096 := by
    rw [hcur]
    show (s.processes s.current).pagetable = _
    rw [h.current]
    exact hroot
  obtain ⟨root', s2, hfork, hs2, hentry, hleft⟩ := ht.fork_eq hlive hfree hroot' hroom
  obtain ⟨-, role', hk⟩ := ht.fork hlive hfork
  have hproc : s2.processes = (trapped { intno := 62 } s).processes := by rw [hs2]
  have hne : (c : Int) ≠ cur := by
    intro heq
    have hst : ((trapped { intno := 62 } s).lives c).state = .free := (freeSlot_some hfree).2.2
    rw [hlives, heq, ← h.current, h.runnable] at hst
    cases hst
  have hpid : ((trapped { intno := 62 } s).processes (trapped { intno := 62 } s).current).pid
      = cur := ht.numbered.cur.trans h.current
  have hl : ∀ i : Int, 0 ≤ i → i < 16 → (forkDone (trapped { intno := 62 } s) c root' s2).lives i
      = Function.update L c ⟨.runnable, cur, -1⟩ i := by
    intro i h0 h16
    rw [forkDone_lives s2 c root' hproc, hpid]
    by_cases hi : i = c
    · subst hi
      rw [Function.update_self, Function.update_self]
    · rw [Function.update_of_ne hi, Function.update_of_ne hi]
      exact h.in_kernel _ i h0 h16
  have hrun : (Function.update L (c : Int) ⟨.runnable, cur, -1⟩ cur).state = .runnable := by
    rw [Function.update_of_ne (Ne.symm hne)]
    exact h.running
  obtain ⟨heq, hstage⟩ := h.stay hq rfl hfork hk h.current hl hrun
  refine ⟨_, heq, hstage, ?_⟩
  have hpass : Passes cur _ (trapped { intno := 62 } s)
      (forkDone (trapped { intno := 62 } s) c root' s2) := h.current ▸
    forkDone_passes hs2 (fun hx => hne (hx.trans h.current)) hroot' hentry hleft
  have hall := (trapped_passes cur { intno := 62 } s).trans hpass
  rw [Nat.zero_add] at hall
  exact hall

/-- The running process waits for `c`; its exit code will go to `a`. -/
def waiting (c : Int) (a : Nat) (s : KState) : KState :=
  (setRax 0 s).2.updProc s.current fun p =>
    { p with state := .blocked, waitPid := c, waitExitCode := a }

/-- A wait for a child that has not ended. -/
theorem sysWait_eq {c : Int} (hc : i32 s.cur.registers.rdi = c) (h1 : 1 ≤ c)
    (hparent : (s.processes c).parent = s.cur.pid) (hst : (s.processes c).state ≠ .broken) :
    sysWait E s = (.ok (), waiting c
      (virtualMemoryLookup s.mem s.cur.pagetable (u64 s.cur.registers.rsi)).pa s) := by
  have hlook : lookupVa (u64 s.cur.registers.rsi) s = (.ok _, s) := rfl
  have hrax : setRax 0 s = (.ok (), (setRax 0 s).2) := rfl
  unfold sysWait
  rw [get_bind, hc, bind_of_ok hlook, assert_bind h1, assert_bind hparent,
    bind_of_ok hrax, if_neg hst]
  rfl

/-- An exit code fits in the page of `a`, and the kernel can write it
there. -/
structure CodePlace (E : KEnv) (a : Nat) : Prop where
  guard : ∀ t : KState, guardWrite E a 4 t = (.ok (), t)
  low : a / 4096 < 512
  page : ∀ d, d < 4 → (a + d) / 4096 = a / 4096

theorem Stage.wait (h : Stage E cur L s) (hq : Silent E) (h1 : 1 ≤ c)
    (h16 : c < 16) (hparent : (L c).parent = cur) (hst : (L c).state ≠ .broken)
    (hnext : Follows (Function.update L cur { L cur with state := .blocked, waitPid := c })
      cur next) :
    ∃ v s', exception E { intno := 57, rdi := c, rsi := v * 4096 } s = (.ok (), s')
      ∧ Stage E next (Function.update L cur { L cur with state := .blocked, waitPid := c }) s'
      ∧ CodePlace E (s'.processes cur).waitExitCode
      ∧ (s'.pageinfo ((s'.processes cur).waitExitCode / 4096)).owner = cur := by
  obtain ⟨role, used, hinv⟩ := h.inv
  obtain ⟨v, pn, htext⟩ := hinv.textPage h.live
  have hpa := hinv.textPage_pa htext
  have hlow := htext.low
  have hpage := htext.page
  have hpos := htext.pos
  have hsame : ∀ d < 4, (pn * 4096 + d) / 4096 = pn * 4096 / 4096 := fun d hd => by omega
  generalize hregs : ({ intno := 57, rdi := c, rsi := v * 4096 } : Registers) = regs
  have ht := hinv.trapped regs
  have hcur := trapped_cur regs s
  have hlives := trapped_lives regs s
  have hlc := h.in_kernel regs
  have hc : i32 (trapped regs s).cur.registers.rdi = c := by
    rw [hcur, ← hregs]
    show i32 c = c
    unfold i32 u32
    omega
  have haddr : (virtualMemoryLookup (trapped regs s).mem (trapped regs s).cur.pagetable
      (u64 (trapped regs s).cur.registers.rsi)).pa = pn * 4096 := by
    rw [hcur, ← hregs]
    have hv : u64 (v * 4096) = v * 4096 := by
      unfold u64
      omega
    rw [hv]
    exact hpa
  have hwait := sysWait_eq (E := E) hc (by omega)
    (by rw [ht.numbered.cur]; exact (congrArg Life.parent (hlc c (by omega) (by omega))).trans
          (hparent.trans h.current.symm))
    (fun hb => hst ((congrArg Life.state (hlc c (by omega) (by omega))).symm.trans hb))
  rw [haddr] at hwait
  have hlive : ((setRax 0 (trapped regs s)).2).Live s.current := by
    have hl := h.live
    refine ⟨hl.1, hl.2.1, .inl ?_⟩
    have hx := congrFun (setRax_lives 0 (trapped regs s)) s.current
    rw [hlives] at hx
    exact (congrArg Life.state hx).trans h.runnable
  have hk : KInv E True True role used (waiting c (pn * 4096) (trapped regs s)) :=
    (ht.rax 0).blocked hlive fun d hd => htext.byte (by omega)
  have hlw : ∀ i : Int, 0 ≤ i → i < 16 → (waiting c (pn * 4096) (trapped regs s)).lives i
      = Function.update L cur { L cur with state := .blocked, waitPid := (c : Int) } i := by
    unfold waiting
    rw [show (trapped regs s).current = cur from h.current]
    refine lives_update (g := fun l => { l with state := .blocked, waitPid := c })
      (fun i h0 hi => ?_) (fun _ => rfl) cur
    rw [setRax_lives]
    exact hlc i h0 hi
  obtain ⟨s', heq, hs', hstage⟩ := h.leave hq
    (by rw [← hregs]; rfl) hwait hk h.current hlw
    (by rw [Function.update_self]; exact fun hx => by cases hx) hnext
  have hcode : (s'.processes cur).waitExitCode = pn * 4096 := by
    rw [hs', ← h.current]
    show ((waiting c (pn * 4096) (trapped regs s)).processes s.current).waitExitCode = _
    exact congrArg Proc.waitExitCode ((setRax 0 (trapped regs s)).2.updProc_same s.current _)
  have hdiv : pn * 4096 / 4096 = pn := by omega
  refine ⟨v, s', hregs ▸ heq, hstage, ?_, ?_⟩
  · rw [hcode]
    refine ⟨fun t => ?_, hdiv.symm ▸ hpage, hsame⟩
    refine guardWrite_eq (by omega) (by omega) (by omega) ?_
    rw [hdiv]
    exact htext.plain
  · rw [hcode, hdiv, hs', ← h.current]
    exact htext.own.1

/-- The running process faults. -/
theorem Stage.fault (h : Stage E cur L s) (hq : Silent E)
    (hnext : Follows (Function.update L cur { L cur with state := .broken }) cur next) :
    ∃ s', exception E { intno := 14, err := 4 } s = (.ok (), s')
      ∧ Stage E next (Function.update L cur { L cur with state := .broken }) s' := by
  obtain ⟨role, used, hinv⟩ := h.inv
  generalize hregs : ({ intno := 14, err := 4 } : Registers) = regs
  have ht := hinv.trapped regs
  have hcurrent : (trapped regs s).current = cur := h.current
  have hlc := h.in_kernel regs
  have hfault : pageFault (trapped regs s) = (.ok (), (trapped regs s).updProc cur fun p =>
      { p with state := .broken }) := by
    unfold pageFault
    have herr : ¬ (trapped regs s).cur.registers.err / 4 % 2 = 0 := by
      rw [trapped_cur, ← hregs]
      show ¬ 4 / 4 % 2 = 0
      decide
    rw [get_bind, failIf_bind herr]
    rw [← hcurrent]
    rfl
  obtain ⟨s', heq, -, hstage⟩ := h.leave hq (by rw [← hregs]; rfl)
    hfault (ht.broken h.range.1) h.current
    (lives_update (g := fun l => { l with state := .broken }) hlc (fun _ => rfl) cur)
    (by rw [Function.update_self]; exact fun hx => by cases hx) hnext
  exact ⟨s', heq, hstage⟩

/-- Another process runs. -/
theorem Stage.yield (h : Stage E cur L s) (hq : Silent E) (hnext : Follows L cur next) :
    ∃ s', exception E { intno := 60 } s = (.ok (), s') ∧ Stage E next L s'
      ∧ s' = { trapped { intno := 60 } s with current := next, polls := s'.polls } := by
  obtain ⟨role, used, hinv⟩ := h.inv
  have ht := hinv.trapped { intno := 60 }
  obtain ⟨s', heq, hs', hstage⟩ := ht.stage_schedule hq h.current (h.in_kernel _) hnext
  refine ⟨s', ?_, hstage, hs'⟩
  rw [hinv.exception_eq hq h.live]
  exact heq

/-- Only the running process is another one. -/
theorem Passes.picked (h : Passes i n s t)
    (hs' : s' = { t with current := next, polls := s'.polls }) : Passes i n s s' := by
  have hpick : Passes i 0 t s' := by
    rw [hs']
    exact Passes.of_same rfl rfl rfl (fun _ => ⟨rfl, rfl⟩) ⟨rfl, rfl, rfl⟩
  exact h.trans hpick

-- ==== kills

section Kills

variable {G O : Prop} {pid : Int}

/-- Pages of a process are used once. -/
theorem KInv.counted (h : KInv E G O role used s) (h1 : 1 ≤ pid) (pn : Nat) (hpn : pn < 512)
    (hown : (s.pageinfo pn).owner = pid) : (s.pageinfo pn).refcount = 1 := by
  rw [h.mach.count pn hpn, if_neg (by omega)]

/-- Tables that agree on the entries agree on who is woken. -/
theorem wokenBy_congr (hl : ∀ i : Int, 0 ≤ i → i < 16 → L' i = L i)
    (h0 : 0 ≤ pid) (h16 : pid < 16) (hpar : (L pid).parent < 16) :
    WokenBy L' pid ↔ WokenBy L pid := by
  unfold WokenBy
  rw [hl pid h0 h16]
  refine and_congr_right fun h1 => ?_
  rw [hl _ (by omega) hpar]

theorem killLives_congr (hl : ∀ i : Int, 0 ≤ i → i < 16 → L' i = L i)
    (h0 : 0 ≤ pid) (h16 : pid < 16) (hpar : (L pid).parent < 16) (i : Int) (hi0 : 0 ≤ i)
    (hi16 : i < 16) : killLives pid L' i = killLives pid L i := by
  unfold killLives
  rw [hl pid h0 h16, hl i hi0 hi16]
  simp only [wokenBy_congr hl h0 h16 hpar]

/-- The entry behind a kill that wakes nobody. -/
theorem killed_lives (hw : ¬ Wakes s pid) :
    (killed pid s).lives = killLives pid s.lives := by
  funext i
  have hw' : ¬ (WokenBy s.lives pid ∧ i = (s.lives pid).parent) := fun hx => hw hx.1
  unfold killLives
  rw [if_neg hw']
  refine (congrArg Proc.life (killed_processes pid i s)).trans ?_
  rw [apply_ite Proc.life]
  rfl

/-- Killing a process leaves the others what they have. -/
theorem killed_passes (i pid : Int) (s : KState) : Passes i 0 s (killed pid s) := by
  have hproc : ∀ j, ((killed pid s).processes j).pagetable = (s.processes j).pagetable
      ∧ ((killed pid s).processes j).fdList = (s.processes j).fdList
      ∧ ((killed pid s).processes j).fdMax = (s.processes j).fdMax := by
    intro j
    rw [killed_processes]
    split <;> exact ⟨rfl, rfl, rfl⟩
  refine ⟨(hproc i).1, fun _ _ _ => rfl, ?_, fun j => (hproc j).2, rfl, rfl, rfl⟩
  unfold freePages
  rw [← List.countP_eq_length_filter, ← List.countP_eq_length_filter]
  refine Nat.le_trans (List.countP_mono_left fun pn _ hfree => ?_) (Nat.le_add_right _ _)
  have hown : (s.pageinfo pn).owner = PO_FREE := of_decide_eq_true hfree
  refine decide_eq_true ?_
  show (if _ then _ else _ : PageInfo).owner = PO_FREE
  split
  · rfl
  · exact hown

theorem killed_owner (hpn : pn < 512) (h1 : 1 ≤ pid) :
    ((killed pid s).pageinfo pn).owner ≠ pid := by
  show (if _ then _ else _ : PageInfo).owner ≠ pid
  split
  · show (0 : Int) ≠ pid
    omega
  · next hne => exact fun hx => hne ⟨hpn, hx⟩

/-- Another process is killed, and nobody waits for it. -/
theorem Stage.kill (h : Stage E cur L s) (hq : Silent E) (h1 : 1 ≤ c) (h16 : c < 16)
    (hne : (c : Int) ≠ cur) (hpar : (L c).parent < 16) (hw : ¬ WokenBy L c) :
    ∃ s', exception E { intno := 65, rdi := c } s = (.ok (), s')
      ∧ Stage E cur (killLives c L) s'
      ∧ (∀ i, (s'.processes i).waitExitCode = (s.processes i).waitExitCode)
      ∧ ∀ pn < 512, (s.pageinfo pn).owner = c → (s'.pageinfo pn).owner = 0 := by
  obtain ⟨role, used, hinv⟩ := h.inv
  generalize hregs : ({ intno := 65, rdi := c } : Registers) = regs
  have ht := (hinv.trapped regs).rax 0
  have hlives : ∀ i : Int, 0 ≤ i → i < 16 → (setRax 0 (trapped regs s)).2.lives i = L i := by
    intro i h0 hi
    rw [setRax_lives]
    exact h.in_kernel regs i h0 hi
  have hparent : ((setRax 0 (trapped regs s)).2.lives c).parent < 16 := by
    rw [hlives c (by omega) (by omega)]
    exact hpar
  have hw' : ¬ Wakes (setRax 0 (trapped regs s)).2 c := fun hx =>
    hw ((wokenBy_congr hlives (by omega) (by omega) hpar).mp hx)
  have hkill : sysKill E (trapped regs s)
      = (.ok (), killed c (setRax 0 (trapped regs s)).2) := by
    have hrax : setRax 0 (trapped regs s) = (.ok (), (setRax 0 (trapped regs s)).2) := rfl
    have hc : i32 (setRax 0 (trapped regs s)).2.cur.registers.rdi = c := by
      rw [setRax_cur, trapped_cur, ← hregs]
      show i32 c = c
      unfold i32 u32
      omega
    unfold sysKill
    rw [bind_of_ok hrax, get_bind, hc]
    exact processKill_eq (ht.counted (by omega)) hparent hw'
  have hlive : ∀ i : Int, 0 ≤ i → i < 16 →
      (killed c (setRax 0 (trapped regs s)).2).lives i = killLives c L i := by
    intro i h0 hi
    rw [killed_lives hw']
    exact killLives_congr hlives (by omega) (by omega) hpar i h0 hi
  have hrun : (killLives c L cur).state = .runnable := by
    unfold killLives
    rw [if_neg fun hx => hw hx.1, if_neg (Ne.symm hne)]
    exact h.running
  obtain ⟨heq, hstage⟩ := h.stay hq (by rw [← hregs]; rfl) hkill
    (ht.killed (by omega)) h.current hlive hrun
  refine ⟨_, heq, hstage, fun i => ?_, fun pn hpn hown => ?_⟩
  · have hsame := (((trapped_minor regs s).trans (setRax_minor 0 _)).role i).waitExitCode
    rw [← hsame, killed_processes]
    split <;> rfl
  · exact congrArg PageInfo.owner (if_pos ⟨hpn, hown⟩)

/-- The running process ends, and nobody waits for it. -/
theorem Stage.exit (h : Stage E cur L s) (hq : Silent E)
    (hpar : (L cur).parent < 16) (hw : ¬ WokenBy L cur)
    (hnext : Follows (killLives cur L) cur next) :
    ∃ s', exception E { intno := 64 } s = (.ok (), s') ∧ Stage E next (killLives cur L) s'
      ∧ (∀ i, Passes i 0 s s') ∧ ∀ pn < 512, (s'.pageinfo pn).owner ≠ cur := by
  obtain ⟨role, used, hinv⟩ := h.inv
  generalize hregs : ({ intno := 64 } : Registers) = regs
  have hr := h.range
  generalize ht0 : ((trapped regs s).updProc (trapped regs s).current fun p =>
    { p with exitCode := i32 p.registers.rdi }) = t
  have hminor : Minor (trapped regs s) t := by
    rw [← ht0]
    exact Minor.own (fun _ => ⟨rfl, rfl, rfl, rfl, rfl, rfl⟩) fun _ => rfl
  have hpass : ∀ i, Passes i 0 (trapped regs s) t := by
    intro i
    rw [← ht0]
    exact Passes.entry (fun _ => rfl) fun _ => ⟨rfl, rfl⟩
  have ht : KInv E True True role used t := (hinv.trapped regs).minor hminor
  have hcurrent : t.current = cur := hminor.current.trans h.current
  have hlives : ∀ i : Int, 0 ≤ i → i < 16 → t.lives i = L i := by
    intro i h0 hi
    rw [← h.in_kernel regs i h0 hi]
    exact (hminor.role i).life
  have hparent : (t.lives cur).parent < 16 := by
    rw [hlives cur (by omega) hr.2]
    exact hpar
  have hw' : ¬ Wakes t cur := fun hx => hw ((wokenBy_congr hlives (by omega) hr.2 hpar).mp hx)
  have hexit : sysExit E (trapped regs s) = (.ok (), killed cur t) := by
    unfold sysExit
    rw [bind_of_ok (x := Prog.modify _) rfl, ht0, get_bind, ht.numbered.cur, hcurrent]
    exact processKill_eq (ht.counted hr.1) hparent hw'
  have hl : ∀ i : Int, 0 ≤ i → i < 16 → (killed cur t).lives i = killLives cur L i := by
    intro i h0 hi
    rw [killed_lives hw']
    exact killLives_congr hlives (by omega) hr.2 hpar i h0 hi
  have hstop : (killLives cur L cur).state ≠ .runnable := by
    unfold killLives
    rw [if_neg fun hx => hw hx.1, if_pos rfl]
    exact nofun
  obtain ⟨s', heq, hs', hstage⟩ := h.leave hq (by rw [← hregs]; rfl) hexit
    (ht.killed hr.1) hcurrent hl hstop hnext
  refine ⟨s', heq, hstage, fun i => ?_, fun pn hpn => ?_⟩
  · exact ((trapped_passes i regs s).trans ((hpass i).trans (killed_passes i cur t))).picked hs'
  · rw [hs']
    exact killed_owner hpn hr.1

/-- A child that has ended, and has no pages any more, is forgotten. -/
theorem Stage.forget (h : Stage E cur L s) (hq : Silent E) (h1 : 1 ≤ c) (h16 : c < 16)
    (hne : (c : Int) ≠ cur) (hparent : (L c).parent = cur) (hst : (L c).state = .broken)
    (hbare : ∀ pn < 512, (s.pageinfo pn).owner ≠ c) :
    ∃ s', exception E { intno := 56, rdi := c } s = (.ok (), s')
      ∧ Stage E cur (Function.update L c { L c with state := .free }) s'
      ∧ ∀ i, Passes i 0 s s' := by
  obtain ⟨role, used, hinv⟩ := h.inv
  generalize hregs : ({ intno := 56, rdi := c } : Registers) = regs
  have ht := hinv.trapped regs
  have hlc := h.in_kernel regs
  generalize hu : ((trapped regs s).updProc c fun p => { p with state := .free }) = u
  have hcu : u.current = cur := by
    rw [← hu]
    exact h.current
  have hk : KInv E True True role used u := by
    rw [← hu]
    exact ht.freed fun _ => hbare
  have hl : ∀ i : Int, 0 ≤ i → i < 16 → (setRax 0 u).2.lives i
      = Function.update L c { L c with state := .free } i := by
    intro i h0 hi
    rw [setRax_lives, ← hu]
    exact lives_update (g := fun l => { l with state := .free }) hlc (fun _ => rfl) c i h0 hi
  have hforget : sysForget (trapped regs s) = (.ok (), (setRax 0 u).2) := by
    have hc : i32 (trapped regs s).cur.registers.rdi = c := by
      rw [trapped_cur, ← hregs]
      show i32 c = c
      unfold i32 u32
      omega
    have hp : ((trapped regs s).processes c).parent = (trapped regs s).cur.pid := by
      rw [ht.numbered.cur]
      exact (congrArg Life.parent (hlc c (by omega) (by omega))).trans
        (hparent.trans h.current.symm)
    have hb : ((trapped regs s).processes c).state = .broken :=
      (congrArg Life.state (hlc c (by omega) (by omega))).trans hst
    unfold sysForget
    rw [get_bind, hc, assert_bind (by omega),
      assert_bind hp, assert_bind hb, bind_of_ok (x := Prog.modify _) rfl, hu]
    rfl
  have hrun : (Function.update L (c : Int) { L c with state := .free } cur).state = .runnable := by
    rw [Function.update_of_ne (Ne.symm hne)]
    exact h.running
  obtain ⟨heq, hstage⟩ := h.stay hq (by rw [← hregs]; rfl) hforget (hk.rax 0)
    hcu hl hrun
  refine ⟨_, heq, hstage, fun i => ?_⟩
  have hpass : Passes i 0 (trapped regs s) u := by
    rw [← hu]
    exact Passes.entry (fun _ => rfl) fun _ => ⟨rfl, rfl⟩
  exact (trapped_passes i regs s).trans (hpass.trans (setRax_passes i 0 u))

end Kills

-- ==== boot

/-- The life cycle when the first process starts. -/
def bootLives : Int → Life := fun i =>
  if i = 1 ∨ i = 5 then ⟨.runnable, 0, -1⟩ else ⟨.free, 0, 0⟩

theorem Booted.stage (h : Booted E s) : Stage E 1 bootLives s := by
  obtain ⟨role, hup⟩ := h.up
  refine ⟨⟨role, [], hup.inv⟩, hup.table.current, fun i h0 h16 => ?_, rfl⟩
  have he := hup.table.entry i h0 h16
  show Life.mk _ _ _ = _
  unfold bootLives
  rw [he.state, he.parent, he.waitPid]
  split <;> rfl

/-- The pages of the first process of the small kernel. -/
theorem patient_pages
    (h : ∀ va, leafEntry m root va ≠ 0 → setupDom patientKEnv 1 (vpn va)) :
    mappedPages m root 0 768 ≤ 11 := by
  have hle : mappedPages m root 0 768 ≤ (List.range' 0 768).countP fun v =>
      v ∈ [0x40, 0x41, 0x42, 0x43, 0x44, 0x45, 0x46, 0x9F, 0xB8, 0x100, 0x2FF] := by
    refine List.countP_mono_left fun v hv hne => ?_
    have hlt := (List.mem_range'_1.mp hv).2
    have hdom := h (v * 4096) (of_decide_eq_true hne)
    rw [vpn_page (by omega)] at hdom
    simp only [List.mem_cons, List.not_mem_nil, or_false, decide_eq_true_eq]
    rcases hdom with ((⟨hlo, hhi⟩ | hstack | hconsole) | ⟨g, hg, -, hcov⟩) | hlast
    · have hhi : v ≤ 0x46 := hhi
      omega
    · omega
    · omega
    · obtain rfl := List.mem_singleton.mp hg
      have hcov : 0x100 ≤ v ∧ v < 0x100 + 1 := hcov
      omega
    · omega
  exact hle.trans (by decide +kernel)

theorem Started.small (h : Started patientKEnv blank role s) :
    ∃ root, (s.processes 1).pagetable = root * 4096 ∧ mappedPages s.mem root 0 768 ≤ 11 := by
  obtain ⟨root, hroot, -, hdom⟩ := h.up.space
  exact ⟨root, hroot, patient_pages hdom⟩

end RojocOS.Kernel
