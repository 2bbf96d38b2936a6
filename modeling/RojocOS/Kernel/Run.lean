/-
The kernel as a state machine: `check_virtual_memory`, `schedule`, `run`,
`exception` and `kernel` of kernel.c, and the steps of a run.

# States

Between two exceptions the processor is in user mode and runs `current`.
These are the states of a run. `kernel` leads to the first one, and
`exception` from one to the next, unless it stops: with a panic, in the
scheduler's loop when nothing is runnable (`hang`), or with an effect
outside the model (`wild`).

# Steps

A user step changes bytes that the processor lets the process write:
those it reaches through its page table with `P`, `W` and `U` at every
level. A trap hands arbitrary registers to `exception`: a system call
with any arguments, a timer interrupt, a page fault.

# The way into the kernel

The processor pushes the registers on the kernel's stack while the
process's page table is still in use. If that table does not map the
stack, what `exception` reads is not modelled (`wild`).
-/
import RojocOS.Kernel.Calls
import Mathlib.Logic.Relation

namespace RojocOS.Kernel

open ByteMap

variable (E : KEnv)

-- ==== the self-check

/-- The assertions of `check_page_table_mappings(pt)`. -/
def MappingsOk (m : ByteMap) (pt : Nat) : Prop :=
  pt % 4096 = 0
    ∧ (∀ i ∈ List.range ((E.endAddr - 0x40000 + 4095) / 4096),
        (virtualMemoryLookup m pt (0x40000 + i * 4096)).pa
            = 0x40000 + i * 4096
          ∧ (E.startData ≤ 0x40000 + i * 4096 →
              (virtualMemoryLookup m pt (0x40000 + i * 4096)).perm / 2 % 2
                = 1))
    ∧ (virtualMemoryLookup m pt 0x9F000).pa = 0x9F000
    ∧ (virtualMemoryLookup m pt 0x9F000).perm / 2 % 2 = 1

instance (m : ByteMap) (pt : Nat) : Decidable (MappingsOk E m pt) :=
  inferInstanceAs (Decidable (_ ∧ _))

/-- The assertions of `check_page_table_ownership_level`, with `n` levels
below `pt`. -/
def OwnedTree (s : KState) (owner : Int) : Nat → Nat → Int → Prop
  | 0, pt, refcount =>
      i32 (pt / 4096) < 512
        ∧ (s.pageinfo (i32 (pt / 4096)).toNat).owner = owner
        ∧ (s.pageinfo (i32 (pt / 4096)).toNat).refcount = refcount
  | n + 1, pt, refcount =>
      (i32 (pt / 4096) < 512
        ∧ (s.pageinfo (i32 (pt / 4096)).toNat).owner = owner
        ∧ (s.pageinfo (i32 (pt / 4096)).toNat).refcount = refcount)
      ∧ ∀ i ∈ List.range 512, getEntry s.mem pt i ≠ 0 →
          OwnedTree s owner n (pteAddr (getEntry s.mem pt i)) 1

instance decidableOwnedTree (s : KState) (owner : Int) :
    ∀ n pt refcount, Decidable (OwnedTree s owner n pt refcount)
  | 0, _, _ => inferInstanceAs (Decidable (_ ∧ _))
  | n + 1, _, _ =>
      have : ∀ pt refcount, Decidable (OwnedTree s owner n pt refcount) :=
        decidableOwnedTree s owner n
      inferInstanceAs (Decidable (_ ∧ _))

/-- The processes that use the kernel's page table as their own. -/
def kernelTableUsers (s : KState) : Nat :=
  ((List.range 16).filter fun i : Nat =>
    (s.processes i).state ≠ .free
      ∧ (s.processes i).pagetable = E.kernelPagetables).length

/-- The check of one process. -/
def ProcessOk (s : KState) (i : Nat) : Prop :=
  (s.processes i).state ≠ .free → (s.processes i).state ≠ .broken →
    (s.processes i).pagetable ≠ E.kernelPagetables →
    MappingsOk E s.mem (s.processes i).pagetable
      ∧ OwnedTree s i 3 (s.processes i).pagetable 1

instance (s : KState) (i : Nat) : Decidable (ProcessOk E s i) :=
  inferInstanceAs (Decidable (_ → _))

/-- `check_virtual_memory`. -/
def checkVirtualMemory : KM Unit := do
  let s ← Prog.get
  Prog.assert ((s.processes 0).state = .free)
  Prog.assert (MappingsOk E s.mem E.kernelPagetables)
  Prog.assert (OwnedTree s PO_KERNEL 3 E.kernelPagetables
    (1 + kernelTableUsers E s))
  Prog.assert (∀ i ∈ List.range 16, ProcessOk E s i)
  Prog.assert (∀ pn ∈ List.range 512, 0 < (s.pageinfo pn).refcount →
    0 ≤ (s.pageinfo pn).owner →
    (s.processes (s.pageinfo pn).owner).state ≠ .free)

-- ==== scheduling

/-- `run(p)`. -/
def run (pid : Int) : KM Unit := do
  let s ← Prog.get
  Prog.assert ((s.processes pid).state = .runnable)
  Prog.modify fun s => { s with current := pid }
  setPagetable E (s.processes pid).pagetable

/-- The loop of `schedule`. No process changes its state in it, so a
round without a runnable process repeats forever. -/
def scheduleLoop : Nat → Int → KM Unit
  | 0, _ => Prog.stop .hang
  | n + 1, pid => do
      let s ← Prog.get
      if (s.processes ((pid + 1) % 16)).state = .runnable then
        run E ((pid + 1) % 16)
      else do
        checkKeyboardPush E
        scheduleLoop n ((pid + 1) % 16)

/-- `schedule`. -/
def schedule : KM Unit := do
  let s ← Prog.get
  scheduleLoop E 16 s.cur.pid

/-- The end of `exception`. -/
def resume : KM Unit := do
  let s ← Prog.get
  if s.cur.state = .runnable then run E s.current else schedule E

-- ==== exception

/-- The cases of `exception`. -/
inductive Trap where
  | timer | pagefault
  | panic | read | write | open | hello | forget | wait | keybord
  | pageAlloc | yield | getpid | fork | execv | exit | kill | getcwd
  | chdir | mkdir | getrandom | listdir | touch | remove
  | unexpected
  deriving DecidableEq, Repr

/-- The interrupt numbers, `INT_SYS` and up for system calls. -/
def trapOf (intno : Nat) : Trap :=
  if intno = 32 then .timer
  else if intno = 14 then .pagefault
  else if intno < 48 then .unexpected
  else ([.panic, .read, .write, .open, .unexpected, .unexpected, .unexpected,
    .hello, .forget, .wait, .keybord, .pageAlloc, .yield, .getpid, .fork,
    .execv, .exit, .kill, .getcwd, .chdir, .mkdir, .getrandom, .listdir,
    .touch, .remove] : List Trap).getD (intno - 48) .unexpected

/-- `INT_PAGEFAULT`. -/
def pageFault : KM Unit := do
  let s ← Prog.get
  Prog.failIf (s.cur.registers.err / 4 % 2 = 0) .panic
  Prog.modify fun s => s.updProc s.current fun p => { p with state := .broken }

/-- The `switch` of `exception`, with what follows it. -/
def dispatch : Trap → KM Unit
  | .timer => do
      Prog.modify fun s => { s with ticks := u32 (s.ticks + 1) }
      schedule E
  | .yield => schedule E
  | .panic => Prog.stop .panic
  | .unexpected => Prog.stop .panic
  | .pagefault => do pageFault; resume E
  | .read => do sysRead E; resume E
  | .write => do sysWrite E; resume E
  | .open => do sysOpen E; resume E
  | .hello => do sysHello E; resume E
  | .forget => do sysForget; resume E
  | .wait => do sysWait E; resume E
  | .keybord => do sysKeybord E; resume E
  | .pageAlloc => do sysPageAlloc; resume E
  | .getpid => do sysGetpid; resume E
  | .fork => do sysFork; resume E
  | .execv => do sysExecv E; resume E
  | .exit => do sysExit E; resume E
  | .kill => do sysKill E; resume E
  | .getcwd => do sysGetcwd E; resume E
  | .chdir => do sysChdir E; resume E
  | .mkdir => do sysMkdir E; resume E
  | .getrandom => do sysGetrandom E; resume E
  | .listdir => do sysListdir E; resume E
  | .touch => do sysTouch E; resume E
  | .remove => do sysRemove E; resume E

/-- The way into the kernel, up to the call of `exception`. -/
def enter (regs : Registers) : KM Unit := do
  let s ← Prog.get
  Prog.failIf ((virtualMemoryLookup s.mem s.cur.pagetable 0x9F000).pa
    ≠ 0x9F000) .wild
  Prog.modify fun s => s.updProc s.current fun p => { p with registers := regs }

/-- `exception(reg)`. -/
def exception (regs : Registers) : KM Unit := do
  enter regs
  setPagetable E E.kernelPagetables
  Prog.when (regs.intno ≠ 14 ∨ regs.err / 4 % 2 = 1) (checkVirtualMemory E)
  checkKeyboardPush E
  dispatch E (trapOf regs.intno)

-- ==== boot

/-- `fs_init(&fsdesc, …)`, whose result is not looked at. -/
def initFs : KM Unit := do
  let s ← Prog.get
  match ← fsCall (Fs.fsInit E.fsEnv s.desc) with
  | .error _ => pure ()
  | .ok d => Prog.modify fun s => { s with desc := d }

/-- "Set up process descriptors." -/
def clearProcesses (s : KState) : KState :=
  { s with
    processes := fun i =>
      if i = 0 then { Proc.zero 0 with cwd := [Fs.slash] }
      else if 0 < i ∧ i < 16 then Proc.zero i
      else s.processes i }

/-- `kernel()`, from `hardware_init` on. -/
def boot : KM Unit := do
  virtualMemoryInit E
  pageinfoInit E
  let _ ← virtualMemoryMap E.kernelPagetables 0 0 4096 1 none
  initFs E
  Prog.modify clearProcesses
  processSetup E 5 2 0
  processSetup E 1 1 0
  run E 1

/-- Memory as the boot loader leaves it: any bytes, with the kernel's
variables zero. -/
structure BootStart (s : KState) : Prop where
  heapPages : s.heapPages = []
  freeList : s.freeList = 0
  pageno : s.pageno = 0
  desc : s.desc = Fs.FsDescriptor.zero

/-- The state `kernel()` reaches. -/
def Booted (s : KState) : Prop :=
  ∃ s₀, BootStart s₀ ∧ boot E s₀ = (.ok (), s)

-- ==== runs

/-- The walk of the processor for a user write: every level has `P`, `W`
and `U`. -/
def userWalk (m : ByteMap) (va : Nat) : Nat → Nat → Nat → Option Nat
  | 0, _, pt => some (pt + va % 4096)
  | n + 1, level, pt =>
      if getEntry m pt (pageindex va level) % 8 = 7 then
        userWalk m va n (level + 1)
          (pteAddr (getEntry m pt (pageindex va level)))
      else none

/-- A byte the current process can write. -/
def UserWritable (s : KState) (x : Nat) : Prop :=
  ∃ va, userWalk s.mem va 4 0 s.cur.pagetable = some x

/-- What happens in user mode: a write, or a trap. -/
inductive Event where
  | user (m : ByteMap)
  | trap (regs : Registers)

/-- One step of a run. A user write to the kernel's own pages would change
variables that this model keeps elsewhere. -/
inductive KStep (E : KEnv) : KState → Event → KState → Prop
  | user {s m}
      (h : ∀ x, m x ≠ s.mem x → UserWritable s x ∧ ¬ E.KernelPage (x / 4096)) :
      KStep E s (.user m) { s with mem := m }
  | trap {s regs s'} (h : exception E regs s = (.ok (), s')) :
      KStep E s (.trap regs) s'

/-- A run whose every step meets `C`. -/
def KRun (C : KState → Event → Prop) : KState → KState → Prop :=
  Relation.ReflTransGen fun s s' => ∃ ev, C s ev ∧ KStep E s ev s'

/-- The process is one the scheduler may run now or later. -/
def KState.Live (s : KState) (pid : Int) : Prop :=
  1 ≤ pid ∧ pid < 16
    ∧ ((s.processes pid).state = .runnable ∨ (s.processes pid).state = .blocked)

end RojocOS.Kernel
