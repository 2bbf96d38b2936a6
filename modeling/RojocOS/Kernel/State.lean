/-
The state of the kernel.

# Memory

`mem` is physical memory. The kernel's own variables are fields of their
own and not bytes of `mem`: a write that the kernel makes through a
process-supplied pointer into its image or stack stops with `wild`,
since it would change variables this model keeps elsewhere. The five
pages of `kernel_pagetables` are part of the image and do live in `mem`.

# Process table

`processes` is indexed by `Int`, as the C array is by `int`: entries
outside `0 .. NPROC-1` stand for the kernel memory around the array,
which `process_kill` and `sys_wait` can reach.

# Constants

    PAGESIZE            4096        NPROC                16
    KERNEL_START_ADDR   0x40000     KERNEL_STACK_TOP     0xA0000
    PROC_START_ADDR     0x100000    MEMSIZE_PHYSICAL     0x200000
    MEMSIZE_VIRTUAL     0x300000    NPAGES               512
    console             0xB8000     NPAGETABLEENTRIES    512
    PTE_P 1  PTE_W 2  PTE_U 4
-/
import RojocOS.Fs.Run

namespace RojocOS.Kernel

open ByteMap

-- ==== owners

/-- `pageowner_t`: the constants, or a process id. -/
def PO_FREE : Int := 0
def PO_RESERVED : Int := -1
def PO_KERNEL : Int := -2
def PO_KERNEL_HEAP : Int := -3

/-- `physical_pageinfo`. -/
structure PageInfo where
  owner : Int
  refcount : Int
  deriving DecidableEq, Repr

-- ==== processes

/-- `x86_64_registers`, less its padding. -/
structure Registers where
  rax : Nat := 0
  rcx : Nat := 0
  rdx : Nat := 0
  rbx : Nat := 0
  rbp : Nat := 0
  rsi : Nat := 0
  rdi : Nat := 0
  r8 : Nat := 0
  r9 : Nat := 0
  r10 : Nat := 0
  r11 : Nat := 0
  r12 : Nat := 0
  r13 : Nat := 0
  r14 : Nat := 0
  r15 : Nat := 0
  fs : Nat := 0
  gs : Nat := 0
  intno : Nat := 0
  err : Nat := 0
  rip : Nat := 0
  cs : Nat := 0
  rflags : Nat := 0
  rsp : Nat := 0
  ss : Nat := 0
  deriving DecidableEq, Repr

/-- `procstate_t`. -/
inductive ProcState where
  | free
  | runnable
  | blocked
  | broken
  deriving DecidableEq, Repr

/-- `proc`. The string in `p_cwd` is the list of its bytes; `fdList` and
`waitExitCode` are the pointers they are in the source. -/
structure Proc where
  pid : Int
  parent : Int
  registers : Registers
  state : ProcState
  waitPid : Int
  waitExitCode : Nat
  exitCode : Int
  cwd : Fs.Path
  pagetable : Nat
  fdList : Nat
  fdMax : Int
  deriving DecidableEq, Repr

/-- A process table entry after `memset(processes, 0, …)`. -/
def Proc.zero (pid : Int) : Proc :=
  { pid, parent := 0, registers := {}, state := .free, waitPid := 0
    waitExitCode := 0, exitCode := 0, cwd := [], pagetable := 0
    fdList := 0, fdMax := 0 }

-- ==== environment

/-- A program header of a RAM image. Programs are linked from
`PROC_START_ADDR` on; the model takes them to end below 2 MiB. -/
structure Segment where
  load : Bool
  va : Nat
  filesz : Nat
  memsz : Nat
  /-- The bytes at `p_offset` in the image. -/
  data : ByteMap
  start_le : 0x100000 ≤ va
  filesz_le : filesz ≤ memsz
  end_le : va + memsz ≤ 0x200000

/-- A RAM image: an ELF file linked into the kernel. It has a text
segment. -/
structure Image where
  magic : Bool
  entry : Nat
  segments : List Segment
  text : ∃ g ∈ segments, g.load = true ∧ 0 < g.memsz

/-- What the kernel is linked and run with. The last fields are what
kernel.ld says about the addresses: the image starts at
`KERNEL_START_ADDR`, holds the page tables and the code, and ends below
the kernel's stack. -/
structure KEnv where
  fs : Fs.FsEnv
  /-- The answers of `keyboard_readc`, in order. -/
  keyboard : Nat → Int
  /-- The answers of `get_entropy_value`, in order. -/
  entropy : Nat → Nat
  /-- The linker's `end` and `start_data`. -/
  endAddr : Nat
  startData : Nat
  /-- The addresses of `kernel_pagetables`, `default_int_handler` and
  `virtual_memory_map`. -/
  kernelPagetables : Nat
  defaultIntHandler : Nat
  virtualMemoryMapAddr : Nat
  /-- `ramimages`. -/
  image : Nat → Image
  /-- The loops that need fuel get this much of it. -/
  fuel : Nat
  pagetables_aligned : kernelPagetables % 4096 = 0
  pagetables_start : 0x40000 ≤ kernelPagetables
  pagetables_end : kernelPagetables + 5 * 4096 ≤ endAddr
  handler_mem : 0x40000 ≤ defaultIntHandler ∧ defaultIntHandler < endAddr
  map_mem : 0x40000 ≤ virtualMemoryMapAddr ∧ virtualMemoryMapAddr < endAddr
  end_le : endAddr ≤ 0x9F000

/-- The file system's environment: its random bytes are the low bytes
of `get_entropy_value`. -/
def KEnv.fsEnv (E : KEnv) : Fs.FsEnv :=
  { E.fs with rand := fun i => UInt8.ofNat (E.entropy i) }

/-- The page lies in the kernel's image, or is its stack. -/
def KEnv.KernelPage (E : KEnv) (pn : Nat) : Prop :=
  (0x40 ≤ pn ∧ pn * 4096 < E.endAddr) ∨ pn = 0x9F

instance (E : KEnv) (pn : Nat) : Decidable (E.KernelPage pn) :=
  inferInstanceAs (Decidable (_ ∨ _))

-- ==== state

/-- The kernel's variables and the machine's memory. -/
structure KState where
  mem : ByteMap
  pageinfo : Nat → PageInfo
  /-- `page_alloc`'s static cursor. -/
  pageno : Nat
  processes : Int → Proc
  /-- The index of the process `current` points to. -/
  current : Int
  /-- `heap_pageinfo[0 .. heap_pagecount)`. -/
  heapPages : List Nat
  freeList : Nat
  stdinBuffer : Nat → Int
  stdinNext : Nat
  stdinEnd : Nat
  /-- Keyboard polls made, and entropy values drawn, so far. -/
  polls : Nat
  draws : Nat
  /-- `fsdesc`, the disk behind it and the accesses made to it. -/
  desc : Fs.FsDescriptor
  disk : ByteMap
  io : Nat
  ticks : Nat
  memshowEnabled : Bool

/-- A small kernel, linked at the start of its image, with programs of
one byte. -/
def plainKEnv : KEnv where
  fs := Fs.plainEnv
  keyboard := fun _ => -1
  entropy := fun i => i
  endAddr := 0x46000
  startData := 0x41000
  kernelPagetables := 0x41000
  defaultIntHandler := 0x40000
  virtualMemoryMapAddr := 0x40100
  image := fun _ =>
    { magic := true
      entry := 0x100000
      segments := [⟨true, 0x100000, 1, 1, zero, by decide, by decide, by decide⟩]
      text := ⟨_, List.mem_singleton_self _, rfl, by decide⟩ }
  fuel := 64
  pagetables_aligned := by decide
  pagetables_start := by decide
  pagetables_end := by decide
  handler_mem := by decide
  map_mem := by decide
  end_le := by decide

/-- A machine that has just been switched on. -/
def blank : KState where
  mem := zero
  pageinfo := fun _ => ⟨0, 0⟩
  pageno := 0
  processes := Proc.zero
  current := 0
  heapPages := []
  freeList := 0
  stdinBuffer := fun _ => 0
  stdinNext := 0
  stdinEnd := 0
  polls := 0
  draws := 0
  desc := Fs.FsDescriptor.zero
  disk := zero
  io := 0
  ticks := 0
  memshowEnabled := false

/-- A computation of the kernel. -/
abbrev KM := Prog KState

namespace KState

/-- The process that is running. -/
def cur (s : KState) : Proc := s.processes s.current

/-- Change one entry of the process table. -/
def updProc (s : KState) (pid : Int) (f : Proc → Proc) : KState :=
  { s with processes := fun i => if i = pid then f (s.processes i)
      else s.processes i }

theorem updProc_same (s : KState) (pid : Int) (f : Proc → Proc) :
    (s.updProc pid f).processes pid = f (s.processes pid) :=
  if_pos rfl

theorem updProc_other (s : KState) {pid i : Int} (f : Proc → Proc)
    (h : i ≠ pid) : (s.updProc pid f).processes i = s.processes i :=
  if_neg h

end KState

/-- `current->p_registers.reg_rax = v`. -/
def setRax (v : Nat) : KM Unit :=
  Prog.modify fun s => s.updProc s.current fun p =>
    { p with registers := { p.registers with rax := v } }

-- ==== kernel addresses

/-- A read of `n` bytes at `a` under the kernel's page table, which maps
the physical memory and nothing else: outside it the kernel faults, and
a fault in the kernel is a panic. -/
def guardRead (a n : Nat) : KM Unit :=
  Prog.failIf (0 < n ∧ 0x200000 < a + n) .panic

/-- A write of `n` bytes at `a`: page 0 is mapped read-only, and a write
into the kernel's image or stack leaves what is modelled. -/
def guardWrite (E : KEnv) (a n : Nat) : KM Unit := do
  Prog.failIf (0 < n ∧ (0x200000 < a + n ∨ a < 4096)) .panic
  Prog.failIf (0 < n ∧ ((0x40000 < a + n ∧ a / 4096 * 4096 < E.endAddr)
    ∨ (0x9F000 < a + n ∧ a < 0xA0000))) .wild

/-- Writing bytes through a pointer. -/
def writeAt (E : KEnv) (a : Nat) (src : ByteMap) (n : Nat) : KM Unit := do
  guardWrite E a n
  Prog.modify fun s => { s with mem := copy s.mem a src 0 n }

/-- The C string at `a`, looking at `n` bytes. -/
def strAt (m : ByteMap) : Nat → Nat → Option Fs.Path
  | 0, _ => none
  | n + 1, a =>
      if m a = 0 then some [] else (strAt m n (a + 1)).map (m a :: ·)

/-- Reading the C string at `a`: it has to end inside memory. -/
def readStr (a : Nat) : KM Fs.Path := do
  let s ← Prog.get
  match strAt s.mem (0x200000 - a) a with
  | none => Prog.stop .panic
  | some str => pure str

/-- The bytes of a string and its terminator, as a source to copy
from. -/
def strBytes (str : Fs.Path) : ByteMap := fun i => str.getD i 0

end RojocOS.Kernel
