/-
Pages and processes: `pageinfo_init`, `page_alloc`, `pagetable_alloc`,
`process_setup` and `process_kill` of kernel.c, `process_init` of
k-hardware.c, and the program loader of k-loader.c.

# Writing through a process's page table

`program_load_segment` switches to the process's page table and copies
the image to virtual addresses. The model does it page by page: the
translation of a page, then the bytes of the image that fall in it. A
page that is not mapped is a fault in the kernel, that is a panic.
-/
import RojocOS.Kernel.Vm

namespace RojocOS.Kernel

open ByteMap

variable (E : KEnv)

-- ==== pages

/-- `physical_memory_isreserved`. -/
def physicalMemoryIsreserved (pa : Nat) : Bool :=
  pa == 0 || (0xA0000 ≤ pa && pa < 0x100000)

/-- The owner `pageinfo_init` gives a page. -/
def bootOwner (pn : Nat) : Int :=
  if physicalMemoryIsreserved (pn * 4096) then PO_RESERVED
  else if E.KernelPage pn then PO_KERNEL
  else PO_FREE

/-- `pageinfo_init`. -/
def pageinfoInit : KM Unit :=
  Prog.modify fun s =>
    { s with
      pageinfo := fun pn =>
        if pn < 512 then
          ⟨bootOwner E pn, if bootOwner E pn ≠ PO_FREE then 1 else 0⟩
        else s.pageinfo pn }

/-- The page at the cursor goes to `owner`, cleared. -/
def takePage (owner : Int) (s : KState) : KState :=
  { s with
    pageinfo := fun pn =>
      if pn = s.pageno then ⟨owner, (s.pageinfo pn).refcount + 1⟩
      else s.pageinfo pn
    mem := fill s.mem (s.pageno * 4096) 4096 0 }

/-- The scan of `page_alloc`, `n` tries to go. The cursor stays on the
page it found. -/
def pageAllocLoop (owner : Int) : Nat → KM Nat
  | 0 => pure 0
  | n + 1 => do
      let s ← Prog.get
      if (s.pageinfo s.pageno).owner = PO_FREE then do
        Prog.modify (takePage owner)
        pure (s.pageno * 4096)
      else do
        Prog.modify fun s => { s with pageno := (s.pageno + 1) % 512 }
        pageAllocLoop owner n

/-- `page_alloc(owner)`: a page, or `0`. -/
def pageAlloc (owner : Int) : KM Nat := pageAllocLoop owner 512

/-- `pagetable_alloc`. -/
def pagetableAlloc : KM Nat := do
  let s ← Prog.get
  pageAlloc s.cur.pid

-- ==== loader

/-- The allocation loop of `program_load_segment`, `n` pages to go. -/
def loadPages (pid : Int) (pagetable : Nat) : Nat → Nat → KM Int
  | 0, _ => pure 0
  | n + 1, addr => do
      let paddr ← pageAlloc pid
      if paddr = 0 then pure (-1)
      else do
        let r ← virtualMemoryMap pagetable addr paddr 4096 7
          (some pagetableAlloc)
        if r < 0 then pure (-1)
        else loadPages pid pagetable n (addr + 4096)

/-- `memcpy` of the image and `memset` of what follows it, through the
process's page table: `n` pages to go, bytes from `endMem` on are left
alone. -/
def fillPages (pagetable : Nat) (bytes : ByteMap) (endMem : Nat) :
    Nat → Nat → KM Unit
  | 0, _ => pure ()
  | n + 1, addr => do
      let s ← Prog.get
      let vam := virtualMemoryLookup s.mem pagetable addr
      Prog.failIf (vam.pn = -1) .panic
      Prog.modify fun s => { s with
        mem := copy s.mem vam.pa bytes addr (min 4096 (endMem - addr)) }
      fillPages pagetable bytes endMem n (addr + 4096)

/-- `program_load_segment`. The copy starts at the page boundary below
the segment. -/
def programLoadSegment (pid : Int) (g : Segment) : KM Int := do
  let s ← Prog.get
  let pagetable := (s.processes pid).pagetable
  let endFile := g.va + g.filesz
  let endMem := g.va + g.memsz
  let va := g.va / 4096 * 4096
  let n := (endMem - va + 4095) / 4096
  let r ← loadPages pid pagetable n va
  if r < 0 then pure (-1)
  else do
    setPagetable E pagetable
    fillPages pagetable
      (fun a => if a < endFile then g.data (a - va) else 0) endMem n va
    setPagetable E E.kernelPagetables
    pure 0

/-- The segment loop of `program_load`. -/
def loadSegments (pid : Int) : List Segment → KM Int
  | [] => pure 0
  | g :: gs => do
      if g.load then do
        let r ← programLoadSegment E pid g
        if r < 0 then pure (-1) else loadSegments pid gs
      else loadSegments pid gs

/-- `program_load(p, programnumber, pagetable_alloc)`. -/
def programLoad (pid : Int) (programnumber : Nat) : KM Int := do
  Prog.assert (programnumber < 11)
  Prog.assert ((E.image programnumber).magic = true)
  let r ← loadSegments E pid (E.image programnumber).segments
  if r < 0 then pure (-1)
  else do
    Prog.modify fun s => s.updProc pid fun p =>
      { p with registers := { p.registers with
          rip := (E.image programnumber).entry } }
    pure 0

-- ==== setup

/-- The registers `process_init(p, 0)` sets. -/
def initRegisters : Registers :=
  { cs := 0x13, fs := 0x23, gs := 0x23, ss := 0x23, rflags := 0x200 }

/-- The three kernel mappings of `process_setup`: the image up to and
including the page of `end`, the stack, and the console, which is the
process's too. Their results are not looked at. -/
def mapKernel (pagetable : Nat) : KM Unit := do
  let _ ← virtualMemoryMap pagetable 0x40000 0x40000
    ((E.endAddr / 4096 + 1) * 4096 - 0x40000) 3 (some pagetableAlloc)
  let _ ← virtualMemoryMap pagetable 0x9F000 0x9F000 4096 3
    (some pagetableAlloc)
  let _ ← virtualMemoryMap pagetable 0xB8000 0xB8000 4096 7
    (some pagetableAlloc)
  pure ()

/-- The stack page of `process_setup`; neither result is looked at. -/
def mapStack (pid : Int) (pagetable : Nat) : KM Unit := do
  let pstackPage ← pageAlloc pid
  let _ ← virtualMemoryMap pagetable 0x2FF000 pstackPage 4096 7
    (some pagetableAlloc)
  pure ()

/-- `process_setup(pid, program_number, parent)`. -/
def processSetup (pid : Int) (programNumber : Nat) (parent : Int) :
    KM Unit := do
  Prog.modify fun s => s.updProc pid fun p =>
    { p with registers := initRegisters }
  Prog.modify fun s => { s with current := pid }
  let pagetable ← pagetableAlloc
  Prog.assert (pagetable ≠ 0)
  mapKernel E pagetable
  Prog.modify fun s => s.updProc pid fun p => { p with pagetable := pagetable }
  let r ← programLoad E pid programNumber
  Prog.assert (0 ≤ r)
  Prog.modify fun s => s.updProc pid fun p =>
    { p with registers := { p.registers with rsp := 0x300000 } }
  mapStack pid pagetable
  Prog.modify fun s => s.updProc pid fun p =>
    { p with
      parent := parent
      state := .runnable
      waitPid := -1
      fdMax := 0
      fdList := 0
      cwd := (s.processes parent).cwd }

-- ==== kill

/-- The release loop of `process_kill` and `sys_execv`: every page of
`pid` that is not kept is free again. A failed assertion on a reference
count ends the run, so it can come first. -/
def releasePages (pid : Int) (keep : Nat → Bool) : KM Unit := do
  let s ← Prog.get
  Prog.assert (∀ pn ∈ List.range 512, (s.pageinfo pn).owner = pid →
    keep pn = false → (s.pageinfo pn).refcount = 1)
  Prog.modify fun s =>
    { s with
      pageinfo := fun pn =>
        if pn < 512 ∧ (s.pageinfo pn).owner = pid ∧ keep pn = false then
          ⟨PO_FREE, 0⟩
        else s.pageinfo pn }

/-- `*parent->p_wait_exit_code = processes[pid].p_exit_code` and the
wake-up. -/
def wakeParent (pid parent : Int) : KM Unit := do
  let s ← Prog.get
  guardWrite E (s.processes parent).waitExitCode 4
  Prog.modify fun s => { s with
    mem := store s.mem (s.processes parent).waitExitCode 4
      (reg64 (s.processes pid).exitCode) }
  Prog.modify fun s => s.updProc parent fun p => { p with state := .runnable }

/-- `process_kill(pid)`. -/
def processKill (pid : Int) : KM Unit := do
  Prog.modify fun s => s.updProc pid fun p => { p with state := .broken }
  releasePages pid fun _ => false
  let s ← Prog.get
  let parent := (s.processes pid).parent
  if 1 ≤ parent then do
    Prog.assert (parent < 16)
    if (s.processes parent).waitPid = pid then wakeParent E pid parent
    else pure ()
  else pure ()

end RojocOS.Kernel
