/-
The system calls of kernel.c, k-filedescriptor.c and k-malloc.c's
`testmalloc`.

# Arguments

A handler reads its arguments from the saved registers of the current
process and truncates them to the C type of the variable. A pointer
argument is a virtual address of the process; the handler translates its
first byte and works on physical memory from there.

# Strings

`readStr` looks for the end of a string inside memory. Every handler
prints the path it was given (`log_printf("… %s")`), so a path that does
not end is a fault even where a comparison would have stopped early.

# File system calls

`fsCall` runs a file system operation that has no buffer argument;
`fsCallBuf` runs one whose buffer is physical memory from `pa` on. An
error code is a value of the call. Accesses to the buffer outside memory
fault.

# File descriptors

An entry is 24 bytes of heap: `fd` @0, `inode` @4, `offset` @8, `next`
@16. The list functions get the address of the list head and advance the
head itself while they search.
-/
import RojocOS.Kernel.Malloc
import RojocOS.Kernel.Path
import RojocOS.Kernel.Proc

namespace RojocOS.Kernel

open ByteMap Fs

variable (E : KEnv)

-- ==== file system

/-- What the first access outside memory stops with. -/
def accessStop (pa : Nat) (a : Access) : Option Stop :=
  if a.len = 0 then none
  else if 0x200000 < pa + a.off + a.len then some .panic
  else if a.write = true ∧ pa + a.off < 4096 then some .panic
  else if a.write = true
      ∧ ((0x40000 < pa + a.off + a.len
            ∧ (pa + a.off) / 4096 * 4096 < E.endAddr)
          ∨ (0x9F000 < pa + a.off + a.len ∧ pa + a.off < 0xA0000)) then
    some .wild
  else none

/-- A file system call on the buffer at physical address `pa`. -/
def fsCallBuf {α : Type} (pa : Nat) (x : FsM α) : KM (Except Int α) :=
  fun s =>
    let (r, w) := x { disk := s.disk, io := s.io, rng := s.draws
                      buf := fun i => s.mem (pa + i) }
    let s' := { s with
      disk := w.disk, io := w.io, draws := w.rng
      mem := fun a => if pa ≤ a then w.buf (a - pa) else s.mem a }
    match w.trace.reverse.findSome? (accessStop E pa), r with
    | some e, _ => (.error e, s')
    | none, .ok a => (.ok (.ok a), s')
    | none, .error (.err c) => (.ok (.error c), s')
    | none, .error e => (.error e, s')

/-- A file system call without a buffer. -/
def fsCall {α : Type} (x : FsM α) : KM (Except Int α) := fun s =>
  let (r, w) := x { disk := s.disk, io := s.io, rng := s.draws, buf := zero }
  let s' := { s with disk := w.disk, io := w.io, draws := w.rng }
  match r with
  | .ok a => (.ok (.ok a), s')
  | .error (.err c) => (.ok (.error c), s')
  | .error e => (.error e, s')

-- ==== paths

/-- The physical address the current process's table gives `va`. -/
def lookupVa (va : Nat) : KM Nat := do
  let s ← Prog.get
  pure (virtualMemoryLookup s.mem s.cur.pagetable va).pa

/-- `kernel_malloc`. -/
def kmalloc (size : Nat) : KM Nat :=
  kernelMalloc E (pageAlloc PO_KERNEL_HEAP) E.fuel size

/-- A string written to the 256-byte buffer of `resolve_path`. -/
def writePath (buffer : Nat) (str : Path) : KM Unit := do
  Prog.failIf (buffer = 0) .panic
  Prog.failIf (256 ≤ str.length) .wild
  Prog.modify fun s => { s with
    mem := copy s.mem buffer (strBytes str) 0 (str.length + 1) }

/-- `join_path(cwd, path, buffer)`. -/
def joinPath (cwd path : Path) (buffer : Nat) : KM Path :=
  if path.head? = some slash then do
    writePath buffer (joinAbsolute path)
    pure (joinAbsolute path)
  else do
    writePath buffer (joinStart cwd)
    writePath buffer (joinRelative cwd path)
    pure (joinRelative cwd path)

/-- `resolve_path((char *) pa)`. -/
def resolvePath (pa : Nat) : KM Path := do
  let _ ← readStr pa
  let buffer ← kmalloc E 256
  let path ← readStr pa
  let s ← Prog.get
  joinPath s.cur.cwd path buffer

-- ==== file descriptors

/-- `*fdl = (*fdl)->next`. -/
def fdAdvance : KM Unit := do
  let s ← Prog.get
  guardRead (s.cur.fdList + 16) 8
  Prog.modify fun s => s.updProc s.current fun p =>
    { p with fdList := load s.mem (p.fdList + 16) 8 }

/-- The loop of `fdlist_add_entry`. -/
def fdlistDrain : Nat → KM Unit
  | 0 => Prog.stop .hang
  | fuel + 1 => do
      let s ← Prog.get
      if s.cur.fdList = 0 then pure ()
      else do
        fdAdvance
        fdlistDrain fuel

/-- `fdlist_add_entry(&current->fd_list, fd, inode)`. -/
def fdlistAddEntry (fd : Int) (inode : Nat) : KM Int := do
  fdlistDrain E.fuel
  let entry ← kmalloc E 24
  if entry = 0 then pure (-1)
  else do
    Prog.modify fun s => { s with
      mem := store (store (store (store s.mem entry 4 (reg64 fd))
        (entry + 4) 4 inode) (entry + 8) 4 0) (entry + 16) 8 0 }
    Prog.modify fun s => s.updProc s.current fun p => { p with fdList := entry }
    pure 0

/-- `fdlist_search_entry(&current->fd_list, fd)`. -/
def fdlistSearchEntry (fd : Nat) : Nat → KM Nat
  | 0 => Prog.stop .hang
  | fuel + 1 => do
      let s ← Prog.get
      if s.cur.fdList = 0 then pure 0
      else do
        guardRead s.cur.fdList 4
        if load s.mem s.cur.fdList 4 = fd then pure s.cur.fdList
        else do
          fdAdvance
          fdlistSearchEntry fd fuel

/-- `fdlist_remove_entry(&current->fd_list, fd)`. -/
def fdlistRemoveEntry (fd : Nat) : Nat → KM Int
  | 0 => Prog.stop .hang
  | fuel + 1 => do
      let s ← Prog.get
      if s.cur.fdList = 0 then pure (-1)
      else do
        guardRead s.cur.fdList 4
        if load s.mem s.cur.fdList 4 = fd then do
          fdAdvance
          pure 0
        else do
          fdAdvance
          fdlistRemoveEntry fd fuel

-- ==== read, write

/-- `entry->offset += n`, and `n` is the result. -/
def advance (entry : Nat) (n : Nat) (r : Int) : KM Unit := do
  guardWrite E (entry + 8) 4
  Prog.modify fun s => { s with
    mem := store s.mem (entry + 8) 4 (load s.mem (entry + 8) 4 + n) }
  setRax (reg64 r)

/-- `INT_SYS_READ`. A descriptor that is not found gives the entry at
address 0, which the kernel can read. -/
def sysRead : KM Unit := do
  let s ← Prog.get
  let buf ← lookupVa (u64 s.cur.registers.rsi)
  let entry ← fdlistSearchEntry (u32 s.cur.registers.rdi) E.fuel
  guardRead entry 12
  let t ← Prog.get
  let r ← fsCallBuf E buf (fsRead E.fsEnv t.desc E.fuel
    (load t.mem (entry + 4) 4) (u64 s.cur.registers.rdx)
    (sext (load t.mem (entry + 8) 4)))
  match r with
  | .error c => setRax (reg64 c)
  | .ok n =>
      if i32 n < 0 then setRax (reg64 (i32 n))
      else advance E entry (u32 n) (i32 n)

/-- `INT_SYS_WRITE`. -/
def sysWrite : KM Unit := do
  let s ← Prog.get
  let buf ← lookupVa (u64 s.cur.registers.rsi)
  let entry ← fdlistSearchEntry (u32 s.cur.registers.rdi) E.fuel
  if entry = 0 then setRax (reg64 (-1))
  else do
    guardRead entry 12
    let t ← Prog.get
    let size := u64 s.cur.registers.rdx
    let r ← fsCallBuf E buf (fsWrite E.fsEnv t.desc
      (load t.mem (entry + 4) 4) size (sext (load t.mem (entry + 8) 4)))
    match r with
    | .error c => setRax (reg64 c)
    | .ok n =>
        if i32 n < 0 then setRax (reg64 (i32 n))
        else advance E entry (u32 size) size

-- ==== calls with a path

/-- The resolved path argument in `%rdi`. -/
def pathArg : KM Path := do
  let s ← Prog.get
  let pa ← lookupVa (u64 s.cur.registers.rdi)
  resolvePath E pa

/-- `INT_SYS_OPEN`. -/
def sysOpen : KM Unit := do
  let path ← pathArg E
  let s ← Prog.get
  match ← fsCall (fsGetattr E.fsEnv s.desc path) with
  | .error c => setRax (reg64 c)
  | .ok inode => do
      Prog.modify fun s => s.updProc s.current fun p =>
        { p with fdMax := i32 (reg64 (p.fdMax + 1)) }
      let s ← Prog.get
      let r ← fdlistAddEntry E s.cur.fdMax inode
      if r < 0 then setRax (reg64 r) else setRax (reg64 s.cur.fdMax)

/-- `INT_SYS_REMOVE`. -/
def sysRemove : KM Unit := do
  let path ← pathArg E
  let s ← Prog.get
  match ← fsCall (fsRemove E.fsEnv s.desc path) with
  | .error _ => setRax (reg64 (-1))
  | .ok _ => setRax 0

/-- `INT_SYS_MKDIR`. -/
def sysMkdir : KM Unit := do
  let path ← pathArg E
  let s ← Prog.get
  match ← fsCall (fsTouch E.fsEnv s.desc path 0) with
  | .error c => setRax (reg64 c)
  | .ok _ => setRax 0

/-- `INT_SYS_TOUCH`. -/
def sysTouch : KM Unit := do
  let path ← pathArg E
  let s ← Prog.get
  match ← fsCall (fsAllocInode E.fsEnv s.desc) with
  | .error c => setRax (reg64 c)
  | .ok inode => do
      match ← fsCall (fsTouch E.fsEnv s.desc path (u32 inode)) with
      | .error c => setRax (reg64 c)
      | .ok _ => setRax 0

/-- `INT_SYS_CHDIR`. -/
def sysChdir : KM Unit := do
  let path ← pathArg E
  let s ← Prog.get
  match ← fsCall (fsGetattr E.fsEnv s.desc path) with
  | .error c => setRax (reg64 c)
  | .ok v =>
      if 0 < v then setRax (reg64 (-20))
      else do
        Prog.failIf (256 ≤ path.length) .wild
        Prog.modify fun s => s.updProc s.current fun p => { p with cwd := path }
        setRax 0

/-- `INT_SYS_GETCWD`. -/
def sysGetcwd : KM Unit := do
  let s ← Prog.get
  let buffer ← lookupVa (u64 s.cur.registers.rdi)
  writeAt E buffer (strBytes s.cur.cwd) (s.cur.cwd.length + 1)
  setRax 0

/-- The names `fs_readdir_next` delivers, a newline behind each; an
error ends the list. -/
def listNames (nodeIndex : Nat) : Nat → Nat → KM Path
  | 0, _ => pure []
  | n + 1, off => do
      let s ← Prog.get
      match ← fsCall (fsReaddirNext E.fsEnv s.desc nodeIndex off) with
      | .error _ => pure []
      | .ok name => do
          match strAt name 32 0 with
          | none => Prog.stop .wild
          | some str => do
              let rest ← listNames nodeIndex n (off + 1)
              pure (str ++ [10] ++ rest)

/-- `INT_SYS_LISTDIR`. -/
def sysListdir : KM Unit := do
  let path ← pathArg E
  let s ← Prog.get
  let buffer ← lookupVa (u64 s.cur.registers.rsi)
  match ← fsCall (fsReaddirInit E.fsEnv s.desc path) with
  | .error c => setRax (reg64 c)
  | .ok (nodeIndex, count) =>
      if count < 0 then setRax (reg64 count)
      else do
        let names ← listNames E nodeIndex count.toNat 0
        writeAt E buffer (strBytes names) (names.length + 1)
        setRax 0

-- ==== small calls

/-- `keyboard_readc` through `check_keyboard`: control-C powers off, and
escape overwrites memory that is in use. -/
def checkKeyboard : KM Int := do
  let s ← Prog.get
  let c := E.keyboard s.polls
  Prog.modify fun s => { s with polls := s.polls + 1 }
  Prog.failIf (c = 3) .hang
  Prog.failIf (c = 27) .wild
  pure c

/-- `check_keyboard_push`. -/
def checkKeyboardPush : KM Unit := do
  let c ← checkKeyboard E
  if c ≠ 0 ∧ c ≠ -1 then do
    Prog.modify fun s => { s with
      stdinBuffer := fun i => if i = s.stdinEnd then c else s.stdinBuffer i
      stdinEnd := (s.stdinEnd + 1) % 2024 }
    let s ← Prog.get
    Prog.assert (s.stdinNext ≠ s.stdinEnd)
  else pure ()

/-- `check_keyboard_pop`. -/
def checkKeyboardPop : KM Int := do
  let c ← checkKeyboard E
  let s ← Prog.get
  if c ≠ -1 then pure c
  else if s.stdinNext = s.stdinEnd then pure (-1)
  else do
    Prog.modify fun s => { s with stdinNext := (s.stdinNext + 1) % 2024 }
    pure (s.stdinBuffer s.stdinNext)

/-- `INT_SYS_KEYBORD`: `check_keyboard_pop`. -/
def sysKeybord : KM Unit := do
  let c ← checkKeyboard E
  let s ← Prog.get
  if c ≠ -1 then setRax (reg64 c)
  else if s.stdinNext = s.stdinEnd then setRax (reg64 (-1))
  else do
    Prog.modify fun s => { s with stdinNext := (s.stdinNext + 1) % 2024 }
    setRax (reg64 (s.stdinBuffer s.stdinNext))

/-- `INT_SYS_GETRANDOM`. -/
def sysGetrandom : KM Unit := do
  let s ← Prog.get
  Prog.modify fun s => { s with draws := s.draws + 1 }
  setRax (u32 (E.entropy s.draws))

/-- `INT_SYS_GETPID`. -/
def sysGetpid : KM Unit := do
  let s ← Prog.get
  setRax (reg64 s.cur.pid)

/-- `INT_SYS_HELLO`: 16 bytes of the disk are read and written back with
another first byte; no result is looked at. -/
def sysHello : KM Unit := do
  let r ← fsCall (fsdr E.fsEnv 0 16)
  let buffer := match r with
    | .ok b => b
    | .error _ => E.fs.stack
  let _ ← fsCall (fsdw E.fsEnv (store buffer 0 1 77) 0 16)
  let _ ← fsCall (fsdr E.fsEnv 0 16)
  pure ()

/-- `INT_SYS_PAGE_ALLOC`. The result of the mapping is not looked at. -/
def sysPageAlloc : KM Unit := do
  let s ← Prog.get
  let vaddr := u64 s.cur.registers.rdi
  let paddr ← pageAlloc s.cur.pid
  if paddr = 0 then setRax (reg64 (-1))
  else do
    let _ ← virtualMemoryMap s.cur.pagetable vaddr paddr 4096 7 none
    setRax vaddr

-- ==== exit, kill and wait

/-- `INT_SYS_EXIT`. -/
def sysExit : KM Unit := do
  Prog.modify fun s => s.updProc s.current fun p =>
    { p with exitCode := i32 p.registers.rdi }
  let s ← Prog.get
  processKill E s.cur.pid

/-- `INT_SYS_KILL`. -/
def sysKill : KM Unit := do
  setRax 0
  let s ← Prog.get
  processKill E (i32 s.cur.registers.rdi)

/-- `INT_SYS_WAIT`. -/
def sysWait : KM Unit := do
  let s ← Prog.get
  let pid := i32 s.cur.registers.rdi
  let exitCode ← lookupVa (u64 s.cur.registers.rsi)
  Prog.assert (1 ≤ pid)
  Prog.assert ((s.processes pid).parent = s.cur.pid)
  setRax 0
  if (s.processes pid).state = .broken then do
    guardWrite E exitCode 4
    Prog.modify fun s => { s with
      mem := store s.mem exitCode 4 (reg64 (s.processes pid).exitCode) }
  else
    Prog.modify fun s => s.updProc s.current fun p =>
      { p with state := .blocked, waitPid := pid, waitExitCode := exitCode }

/-- `INT_SYS_FORGET`. -/
def sysForget : KM Unit := do
  let s ← Prog.get
  let pid := i32 s.cur.registers.rdi
  Prog.assert (1 ≤ pid ∧ pid < 16)
  Prog.assert ((s.processes pid).parent = s.cur.pid)
  Prog.assert ((s.processes pid).state = .broken)
  Prog.modify fun s => s.updProc pid fun p => { p with state := .free }
  setRax 0

-- ==== fork

/-- The first free slot, process 0 excepted. -/
def freeSlot (s : KState) : Option Nat :=
  (List.range' 1 15).find? fun i => (s.processes i).state = .free

/-- One turn of the copy loop of `sys_fork`: a page of the parent is
copied, any other page is shared. The result of the mapping is not looked
at. -/
def forkPage (parent pid : Int) (pagetable va : Nat) : KM Unit := do
  let s ← Prog.get
  let vam := virtualMemoryLookup s.mem (s.processes parent).pagetable va
  if vam.pn = -1 then pure ()
  else do
    Prog.assert (0 ≤ vam.pn)
    if (s.pageinfo vam.pn.toNat).owner = (s.processes parent).pid then do
      let pa ← pageAlloc pid
      Prog.assert (pa ≠ 0)
      guardRead vam.pa 4096
      Prog.modify fun s => { s with mem := copy s.mem pa s.mem vam.pa 4096 }
      let _ ← virtualMemoryMap pagetable va pa 4096 vam.perm
        (some pagetableAlloc)
      pure ()
    else do
      let _ ← virtualMemoryMap pagetable va vam.pa 4096 vam.perm
        (some pagetableAlloc)
      pure ()

/-- The copy loop, `n` pages to go. -/
def forkPages (parent pid : Int) (pagetable : Nat) : Nat → Nat → KM Unit
  | 0, _ => pure ()
  | n + 1, va => do
      forkPage parent pid pagetable va
      forkPages parent pid pagetable n (va + 4096)

/-- The process table entry of the child. `fd_list` and `fd_max` are
what the slot held before. -/
def forkChild (parent pid : Int) (pagetable : Nat) (s : KState) : KState :=
  s.updProc pid fun p =>
    { p with
      parent := (s.processes parent).pid
      pagetable := pagetable
      registers := { (s.processes parent).registers with rax := 0 }
      state := .runnable
      waitPid := -1
      cwd := (s.processes parent).cwd }

/-- `sys_fork` once it has a slot. -/
def forkInto (pid : Int) : KM Unit := do
  let s ← Prog.get
  let parent := s.current
  Prog.modify fun s => { s with current := pid }
  let pagetable ← pagetableAlloc
  if pagetable = 0 then do
    Prog.modify fun s => { s with current := parent }
    setRax (reg64 (-1))
  else do
    forkPages parent pid pagetable 768 0
    Prog.modify (forkChild parent pid pagetable)
    Prog.modify fun s => { s with current := parent }
    setRax (reg64 pid)

/-- `INT_SYS_FORK`. -/
def sysFork : KM Unit := do
  let s ← Prog.get
  match freeSlot s with
  | none => setRax (reg64 (-1))
  | some pid => forkInto pid

-- ==== execv

/-- `strcpy(dst, src)`, byte by byte. -/
def strcpyLoop : Nat → Nat → Nat → KM Unit
  | 0, _, _ => Prog.stop .hang
  | n + 1, dst, src => do
      guardRead src 1
      guardWrite E dst 1
      let s ← Prog.get
      Prog.modify fun s => { s with mem := store s.mem dst 1 (s.mem src).toNat }
      if s.mem src = 0 then pure () else strcpyLoop n (dst + 1) (src + 1)

/-- `while (argv[argc]) argc++;`, or `none` if it runs out of memory. -/
def countArgs (m : ByteMap) (argv : Nat) : Nat → Nat → Option Nat
  | 0, _ => none
  | n + 1, argc =>
      if 0x200000 < argv + 8 * argc + 8 then none
      else if load m (argv + 8 * argc) 8 = 0 then some argc
      else countArgs m argv n (argc + 1)

/-- The copy loop of `sys_execv`, `n` arguments to go. -/
def copyArgs (pagetable argv pargs : Nat) : Nat → Nat → Nat → KM Unit
  | 0, _, _ => pure ()
  | n + 1, i, offset => do
      guardWrite E (pargs + 8 * i) 8
      Prog.modify fun s => { s with
        mem := store s.mem (pargs + 8 * i) 8 (0x140000 + offset) }
      let s ← Prog.get
      guardRead (argv + 8 * i) 8
      let src := (virtualMemoryLookup s.mem pagetable
        (load s.mem (argv + 8 * i) 8)).pa
      strcpyLoop E 0x200001 (pargs + offset) src
      let str ← readStr src
      copyArgs pagetable argv pargs n (i + 1) (offset + str.length + 1)

/-- `sys_execv` of a program, once `argc` is known. -/
def execArgs (programNumber argv argc : Nat) : KM Unit := do
  let s ← Prog.get
  let pargs ← pageAlloc s.cur.pid
  Prog.assert (pargs ≠ 0)
  copyArgs E s.cur.pagetable argv pargs argc 0 ((argc + 1) * 8)
  guardWrite E (pargs + 8 * argc) 8
  Prog.modify fun s => { s with mem := store s.mem (pargs + 8 * argc) 8 0 }
  releasePages s.cur.pid fun pn => pn * 4096 == pargs
  processSetup E s.cur.pid programNumber s.cur.parent
  let t ← Prog.get
  let r ← virtualMemoryMap t.cur.pagetable 0x140000 pargs 4096 7 none
  Prog.assert (r = 0)
  Prog.modify fun s => s.updProc s.current fun p =>
    { p with registers := { p.registers with rdi := argc, rsi := 0x140000 } }

/-- `sys_execv` of a program. -/
def execProgram (programNumber : Nat) : KM Unit := do
  let s ← Prog.get
  let argv ← lookupVa (u64 s.cur.registers.rsi)
  match countArgs s.mem argv 0x40001 0 with
  | none => Prog.stop .panic
  | some argc => execArgs E programNumber argv argc

/-- What a path given to `sys_execv` names. -/
inductive Command where
  | memshow (on : Bool)
  | clear
  | testmalloc
  | program (number : Nat)
  deriving DecidableEq, Repr

/-- The comparisons of `sys_execv`: `show`, `hide`, `clear`,
`testmalloc`, then `cat`, `echo`, `ls`, `mkdir`, `rm`, `entropy`,
`plane`, `touch`. -/
def command (path : Path) : Option Command :=
  if path = [115, 104, 111, 119] then some (.memshow true)
  else if path = [104, 105, 100, 101] then some (.memshow false)
  else if path = [99, 108, 101, 97, 114] then some .clear
  else if path = [116, 101, 115, 116, 109, 97, 108, 108, 111, 99] then
    some .testmalloc
  else if path = [99, 97, 116] then some (.program 3)
  else if path = [101, 99, 104, 111] then some (.program 4)
  else if path = [108, 115] then some (.program 5)
  else if path = [109, 107, 100, 105, 114] then some (.program 6)
  else if path = [114, 109] then some (.program 7)
  else if path = [101, 110, 116, 114, 111, 112, 121] then some (.program 8)
  else if path = [112, 108, 97, 110, 101] then some (.program 9)
  else if path = [116, 111, 117, 99, 104] then some (.program 10)
  else none

/-- `kernel_free(p)`, `NULL` included. -/
def kfree (p : Nat) : KM Unit := kernelFree E.fuel p

/-- `kernel_malloc(size)` and `kernel_free` of what it returned. -/
def mallocFree (size : Nat) : KM Unit := do
  let p ← kmalloc E size
  kfree E p

/-- The allocations of the stress test. -/
def mallocMany (size : Nat) : Nat → KM (List Nat)
  | 0 => pure []
  | n + 1 => do
      let p ← kmalloc E size
      let ps ← mallocMany size n
      pure (p :: ps)

/-- The frees of the stress test. -/
def freeMany : List Nat → KM Unit
  | [] => pure ()
  | p :: ps => do
      kfree E p
      freeMany ps

/-- `testmalloc(arg)`. `atoi` returns `0` or `-1`, neither of which is a
size that the last test allocates. -/
def testmalloc : KM Unit := do
  mallocFree E 100
  let p2 ← kmalloc E 200
  let p3 ← kmalloc E 300
  Prog.when (p2 ≠ 0 ∧ p3 ≠ 0) do
    kfree E p2
    kfree E p3
  mallocFree E 2048
  let ptrs ← mallocMany E 50 10
  freeMany E ptrs
  let _ ← kmalloc E 0
  pure ()

/-- The `testmalloc` branch: the argument is printed, so it has to be a
string. -/
def execTestmalloc : KM Unit := do
  let s ← Prog.get
  let argv ← lookupVa (u64 s.cur.registers.rsi)
  guardRead (argv + 8) 8
  Prog.when (load s.mem (argv + 8) 8 ≠ 0) do
    let arg ← lookupVa (load s.mem (argv + 8) 8)
    let _ ← readStr arg
    pure ()
  testmalloc E

/-- The end of the built-in commands: the process exits. -/
def execDone : KM Unit := do
  Prog.modify fun s => s.updProc s.current fun p => { p with exitCode := 0 }
  let s ← Prog.get
  processKill E s.cur.pid

/-- `INT_SYS_EXECV`. -/
def sysExecv : KM Unit := do
  let s ← Prog.get
  let pa ← lookupVa (u64 s.cur.registers.rdi)
  let path ← readStr pa
  match command path with
  | none => setRax (reg64 (-1))
  | some (.memshow on) => do
      Prog.modify fun s => { s with memshowEnabled := on }
      execDone E
  | some .clear => execDone E
  | some .testmalloc => do
      execTestmalloc E
      execDone E
  | some (.program number) => execProgram E number

end RojocOS.Kernel
