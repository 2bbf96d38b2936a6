/-
Virtual memory: `virtual_memory_map`, `lookup_l4pagetable`,
`virtual_memory_lookup`, `virtual_memory_init` and `set_pagetable` of
k-hardware.c.

A page table is 512 eight-byte entries in physical memory. An entry is
read through arithmetic: bit 0 (`PTE_P`) is `pe % 2`, the flags are
`pe % 4096`, the address is what is left. Where the source writes
`pa | perm` it has asserted that `pa` is page-aligned and `perm` below
`0x1000`, so the model adds.
-/
import RojocOS.Kernel.State

namespace RojocOS.Kernel

open ByteMap

variable (E : KEnv)

-- ==== entries

/-- `PAGEINDEX(va, level)`. -/
def pageindex (va level : Nat) : Nat :=
  va / 2 ^ (12 + (3 - level) * 9) % 512

/-- `PTE_ADDR(pe)`. -/
def pteAddr (pe : Nat) : Nat := pe / 4096 * 4096

/-- `pt->entry[i]`. -/
def getEntry (m : ByteMap) (pt i : Nat) : Nat := load m (pt + 8 * i) 8

/-- `pt->entry[i] = v`. -/
def setEntry (pt i v : Nat) : KM Unit :=
  Prog.modify fun s => { s with mem := store s.mem (pt + 8 * i) 8 v }

/-- `memset((void*) a, 0, n)` on memory the kernel owns. -/
def memzero (a n : Nat) : KM Unit :=
  Prog.modify fun s => { s with mem := fill s.mem a n 0 }

-- ==== mapping

/-- One level of `lookup_l4pagetable`: the entry, allocated if need be;
`none` where the source returns `NULL`. -/
def tableEntry (allocator : Option (KM Nat)) (perm pt i : Nat) :
    KM (Option Nat) := do
  let s ← Prog.get
  if getEntry s.mem pt i % 2 = 1 then pure (some (getEntry s.mem pt i))
  else match allocator with
    | none => pure none
    | some alloc =>
        if perm % 2 = 0 then pure none
        else do
          let newPt ← alloc
          if newPt = 0 then pure none
          else do
            Prog.assert (newPt % 4096 = 0)
            setEntry pt i (newPt + 7)
            memzero newPt 4096
            pure (some (newPt + 7))

/-- The level loop of `lookup_l4pagetable`, `n` levels to go. -/
def lookupFrom (allocator : Option (KM Nat)) (perm va : Nat) :
    Nat → Nat → Nat → KM Nat
  | 0, _, pt => pure pt
  | n + 1, level, pt => do
      match ← tableEntry allocator perm pt (pageindex va level) with
      | none => pure 0
      | some pe => do
          Prog.assert (pteAddr pe < 0x200000)
          Prog.assert (perm / 2 % 2 = 1 → pe / 2 % 2 = 1)
          Prog.assert (perm / 4 % 2 = 1 → pe / 4 % 2 = 1)
          lookupFrom allocator perm va n (level + 1) (pteAddr pe)

/-- `lookup_l4pagetable`: the last-level table, or `0`. -/
def lookupL4pagetable (allocator : Option (KM Nat))
    (pagetable va perm : Nat) : KM Nat :=
  lookupFrom allocator perm va 3 0 pagetable

/-- The cached last-level table of `virtual_memory_map`'s loop. -/
def refreshL4 (allocator : Option (KM Nat))
    (pagetable va perm last l4 : Nat) : KM Nat :=
  if va / 2 ^ 21 % 2 ^ 32 ≠ last then
    lookupL4pagetable allocator pagetable va perm
  else pure l4

/-- The loop of `virtual_memory_map`, `n` pages to go; `last` is
`last_index123` as a 32-bit pattern. -/
def mapLoop (allocator : Option (KM Nat)) (pagetable perm : Nat) :
    Nat → Nat → Nat → Nat → Nat → KM Int
  | 0, _, _, _, _ => pure 0
  | n + 1, va, pa, last, l4 => do
      let l4 ← refreshL4 allocator pagetable va perm last l4
      if perm % 2 = 1 ∧ l4 ≠ 0 then do
        setEntry l4 (pageindex va 3) (pa + perm)
        mapLoop allocator pagetable perm n (u64 (va + 4096)) (pa + 4096)
          (va / 2 ^ 21 % 2 ^ 32) l4
      else if l4 ≠ 0 then do
        setEntry l4 (pageindex va 3) perm
        mapLoop allocator pagetable perm n (u64 (va + 4096)) (pa + 4096)
          (va / 2 ^ 21 % 2 ^ 32) l4
      else if perm % 2 = 1 then pure (-1)
      else
        mapLoop allocator pagetable perm n (u64 (va + 4096)) (pa + 4096)
          (va / 2 ^ 21 % 2 ^ 32) l4

/-- `virtual_memory_map(pagetable, va, pa, sz, perm, allocator)`. -/
def virtualMemoryMap (pagetable va pa sz perm : Nat)
    (allocator : Option (KM Nat)) : KM Int := do
  Prog.assert (va % 4096 = 0)
  Prog.assert (sz % 4096 = 0)
  Prog.assert (va ≤ u64 (va + sz) ∨ u64 (va + sz) = 0)
  Prog.assert (perm % 2 = 1 → pa % 4096 = 0)
  Prog.assert (perm % 2 = 1 → pa ≤ u64 (pa + sz))
  Prog.assert (perm % 2 = 1 → u64 (pa + sz) ≤ 0x200000)
  Prog.assert (perm < 0x1000)
  Prog.assert (pagetable % 4096 = 0)
  mapLoop allocator pagetable perm (sz / 4096) va pa (2 ^ 32 - 1) 0

-- ==== lookup

/-- `vamapping`. -/
structure VaMapping where
  pn : Int
  pa : Nat
  perm : Nat
  deriving DecidableEq, Repr

/-- `entry & ~(pe & (PTE_W | PTE_U))`. -/
def maskFlags (entry pe : Nat) : Nat :=
  entry - (if pe / 2 % 2 = 1 then entry / 2 % 2 * 2 else 0)
    - (if pe / 4 % 2 = 1 then entry / 4 % 2 * 4 else 0)

/-- The level loop of `virtual_memory_lookup`, `n` levels to go. -/
def lookupLoop (m : ByteMap) (va : Nat) : Nat → Nat → Nat → Nat → Nat
  | 0, _, _, pe => pe
  | n + 1, level, pt, pe =>
      if pe % 2 = 1 then
        let pe := maskFlags (getEntry m pt (pageindex va level)) pe
        lookupLoop m va n (level + 1) (pteAddr pe) pe
      else pe

/-- `virtual_memory_lookup(pagetable, va)`. -/
def virtualMemoryLookup (m : ByteMap) (pagetable va : Nat) : VaMapping :=
  let pe := lookupLoop m va 4 0 pagetable 7
  if pe % 2 = 1 then
    { pn := i32 (pe / 4096), pa := pteAddr pe + va % 4096, perm := pe % 4096 }
  else { pn := -1, pa := 2 ^ 64 - 1, perm := 0 }

-- ==== kernel mapping

/-- `kernel_pagetables[0 .. 5)` after the first half of
`virtual_memory_init`. -/
def kernelTables (m : ByteMap) : ByteMap :=
  let kp := E.kernelPagetables
  let m := fill m kp (5 * 4096) 0
  let m := store m kp 8 (kp + 4096 + 7)
  let m := store m (kp + 4096) 8 (kp + 2 * 4096 + 7)
  let m := store m (kp + 2 * 4096) 8 (kp + 3 * 4096 + 7)
  store m (kp + 2 * 4096 + 8) 8 (kp + 4 * 4096 + 7)

/-- `virtual_memory_init`. -/
def virtualMemoryInit : KM Unit := do
  Prog.modify fun s => { s with mem := kernelTables E s.mem }
  let _ ← virtualMemoryMap E.kernelPagetables 0 0 0x200000 7 none
  pure ()

/-- `set_pagetable`: the assertions; which table the processor uses is
not part of the state. -/
def setPagetable (pagetable : Nat) : KM Unit := do
  Prog.assert (pagetable % 4096 = 0)
  let s ← Prog.get
  Prog.assert ((virtualMemoryLookup s.mem pagetable
    E.defaultIntHandler).pa = E.defaultIntHandler)
  Prog.assert ((virtualMemoryLookup s.mem E.kernelPagetables pagetable).pa
    = pagetable)
  Prog.assert ((virtualMemoryLookup s.mem pagetable
    E.kernelPagetables).pa = E.kernelPagetables)
  Prog.assert ((virtualMemoryLookup s.mem pagetable
    E.virtualMemoryMapAddr).pa = E.virtualMemoryMapAddr)

end RojocOS.Kernel
