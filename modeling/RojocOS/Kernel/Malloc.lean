/-
The kernel heap: `extend_heap`, `kernel_malloc`, `kernel_free` and
`testmalloc` of k-malloc.c.

# Layout

A block is a 16-byte header, `size` @0 and `next` @8, followed by `size`
bytes of data. `free_list` heads a list threaded through the `next`
fields; a live block has `next = NULL`. The pointer a client holds is the
address of the data.

# Loops

The list is walked in memory, so a corrupted list could be walked
forever, and `kernel_malloc` calls itself after every extension of the
heap, whether or not it helped. Both get fuel and stop with `hang` when
it runs out; a call that returns is a call with enough of it.

`page_alloc` is a parameter: the kernel passes its own.
-/
import RojocOS.Kernel.Vm

namespace RojocOS.Kernel

open ByteMap

variable (E : KEnv) (pageAlloc : KM Nat)

-- ==== headers

/-- `block->size`. -/
def blockSize (m : ByteMap) (b : Nat) : Nat := load m b 8

/-- `block->next`. -/
def blockNext (m : ByteMap) (b : Nat) : Nat := load m (b + 8) 8

/-- `align_size`. -/
def alignSize (size : Nat) : Nat := (size + 15) / 16 * 16

-- ==== extend_heap

/-- The end of `extend_heap`: the page becomes one free block, pushed on
the free list. -/
def pushPage (page : Nat) (s : KState) : KState :=
  { s with
    heapPages := s.heapPages ++ [page]
    mem := store (store s.mem page 8 4080) (page + 8) 8 s.freeList
    freeList := page }

/-- `extend_heap`. -/
def extendHeap : KM Unit := do
  let s ← Prog.get
  if 1024 ≤ s.heapPages.length then pure ()
  else do
    let page ← pageAlloc
    if page = 0 then pure ()
    else do
      memzero page 4096
      let _ ← virtualMemoryMap E.kernelPagetables page page 4096 3 none
      Prog.modify (pushPage page)

-- ==== kernel_malloc

/-- Where `prev` points: at `free_list`, or at a block's `next`. -/
inductive Link where
  | head
  | next (b : Nat)
  deriving DecidableEq, Repr

/-- `*prev = v`. -/
def setLink (prev : Link) (v : Nat) (s : KState) : KState :=
  match prev with
  | .head => { s with freeList := v }
  | .next b => { s with mem := store s.mem (b + 8) 8 v }

/-- The first-fit search: the link to the block found, and the block;
`none` inside when the list ends, `none` outside when the fuel does. -/
def findFit (m : ByteMap) (allocSize : Nat) :
    Nat → Link → Nat → Option (Option (Link × Nat))
  | 0, _, _ => none
  | fuel + 1, prev, current =>
      if current = 0 then some none
      else if allocSize ≤ blockSize m current then some (some (prev, current))
      else findFit m allocSize fuel (.next current) (blockNext m current)

/-- Taking the block `current` out of the list, split if there is room
for another block behind it. -/
def unlinkBlock (allocSize : Nat) (prev : Link) (current : Nat)
    (s : KState) : KState :=
  if allocSize + 16 + 16 ≤ blockSize s.mem current then
    let newBlock := current + allocSize
    let m := store s.mem newBlock 8 (blockSize s.mem current - allocSize)
    let m := store m (newBlock + 8) 8 (blockNext m current)
    setLink prev newBlock { s with mem := store m current 8 (allocSize - 16) }
  else setLink prev (blockNext s.mem current) s

/-- The whole of the found branch: unlinked, marked and zeroed. -/
def takeBlock (allocSize : Nat) (prev : Link) (current : Nat)
    (s : KState) : KState :=
  let s := unlinkBlock allocSize prev current s
  let m := store s.mem (current + 8) 8 0
  { s with mem := fill m (current + 16) (blockSize m current) 0 }

/-- `kernel_malloc` past its size check. -/
def mallocLoop (allocSize : Nat) : Nat → KM Nat
  | 0 => Prog.stop .hang
  | fuel + 1 => do
      let s ← Prog.get
      match findFit s.mem allocSize (fuel + 1) .head s.freeList with
      | none => Prog.stop .hang
      | some (some (prev, current)) => do
          Prog.modify (takeBlock allocSize prev current)
          pure (current + 16)
      | some none => do
          extendHeap E pageAlloc
          let s ← Prog.get
          if s.freeList = 0 then pure 0 else mallocLoop allocSize fuel

/-- `kernel_malloc(size)`. -/
def kernelMalloc (fuel size : Nat) : KM Nat :=
  if size = 0 ∨ 4080 < size then pure 0
  else mallocLoop E pageAlloc (alignSize (size + 16)) fuel

-- ==== kernel_free

/-- The coalescing loop of `kernel_free`: blocks that are neighbours both
in the list and in memory become one. -/
def coalesce : Nat → Nat → ByteMap → Option ByteMap
  | 0, _, _ => none
  | fuel + 1, current, m =>
      if current = 0 then some m
      else
        let next := blockNext m current
        if next ≠ 0 ∧ u64 (current + 16 + blockSize m current) = next then
          let size := u64 (blockSize m current + (16 + blockSize m next))
          let m' := store m current 8 size
          coalesce fuel current (store m' (current + 8) 8 (blockNext m' next))
        else coalesce fuel next m

/-- The block is in one of the heap's pages. -/
def validBlock (s : KState) (block : Nat) : Bool :=
  s.heapPages.any fun page => page ≤ block && block < page + 4096

/-- `kernel_free(ptr)`. -/
def kernelFree (fuel ptr : Nat) : KM Unit := do
  let s ← Prog.get
  let block := u64 (ptr + (2 ^ 64 - 16))
  if ptr = 0 ∨ ¬ validBlock s block ∨ blockNext s.mem block ≠ 0 then pure ()
  else
    let m := fill s.mem ptr (blockSize s.mem block) 0
    let m := store m (block + 8) 8 s.freeList
    match coalesce fuel block m with
    | none => Prog.stop .hang
    | some m => Prog.modify fun s => { s with mem := m, freeList := block }

end RojocOS.Kernel
