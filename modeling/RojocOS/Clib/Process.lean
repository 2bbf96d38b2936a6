/-
The library of the user programs: `malloc` of lib-malloc.c, `scan_line` and
`split_string` of process.c.

# A process

The memory of a process is its bytes by virtual address. `heap_top` and
`page_top` are the two variables of lib-malloc.c. `pages` and `stores` are
not in the source: the addresses for which `sys_page_alloc` gave a page,
and the addresses of the bytes the library stored to, the last ones first.

# What is left out

The echo of `scan_line` on the console. `scan_char` polls the keyboard and
yields until there is a key; the model starts from the keys it returns.
-/
import RojocOS.Lib.Bytes
import RojocOS.Lib.Prog
import RojocOS.Lib.Word

namespace RojocOS.Clib

open ByteMap

/-- The kernel behind the system calls. -/
structure UserEnv where
  /-- Whether there is a page for the call of `sys_page_alloc` after `k`
  successful ones. -/
  grant : Nat → Bool

structure User where
  bytes : ByteMap
  heapTop : Nat
  pageTop : Nat
  pages : List Nat
  stores : List Nat

/-- A program that starts. -/
def User.start (bytes : ByteMap) : User := ⟨bytes, 0x200000, 0x200000, [], []⟩

abbrev UM := Prog User

variable (E : UserEnv)

/-- A store of `n` bytes. -/
def storeAt (a n v : Nat) : UM Unit :=
  Prog.modify fun u =>
    { u with bytes := store u.bytes a n v, stores := List.range' a n ++ u.stores }

-- ==== malloc

/-- `sys_page_alloc(addr)`: the kernel puts a page of zeros there and
answers with the address, of which the stub returns the low 32 bits. -/
def sysPageAlloc (addr : Nat) : UM Int := do
  let u ← Prog.get
  if E.grant u.pages.length then do
    Prog.modify fun u =>
      { u with bytes := fill u.bytes addr 4096 0, pages := addr :: u.pages }
    pure (i32 addr)
  else pure (-1)

/-- `ROUNDDOWN(a, PAGESIZE)`. -/
def roundDown (a : Nat) : Nat := a - a % 4096

/-- The loop of `malloc`. -/
def mallocLoop (size : Nat) : Nat → UM Unit
  | 0 => Prog.stop .hang
  | fuel + 1 => do
      let u ← Prog.get
      if u.pageTop ≤ roundDown (u64 (u.heapTop + size)) then do
        let r ← sysPageAlloc E u.pageTop
        Prog.assert (0 ≤ r)
        Prog.modify fun u => { u with pageTop := u64 (u.pageTop + 4096) }
        mallocLoop size fuel
      else pure ()

/-- `malloc(size)`. An address from 2^31 on is negative as an `int` and
fails the assertion, so the loop ends before its fuel does. -/
def malloc (size : Nat) : UM Nat := do
  mallocLoop E size (2 ^ 20)
  let u ← Prog.get
  Prog.modify fun u => { u with heapTop := u64 (u.heapTop + size) }
  pure u.heapTop

/-- A run of calls, with the regions they return. -/
def mallocs : List Nat → UM (List (Nat × Nat))
  | [] => pure []
  | size :: sizes => do
      let addr ← malloc E size
      let regions ← mallocs sizes
      pure ((addr, size) :: regions)

-- ==== scan_line

/-- The loop of `scan_line(dst, length_max)` on the keys to come; when
there are no more it waits. -/
def scanLineFrom (dst lengthMax : Nat) : List UInt8 → Nat → UM Nat
  | [], _ => Prog.stop .hang
  | c :: keys, length =>
      if c = 8 then scanLineFrom dst lengthMax keys (length - 1)
      else if c = 10 then do
        storeAt (dst + length) 1 0
        pure length
      else if 32 ≤ c ∧ c ≤ 127 then
        if length < lengthMax then do
          storeAt (dst + length) 1 c.toNat
          scanLineFrom dst lengthMax keys (length + 1)
        else scanLineFrom dst lengthMax keys length
      else scanLineFrom dst lengthMax keys length

/-- `scan_line(dst, length_max)`. -/
def scanLine (dst lengthMax : Nat) (keys : List UInt8) : UM Nat :=
  scanLineFrom dst lengthMax keys 0

-- ==== split_string

/-- The first loop of `split_string`: the length of the string and one
more than the separators in it. The counters are `int`s; there is not
memory enough for a string that they could not count. -/
def countParts (m : ByteMap) (str : Nat) (sep : UInt8) : Nat → Nat → Nat → Option (Nat × Nat)
  | 0, _, _ => none
  | fuel + 1, n, s =>
      if m (str + n) = 0 then some (n, s)
      else countParts m str sep fuel (n + 1) (if m (str + n) = sep then s + 1 else s)

/-- The second loop, for the `k` bytes from index `i` on. -/
def cutLoop (str part buffer : Nat) (sep : UInt8) : Nat → Nat → Nat → UM Unit
  | 0, _, _ => pure ()
  | k + 1, i, wordN => do
      let u ← Prog.get
      if u.bytes (str + i) = sep then do
        storeAt (buffer + i) 1 0
        storeAt (part + 8 * (wordN + 1)) 8 (buffer + (i + 1))
        cutLoop str part buffer sep k (i + 1) (wordN + 1)
      else do
        storeAt (buffer + i) 1 (u.bytes (str + i)).toNat
        cutLoop str part buffer sep k (i + 1) wordN

/-- `split_string(str, sep)`. A string without an end would be read out of
the 48-bit address space. -/
def splitString (str : Nat) (sep : UInt8) : UM Nat := do
  let u ← Prog.get
  match countParts u.bytes str sep (2 ^ 48) 0 1 with
  | none => Prog.stop .wild
  | some (n, s) => do
      let part ← malloc E ((s + 1) * 8)
      let buffer ← malloc E (n + 1)
      storeAt part 8 buffer
      storeAt (part + 8 * s) 8 0
      storeAt (buffer + n) 1 0
      cutLoop str part buffer sep n 0 0
      pure part

end RojocOS.Clib
