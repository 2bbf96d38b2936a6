/-
The directory tree of lib-filesystem: nodes, path lookup, `fs_touch`,
`fs_remove`.

# Layout

`sizeof(fs_node_t)` is 1160: `value` @0, `children_count` @4 (an `int`),
then 32 slots of 36 bytes from @8 on, each a 32-byte name and a
`uint32_t` index.

# Paths

A `normpath` is a pointer and a length; here it is the list of its
bytes. Names are compared as C strings inside the node's own bytes.

# Reads outside the node

`fs_remove` moves the last slot over the removed one after it has
already decremented `children_count`, so on the last child it reads the
slot before the first: 28 bytes of stack below the node, then `value` and
`children_count`. `FsEnv.stack` supplies those 28 bytes. A slot index of
32 or more is outside the node altogether and stops with `wild`.
-/
import RojocOS.Fs.Disk

namespace RojocOS.Fs

open ByteMap

variable (E : FsEnv) (d : FsDescriptor)

/-- A path, or a part of one. -/
abbrev Path := List UInt8

/-- The character `/`. -/
def slash : UInt8 := 47

namespace Node

def value (nd : ByteMap) : Nat := load nd 0 4
def setValue (nd : ByteMap) (v : Nat) : ByteMap := store nd 0 4 v

/-- `children_count`, a signed 32-bit integer. -/
def childrenCount (nd : ByteMap) : Int :=
  if load nd 4 4 < 2 ^ 31 then load nd 4 4 else (load nd 4 4 : Int) - 2 ^ 32

def setChildrenCount (nd : ByteMap) (c : Int) : ByteMap :=
  store nd 4 4 (c % 2 ^ 32).toNat

/-- Where the name of slot `i` starts. -/
def nameAt (i : Nat) : Nat := 8 + 36 * i

def childIndex (nd : ByteMap) (i : Nat) : Nat := load nd (8 + 36 * i + 32) 4

def setChildIndex (nd : ByteMap) (i v : Nat) : ByteMap :=
  store nd (8 + 36 * i + 32) 4 v

end Node

/-- `strcmp(a, edge) == 0`, the first string at `a` in `m`. -/
def strEq (m : ByteMap) (a : Nat) : Path → Bool
  | [] => m a == 0
  | c :: cs => if c = 0 then m a == 0 else m a == c && strEq m (a + 1) cs

/-- `equal_to_buffer(buffer, str)`, the buffer at `a` in `m`. -/
def equalToBuffer (m : ByteMap) (a : Nat) : Path → Bool
  | [] => m a == 0
  | c :: cs => m a == c && equalToBuffer m (a + 1) cs

/-- `copy_to_buffer(buffer, str)`, the buffer at `a` in `m`. -/
def copyToBuffer (m : ByteMap) (a : Nat) (str : Path) : ByteMap :=
  fun x =>
    if a ≤ x ∧ x < a + str.length then str.getD (x - a) 0
    else if x = a + str.length then 0 else m x

/-- `split_path`: the parent and the last component. -/
def splitPath (path : Path) : FsM (Path × Path) :=
  match (path.zipIdx.filter fun c => c.1 == slash).getLast? with
  | none => Prog.stop .panic
  | some (_, last) =>
      pure (path.take (if last = 0 then 1 else last), path.drop (last + 1))

/-- The slot search of `follow_node`: all slots, used or not. -/
def findEdge (nd : ByteMap) (edge : Path) : Option Nat :=
  (List.range 32).find? fun i => strEq nd (Node.nameAt i) edge

/-- `follow_node`: the index of the node found, and the node. -/
def followNode (nd : ByteMap) (edge : Path) : FsM (Nat × ByteMap) :=
  match findEdge nd edge with
  | none => Prog.stop (.err (-enoent))
  | some i => do
      let nodeIndex := Node.childIndex nd i
      let nd' ← fsdr E (d.treeOffset + nodeIndex * 1160) 1160
      pure (nodeIndex, nd')

/-- The component loop of `search_node`. Every turn consumes at least one
byte of the path, so the path's length is fuel enough. -/
def searchFrom : Nat → Path → Nat → ByteMap → FsM (Nat × ByteMap)
  | _, [], idx, nd => pure (idx, nd)
  | 0, _ :: _, _, _ => Prog.stop .hang
  | fuel + 1, c :: cs, _, nd => do
      let path := if c = slash then cs else c :: cs
      let name := path.takeWhile (· != slash)
      Prog.failIf (31 ≤ name.length) (.err (-enametoolong))
      let (idx, nd) ← followNode E d nd name
      searchFrom fuel (path.dropWhile (· != slash)) idx nd

/-- `search_node`: the index of the node at `path`, and the node. -/
def searchNode (path : Path) : FsM (Nat × ByteMap) := do
  Prog.assert (path.head? = some slash)
  let nd ← fsdr E d.treeOffset 1160
  searchFrom E d path.length path 0 nd

/-- `fs_getattr`. -/
def fsGetattr (path : Path) : FsM Nat := do
  let (_, nd) ← searchNode E d path
  pure (Node.value nd)

/-- `fs_readdir_init`: the node index and its number of children. -/
def fsReaddirInit (path : Path) : FsM (Nat × Int) := do
  let (idx, nd) ← searchNode E d path
  pure (idx, Node.childrenCount nd)

/-- `fs_readdir_next` at offset `off`: the node read again, whose slot
`off` holds the name. -/
def fsReaddirNext (nodeIndex off : Nat) : FsM ByteMap := do
  let nd ← fsdr E (d.treeOffset + nodeIndex * 1160) 1160
  Prog.failIf (32 ≤ off) .wild
  pure (slice nd (Node.nameAt off) (1160 - Node.nameAt off))

/-- The loop of `search_available_node`. -/
def searchNodeFrom : Nat → Nat → FsM Nat
  | 0, _ => Prog.stop (.err (-enospc))
  | n + 1, i => do
      let used ← fsdr E (d.treeUsageOffset + i) 1
      if used 0 = 0 then pure i else searchNodeFrom n (i + 1)

/-- `search_available_node`: node 0 is the root. -/
def searchAvailableNode : FsM Nat :=
  searchNodeFrom E d (d.nodeCount - 1) 1

/-- The slot of `nd` that holds a used child called `name`, among the
first `children_count`; the loop shared by `fs_touch` and `fs_remove`. -/
def findChild (nd : ByteMap) (name : Path) : Nat → Nat → FsM (Option Nat)
  | 0, _ => pure none
  | n + 1, i =>
      if 32 ≤ i then Prog.stop .wild
      else if Node.childIndex nd i ≠ 0
          ∧ equalToBuffer nd (Node.nameAt i) name then pure (some i)
      else findChild nd name n (i + 1)

/-- `fs_touch(fsdesc, path, value)`. The results of its three writes are
not looked at. -/
def fsTouch (path : Path) (value : Nat) : FsM Unit := do
  let (parentPath, childName) ← splitPath path
  Prog.assert (childName.length < 32)
  let (r, nd) ← searchNode E d parentPath
  let parentIndex := u32 r
  let count := Node.childrenCount nd
  match ← findChild nd childName count.toNat 0 with
  | some _ => Prog.stop (.err (-eexist))
  | none =>
      Prog.failIf (count = 32) (.err (-enospc))
      let r ← searchAvailableNode E d
      let childIndex := u32 r
      Prog.failIf (count < 0 ∨ 32 ≤ count) .wild
      let slot := count.toNat
      let nd := copyToBuffer nd (Node.nameAt slot) childName
      let nd := Node.setChildIndex nd slot childIndex
      let nd := Node.setChildrenCount nd (count + 1)
      (fsdw E nd (d.treeOffset + parentIndex * 1160) 1160).ignoreErr
      let nd := Node.setValue zero value
      (fsdw E ONE (d.treeUsageOffset + childIndex) 1).ignoreErr
      (fsdw E nd (d.treeOffset + childIndex * 1160) 1160).ignoreErr

/-- `memcpy(&children[i], &children[j], 36)` where `j` may be `-1`: the
bytes below the node come from the stack. -/
def moveChild (nd : ByteMap) (i : Nat) (j : Int) : ByteMap :=
  if 0 ≤ j then copy nd (8 + 36 * i) nd (8 + 36 * j.toNat) 36
  else copy nd (8 + 36 * i)
    (fun x => if x < 28 then E.stack x else nd (x - 28)) 0 36

/-- `fs_remove(fsdesc, path)`. The result of `unref_inode` is not looked
at. -/
def fsRemove (path : Path) : FsM Unit := do
  let (parentPath, childName) ← splitPath path
  let (r, nd) ← searchNode E d parentPath
  let parentIndex := u32 r
  let count := Node.childrenCount nd
  match ← findChild nd childName count.toNat 0 with
  | none => Prog.stop (.err (-enoent))
  | some i =>
      Prog.failIf (34 ≤ count) .wild
      let childIndex := Node.childIndex nd i
      let nd := Node.setChildrenCount nd (count - 1)
      let nd := moveChild E nd i (count - 2)
      fsdw E nd (d.treeOffset + parentIndex * 1160) 1160
      let nd ← fsdr E (d.treeOffset + childIndex * 1160) 1160
      Prog.when (Node.value nd ≠ 0)
        (unrefInode E d (Node.value nd)).ignoreErr
      fsdw E zero (d.treeOffset + childIndex * 1160) 1160
      fsdw E ZERO (d.treeUsageOffset + childIndex) 1

end RojocOS.Fs
