/-
`join_path` of lib.c, on C strings as lists of bytes.

The relative case edits a 512-byte buffer `temp` at its end, so the model
keeps `temp` reversed: its head is the last byte written.
-/
import RojocOS.Fs.Tree

namespace RojocOS.Kernel

open Fs

/-- The character `.`. -/
def dot : UInt8 := 46

/-- "Remove trailing slash unless the path is just `/`." -/
def stripSlash (p : Path) : Path :=
  if 1 < p.length ∧ p.getLast? = some slash then p.dropLast else p

/-- The copy loop of the absolute case, behind the first slash; `pending`
when slashes have been skipped. -/
def squeezeFrom : Bool → Path → Path
  | _, [] => []
  | pending, c :: cs =>
      if c = slash then squeezeFrom true cs
      else if pending then slash :: c :: squeezeFrom false cs
      else c :: squeezeFrom false cs

/-- `path` is absolute. -/
def joinAbsolute (path : Path) : Path :=
  stripSlash (slash :: squeezeFrom false path.tail)

/-- What the relative case puts in `dst` first. -/
def joinStart (cwd : Path) : Path :=
  stripSlash (if cwd.head? = some slash then cwd else slash :: cwd)

/-- The parts of a path between slashes, empty ones included. -/
def componentsFrom : Path → Path → List Path
  | cur, [] => [cur.reverse]
  | cur, c :: cs =>
      if c = slash then cur.reverse :: componentsFrom [] cs
      else componentsFrom (c :: cur) cs

/-- The inner loop of `..`: back to the slash before the last
component. -/
def popLast : Path → Path
  | [] => []
  | [c] => [c]
  | c :: d :: cs => if c = slash then c :: d :: cs else popLast (d :: cs)

/-- `..` -/
def popComponent (temp : Path) : Path :=
  if temp.length ≤ 1 then temp
  else popLast (if temp.head? = some slash then temp.tail else temp)

/-- A component is appended, as far as `temp` has room. -/
def addComponent (temp comp : Path) : Path :=
  let temp :=
    if temp.head? = some slash then temp
    else if temp.length < 511 then slash :: temp else temp
  (comp.take (511 - temp.length)).reverse ++ temp

/-- One turn of the component loop. -/
def joinComponent (temp comp : Path) : Path :=
  if comp = [dot] then temp
  else if comp = [dot, dot] then popComponent temp
  else if comp = [] then temp
  else addComponent temp comp

/-- `path` is relative. -/
def joinRelative (cwd path : Path) : Path :=
  let temp := ((joinStart cwd).take 511).reverse
  let temp := (componentsFrom [] path).foldl joinComponent temp
  let temp := if temp = [] then [slash] else temp
  stripSlash temp.reverse

example : joinRelative [47, 97, 47, 98] [46, 46, 47, 99] = [47, 97, 47, 99] := by
  decide

end RojocOS.Kernel
