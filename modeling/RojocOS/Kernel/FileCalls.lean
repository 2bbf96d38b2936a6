/-
The system calls that change the directory tree, seen from the file
system: `INT_SYS_MKDIR`, `INT_SYS_TOUCH` and `INT_SYS_REMOVE`.

A call is the process's working directory and the path string it passed,
both C strings. `sysMkdir`, `sysTouch` and `sysRemove` of the kernel model
find the two in the process table and in memory; that what they then do
to the disk is `FileCall.exec` is `handler_fileCall` of
Proofs/FileCalls.lean.
-/
import RojocOS.Kernel.Calls

namespace RojocOS.Kernel

open Fs

variable {c : FileCall} {comp cwd p path t temp : Path} {w w' : FsWorld}

-- ==== calls

/-- What `join_path` writes to its buffer. -/
def resolved (cwd path : Path) : Path :=
  if path.head? = some slash then joinAbsolute path else joinRelative cwd path

/-- It does not fit in the 256 bytes of `resolve_path`. -/
def tooLong (cwd path : Path) : Prop :=
  (path.head? ≠ some slash ∧ 256 ≤ (joinStart cwd).length)
    ∨ 256 ≤ (resolved cwd path).length

instance (cwd path : Path) : Decidable (tooLong cwd path) :=
  inferInstanceAs (Decidable (_ ∨ _))

/-- The calls that change the tree. -/
inductive FileOp where
  | mkdir
  | touch
  | remove
  deriving DecidableEq, Repr

/-- One of them, by a process working in `cwd`. -/
structure FileCall where
  op : FileOp
  cwd : Path
  path : Path

/-- The path it gives the file system. -/
def FileCall.target (c : FileCall) : Path := resolved c.cwd c.path

/-- Both strings are C strings. -/
def FileCall.Strings (c : FileCall) : Prop := 0 ∉ c.cwd ∧ 0 ∉ c.path

instance (c : FileCall) : Decidable c.Strings := inferInstanceAs (Decidable (_ ∧ _))

variable (E : FsEnv)

/-- What the handler does with the resolved path. -/
def FileOp.apply : FileOp → Path → FsM Unit
  | .mkdir, p => fsTouch E fsdesc p 0
  | .touch, p => do
      let inode ← fsAllocInode E fsdesc
      fsTouch E fsdesc p (u32 inode)
  | .remove, p => fsRemove E fsdesc p

/-- The effect of one call. -/
def FileCall.exec (c : FileCall) : FsM Unit := do
  Prog.failIf (tooLong c.cwd c.path) .wild
  c.op.apply E c.target

/-- The call came back. -/
def Answered (r : Except Stop Unit) : Prop :=
  match r with
  | .ok _ => True
  | .error (.err _) => True
  | .error _ => False

instance (r : Except Stop Unit) : Decidable (Answered r) :=
  match r with
  | .ok _ => .isTrue trivial
  | .error (.err _) => .isTrue trivial
  | .error .panic => .isFalse id
  | .error .hang => .isFalse id
  | .error .wild => .isFalse id

/-- A run of calls whose every step meets `C`. -/
def CallRun (C : FsWorld → FileCall → Prop) : FsWorld → FsWorld → Prop :=
  Relation.ReflTransGen fun w w' =>
    ∃ c, C w c ∧ (c.exec E w).2 = w' ∧ Answered (c.exec E w).1

/-- What one call preserves, a run preserves. -/
theorem CallRun.invariant {C : FsWorld → FileCall → Prop} (P : FsWorld → Prop)
    (hstep : ∀ w c, P w → C w c → Answered (c.exec E w).1 → P (c.exec E w).2)
    (h0 : P w) (hrun : CallRun E C w w') : P w' := by
  induction hrun with
  | refl => exact h0
  | tail _ hs ih =>
    obtain ⟨c, hc, heq, hr⟩ := hs
    rw [← heq]
    exact hstep _ c ih hc hr

/-- The state after a list of calls. -/
def runCalls (w : FsWorld) : List FileCall → FsWorld
  | [] => w
  | c :: cs => runCalls (c.exec E w).2 cs

/-- Every call of the list meets `C` and comes back. -/
def CallsMeet (C : FsWorld → FileCall → Prop) (w : FsWorld) : List FileCall → Prop
  | [] => True
  | c :: cs => C w c ∧ Answered (c.exec E w).1 ∧ CallsMeet C (c.exec E w).2 cs

theorem runCalls_run {C : FsWorld → FileCall → Prop} (cs : List FileCall) :
    ∀ w, CallsMeet E C w cs → CallRun E C w (runCalls E w cs) := by
  induction cs with
  | nil => exact fun w _ => Relation.ReflTransGen.refl
  | cons c cs ih =>
    intro w ⟨hc, hr, hrest⟩
    exact Relation.ReflTransGen.head ⟨c, hc, rfl, hr⟩ (ih _ hrest)

-- ==== bytes of a path

section Bytes

variable {x : UInt8}

theorem mem_stripSlash (h : x ∈ stripSlash p) : x ∈ p := by
  unfold stripSlash at h
  split at h
  · exact (List.dropLast_sublist p).subset h
  · exact h

theorem mem_squeezeFrom :
    ∀ {b}, x ∈ squeezeFrom b p → x = slash ∨ x ∈ p := by
  induction p with
  | nil => exact fun h => absurd h List.not_mem_nil
  | cons c cs ih =>
    intro b h
    unfold squeezeFrom at h
    have htail : ∀ {b}, x ∈ squeezeFrom b cs → x = slash ∨ x ∈ c :: cs := by
      intro b hb
      exact (ih hb).imp_right (.tail c)
    split at h
    · exact htail h
    · split at h
      · rcases List.mem_cons.mp h with rfl | h
        · exact .inl rfl
        · rcases List.mem_cons.mp h with rfl | h
          · exact .inr (.head _)
          · exact htail h
      · rcases List.mem_cons.mp h with rfl | h
        · exact .inr (.head _)
        · exact htail h

theorem mem_componentsFrom :
    ∀ {cur c : Path}, c ∈ componentsFrom cur p → x ∈ c → x ∈ cur ∨ x ∈ p := by
  induction p with
  | nil =>
    intro cur c hc hx
    rw [List.mem_singleton.mp hc] at hx
    exact .inl (List.mem_reverse.mp hx)
  | cons y p ih =>
    intro cur c hc hx
    unfold componentsFrom at hc
    split at hc
    · rcases List.mem_cons.mp hc with rfl | hc
      · exact .inl (List.mem_reverse.mp hx)
      · rcases ih hc hx with h | h
        · exact absurd h List.not_mem_nil
        · exact .inr (.tail _ h)
    · rcases ih hc hx with h | h
      · rcases List.mem_cons.mp h with rfl | h
        · exact .inr (.head _)
        · exact .inl h
      · exact .inr (.tail _ h)

theorem mem_popLast (h : x ∈ popLast t) : x ∈ t := by
  induction t using popLast.induct with
  | case1 => exact h
  | case2 c => exact h
  | case3 d cs =>
    rw [popLast, if_pos rfl] at h
    exact h
  | case4 c d cs hc ih =>
    rw [popLast, if_neg hc] at h
    exact .tail _ (ih h)

theorem mem_joinComponent (h : x ∈ joinComponent temp comp) :
    x = slash ∨ x ∈ temp ∨ x ∈ comp := by
  unfold joinComponent at h
  split at h
  · exact .inr (.inl h)
  · split at h
    · unfold popComponent at h
      split at h
      · exact .inr (.inl h)
      · have h := mem_popLast h
        split at h
        · exact .inr (.inl (List.mem_of_mem_tail h))
        · exact .inr (.inl h)
    · split at h
      · exact .inr (.inl h)
      · unfold addComponent at h
        rcases List.mem_append.mp h with h | h
        · exact .inr (.inr (List.mem_of_mem_take (List.mem_reverse.mp h)))
        · split at h
          · exact .inr (.inl h)
          · split at h
            · rcases List.mem_cons.mp h with rfl | h
              · exact .inl rfl
              · exact .inr (.inl h)
            · exact .inr (.inl h)

theorem mem_foldl_joinComponent (comps : List Path) :
    ∀ {temp : Path}, x ∈ comps.foldl joinComponent temp →
      x = slash ∨ x ∈ temp ∨ ∃ c ∈ comps, x ∈ c := by
  induction comps with
  | nil => exact fun h => .inr (.inl h)
  | cons c comps ih =>
    intro temp h
    rcases ih h with h | h | ⟨d, hd, h⟩
    · exact .inl h
    · rcases mem_joinComponent h with h | h | h
      · exact .inl h
      · exact .inr (.inl h)
      · exact .inr (.inr ⟨c, List.mem_cons_self, h⟩)
    · exact .inr (.inr ⟨d, List.mem_cons_of_mem _ hd, h⟩)

/-- A resolved path consists of slashes and bytes it was given. -/
theorem mem_resolved (h : x ∈ resolved cwd path) :
    x = slash ∨ x ∈ cwd ∨ x ∈ path := by
  unfold resolved at h
  split at h
  · rcases List.mem_cons.mp (mem_stripSlash h) with h | h
    · exact .inl h
    · exact (mem_squeezeFrom h).imp_right fun h => .inr (List.mem_of_mem_tail h)
  · have h := List.mem_reverse.mp (mem_stripSlash h)
    split at h
    · exact .inl (List.mem_singleton.mp h)
    · rcases mem_foldl_joinComponent _ h with h | h | ⟨c, hc, h⟩
      · exact .inl h
      · have h := mem_stripSlash (List.mem_of_mem_take (List.mem_reverse.mp h))
        split at h
        · exact .inr (.inl h)
        · exact (List.mem_cons.mp h).imp_right .inl
      · rcases mem_componentsFrom hc h with h | h
        · exact absurd h List.not_mem_nil
        · exact .inr (.inr h)

theorem FileCall.Strings.target (h : c.Strings) : 0 ∉ c.target := by
  intro h0
  rcases mem_resolved h0 with hx | hx | hx
  · exact absurd hx (by decide)
  · exact h.1 hx
  · exact h.2 hx

end Bytes

end RojocOS.Kernel
