/-
What the kernel's subroutines leave alone.

# Relations that do not look

Most of what the kernel does on the way through a system call is a write
to memory, a page taken from `page_alloc`, a block from the heap. A
relation between states that does not look at memory is kept by all that
writes memory only (`Framed`); one that does not look at free pages
either is kept by what takes pages (`Paged`), and one to which a new page
of the heap is nothing, by what uses the heap (`Pooled`). The lemmas are
about any such relation, so each property of the rest of the state uses
them at its own.
-/
import RojocOS.Kernel.Calls

namespace RojocOS.Kernel

open ByteMap Fs Prog

variable {E : KEnv} {α β : Type} {R : KState → KState → Prop} {b : Prop}
  {parent pid : Int} {src : ByteMap} {str : Fs.Path}
variable {a n : Nat} {s s' : KState} {u : Unit} {allocator : Option (KM Nat)}

/-- A string that was read is the one in memory. -/
theorem readStr_some
    (h : readStr a s = (.ok str, s')) : strAt s.mem (0x200000 - a) a = some str ∧ s' = s := by
  unfold readStr at h
  rw [get_bind] at h
  cases hs : strAt s.mem (0x200000 - a) a with
  | none =>
    rw [hs] at h
    cases h
  | some t =>
    rw [hs] at h
    cases h
    exact ⟨rfl, rfl⟩

theorem guardWrite_state (h : guardWrite E a n s = (.ok u, s')) : s' = s := by
  obtain ⟨-, h2⟩ := failIf_bind_ok h
  exact (failIf_ok h2).2

theorem writeAt_state (h : writeAt E a src n s = (.ok u, s')) :
    guardWrite E a n s = (.ok (), s) ∧ s' = { s with mem := copy s.mem a src 0 n } := by
  obtain ⟨_, s1, h1, h2⟩ := bind_ok.mp h
  obtain rfl := guardWrite_state h1
  cases h2
  exact ⟨h1, rfl⟩

-- ==== routines

/-- A property that sequencing keeps, and that all has which does not look
at `pageinfo` and writes memory only. -/
structure Routine (C : (α : Type) → KM α → Prop) : Prop where
  pure : ∀ {α : Type} (a : α), C α (pure a)
  stop : ∀ {α : Type} (e : Stop), C α (Prog.stop e)
  bind : ∀ {α β : Type} {x : KM α} {f : α → KM β},
    C α x → (∀ a, C β (f a)) → C β (x >>= f)
  read : ∀ {α : Type} {f : KState → KM α}, (∀ s p, f { s with pageinfo := p } = f s) →
    (∀ s, C α (f s)) → C α (Prog.get >>= f)
  store : ∀ {f : KState → ByteMap}, (∀ s p, f { s with pageinfo := p } = f s) →
    C Unit (Prog.modify fun s => { s with mem := f s })

namespace Routine

variable {C : (α : Type) → KM α → Prop}

theorem ite (_ : Routine C) [Decidable b] {x y : KM α} (hx : C α x) (hy : C α y) :
    C α (if b then x else y) := by
  split
  · exact hx
  · exact hy

variable (h : Routine C)
include h

theorem assert (b : Prop) [Decidable b] : C Unit (Prog.assert b) := h.ite (h.pure _)
    (h.stop _)

theorem failIf (b : Prop) [Decidable b] (e : Stop) : C Unit (Prog.failIf b e) :=
  h.ite (h.stop _) (h.pure _)

section

variable (ha : ∀ a ∈ allocator, C _ a)

include ha

/-- The allocator that `virtual_memory_map` is given. -/
theorem tableEntry (perm pt i : Nat) : C _ (tableEntry allocator perm pt i) := by
  refine h.read (fun _ _ => rfl) fun s => h.ite (h.pure _) ?_
  cases allocator with
  | none => exact h.pure _
  | some alloc =>
    refine h.ite (h.pure _) (h.bind (ha alloc rfl) fun newPt => ?_)
    refine h.ite (h.pure _) (h.bind (h.assert _) fun _ => ?_)
    refine h.bind (h.store fun _ _ => rfl) fun _ => ?_
    exact h.bind (h.store fun _ _ => rfl) fun _ => h.pure _

theorem lookupFrom (perm va n : Nat) :
    ∀ level pt, C _ (lookupFrom allocator perm va n level pt) := by
  induction n with
  | zero => exact fun _ _ => h.pure _
  | succ n ih =>
    intro level pt
    refine h.bind (h.tableEntry ha _ _ _) fun r => ?_
    cases r with
    | none => exact h.pure _
    | some pe =>
      refine h.bind (h.assert _) fun _ => ?_
      refine h.bind (h.assert _) fun _ => ?_
      refine h.bind (h.assert _) fun _ => ?_
      exact ih _ _

theorem mapLoop (pagetable perm n : Nat) :
    ∀ va pa last l4, C _ (mapLoop allocator pagetable perm n va pa last l4) := by
  induction n with
  | zero => exact fun _ _ _ _ => h.pure _
  | succ n ih =>
    intro va pa last l4
    refine h.bind (h.ite (h.lookupFrom ha _ _ _ _ _) (h.pure _)) fun l4 => ?_
    refine h.ite (h.bind (h.store fun _ _ => rfl) fun _ => ih _ _ _ _) ?_
    refine h.ite (h.bind (h.store fun _ _ => rfl) fun _ => ih _ _ _ _) ?_
    exact h.ite (h.pure _) (ih _ _ _ _)

theorem virtualMemoryMap (pagetable va pa sz perm : Nat) :
    C _ (virtualMemoryMap pagetable va pa sz perm allocator) := by
  refine h.bind (h.assert _) fun _ => ?_
  refine h.bind (h.assert _) fun _ => ?_
  refine h.bind (h.assert _) fun _ => ?_
  refine h.bind (h.assert _) fun _ => ?_
  refine h.bind (h.assert _) fun _ => ?_
  refine h.bind (h.assert _) fun _ => ?_
  refine h.bind (h.assert _) fun _ => ?_
  refine h.bind (h.assert _) fun _ => ?_
  exact h.mapLoop ha _ _ _ _ _ _ _

end

theorem virtualMemoryMap_none (pagetable va pa sz perm : Nat) :
    C _ (Kernel.virtualMemoryMap pagetable va pa sz perm none) :=
  h.virtualMemoryMap (fun a ha => absurd ha (Option.not_mem_none a)) _ _ _ _ _

theorem setPagetable (pt : Nat) : C _ (setPagetable E pt) := by
  refine h.bind (h.assert _) fun _ => h.read (fun _ _ => rfl) fun s => ?_
  refine h.bind (h.assert _) fun _ => ?_
  refine h.bind (h.assert _) fun _ => ?_
  exact h.bind (h.assert _) fun _ => h.assert _

theorem fillPages (pagetable : Nat) (bytes : ByteMap) (endMem n : Nat) :
    ∀ addr, C _ (fillPages pagetable bytes endMem n addr) := by
  induction n with
  | zero => exact fun _ => h.pure _
  | succ n ih =>
    intro addr
    refine h.read (fun _ _ => rfl) fun s => h.bind (h.failIf _ _) fun _ => ?_
    exact h.bind (h.store fun _ _ => rfl) fun _ => ih _

end Routine

/-- One that `page_alloc` has as well. -/
structure Supplied (C : (α : Type) → KM α → Prop) : Prop extends Routine C where
  alloc : ∀ o, C Nat (pageAlloc o)

namespace Supplied

variable {C : (α : Type) → KM α → Prop} (h : Supplied C)
include h

theorem pagetableAlloc : C _ pagetableAlloc :=
  h.read (fun _ _ => rfl) fun _ => h.alloc _

theorem map_alloc (pagetable va pa sz perm : Nat) :
    C _ (virtualMemoryMap pagetable va pa sz perm (some Kernel.pagetableAlloc)) :=
  h.virtualMemoryMap (fun _ ha => Option.some.inj ha ▸ h.pagetableAlloc) _ _ _ _ _

theorem loadPages (pid : Int) (pagetable n : Nat) :
    ∀ addr, C _ (loadPages pid pagetable n addr) := by
  induction n with
  | zero => exact fun _ => h.pure _
  | succ n ih =>
    intro addr
    refine h.bind (h.alloc _) fun paddr => h.ite (h.pure _) ?_
    refine h.bind (h.map_alloc _ _ _ _ _) fun r => ?_
    exact h.ite (h.pure _) (ih _)

theorem programLoadSegment (pid : Int) (g : Segment) :
    C _ (programLoadSegment E pid g) := by
  refine h.read (fun _ _ => rfl) fun s => h.bind (h.loadPages _ _ _ _) fun r => ?_
  refine h.ite (h.pure _) (h.bind (h.setPagetable _) fun _ => ?_)
  refine h.bind (h.fillPages _ _ _ _ _) fun _ => ?_
  exact h.bind (h.setPagetable _) fun _ => h.pure _

theorem loadSegments (pid : Int) (gs : List Segment) : C _ (loadSegments E pid gs) := by
  induction gs with
  | nil => exact h.pure _
  | cons g gs ih =>
    refine h.ite ?_ ih
    exact h.bind (h.programLoadSegment _ _) fun r => h.ite (h.pure _) ih

theorem mapKernel (pagetable : Nat) : C _ (mapKernel E pagetable) := by
  refine h.bind (h.map_alloc _ _ _ _ _) fun _ => ?_
  refine h.bind (h.map_alloc _ _ _ _ _) fun _ => ?_
  exact h.bind (h.map_alloc _ _ _ _ _) fun _ => h.pure _

theorem mapStack (pid : Int) (pagetable : Nat) : C _ (mapStack pid pagetable) :=
  h.bind (h.alloc _) fun _ => h.bind (h.map_alloc _ _ _ _ _) fun _ => h.pure _

/-- The entry is changed too, but neither its number nor its
directory. -/
theorem programLoad (hu : ∀ f : Proc → Proc,
      (∀ p, (f p).pid = p.pid ∧ (f p).cwd = p.cwd) → C _ (Prog.modify fun s => s.updProc pid f))
    (n : Nat) : C _ (programLoad E pid n) := by
  refine h.bind (h.assert _) fun _ => h.bind (h.assert _) fun _ => ?_
  refine h.bind (h.loadSegments _ _) fun r => h.ite (h.pure _) ?_
  exact h.bind (hu _ fun _ => ⟨rfl, rfl⟩) fun _ => h.pure _

theorem processSetup
    (hu : ∀ f : KState → Proc → Proc, (∀ s p, f { s with pageinfo := p } = f s) →
      C _ (Prog.modify fun s => s.updProc pid (f s)))
    (hcur : C _ (Prog.modify fun s => { s with current := pid })) (n : Nat) :
    C _ (processSetup E pid n parent) := by
  have hu' : ∀ f : Proc → Proc, C _ (Prog.modify fun s => s.updProc pid f) :=
    fun f => hu (fun _ => f) fun _ _ => rfl
  refine h.bind (hu' _) fun _ => h.bind hcur fun _ => ?_
  refine h.bind h.pagetableAlloc fun pagetable => h.bind (h.assert _) fun _ => ?_
  refine h.bind (h.mapKernel _) fun _ => h.bind (hu' _) fun _ => ?_
  refine h.bind (h.programLoad (fun f _ => hu' f) n) fun r => h.bind (h.assert _) fun _ => ?_
  refine h.bind (hu' _) fun _ => h.bind (h.mapStack _ _) fun _ => ?_
  exact hu (fun s p => { p with
    parent := parent, state := .runnable, waitPid := -1, fdMax := 0, fdList := 0
    cwd := (s.processes parent).cwd }) fun _ _ => rfl

end Supplied

/-- `R` does not look at memory. -/
structure Framed (R : KState → KState → Prop) : Prop where
  refl : ∀ s, R s s
  trans : ∀ {a b c}, R a b → R b c → R a c
  mem : ∀ s m, R s { s with mem := m }

namespace Framed

variable (hR : Framed R)
include hR

theorem pure (a : α) : Keeps R (pure a : KM α) := Keeps.pure hR.refl a

theorem stop (e : Stop) : Keeps R (Prog.stop e : KM α) := Keeps.stop hR.refl e

theorem get : Keeps R (Prog.get : KM KState) := hR.refl

theorem bind {x : KM α} {f : α → KM β} (hx : Keeps R x)
    (hf : ∀ a, Keeps R (f a)) : Keeps R (x >>= f) :=
  Keeps.bind (fun h h' => hR.trans h h') hx hf

theorem assert (b : Prop) [Decidable b] : Keeps R (Prog.assert b : KM Unit) :=
  Keeps.assert hR.refl b

theorem failIf (b : Prop) [Decidable b] (e : Stop) :
    Keeps R (Prog.failIf b e : KM Unit) :=
  Keeps.failIf hR.refl b e

theorem store (f : KState → ByteMap) :
    Keeps R (Prog.modify fun s => { s with mem := f s }) :=
  fun s => hR.mem s (f s)

-- ==== pointers

theorem lookupVa (va : Nat) : Keeps R (lookupVa va) :=
  hR.bind hR.get fun _ => hR.pure _

theorem readStr (a : Nat) : Keeps R (readStr a) := by
  refine hR.bind hR.get fun s => ?_
  cases strAt s.mem (0x200000 - a) a with
  | none => exact hR.stop _
  | some str => exact hR.pure _

theorem guardWrite (a n : Nat) : Keeps R (guardWrite E a n) :=
  hR.bind (hR.failIf _ _) fun _ => hR.failIf _ _

theorem writeAt (a : Nat) (src : ByteMap) (n : Nat) : Keeps R (writeAt E a src n) :=
  hR.bind (hR.guardWrite a n) fun _ => hR.store _

theorem writePath (buffer : Nat) (str : Path) : Keeps R (writePath buffer str) :=
  hR.bind (hR.failIf _ _) fun _ => hR.bind (hR.failIf _ _) fun _ => hR.store _

theorem joinPath (cwd path : Path) (buffer : Nat) :
    Keeps R (joinPath cwd path buffer) := by
  refine Keeps.ite ?_ ?_
  · exact hR.bind (hR.writePath _ _) fun _ => hR.pure _
  · refine hR.bind (hR.writePath _ _) fun _ => ?_
    exact hR.bind (hR.writePath _ _) fun _ => hR.pure _

theorem strcpyLoop (n : Nat) : ∀ dst src, Keeps R (strcpyLoop E n dst src) := by
  induction n with
  | zero => exact fun _ _ => hR.stop _
  | succ n ih =>
    intro dst src
    refine hR.bind (hR.failIf _ _) fun _ => hR.bind (hR.guardWrite _ _) fun _ => ?_
    refine hR.bind hR.get fun s => hR.bind (hR.store _) fun _ => ?_
    exact Keeps.ite (hR.pure _) (ih _ _)

theorem copyArgs (pagetable argv pargs n : Nat) :
    ∀ i offset, Keeps R (copyArgs E pagetable argv pargs n i offset) := by
  induction n with
  | zero => exact fun _ _ => hR.pure _
  | succ n ih =>
    intro i offset
    refine hR.bind (hR.guardWrite _ _) fun _ => hR.bind (hR.store _) fun _ => ?_
    refine hR.bind hR.get fun s => hR.bind (hR.failIf _ _) fun _ => ?_
    refine hR.bind (hR.strcpyLoop _ _ _) fun _ => ?_
    exact hR.bind (hR.readStr _) fun str => ih _ _

theorem walk : Routine fun _ x => Keeps R x where
  pure := hR.pure
  stop := hR.stop
  bind := hR.bind
  read _ hf := hR.bind hR.get hf
  store _ := hR.store _

end Framed

/-- `R` does not look at free pages either. -/
structure Paged (R : KState → KState → Prop) : Prop extends Framed R where
  take : ∀ s o, (s.pageinfo s.pageno).owner = PO_FREE → R s (takePage o s)
  turn : ∀ s n, R s { s with pageno := n }

namespace Paged

variable (hR : Paged R)
include hR

-- ==== pages

theorem pageAllocLoop (owner : Int) (n : Nat) : Keeps R (pageAllocLoop owner n) := by
  induction n with
  | zero => exact hR.pure _
  | succ n ih =>
    intro s
    rw [Kernel.pageAllocLoop, get_bind]
    by_cases hfree : (s.pageinfo s.pageno).owner = PO_FREE
    · rw [if_pos hfree]
      exact hR.take s owner hfree
    · rw [if_neg hfree, bind_of_ok (modify_apply _ s)]
      exact hR.trans (hR.turn s _) (ih _)

theorem pageAlloc (owner : Int) : Keeps R (pageAlloc owner) :=
  hR.pageAllocLoop owner 512

theorem walk : Supplied fun _ x => Keeps R x :=
  { hR.toFramed.walk with alloc := hR.pageAlloc }

-- ==== processes

theorem forkPage (parent pid : Int) (pagetable va : Nat) :
    Keeps R (forkPage parent pid pagetable va) := by
  refine hR.bind hR.get fun s => Keeps.ite (hR.pure _) ?_
  refine hR.bind (hR.assert _) fun _ => Keeps.ite ?_ ?_
  · refine hR.bind (hR.pageAlloc _) fun pa => hR.bind (hR.assert _) fun _ => ?_
    refine hR.bind (hR.failIf _ _) fun _ => hR.bind (hR.store _) fun _ => ?_
    exact hR.bind (hR.walk.map_alloc _ _ _ _ _) fun _ => hR.pure _
  · exact hR.bind (hR.walk.map_alloc _ _ _ _ _) fun _ => hR.pure _

theorem forkPages (parent pid : Int) (pagetable n : Nat) :
    ∀ va, Keeps R (forkPages parent pid pagetable n va) := by
  induction n with
  | zero => exact fun _ => hR.pure _
  | succ n ih => exact fun _ => hR.bind (hR.forkPage _ _ _ _) fun _ => ih _

/-- A new page of the heap, for a relation that does not look at the
heap. -/
theorem extendHeap (hpush : ∀ s page, R s (pushPage page s)) (owner : Int) :
    Keeps R (extendHeap E (Kernel.pageAlloc owner)) := by
  refine hR.bind hR.get fun s => Keeps.ite (hR.pure _) ?_
  refine hR.bind (hR.pageAlloc _) fun page => Keeps.ite (hR.pure _) ?_
  refine hR.bind (hR.store _) fun _ => ?_
  exact hR.bind (hR.walk.virtualMemoryMap_none _ _ _ _ _) fun _ s => hpush s page

end Paged

/-- `R` does not look at the heap. What a new page is to it, is a question
of its own. -/
structure Pooled (E : KEnv) (R : KState → KState → Prop) : Prop extends Paged R where
  list : ∀ s v, R s { s with freeList := v }
  extend : Keeps R (extendHeap E (pageAlloc PO_KERNEL_HEAP))

namespace Pooled

variable (hR : Pooled E R)
include hR

theorem takeBlock (allocSize : Nat) (prev : Link) (b : Nat) (s : KState) :
    R s (takeBlock allocSize prev b s) := by
  have hlink : ∀ v t, R t (setLink prev v t) := by
    intro v t
    cases prev with
    | head => exact hR.list t v
    | next c => exact hR.mem t _
  have hun : R s (unlinkBlock allocSize prev b s) := by
    unfold unlinkBlock
    split
    · exact hR.trans (hR.mem s _) (hlink _ _)
    · exact hlink _ _
  exact hR.trans hun (hR.mem _ _)

theorem kmalloc (size : Nat) : Keeps R (kmalloc E size) := by
  have hloop : ∀ a fuel, Keeps R
      (mallocLoop E (Kernel.pageAlloc PO_KERNEL_HEAP) a fuel) := by
    intro a fuel
    induction fuel with
    | zero => exact hR.stop _
    | succ fuel ih =>
      refine hR.bind hR.get fun s => ?_
      cases findFit s.mem a (fuel + 1) .head s.freeList with
      | none => exact hR.stop _
      | some r =>
        cases r with
        | none =>
          refine hR.bind hR.extend fun _ => hR.bind hR.get fun _ => ?_
          exact Keeps.ite (hR.pure _) ih
        | some pb => exact hR.bind (fun s => hR.takeBlock _ _ _ s) fun _ => hR.pure _
  exact Keeps.ite (hR.pure _) (hloop _ _)

theorem kfree (p : Nat) : Keeps R (kfree E p) := by
  refine hR.bind hR.get fun s => Keeps.ite (hR.pure _) ?_
  dsimp only
  cases coalesce E.fuel _ _ with
  | none => exact hR.stop _
  | some m =>
    have hfree : ∀ t, R t { t with mem := m, freeList := u64 (p + (2 ^ 64 - 16)) } :=
      fun t => hR.trans (hR.mem t m) (hR.list _ _)
    exact hfree

theorem resolvePath (pa : Nat) : Keeps R (resolvePath E pa) := by
  refine hR.bind (hR.readStr _) fun _ => hR.bind (hR.kmalloc _) fun buffer => ?_
  refine hR.bind (hR.readStr _) fun path => hR.bind hR.get fun s => ?_
  exact hR.joinPath _ _ _

theorem pathArg : Keeps R (pathArg E) :=
  hR.bind hR.get fun _ => hR.bind (hR.lookupVa _) fun _ => hR.resolvePath _

theorem testmalloc : Keeps R (testmalloc E) := by
  have hboth : ∀ size, Keeps R (mallocFree E size) := fun size =>
    hR.bind (hR.kmalloc _) fun _ => hR.kfree _
  have hmany : ∀ size n, Keeps R (mallocMany E size n) := by
    intro size n
    induction n with
    | zero => exact hR.pure _
    | succ n ih => exact hR.bind (hR.kmalloc _) fun _ => hR.bind ih fun _ => hR.pure _
  have hfree : ∀ ps, Keeps R (freeMany E ps) := by
    intro ps
    induction ps with
    | nil => exact hR.pure _
    | cons p ps ih => exact hR.bind (hR.kfree _) fun _ => ih
  refine hR.bind (hboth _) fun _ => hR.bind (hR.kmalloc _) fun p2 => ?_
  refine hR.bind (hR.kmalloc _) fun p3 => hR.bind ?_ fun _ => ?_
  · exact Keeps.when hR.refl (hR.bind (hR.kfree _) fun _ => hR.kfree _)
  · refine hR.bind (hboth _) fun _ => hR.bind (hmany _ _) fun ptrs => ?_
    refine hR.bind (hfree _) fun _ => ?_
    exact hR.bind (hR.kmalloc _) fun _ => hR.pure _

end Pooled

end RojocOS.Kernel
