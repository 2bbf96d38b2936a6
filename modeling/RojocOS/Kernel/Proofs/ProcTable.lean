/-
What a trap does to the process table.

# Serving a process

Most handlers work for the process that called: they take pages that
were free, change that process's registers, descriptors or directory, and
leave the others (`Serves`). The rest change who there is or what it is
doing; `Act` lists them with the conditions their assertions leave.

# A trap

`exception` is three parts: the way in, which only stores the registers;
one `Act`; and the way out, which chooses who runs next
(`exception_act`). What holds of the process table in every run follows
from the constructors of `Act`, without looking at a handler again.
-/
import RojocOS.Kernel.Run
import RojocOS.Kernel.Proofs.Keeps
import RojocOS.Kernel.Proofs.PathLength

namespace RojocOS.Kernel

open ByteMap Fs Prog

variable {E : KEnv} {α : Type} {s s' s'' s1 : KState} {argc argv buffer n : Nat} {c : Int}
  {cwd p path : Path} {q r : Proc}

-- ==== serving

/-- What the rest of the kernel knows a process by. -/
structure SameRole (p q : Proc) : Prop where
  pid : q.pid = p.pid
  parent : q.parent = p.parent
  state : q.state = p.state
  waitPid : q.waitPid = p.waitPid
  waitExitCode : q.waitExitCode = p.waitExitCode
  pagetable : q.pagetable = p.pagetable

theorem SameRole.refl (p : Proc) : SameRole p p := ⟨rfl, rfl, rfl, rfl, rfl, rfl⟩

theorem SameRole.trans {p : Proc} (h : SameRole p q) (h' : SameRole q r) : SameRole p r :=
  ⟨h'.pid.trans h.pid, h'.parent.trans h.parent, h'.state.trans h.state,
    h'.waitPid.trans h.waitPid, h'.waitExitCode.trans h.waitExitCode,
    h'.pagetable.trans h.pagetable⟩

/-- The pages of the heap are marked as such. -/
def HeapOwned (s : KState) : Prop :=
  ∀ p ∈ s.heapPages, (s.pageinfo (p / 4096)).owner = PO_KERNEL_HEAP

/-- Pages were taken, and none given up. -/
structure Takes (s s' : KState) : Prop where
  pages : ∀ pn, (s.pageinfo pn).owner ≠ PO_FREE → s'.pageinfo pn = s.pageinfo pn
  heap : HeapOwned s → HeapOwned s'

theorem Takes.refl (s : KState) : Takes s s := ⟨fun _ _ => rfl, fun h => h⟩

theorem Takes.trans (h : Takes s s') (h' : Takes s' s'') : Takes s s'' := by
  refine ⟨fun pn hne => ?_, fun hs => h'.heap (h.heap hs)⟩
  have h1 := h.pages pn hne
  exact (h'.pages pn (h1.symm ▸ hne)).trans h1

theorem Takes.of_same (hp : s'.pageinfo = s.pageinfo)
    (hh : s'.heapPages = s.heapPages) : Takes s s' := by
  refine ⟨fun pn _ => congrFun hp pn, fun h => ?_⟩
  unfold HeapOwned at *
  rw [hp, hh]
  exact h

theorem Takes.updProc (s : KState) (pid : Int) (f : Proc → Proc) :
    Takes s (s.updProc pid f) := Takes.of_same rfl rfl

/-- The process table is as it was. -/
structure Calm (s s' : KState) : Prop extends Takes s s' where
  processes : s'.processes = s.processes
  current : s'.current = s.current

/-- What `chdir` may put in `p_cwd`. -/
structure IsCwd (p : Path) : Prop where
  len : p.length < 256
  root : p.head? = some slash

/-- The kernel worked for the current process. -/
structure Serves (s s' : KState) : Prop extends Takes s s' where
  current : s'.current = s.current
  others : ∀ i, i ≠ s.current → s'.processes i = s.processes i
  role : SameRole s.cur s'.cur
  cwd : s'.cur.cwd = s.cur.cwd ∨ IsCwd s'.cur.cwd

theorem Calm.refl (s : KState) : Calm s s := ⟨Takes.refl s, rfl, rfl⟩

theorem Calm.trans (h : Calm s s') (h' : Calm s' s'') : Calm s s'' :=
  ⟨h.toTakes.trans h'.toTakes, h'.processes.trans h.processes, h'.current.trans h.current⟩

theorem Calm.of_same (hp : s'.pageinfo = s.pageinfo) (hh : s'.heapPages = s.heapPages)
    (hproc : s'.processes = s.processes) (hc : s'.current = s.current) : Calm s s' :=
  ⟨Takes.of_same hp hh, hproc, hc⟩

theorem Calm.serves (h : Calm s s') : Serves s s' := by
  have hcur : s'.cur = s.cur := by
    unfold KState.cur
    rw [h.processes, h.current]
  refine ⟨h.toTakes, h.current, fun i _ => congrFun h.processes i, ?_, ?_⟩
  · rw [hcur]
    exact SameRole.refl _
  · exact .inl (congrArg Proc.cwd hcur)

theorem Serves.refl (s : KState) : Serves s s := (Calm.refl s).serves

theorem Serves.trans (h : Serves s s') (h' : Serves s' s'') : Serves s s'' := by
  refine ⟨h.toTakes.trans h'.toTakes, h'.current.trans h.current, fun i hi => ?_,
    h.role.trans h'.role, ?_⟩
  · exact (h'.others i (h.current.symm ▸ hi)).trans (h.others i hi)
  · rcases h'.cwd with heq | hnew
    · rw [heq]
      exact h.cwd
    · exact .inr hnew

/-- The kernel changes something of the current process that is not its
role. -/
theorem Serves.own (f : Proc → Proc) (hf : ∀ p, SameRole p (f p))
    (hcwd : ∀ p, (f p).cwd = p.cwd ∨ IsCwd (f p).cwd) :
    Serves s (s.updProc s.current f) := by
  have hcur : (s.updProc s.current f).cur = f s.cur := s.updProc_same s.current f
  refine ⟨Takes.of_same rfl rfl, rfl, fun i hi => s.updProc_other f hi, ?_, ?_⟩
  · rw [hcur]
    exact hf _
  · rw [hcur]
    exact hcwd _

-- ==== subroutines

theorem Calm.paged : Paged Calm where
  refl := Calm.refl
  trans := Calm.trans
  mem := fun _ _ => Calm.of_same rfl rfl rfl rfl
  take := by
    intro s o hfree
    have hkeep : ∀ pn, (s.pageinfo pn).owner ≠ PO_FREE →
        (takePage o s).pageinfo pn = s.pageinfo pn := by
      intro pn hne
      have hpn : pn ≠ s.pageno := by
        rintro rfl
        exact hne hfree
      exact if_neg hpn
    refine ⟨⟨hkeep, fun hs p hp => ?_⟩, rfl, rfl⟩
    have howner := hs p hp
    rw [hkeep _ (by rw [howner]; decide)]
    exact howner
  turn := fun _ _ => Calm.of_same rfl rfl rfl rfl

/-- A page that `page_alloc` returns is marked. -/
theorem pageAllocLoop_owner (o : Int) (n : Nat) : ∀ s, ∃ p s',
    pageAllocLoop o n s = (.ok p, s') ∧ (p = 0 ∨ (s'.pageinfo (p / 4096)).owner = o) := by
  induction n with
  | zero => exact fun s => ⟨0, s, rfl, .inl rfl⟩
  | succ n ih =>
    intro s
    rw [pageAllocLoop, get_bind]
    by_cases hfree : (s.pageinfo s.pageno).owner = PO_FREE
    · rw [if_pos hfree]
      refine ⟨_, _, rfl, .inr ?_⟩
      rw [Nat.mul_div_cancel _ (by decide)]
      exact congrArg PageInfo.owner (if_pos rfl)
    · rw [if_neg hfree, bind_of_ok (modify_apply _ s)]
      exact ih _

theorem pageAlloc_owner (o : Int) (s : KState) : ∃ p s',
    pageAlloc o s = (.ok p, s') ∧ (p = 0 ∨ (s'.pageinfo (p / 4096)).owner = o) :=
  pageAllocLoop_owner o 512 s

/-- Memory is all that changed. -/
def SameButMem (s s' : KState) : Prop := ∃ m, s' = { s with mem := m }

theorem SameButMem.framed : Framed SameButMem where
  refl := fun s => ⟨s.mem, rfl⟩
  trans := by
    rintro a b c ⟨m, rfl⟩ ⟨m', rfl⟩
    exact ⟨m', rfl⟩
  mem := fun _ m => ⟨m, rfl⟩

theorem Calm.pooled : Pooled E Calm := by
  refine { Calm.paged with list := fun _ _ => Calm.of_same rfl rfl rfl rfl, extend := ?_ }
  intro s
  unfold extendHeap
  rw [get_bind]
  by_cases hlen : 1024 ≤ s.heapPages.length
  · rw [if_pos hlen]
    exact Calm.refl s
  obtain ⟨p, s1, halloc, hown⟩ := pageAlloc_owner PO_KERNEL_HEAP s
  have hcalm : Calm s s1 := (Calm.paged.pageAlloc _).of_run halloc
  rw [if_neg hlen, bind_of_ok halloc]
  by_cases hp0 : p = 0
  · rw [if_pos hp0]
    exact hcalm
  -- clearing and mapping the page are writes to memory; then it is on the list
  have hwrite : Keeps SameButMem (do
      memzero p 4096
      virtualMemoryMap E.kernelPagetables p p 4096 3 none) :=
    SameButMem.framed.bind (SameButMem.framed.store _) fun _ =>
      SameButMem.framed.walk.virtualMemoryMap_none _ _ _ _ _
  have hpush : ∀ m, Calm s1 (pushPage p { s1 with mem := m }) := by
    intro m
    refine ⟨⟨fun _ _ => rfl, fun hs q hq => ?_⟩, rfl, rfl⟩
    rcases List.mem_append.mp (hq) with hq | hq
    · exact hs q hq
    · rw [List.mem_singleton.mp hq]
      exact hown.resolve_left hp0
  rw [if_neg hp0, ← Prog.bind_assoc]
  have hmem := hwrite s1
  rcases hrun : (do
      memzero p 4096
      virtualMemoryMap E.kernelPagetables p p 4096 3 none) s1 with ⟨r, s2⟩
  rw [hrun] at hmem
  obtain ⟨m, rfl⟩ := hmem
  cases r with
  | ok r =>
    rw [bind_of_ok hrun]
    exact hcalm.trans (hpush m)
  | error e =>
    rw [bind_of_error hrun]
    exact hcalm.trans (Calm.of_same rfl rfl rfl rfl)

theorem Serves.pooled : Pooled E Serves where
  refl := Serves.refl
  trans := Serves.trans
  mem := fun s m => (Calm.paged.mem s m).serves
  take := fun s o hfree => (Calm.paged.take s o hfree).serves
  turn := fun s n => (Calm.paged.turn s n).serves
  list := fun s v => ((Calm.pooled (E := E)).list s v).serves
  extend := fun s => (Calm.pooled.extend s).serves

theorem fsCall_calm (x : FsM α) : Keeps Calm (fsCall x) := by
  intro s
  unfold fsCall
  rcases x _ with ⟨r, w⟩
  cases r with
  | ok a => exact Calm.of_same rfl rfl rfl rfl
  | error e => cases e <;> exact Calm.of_same rfl rfl rfl rfl

theorem fsCallBuf_calm (pa : Nat) (x : FsM α) : Keeps Calm (fsCallBuf E pa x) := by
  intro s
  unfold fsCallBuf
  dsimp only
  rcases x _ with ⟨r, w⟩
  cases w.trace.reverse.findSome? (accessStop E pa) with
  | some e => exact Calm.of_same rfl rfl rfl rfl
  | none =>
    cases r with
    | ok a => exact Calm.of_same rfl rfl rfl rfl
    | error e => cases e <;> exact Calm.of_same rfl rfl rfl rfl

-- ==== handlers

/-- A path that fitted the buffer of `resolve_path` fits `p_cwd`. -/
theorem joinPath_isCwd (h : joinPath cwd path buffer s = (.ok p, s')) : IsCwd p := by
  have hwrite : ∀ {str s1 s2 u}, writePath buffer str s1 = (.ok u, s2) → str.length < 256 := by
    intro str s1 s2 u h
    obtain ⟨_, s3, h1, h2⟩ := bind_ok.mp h
    obtain ⟨_, s4, h3, -⟩ := bind_ok.mp h2
    exact Nat.lt_of_not_le (failIf_ok h3).1
  unfold joinPath at h
  by_cases habs : path.head? = some slash
  · rw [if_pos habs] at h
    obtain ⟨_, s1, h1, h2⟩ := bind_ok.mp h
    cases h2
    exact ⟨hwrite h1, head?_joinAbsolute path⟩
  · rw [if_neg habs] at h
    obtain ⟨_, s1, h1, h2⟩ := bind_ok.mp h
    obtain ⟨_, s2, h3, h4⟩ := bind_ok.mp h2
    cases h4
    exact ⟨hwrite h3, head?_joinRelative cwd path⟩

theorem pathArg_isCwd (h : pathArg E s = (.ok p, s')) : IsCwd p := by
  obtain ⟨_, s1, -, h1⟩ := bind_ok.mp h
  obtain ⟨pa, s2, -, h2⟩ := bind_ok.mp h1
  obtain ⟨_, s3, -, h3⟩ := bind_ok.mp h2
  obtain ⟨buffer, s4, -, h4⟩ := bind_ok.mp h3
  obtain ⟨path, s5, -, h5⟩ := bind_ok.mp h4
  obtain ⟨_, s6, -, h6⟩ := bind_ok.mp h5
  exact joinPath_isCwd h6

/-- What the calls on paths ask of the file system. -/
inductive Asked (E : FsEnv) (d : FsDescriptor) : (α : Type) → FsM α → Prop
  | getattr (path : Path) : Asked E d _ (fsGetattr E d path)
  | allocInode : Asked E d _ (fsAllocInode E d)
  | touch (path : Path) (value : Nat) : Asked E d _ (fsTouch E d path value)
  | remove (path : Path) : Asked E d _ (fsRemove E d path)
  | readdirInit (path : Path) : Asked E d _ (fsReaddirInit E d path)
  | readdirNext (nodeIndex off : Nat) : Asked E d _ (fsReaddirNext E d nodeIndex off)

/-- `R` is kept by work for the current process. `D` is what is known of
the file system's descriptor. -/
structure Service (E : KEnv) (D : FsDescriptor → Prop) (R : KState → KState → Prop) : Prop
    extends Pooled E R where
  desc : ∀ {α : Type} {f : KState → KM α}, (∀ s, D s.desc → Keeps R (f s)) →
    Keeps R (Prog.get >>= f)
  own : ∀ s (f : Proc → Proc), (∀ p, SameRole p (f p)) →
    (∀ p, (f p).cwd = p.cwd ∨ IsCwd (f p).cwd) → R s (s.updProc s.current f)
  rest : ∀ (s : KState) polls next draws,
    R s { s with polls := polls, stdinNext := next, draws := draws }
  call : ∀ {d} {α : Type} {x : FsM α}, D d → Asked E.fsEnv d α x → Keeps R (fsCall x)
  callRead : ∀ {d} (pa fuel ino size offset : Nat), D d →
    Keeps R (fsCallBuf E pa (fsRead E.fsEnv d fuel ino size offset))

namespace Service

variable {D : FsDescriptor → Prop} {R : KState → KState → Prop} (hS : Service E D R)
include hS

theorem update {f : KState → Proc → Proc} (hf : ∀ s p, SameRole p (f s p))
    (hcwd : ∀ s p, (f s p).cwd = p.cwd ∨ IsCwd (f s p).cwd) :
    Keeps R (Prog.modify fun s => s.updProc s.current (f s)) :=
  fun s => hS.own s (f s) (hf s) (hcwd s)

theorem setRax (v : Nat) : Keeps R (setRax v) :=
  hS.update (fun _ _ => ⟨rfl, rfl, rfl, rfl, rfl, rfl⟩) fun _ _ => .inl rfl

-- ---------------------------------------------------------- descriptors

theorem fdAdvance : Keeps R fdAdvance :=
  hS.bind hS.get fun _ => hS.bind (hS.failIf _ _) fun _ =>
    hS.update (fun _ _ => ⟨rfl, rfl, rfl, rfl, rfl, rfl⟩) fun _ _ => .inl rfl

theorem fdlistDrain (fuel : Nat) : Keeps R (fdlistDrain fuel) := by
  induction fuel with
  | zero => exact hS.stop _
  | succ fuel ih =>
    refine hS.bind hS.get fun s => Keeps.ite (hS.pure _) ?_
    exact hS.bind hS.fdAdvance fun _ => ih

theorem fdlistSearchEntry (fd fuel : Nat) : Keeps R (fdlistSearchEntry fd fuel) := by
  induction fuel with
  | zero => exact hS.stop _
  | succ fuel ih =>
    refine hS.bind hS.get fun s => Keeps.ite (hS.pure _) ?_
    refine hS.bind (hS.failIf _ _) fun _ => Keeps.ite (hS.pure _) ?_
    exact hS.bind hS.fdAdvance fun _ => ih

theorem fdlistAddEntry (fd : Int) (inode : Nat) : Keeps R (fdlistAddEntry E fd inode) := by
  refine hS.bind (hS.fdlistDrain _) fun _ => hS.bind (hS.kmalloc _) fun entry => ?_
  refine Keeps.ite (hS.pure _) (hS.bind (hS.store _) fun _ => hS.bind ?_ fun _ => hS.pure _)
  exact hS.update (fun _ _ => ⟨rfl, rfl, rfl, rfl, rfl, rfl⟩) fun _ _ => .inl rfl

theorem advance (entry n : Nat) (r : Int) : Keeps R (advance E entry n r) :=
  hS.bind (hS.guardWrite _ _) fun _ => hS.bind (hS.store _) fun _ => hS.setRax _

theorem sysRead : Keeps R (sysRead E) := by
  refine hS.bind hS.get fun s => hS.bind (hS.lookupVa _) fun buf => ?_
  refine hS.bind (hS.fdlistSearchEntry _ _) fun entry => hS.bind (hS.failIf _ _) fun _ => ?_
  refine hS.desc fun t hd => hS.bind (hS.callRead _ _ _ _ _ hd) fun r => ?_
  cases r with
  | error c => exact hS.setRax _
  | ok n => exact Keeps.ite (hS.setRax _) (hS.advance _ _ _)

/-- The call behind `sys_write` is not one for every relation. -/
theorem sysWrite (hw : ∀ d pa ino size offset,
    Keeps R (fsCallBuf E pa (fsWrite E.fsEnv d ino size offset))) : Keeps R (sysWrite E) := by
  refine hS.bind hS.get fun s => hS.bind (hS.lookupVa _) fun buf => ?_
  refine hS.bind (hS.fdlistSearchEntry _ _) fun entry => Keeps.ite (hS.setRax _) ?_
  refine hS.bind (hS.failIf _ _) fun _ => hS.bind hS.get fun t => ?_
  refine hS.bind (hw _ _ _ _ _) fun r => ?_
  cases r with
  | error c => exact hS.setRax _
  | ok n => exact Keeps.ite (hS.setRax _) (hS.advance _ _ _)

-- ---------------------------------------------------------------- paths

theorem sysOpen : Keeps R (sysOpen E) := by
  refine hS.bind hS.pathArg fun path => hS.desc fun s hd => ?_
  refine hS.bind (hS.call hd (.getattr path)) fun r => ?_
  cases r with
  | error c => exact hS.setRax _
  | ok inode =>
    refine hS.bind (hS.update (fun _ _ => ⟨rfl, rfl, rfl, rfl, rfl, rfl⟩) fun _ _ => .inl rfl)
      fun _ => hS.bind hS.get fun s => ?_
    refine hS.bind (hS.fdlistAddEntry _ _) fun r => ?_
    exact Keeps.ite (hS.setRax _) (hS.setRax _)

theorem sysRemove : Keeps R (sysRemove E) := by
  refine hS.bind hS.pathArg fun path => hS.desc fun s hd => ?_
  refine hS.bind (hS.call hd (.remove path)) fun r => ?_
  cases r <;> exact hS.setRax _

theorem sysMkdir : Keeps R (sysMkdir E) := by
  refine hS.bind hS.pathArg fun path => hS.desc fun s hd => ?_
  refine hS.bind (hS.call hd (.touch path 0)) fun r => ?_
  cases r <;> exact hS.setRax _

theorem sysTouch : Keeps R (sysTouch E) := by
  refine hS.bind hS.pathArg fun path => hS.desc fun s hd => ?_
  refine hS.bind (hS.call hd .allocInode) fun r => ?_
  cases r with
  | error c => exact hS.setRax _
  | ok inode =>
    refine hS.bind (hS.call hd (.touch path _)) fun r => ?_
    cases r <;> exact hS.setRax _

theorem sysChdir : Keeps R (sysChdir E) := by
  -- the path that is copied is one `join_path` has built
  refine Keeps.bind_of (fun h h' => hS.trans h h') hS.pathArg
    (fun _ _ _ h => pathArg_isCwd h) fun path hcwd => hS.desc fun s hd => ?_
  refine hS.bind (hS.call hd (.getattr path)) fun r => ?_
  cases r with
  | error c => exact hS.setRax _
  | ok v =>
    refine Keeps.ite (hS.setRax _) (hS.bind (hS.failIf _ _) fun _ => ?_)
    exact hS.bind (hS.update (fun _ _ => ⟨rfl, rfl, rfl, rfl, rfl, rfl⟩) fun _ _ => .inr hcwd)
      fun _ => hS.setRax _

theorem sysGetcwd : Keeps R (sysGetcwd E) :=
  hS.bind hS.get fun _ => hS.bind (hS.lookupVa _) fun _ =>
    hS.bind (hS.writeAt _ _ _) fun _ => hS.setRax _

theorem listNames (nodeIndex n : Nat) : ∀ off, Keeps R (listNames E nodeIndex n off) := by
  induction n with
  | zero => exact fun _ => hS.pure _
  | succ n ih =>
    intro off
    refine hS.desc fun s hd => hS.bind (hS.call hd (.readdirNext nodeIndex off)) fun r => ?_
    cases r with
    | error c => exact hS.pure _
    | ok name =>
      dsimp only
      cases strAt name 32 0 with
      | none => exact hS.stop _
      | some str => exact hS.bind (ih _) fun rest => hS.pure _

theorem sysListdir : Keeps R (sysListdir E) := by
  refine hS.bind hS.pathArg fun path => hS.desc fun s hd => ?_
  refine hS.bind (hS.lookupVa _) fun buffer => ?_
  refine hS.bind (hS.call hd (.readdirInit path)) fun r => ?_
  cases r with
  | error c => exact hS.setRax _
  | ok nc =>
    refine Keeps.ite (hS.setRax _) (hS.bind (hS.listNames _ _ _) fun names => ?_)
    exact hS.bind (hS.writeAt _ _ _) fun _ => hS.setRax _

-- ---------------------------------------------------------- small calls

theorem sysKeybord : Keeps R (sysKeybord E) := by
  refine hS.bind ?_ fun c => hS.bind hS.get fun s => Keeps.ite (hS.setRax _) ?_
  · refine hS.bind hS.get fun s => hS.bind (fun s => hS.rest s _ _ _) fun _ => ?_
    exact hS.bind (hS.failIf _ _) fun _ => hS.bind (hS.failIf _ _) fun _ => hS.pure _
  · exact Keeps.ite (hS.setRax _) (hS.bind (fun s => hS.rest s _ _ _) fun _ => hS.setRax _)

theorem sysGetrandom : Keeps R (sysGetrandom E) :=
  hS.bind hS.get fun _ => hS.bind (fun s => hS.rest s _ _ _) fun _ => hS.setRax _

theorem sysGetpid : Keeps R sysGetpid := hS.bind hS.get fun _ => hS.setRax _

theorem sysPageAlloc : Keeps R sysPageAlloc := by
  refine hS.bind hS.get fun s => hS.bind (hS.pageAlloc _) fun paddr => ?_
  refine Keeps.ite (hS.setRax _) (hS.bind ?_ fun _ => hS.setRax _)
  exact hS.walk.virtualMemoryMap_none _ _ _ _ _

theorem execTestmalloc : Keeps R (execTestmalloc E) := by
  refine hS.bind hS.get fun s => hS.bind (hS.lookupVa _) fun argv => ?_
  refine hS.bind (hS.failIf _ _) fun _ => hS.bind (Keeps.when hS.refl ?_) fun _ => hS.testmalloc
  exact hS.bind (hS.lookupVa _) fun _ => hS.bind (hS.readStr _) fun _ => hS.pure _

end Service

theorem Serves.service : Service E (fun _ => True) Serves :=
  { Serves.pooled with
    desc := fun hf s => hf s trivial s
    own := fun _ => Serves.own
    rest := fun _ _ _ _ => Calm.serves (Calm.of_same rfl rfl rfl rfl)
    call := fun _ _ s => (fsCall_calm _ s).serves
    callRead := fun _ _ _ _ _ _ s => (fsCallBuf_calm _ _ s).serves }

theorem sysWrite_serves : Keeps Serves (sysWrite E) :=
  Serves.service.sysWrite fun _ _ _ _ _ s => (fsCallBuf_calm _ _ s).serves

theorem sysHello_serves : Keeps Serves (sysHello E) := by
  have hR : Pooled E Serves := Serves.pooled
  have hcall : ∀ {α : Type} (x : FsM α), Keeps Serves (fsCall x) :=
    fun x s => (fsCall_calm x s).serves
  exact hR.bind (hcall _) fun _ => hR.bind (hcall _) fun _ => hR.bind (hcall _) fun _ => hR.pure _

theorem setRax_serves (v : Nat) : Keeps Serves (setRax v) :=
  (Serves.service (E := plainKEnv)).setRax v

-- ==== the acts

/-- What a handler that returns has done. -/
inductive Act (E : KEnv) : Trap → KState → KState → Prop
  | serve {t : Trap} {s s' : KState} (h : Serves s s') : Act E t s s'
  | fault {s : KState} :
      Act E .pagefault s (s.updProc s.current fun p => { p with state := .broken })
  | forget {s s' : KState} {pid : Int} (hpid : pid = i32 s.cur.registers.rdi)
      (hlo : 1 ≤ pid) (hhi : pid < 16) (hparent : (s.processes pid).parent = s.cur.pid)
      (hstate : (s.processes pid).state = .broken)
      (h : Serves (s.updProc pid fun p => { p with state := .free }) s') :
      Act E .forget s s'
  | block {s s₁ : KState} {pid : Int} {a : Nat} (hpid : pid = i32 s.cur.registers.rdi)
      (hlo : 1 ≤ pid) (hparent : (s.processes pid).parent = s.cur.pid)
      (hstate : (s.processes pid).state ≠ .broken) (h : Serves s s₁) :
      Act E .wait s (s₁.updProc s₁.current fun p =>
        { p with state := .blocked, waitPid := pid, waitExitCode := a })
  | exit {t : Trap} {s s₁ s' : KState} (ht : t = .exit ∨ t = .execv) (h : Serves s s₁)
      (hkill : processKill E s.cur.pid s₁ = (.ok (), s')) : Act E t s s'
  | kill {s s₁ s' : KState} (h : Serves s s₁)
      (hkill : processKill E (i32 s.cur.registers.rdi) s₁ = (.ok (), s')) :
      Act E .kill s s'
  | fork {s s₁ s' : KState} {c pagetable : Nat} (hslot : freeSlot s = some c)
      (h : Calm { s with current := c } s₁)
      (h' : Serves { forkChild s.current c pagetable s₁ with current := s.current } s') :
      Act E .fork s s'
  | exec {s s₁ s₂ s₃ s' : KState} {n : Nat} {keep : Nat → Bool} (h : Serves s s₁)
      (hrelease : releasePages s.cur.pid keep s₁ = (.ok (), s₂))
      (hsetup : processSetup E s.cur.pid n s.cur.parent s₂ = (.ok (), s₃))
      (h' : Serves s₃ s') : Act E .execv s s'

section Acts

theorem pageFault_act (h : pageFault s = (.ok (), s')) : Act E .pagefault s s' := by
  have h2 := bind_step h rfl
  obtain ⟨-, h4⟩ := failIf_bind_ok h2
  cases h4
  exact Act.fault

/-- `sys_forget` frees the entry of a child that is broken. -/
theorem sysForget_ok (h : sysForget s = (.ok (), s')) :
    (1 ≤ i32 s.cur.registers.rdi ∧ i32 s.cur.registers.rdi < 16)
      ∧ (s.processes (i32 s.cur.registers.rdi)).parent = s.cur.pid
      ∧ (s.processes (i32 s.cur.registers.rdi)).state = .broken
      ∧ setRax 0 (s.updProc (i32 s.cur.registers.rdi) fun p => { p with state := .free })
        = (.ok (), s') := by
  have h2 := bind_step h rfl
  obtain ⟨hrange, h4⟩ := assert_bind_ok h2
  obtain ⟨hparent, h6⟩ := assert_bind_ok h4
  obtain ⟨hstate, h8⟩ := assert_bind_ok h6
  have h10 := bind_step h8 rfl
  exact ⟨hrange, hparent, hstate, h10⟩

theorem sysForget_act (h : sysForget s = (.ok (), s')) : Act E .forget s s' := by
  obtain ⟨hrange, hparent, hstate, hrax⟩ := sysForget_ok h
  exact Act.forget rfl hrange.1 hrange.2 hparent hstate ((setRax_serves 0).of_run hrax)

theorem sysWait_act (h : sysWait E s = (.ok (), s')) : Act E .wait s s' := by
  have h2 := bind_step h rfl
  have h4 := bind_step h2 rfl
  obtain ⟨hlo, h6⟩ := assert_bind_ok h4
  obtain ⟨hparent, h8⟩ := assert_bind_ok h6
  obtain ⟨_, s5, h9, h10⟩ := bind_ok.mp h8
  have hserve := (setRax_serves 0).of_run h9
  by_cases hst : (s.processes (i32 s.cur.registers.rdi)).state = .broken
  · rw [if_pos hst] at h10
    have hR : Pooled E Serves := Serves.pooled
    refine Act.serve (hserve.trans ?_)
    exact (hR.bind (hR.guardWrite _ _) fun _ => hR.store _).of_run h10
  · rw [if_neg hst] at h10
    cases h10
    exact Act.block rfl hlo hparent hst hserve

/-- The end of a process by its own call. -/
theorem killSelf_ok {f : Proc → Proc} (hf : ∀ p, SameRole p (f p))
    (hcwd : ∀ p, (f p).cwd = p.cwd) (h : (do
      Prog.modify fun s : KState => s.updProc s.current f
      let s ← Prog.get
      processKill E s.cur.pid : KM Unit) s = (.ok (), s')) :
    ∃ s1, Serves s s1 ∧ processKill E s.cur.pid s1 = (.ok (), s') := by
  have h2 := bind_step h rfl
  rw [get_bind] at h2
  have hserve := Serves.own (s := s) f hf fun p => .inl (hcwd p)
  rw [hserve.role.pid] at h2
  exact ⟨_, hserve, h2⟩

theorem sysExit_ok (h : sysExit E s = (.ok (), s')) :
    ∃ s1, Serves s s1 ∧ processKill E s.cur.pid s1 = (.ok (), s') := by
  exact killSelf_ok (f := fun p => { p with exitCode := i32 p.registers.rdi })
    (fun _ => ⟨rfl, rfl, rfl, rfl, rfl, rfl⟩) (fun _ => rfl) h

theorem execDone_ok (h : execDone E s = (.ok (), s')) :
    ∃ s1, Serves s s1 ∧ processKill E s.cur.pid s1 = (.ok (), s') := by
  exact killSelf_ok (f := fun p => { p with exitCode := 0 })
    (fun _ => ⟨rfl, rfl, rfl, rfl, rfl, rfl⟩) (fun _ => rfl) h

theorem sysExit_act (h : sysExit E s = (.ok (), s')) : Act E .exit s s' := by
  obtain ⟨s1, hserve, hkill⟩ := sysExit_ok h
  exact Act.exit (.inl rfl) hserve hkill

theorem sysKill_ok (h : sysKill E s = (.ok (), s')) :
    ∃ s1, Serves s s1 ∧ processKill E (i32 s.cur.registers.rdi) s1 = (.ok (), s') := by
  obtain ⟨_, s1, h1, h2⟩ := bind_ok.mp h
  rw [get_bind] at h2
  have hserve := (setRax_serves 0).of_run h1
  cases h1
  have hcur : ∀ f, (s.updProc s.current f).cur = f s.cur := fun f =>
    s.updProc_same s.current f
  rw [hcur] at h2
  exact ⟨_, hserve, h2⟩

theorem sysKill_act (h : sysKill E s = (.ok (), s')) : Act E .kill s s' := by
  obtain ⟨s1, hserve, hkill⟩ := sysKill_ok h
  exact Act.kill hserve hkill

/-- Work for the child, seen from the parent. -/
theorem Calm.back (h : Calm { s with current := c } s1) :
    Serves s { s1 with current := s.current } := by
  have hproc : s1.processes = s.processes := h.processes
  have hcur : ({ s1 with current := s.current } : KState).cur = s.cur :=
    congrFun hproc s.current
  refine ⟨⟨h.pages, h.heap⟩, rfl, fun i _ => congrFun hproc i, ?_,
    .inl (congrArg Proc.cwd hcur)⟩
  rw [hcur]
  exact SameRole.refl _

theorem freeSlot_some {c : Nat} (h : freeSlot s = some c) :
    1 ≤ c ∧ c < 16 ∧ (s.processes c).state = .free := by
  have hmem := List.mem_of_find?_eq_some h
  have hfree := List.find?_some h
  rw [List.mem_range'_1] at hmem
  exact ⟨hmem.1, by omega, of_decide_eq_true hfree⟩

theorem sysFork_act (h : sysFork s = (.ok (), s')) : Act E .fork s s' := by
  have h2 := bind_step h rfl
  cases hslot : freeSlot s with
  | none =>
    rw [hslot] at h2
    exact Act.serve ((setRax_serves _).of_run h2)
  | some c =>
    rw [hslot] at h2
    have h4 := bind_step h2 rfl
    have h6 := bind_step h4 rfl
    obtain ⟨pagetable, s4, h7, h8⟩ := bind_ok.mp h6
    have hcalm : Calm { s with current := c } s4 := Calm.paged.walk.pagetableAlloc.of_run h7
    by_cases h0 : pagetable = 0
    · rw [if_pos h0] at h8
      have h10 := bind_step h8 rfl
      exact Act.serve (hcalm.back.trans ((setRax_serves _).of_run h10))
    · rw [if_neg h0] at h8
      obtain ⟨_, s5, h9, h10⟩ := bind_ok.mp h8
      have hloop : Calm s4 s5 := (Calm.paged.forkPages _ _ _ _ _).of_run h9
      have h12 := bind_step h10 rfl
      have h14 := bind_step h12 rfl
      exact Act.fork hslot (hcalm.trans hloop) ((setRax_serves _).of_run h14)

/-- The process gets another program. -/
def Execs (E : KEnv) (n : Nat) (s s' : KState) : Prop :=
  ∃ s₁ s₂ s₃ keep, Serves s s₁ ∧ releasePages s.cur.pid keep s₁ = (.ok (), s₂)
    ∧ processSetup E s.cur.pid n s.cur.parent s₂ = (.ok (), s₃) ∧ Serves s₃ s'

theorem execArgs_ok (h : execArgs E n argv argc s = (.ok (), s')) : Execs E n s s' := by
  have hR : Pooled E Serves := Serves.pooled
  have h2 := bind_step h rfl
  obtain ⟨pargs, s2, h3, h4⟩ := bind_ok.mp h2
  obtain ⟨-, h6⟩ := assert_bind_ok h4
  obtain ⟨_, s4, h7, h8⟩ := bind_ok.mp h6
  obtain ⟨_, s5, h9, h10⟩ := bind_ok.mp h8
  obtain ⟨_, s6, h11, h12⟩ := bind_ok.mp h10
  have hserve : Serves s s6 :=
    ((hR.pageAlloc _).of_run h3).trans
      (((hR.copyArgs _ _ _ _ _ _).of_run h7).trans
        (((hR.guardWrite _ _).of_run h9).trans ((hR.store _).of_run h11)))
  obtain ⟨_, s7, h13, h14⟩ := bind_ok.mp h12
  obtain ⟨_, s8, h15, h16⟩ := bind_ok.mp h14
  rw [get_bind] at h16
  obtain ⟨r, s10, h19, h20⟩ := bind_ok.mp h16
  obtain ⟨-, h22⟩ := assert_bind_ok h20
  cases h22
  refine ⟨s6, s7, _, _, hserve, h13, h15,
    ((hR.walk.virtualMemoryMap_none _ _ _ _ _).of_run h19).trans ?_⟩
  exact Serves.own _ (fun _ => ⟨rfl, rfl, rfl, rfl, rfl, rfl⟩) fun _ => .inl rfl

theorem execProgram_ok (h : execProgram E n s = (.ok (), s')) : Execs E n s s' := by
  have h2 := bind_step h rfl
  obtain ⟨argv, s2, h3, h4⟩ := bind_ok.mp h2
  have hs : s2 = s := by
    cases h3
    rfl
  subst hs
  cases hargs : countArgs s2.mem argv 0x40001 0 with
  | none =>
    rw [hargs] at h4
    cases h4
  | some argc =>
    rw [hargs] at h4
    exact execArgs_ok h4

/-- What `sys_execv` does for the command that its path names. -/
def ExecOutcome (E : KEnv) (s s' : KState) : Option Command → Prop
  | none => Serves s s'
  | some (.program n) => Execs E n s s'
  | some _ => ∃ s₁, Serves s s₁ ∧ processKill E s.cur.pid s₁ = (.ok (), s')

/-- The process ends after work for it. -/
theorem Serves.then_done (h : Serves s s1) (hd : execDone E s1 = (.ok (), s')) :
    ∃ s2, Serves s s2 ∧ processKill E s.cur.pid s2 = (.ok (), s') := by
  obtain ⟨s2, hserve, hkill⟩ := execDone_ok hd
  rw [h.role.pid] at hkill
  exact ⟨s2, h.trans hserve, hkill⟩

/-- The path argument of `sys_execv`. -/
def execPath (s : KState) : Option Path :=
  let pa := (virtualMemoryLookup s.mem s.cur.pagetable (u64 s.cur.registers.rdi)).pa
  strAt s.mem (0x200000 - pa) pa

theorem sysExecv_ok (h : sysExecv E s = (.ok (), s')) :
    ∃ path, execPath s = some path ∧ ExecOutcome E s s' (command path) := by
  have h2 := bind_step h rfl
  have h4 := bind_step h2 rfl
  obtain ⟨path, s3, h5, h6⟩ := bind_ok.mp h4
  obtain ⟨hpath, rfl⟩ : execPath s = some path ∧ s3 = s := readStr_some h5
  refine ⟨path, hpath, ?_⟩
  cases hc : command path with
  | none =>
    rw [hc] at h6
    exact (setRax_serves _).of_run h6
  | some c =>
    rw [hc] at h6
    cases c with
    | memshow on =>
      have h8 := bind_step h6 rfl
      have hcalm : Calm s3 { s3 with memshowEnabled := on } :=
        Calm.of_same rfl rfl rfl rfl
      exact hcalm.serves.then_done h8
    | clear => exact execDone_ok h6
    | testmalloc =>
      obtain ⟨_, s4, h7, h8⟩ := bind_ok.mp h6
      exact (Serves.service.execTestmalloc.of_run h7).then_done h8
    | program number => exact execProgram_ok h6

theorem sysExecv_act (h : sysExecv E s = (.ok (), s')) : Act E .execv s s' := by
  obtain ⟨path, -, hout⟩ := sysExecv_ok h
  have hdone : (∃ s1, Serves s s1 ∧ processKill E s.cur.pid s1 = (.ok (), s')) →
      Act E .execv s s' := fun ⟨s1, hserve, hkill⟩ => Act.exit (.inr rfl) hserve hkill
  generalize command path = c at hout
  rcases c with - | on | - | - | n
  · exact Act.serve hout
  · exact hdone hout
  · exact hdone hout
  · exact hdone hout
  · obtain ⟨s1, s2, s3, keep, hserve, hrelease, hsetup, hend⟩ := hout
    exact Act.exec hserve hrelease hsetup hend

end Acts

end RojocOS.Kernel
