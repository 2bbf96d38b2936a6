/-
The tree-changing system calls of the kernel are `FileCall`s.

On the way to the file system a handler reads the path string, takes a
buffer from the kernel heap and lets `join_path` fill it. None of that
touches the disk (`SameFs`), so the disk after the handler is the disk
after `FileCall.exec` on the working directory and the string it read.
-/
import RojocOS.Fs.Proofs.Footprint
import RojocOS.Kernel.FileCalls
import RojocOS.Kernel.Proofs.Keeps

namespace RojocOS.Kernel

open ByteMap Fs Prog

variable {E : KEnv} {α : Type} {a n v : Nat} {b : FsWorld} {cwd path : Path} {m : ByteMap}
  {r : KState}
variable {s s' s₁ t : KState} {p str : Path} {buffer : Nat} {u : Unit} {w : FsWorld}
  {c : Int} {β : Type}
variable {x : FsM α} {f : Except Int α → KM β}

/-- The disk and the process table are as they were. -/
structure SameFs (s s' : KState) : Prop where
  disk : s'.disk = s.disk
  io : s'.io = s.io
  draws : s'.draws = s.draws
  desc : s'.desc = s.desc
  processes : s'.processes = s.processes
  current : s'.current = s.current

theorem SameFs.refl (s : KState) : SameFs s s := ⟨rfl, rfl, rfl, rfl, rfl, rfl⟩

theorem SameFs.trans (h : SameFs s t) (h' : SameFs t r) : SameFs s r :=
  ⟨h'.disk.trans h.disk, h'.io.trans h.io, h'.draws.trans h.draws,
    h'.desc.trans h.desc, h'.processes.trans h.processes, h'.current.trans h.current⟩

theorem SameFs.paged : Paged SameFs where
  refl := SameFs.refl
  trans := SameFs.trans
  mem := fun _ _ => ⟨rfl, rfl, rfl, rfl, rfl, rfl⟩
  take := fun _ _ _ => ⟨rfl, rfl, rfl, rfl, rfl, rfl⟩
  turn := fun _ _ => ⟨rfl, rfl, rfl, rfl, rfl, rfl⟩

theorem SameFs.pooled : Pooled E SameFs :=
  { SameFs.paged with
    list := fun _ _ => ⟨rfl, rfl, rfl, rfl, rfl, rfl⟩
    extend := SameFs.paged.extendHeap (fun _ _ => ⟨rfl, rfl, rfl, rfl, rfl, rfl⟩) _ }

-- ==== paths

/-- A string read from memory has no NUL. -/
theorem zero_not_mem_strAt : ∀ {a str}, strAt m n a = some str → 0 ∉ str := by
  induction n with
  | zero =>
    intro a str h
    cases h
  | succ n ih =>
    intro a str h
    unfold strAt at h
    split at h
    · cases h
      exact List.not_mem_nil
    · next hne =>
        obtain ⟨t, ht, rfl⟩ := Option.map_eq_some_iff.mp h
        rw [List.mem_cons, not_or]
        exact ⟨Ne.symm hne, ih ht⟩

theorem readStr_ok (h : readStr a s = (.ok str, s')) : s' = s ∧ 0 ∉ str := by
  obtain ⟨hstr, hs⟩ := readStr_some h
  exact ⟨hs, zero_not_mem_strAt hstr⟩

theorem writePath_ok
    (h : writePath buffer str s = (.ok u, s')) : SameFs s s' ∧ ¬ 256 ≤ str.length := by
  unfold writePath at h
  by_cases h0 : buffer = 0
  · rw [bind_of_error (failIf_of h0)] at h
    cases h
  · rw [failIf_bind h0] at h
    by_cases hl : 256 ≤ str.length
    · rw [bind_of_error (failIf_of hl)] at h
      cases h
    · rw [failIf_bind hl] at h
      cases h
      exact ⟨⟨rfl, rfl, rfl, rfl, rfl, rfl⟩, hl⟩

/-- `join_path` leaves the resolved path, if it fits. -/
theorem joinPath_ok (h : joinPath cwd path buffer s = (.ok p, s')) :
    SameFs s s' ∧ p = resolved cwd path ∧ ¬ tooLong cwd path := by
  unfold joinPath at h
  unfold tooLong resolved
  by_cases habs : path.head? = some slash
  · rw [if_pos habs] at h ⊢
    obtain ⟨_, s₁, h1, h2⟩ := bind_ok.mp h
    obtain ⟨hs, hl⟩ := writePath_ok h1
    cases h2
    refine ⟨hs, rfl, ?_⟩
    rintro (⟨hne, -⟩ | hlen)
    · exact hne habs
    · exact hl hlen
  · rw [if_neg habs] at h ⊢
    obtain ⟨_, s₁, h1, h2⟩ := bind_ok.mp h
    obtain ⟨_, s2, h3, h4⟩ := bind_ok.mp h2
    obtain ⟨hs1, hl1⟩ := writePath_ok h1
    obtain ⟨hs2, hl2⟩ := writePath_ok h3
    cases h4
    refine ⟨hs1.trans hs2, rfl, ?_⟩
    rintro (⟨-, hlen⟩ | hlen)
    · exact hl1 hlen
    · exact hl2 hlen

/-- The path argument of a handler: the working directory and a C string
joined. -/
theorem pathArg_ok (h : pathArg E s = (.ok p, s')) :
    SameFs s s' ∧ ∃ path, 0 ∉ path ∧ p = resolved s.cur.cwd path
      ∧ ¬ tooLong s.cur.cwd path := by
  unfold pathArg lookupVa resolvePath at h
  rw [get_bind] at h
  obtain ⟨pa, s2, h3, h4⟩ := bind_ok.mp h
  rw [get_bind] at h3
  cases h3
  obtain ⟨_, s4, h7, h8⟩ := bind_ok.mp h4
  obtain ⟨rfl, -⟩ := readStr_ok h7
  obtain ⟨buffer, s5, h9, h10⟩ := bind_ok.mp h8
  have hmal : SameFs s4 s5 := (SameFs.pooled.kmalloc _).of_run h9
  obtain ⟨path, s6, h11, h12⟩ := bind_ok.mp h10
  obtain ⟨rfl, hpath⟩ := readStr_ok h11
  rw [get_bind] at h12
  obtain ⟨hjoin, hp, hlong⟩ := joinPath_ok h12
  have hcwd : s6.cur.cwd = s4.cur.cwd := by
    unfold KState.cur
    rw [hmal.processes, hmal.current]
  rw [hcwd] at hp hlong
  exact ⟨hmal.trans hjoin, path, hpath, hp, hlong⟩

-- ==== handlers

/-- The handler of the call. -/
def FileOp.handler (E : KEnv) : FileOp → KM Unit
  | .mkdir => sysMkdir E
  | .touch => sysTouch E
  | .remove => sysRemove E

/-- The file system's view of a kernel state. -/
def KState.world (s : KState) : FsWorld :=
  { disk := s.disk, io := s.io, rng := s.draws, buf := zero }

theorem SameFs.world (h : SameFs s s') : s'.world = s.world := by
  unfold KState.world
  rw [h.disk, h.io, h.draws]

/-- A file system call leaves the disk its operation leaves. -/
theorem fsCall_disk (x : FsM α) (s : KState) :
    (fsCall x s).2.disk = (x s.world).2.disk := by
  unfold fsCall KState.world
  rcases x { disk := s.disk, io := s.io, rng := s.draws, buf := zero } with ⟨r, w⟩
  rcases r with e | a
  · cases e <;> rfl
  · rfl

/-- The state after a file system call that ended in `w`. -/
def KState.afterFs (s : KState) (w : FsWorld) : KState :=
  { s with disk := w.disk, io := w.io, draws := w.rng }

theorem fsCall_of_ok {a : α}
    (h : x s.world = (.ok a, w)) : fsCall x s = (.ok (.ok a), s.afterFs w) := by
  unfold KState.world at h
  unfold fsCall
  rw [h]
  rfl

theorem fsCall_of_err
    (h : x s.world = (.error (.err c), w)) : fsCall x s = (.ok (.error c), s.afterFs w) := by
  unfold KState.world at h
  unfold fsCall
  rw [h]
  rfl

/-- What a call that came back has done. -/
theorem fsCall_back {r : Except Int α}
    (h : fsCall x s = (.ok r, t)) : ∃ w, t = s.afterFs w
      ∧ ((∃ a, r = .ok a ∧ x s.world = (.ok a, w))
        ∨ ∃ c, r = .error c ∧ x s.world = (.error (.err c), w)) := by
  rcases hr : x s.world with ⟨e | a, w⟩
  · cases e with
    | err c =>
      rw [fsCall_of_err hr] at h
      cases h
      exact ⟨w, rfl, .inr ⟨c, rfl, rfl⟩⟩
    | _ =>
      unfold KState.world at hr
      unfold fsCall at h
      rw [hr] at h
      cases h
  · rw [fsCall_of_ok hr] at h
    cases h
    exact ⟨w, rfl, .inl ⟨a, rfl, rfl⟩⟩

/-- The caller's buffer was not used. -/
def SameBuf (w w' : FsWorld) : Prop := w'.buf = w.buf ∧ w'.trace = w.trace

theorem SameBuf.trans {a c : FsWorld} (h : SameBuf a b) (h' : SameBuf b c) :
    SameBuf a c := ⟨h'.1.trans h.1, h'.2.trans h.2⟩

theorem fsAllocInode_sameBuf (E : FsEnv) (d : FsDescriptor) :
    Keeps SameBuf (fsAllocInode E d) := by
  have hd : Discipline E (fun _ _ _ => True) SameBuf :=
    .of_rest (fun _ => ⟨rfl, rfl⟩) (fun h h' => h.trans h') fun _ _ _ => ⟨rfl, rfl⟩
  exact hd.fsAllocInode fun _ _ _ _ => trivial

/-- The outcomes of a file system call without a buffer. -/
theorem fsCall_cases (hx : Keeps SameBuf x) (s : KState) :
    ∃ s', (∃ a, x s.world = (.ok a, s'.world) ∧ fsCall x s = (.ok (.ok a), s'))
      ∨ (∃ c, x s.world = (.error (.err c), s'.world)
          ∧ fsCall x s = (.ok (.error c), s'))
      ∨ ∃ e, x s.world = (.error e, s'.world) ∧ fsCall x s = (.error e, s') := by
  have hbuf := hx s.world
  rcases hr : x s.world with ⟨r, w⟩
  rw [hr] at hbuf
  obtain ⟨disk, io, rng, buf, trace⟩ := w
  obtain ⟨rfl, rfl⟩ := hbuf
  refine ⟨{ s with disk := disk, io := io, draws := rng }, ?_⟩
  unfold fsCall
  unfold KState.world at hr
  rw [hr]
  cases r with
  | ok a => exact .inl ⟨a, rfl, rfl⟩
  | error e =>
    right
    cases e with
    | err c => exact .inl ⟨c, rfl, rfl⟩
    | panic => exact .inr ⟨_, rfl, rfl⟩
    | hang => exact .inr ⟨_, rfl, rfl⟩
    | wild => exact .inr ⟨_, rfl, rfl⟩

/-- A handler that goes on after a file system call, against an operation
that goes on after the same one. -/
theorem bind_fsCall_disk {γ : Type} (hx : Keeps SameBuf x) {g : α → FsM γ}
    (hok : ∀ a t, (f (.ok a) t).2.disk = (g a t.world).2.disk)
    (herr : ∀ c t, (f (.error c) t).2.disk = t.disk) (s : KState) :
    ((fsCall x >>= f) s).2.disk = ((x >>= g) s.world).2.disk := by
  obtain ⟨t, ⟨a, h1, h2⟩ | ⟨c, h1, h2⟩ | ⟨e, h1, h2⟩⟩ := fsCall_cases hx s
  · rw [bind_of_ok h1, bind_of_ok h2, hok]
  · rw [bind_of_error h1, bind_of_ok h2, herr]
    rfl
  · rw [bind_of_error h1, bind_of_error h2]
    rfl

theorem setRax_rax (v : Nat) (s : KState) : (setRax v s).2.cur.registers.rax = v := by
  have h := KState.updProc_same s s.current fun p =>
    { p with registers := { p.registers with rax := v } }
  exact congrArg (fun p => p.registers.rax) h

theorem setRax_ok (h : setRax v t = (.ok u, s')) :
    s'.cur.registers.rax = v ∧ s'.io = t.io := by
  have h' : (setRax v t).2 = s' := congrArg Prod.snd h
  rw [← h']
  exact ⟨setRax_rax v t, rfl⟩

theorem reg64_ne_zero (h : c < 0) (h' : -2 ^ 63 ≤ c) : reg64 c ≠ 0 := by
  unfold reg64
  omega

theorem setRax_disk (v : Nat) (s : KState) : (setRax v s).2.disk = s.disk := rfl

/-- A handler that only sets `%rax` after the call. -/
theorem last_fsCall_disk (x : FsM α) (hf : ∀ r t, (f r t).2.disk = t.disk) (s : KState) :
    ((fsCall x >>= f) s).2.disk = (x s.world).2.disk := by
  rw [← fsCall_disk, Prog.bind_apply]
  rcases fsCall x s with ⟨r, t⟩
  cases r with
  | ok a => exact hf a t
  | error e => rfl

/-- The handler's effect on the disk is the call's. -/
theorem handler_disk (op : FileOp) (hd : s.desc = fsdesc)
    (hp : pathArg E s = (.ok p, s₁)) :
    (op.handler E s).2.disk = (op.apply E.fsEnv p s.world).2.disk := by
  have hsame := (pathArg_ok hp).1
  have hdesc : s₁.desc = fsdesc := hsame.desc.trans hd
  rw [← hsame.world]
  cases op with
  | mkdir =>
    show (sysMkdir E s).2.disk = (fsTouch E.fsEnv fsdesc p 0 s₁.world).2.disk
    unfold sysMkdir
    rw [bind_of_ok hp, get_bind, hdesc]
    refine last_fsCall_disk _ (fun r t => ?_) s₁
    cases r <;> exact setRax_disk _ t
  | remove =>
    show (sysRemove E s).2.disk = (fsRemove E.fsEnv fsdesc p s₁.world).2.disk
    unfold sysRemove
    rw [bind_of_ok hp, get_bind, hdesc]
    refine last_fsCall_disk _ (fun r t => ?_) s₁
    cases r <;> exact setRax_disk _ t
  | touch =>
    show (sysTouch E s).2.disk = ((fsAllocInode E.fsEnv fsdesc >>= fun inode =>
      fsTouch E.fsEnv fsdesc p (u32 inode)) s₁.world).2.disk
    unfold sysTouch
    rw [bind_of_ok hp, get_bind, hdesc]
    refine bind_fsCall_disk (fsAllocInode_sameBuf _ _) (fun i t => ?_)
      (fun c t => setRax_disk _ t) s₁
    refine last_fsCall_disk _ (fun r t => ?_) t
    cases r <;> exact setRax_disk _ t

/-- A handler that gets its path makes a `FileCall` by the process's
working directory and a C string. -/
theorem handler_fileCall (op : FileOp)
    (hd : s.desc = fsdesc) (hcwd : 0 ∉ s.cur.cwd) (hp : pathArg E s = (.ok p, s₁)) :
    ∃ c : FileCall, c.op = op ∧ c.cwd = s.cur.cwd ∧ c.Strings ∧ c.target = p
      ∧ (op.handler E s).2.disk = (c.exec E.fsEnv s.world).2.disk := by
  obtain ⟨-, path, h0, rfl, hlong⟩ := pathArg_ok hp
  refine ⟨⟨op, s.cur.cwd, path⟩, rfl, rfl, ⟨hcwd, h0⟩, rfl, ?_⟩
  rw [handler_disk op hd hp]
  unfold FileCall.exec
  rw [failIf_bind hlong]
  rfl

end RojocOS.Kernel
