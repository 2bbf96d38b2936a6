/-
The system calls that take a path, and the kernel's heap.

`resolve_path` puts the path in a block of the heap that nobody frees. So
each of the six calls leaves the blocks that were in use and one more,
and `sys_open` the entry of the new descriptor besides. The rest of the
invariant is kept (`KInv.mkdir` to `KInv.open`).
-/
import RojocOS.Kernel.Proofs.Enter

namespace RojocOS.Kernel

open ByteMap Fs Prog

variable {E : KEnv} {G O : Prop} {role : Roles} {used : List Blk} {b : Blk} {s s' : KState}
variable {m m' : ByteMap} {a inode n pa va x : Nat} {u : Unit}
  {cwd p path str : Path} {t : KState} {w : FsWorld}
variable {pn v : Nat}

-- ==== writes

/-- The kernel writes to a block it has got. -/
theorem KInv.write_block (h : KInv E G O role (b :: used) s)
    (hm : ∀ x, m' x ≠ s.mem x → b.h + 16 ≤ x ∧ x < b.h + 16 + b.size)
    (hfd : ∀ i : Int, 0 ≤ i → i < 16 → FdOk (b :: used) m' (s.processes i).fdList) :
    KInv E G O role (b :: used) { s with mem := m' }
      ∧ HeapWork role used s { s with mem := m' } := by
  obtain ⟨free, hinv⟩ := h.mach.heap
  have hap := ((hinv.tiles.perm List.perm_middle).apart)
  rw [List.pairwise_cons] at hap
  have hdata : ∀ x, ¬ (b.h + 16 ≤ x ∧ x < b.h + 16 + b.size) → m' x = s.mem x := by
    intro x hx
    by_contra hne
    exact hx (hm x hne)
  have hother : ∀ c ∈ free ++ used, ∀ x, c.Has x → m' x = s.mem x := by
    intro c hc x hx
    refine hdata x fun hin => ?_
    exact (hap.1 c hc).not_inside (Blk.has_iff.mpr (by omega)) hx
  have hheads : ∀ c ∈ free ++ b :: used, ∀ x, c.h ≤ x → x < c.h + 16 → m' x = s.mem x := by
    intro c hc x h1 h2
    rcases List.mem_cons.mp (List.perm_middle.mem_iff.mp hc) with rfl | hc
    · exact hdata x (by omega)
    · exact hother c hc x (Blk.has_iff.mpr (by omega))
  have hout : ∀ x, ¬ InPages s.heapPages x → m' x = s.mem x := by
    intro x hx
    refine hdata x fun hin => hx (hinv.tiles.mem ?_ ((Blk.has_iff (b := b)).mpr (by omega)))
    exact List.mem_append_right _ (.head _)
  obtain ⟨hmach, hframe⟩ := h.mach.in_heap h.bare (hinv.frame hheads) hout
  have hw : HeapWork role used s { s with mem := m' } :=
    ⟨hframe, fun _ => .inl rfl, fun u hu => hother u (List.mem_append_right _ hu), rfl⟩
  exact ⟨h.in_heap hmach h.bare hframe (fun _ => .inl rfl) rfl rfl hfd, hw⟩

/-- Blocks of the heap are in pages of the heap. -/
theorem MInv.frame_block (h : MInv E role used s) (hb : b ∈ used)
    (hm : ∀ x, m' x ≠ s.mem x → b.Has x) :
    Frame (fun o => o = -2 ∨ o = -3) role s role { s with mem := m' } := by
  obtain ⟨free, hinv⟩ := h.heap
  intro pn h0 hS
  refine ⟨rfl, rfl, fun x hx => ?_⟩
  by_contra hne
  obtain ⟨p, hp, h1, h2⟩ := hinv.tiles.mem (List.mem_append_right _ hb) (hm x hne)
  have hal := hinv.page p hp
  refine hS (.inr ?_)
  rw [← hx, show x / 4096 = p / 4096 by omega, h.heapOwn p hp]

/-- A block that was just taken is not the entry of a descriptor. -/
theorem FdOk.other (h : FdOk used m a)
    (hm : ∀ u ∈ used, ∀ x, u.Has x → m' x = m x) : FdOk (b :: used) m' a :=
  (h.congr hm).imp_right fun ⟨c, hc, ha⟩ => ⟨c, List.mem_cons_of_mem _ hc, ha⟩

theorem MInv.apart_head (h : MInv E role (b :: used) s) {c : Blk} (hc : c ∈ used) :
    b.Apart c := by
  obtain ⟨free, hinv⟩ := h.heap
  have hap := (List.pairwise_append.mp hinv.tiles.apart).2.1
  exact (List.pairwise_cons.mp hap).1 c hc

-- ==== paths

/-- A buffer for a path was taken, and not given back. -/
structure Leaked (E : KEnv) (G O : Prop) (role : Roles) (used : List Blk) (b : Blk)
    (s s' : KState) : Prop where
  inv : KInv E G O role (b :: used) s'
  work : HeapWork role used s s'
  size : 256 ≤ b.size
  fd : ∀ i : Int, 0 ≤ i → i < 16 → FdOk used s'.mem (s'.processes i).fdList

/-- A path in its buffer. -/
theorem Leaked.writePath
    (h : Leaked E G O role used b s t) (hrun : writePath (b.h + 16) path t = (.ok u, s')) :
    Leaked E G O role used b s s' := by
  have hsize := h.size
  obtain ⟨-, h2⟩ := failIf_bind_ok hrun
  obtain ⟨hlen, h4⟩ := failIf_bind_ok h2
  cases h4
  have hin : ∀ x, copy t.mem (b.h + 16) (strBytes path) 0 (path.length + 1) x ≠ t.mem x →
      b.h + 16 ≤ x ∧ x < b.h + 16 + b.size := by
    intro x hx
    by_contra hout
    exact hx (copy_of_not_mem (by omega))
  have hkept : ∀ c ∈ used, ∀ x, c.Has x →
      copy t.mem (b.h + 16) (strBytes path) 0 (path.length + 1) x = t.mem x := by
    intro c hc x hx
    refine copy_of_not_mem fun hxx => ?_
    exact (h.inv.mach.apart_head hc).not_inside (Blk.has_iff.mpr (by omega)) hx
  obtain ⟨hk, hw⟩ := h.inv.write_block hin fun i h0 h16 => (h.fd i h0 h16).other hkept
  exact ⟨hk, h.work.trans hw, hsize, fun i h0 h16 => (h.fd i h0 h16).congr hkept⟩

theorem writePath_null (path : Path) (s : KState) :
    writePath 0 path s = (.error .panic, s) := rfl

theorem joinPath_null (cwd path : Path) (s : KState) :
    joinPath cwd path 0 s = (.error .panic, s) := by
  unfold joinPath
  by_cases habs : path.head? = some slash
  · rw [if_pos habs, bind_of_error (writePath_null _ s)]
  · rw [if_neg habs, bind_of_error (writePath_null _ s)]

theorem Leaked.joinPath (h : Leaked E G O role used b s t)
    (hrun : joinPath cwd path (b.h + 16) t = (.ok p, s')) : Leaked E G O role used b s s' := by
  unfold Kernel.joinPath at hrun
  by_cases habs : path.head? = some slash
  · rw [if_pos habs] at hrun
    obtain ⟨_, s1, h1, h2⟩ := bind_ok.mp hrun
    cases h2
    exact h.writePath h1
  · rw [if_neg habs] at hrun
    obtain ⟨_, s1, h1, h2⟩ := bind_ok.mp hrun
    obtain ⟨_, s2, h3, h4⟩ := bind_ok.mp h2
    cases h4
    exact (h.writePath h1).writePath h3

/-- `resolve_path` of an argument leaks its buffer. -/
theorem KInv.pathArg (h : KInv E G O role used s)
    (hrun : pathArg E s = (.ok p, s')) : ∃ b, Leaked E G O role used b s s' := by
  unfold Kernel.pathArg lookupVa resolvePath at hrun
  rw [get_bind] at hrun
  obtain ⟨pa, s2, h3, h4⟩ := bind_ok.mp hrun
  rw [get_bind] at h3
  cases h3
  obtain ⟨_, s4, h7, h8⟩ := bind_ok.mp h4
  obtain ⟨rfl, -⟩ := readStr_ok h7
  obtain ⟨buffer, s5, h9, h10⟩ := bind_ok.mp h8
  obtain ⟨path, s6, h11, h12⟩ := bind_ok.mp h10
  obtain ⟨rfl, -⟩ := readStr_ok h11
  rw [get_bind] at h12
  rcases (h.mach.kmalloc h.bare 256).1 buffer s6 h9 with ⟨rfl, -⟩ |
    ⟨b, rfl, hsize, -, hm, hb, hw⟩
  · rw [joinPath_null] at h12
    cases h12
  · have hproc : s6.processes = s4.processes := by rw [hw.rest]
    refine ⟨b, Leaked.joinPath ⟨h.of_heap hm hb hw (List.subset_cons_self b used), hw, hsize,
      fun i h0 h16 => ?_⟩ h12⟩
    rw [hproc]
    exact (h.fd i h0 h16).congr hw.kept

-- ==== handlers

section Minor

variable {α β : Type}

theorem Minor.bind {x : KM α} {f : α → KM β} (hx : Keeps Minor x)
    (hf : ∀ a, Keeps Minor (f a)) : Keeps Minor (x >>= f) :=
  Keeps.bind (fun h h' => h.trans h') hx hf

theorem get_minor : Keeps Minor (Prog.get : KM KState) := Minor.refl

theorem setRax_minor (v : Nat) : Keeps Minor (setRax v) := fun s =>
  Minor.own (f := fun p => { p with registers := { p.registers with rax := v } })
    (fun _ => ⟨rfl, rfl, rfl, rfl, rfl, rfl⟩) fun _ => rfl

theorem fsCall_minor (x : FsM α) : Keeps Minor (fsCall x) := by
  intro s
  unfold fsCall
  rcases x { disk := s.disk, io := s.io, rng := s.draws, buf := zero } with ⟨e | a, w⟩
  · cases e <;> exact Minor.of_same ⟨rfl, rfl, rfl, rfl, rfl⟩ rfl rfl
  · exact Minor.of_same ⟨rfl, rfl, rfl, rfl, rfl⟩ rfl rfl

/-- A handler that reports the result of a file system call. -/
theorem fsCall_then_minor (x : FsM α) {f : Except Int α → KM β}
    (hok : ∀ a, Keeps Minor (f (.ok a))) (herr : ∀ c, Keeps Minor (f (.error c))) :
    Keeps Minor (fsCall x >>= f) := by
  refine Minor.bind (fsCall_minor x) fun r => ?_
  cases r with
  | ok a => exact hok a
  | error c => exact herr c

end Minor

/-- One block more is in use than `used`, the buffer of a path. -/
def Leaks (E : KEnv) (G O : Prop) (role : Roles) (used : List Blk) (s : KState) : Prop :=
  ∃ b : Blk, 256 ≤ b.size ∧ KInv E G O role (b :: used) s

section

variable (h : KInv E G O role used s)

include h

/-- A handler that does nothing of note behind `resolve_path`. -/
theorem KInv.path_then {f : Path → KM Unit} (hf : ∀ p, Keeps Minor (f p))
    (hrun : (Kernel.pathArg E >>= f) s = (.ok (), s')) : Leaks E G O role used s' := by
  obtain ⟨p, s1, h1, h2⟩ := bind_ok.mp hrun
  obtain ⟨b, hleak⟩ := h.pathArg h1
  exact ⟨b, hleak.size, hleak.inv.minor ((hf p).of_run h2)⟩

theorem KInv.mkdir (hrun : sysMkdir E s = (.ok (), s')) : Leaks E G O role used s' :=
  h.path_then (fun _ => Minor.bind get_minor fun _ =>
    fsCall_then_minor _ (fun _ => setRax_minor _) fun _ => setRax_minor _) hrun

theorem KInv.remove (hrun : sysRemove E s = (.ok (), s')) : Leaks E G O role used s' :=
  h.path_then (fun _ => Minor.bind get_minor fun _ =>
    fsCall_then_minor _ (fun _ => setRax_minor _) fun _ => setRax_minor _) hrun

theorem KInv.touch (hrun : sysTouch E s = (.ok (), s')) : Leaks E G O role used s' :=
  h.path_then (fun _ => Minor.bind get_minor fun _ => fsCall_then_minor _ (fun _ =>
    fsCall_then_minor _ (fun _ => setRax_minor _) fun _ => setRax_minor _)
    fun _ => setRax_minor _) hrun

theorem KInv.chdir (hrun : sysChdir E s = (.ok (), s')) : Leaks E G O role used s' := by
  refine h.path_then (fun path => Minor.bind get_minor fun _ => fsCall_then_minor _
    (fun v => Keeps.ite (setRax_minor _) ?_) fun _ => setRax_minor _) hrun
  refine Minor.bind (Keeps.failIf Minor.refl _ _) fun _ => Minor.bind (fun t => ?_)
    fun _ => setRax_minor _
  exact Minor.own (f := fun p => { p with cwd := path })
    (fun _ => ⟨rfl, rfl, rfl, rfl, rfl, rfl⟩) fun _ => rfl

end

-- ==== listdir

theorem length_strAt : ∀ {a str}, strAt m n a = some str → str.length < n := by
  induction n with
  | zero =>
    intro a str h
    cases h
  | succ n ih =>
    intro a str h
    unfold strAt at h
    split at h
    · cases h
      exact Nat.succ_pos n
    · obtain ⟨t, ht, rfl⟩ := Option.map_eq_some_iff.mp h
      rw [List.length_cons]
      exact Nat.succ_lt_succ (ih ht)

theorem listNames_minor (nodeIndex n : Nat) : ∀ off, Keeps Minor
    (listNames E nodeIndex n off) := by
  induction n with
  | zero => exact fun _ _ => Minor.refl _
  | succ n ih =>
    intro off
    refine Minor.bind get_minor fun _ => fsCall_then_minor _ (fun name => ?_)
      fun _ _ => Minor.refl _
    dsimp only
    split
    · exact Keeps.stop Minor.refl _
    · exact Minor.bind (ih _) fun _ _ => Minor.refl _

/-- `fs_readdir_next` has 32 names at most. -/
theorem fsReaddirNext_lt {E : FsEnv} {d : FsDescriptor} {idx off : Nat} {name : ByteMap}
    {w' : FsWorld} (h : fsReaddirNext E d idx off w = (.ok name, w')) : off < 32 := by
  obtain ⟨_, w1, -, h2⟩ := bind_ok.mp h
  obtain ⟨_, w2, h3, -⟩ := bind_ok.mp h2
  have := (failIf_ok h3).1
  omega

/-- A listing is short. -/
theorem length_listNames {nodeIndex : Nat} : ∀ {off s names s'},
    listNames E nodeIndex n off s = (.ok names, s') → names.length ≤ 32 * (32 - off) := by
  induction n with
  | zero =>
    intro off s names s' h
    cases h
    exact Nat.zero_le _
  | succ n ih =>
    intro off s names s' h
    rw [listNames, get_bind] at h
    obtain ⟨r, s1, h1, h2⟩ := bind_ok.mp h
    obtain ⟨w, -, ⟨name, rfl, hx⟩ | ⟨c, rfl, -⟩⟩ := fsCall_back h1
    · have hoff := fsReaddirNext_lt hx
      dsimp only at h2
      rcases hstr : strAt name 32 0 with - | str
      · rw [hstr] at h2
        cases h2
      · rw [hstr] at h2
        obtain ⟨rest, s2, h3, h4⟩ := bind_ok.mp h2
        have hlen := length_strAt hstr
        have hrest := ih h3
        cases h4
        rw [List.length_append, List.length_append, List.length_singleton]
        omega
    · cases h2
      exact Nat.zero_le _

/-- The `n` physical bytes behind a pointer of the process are its own, or
the console. -/
def BufferOk (role : Roles) (s : KState) (va n : Nat) : Prop :=
  ∀ d, d < n → UserByte role s s.current
    ((virtualMemoryLookup s.mem s.cur.pagetable va).pa + d)

theorem HeapWork.cur (h : HeapWork role used s s') : s'.cur = s.cur := by
  have hp : s'.processes = s.processes := by rw [h.rest]
  have hc : s'.current = s.current := by rw [h.rest]
  unfold KState.cur
  rw [hp, hc]

theorem Leaked.buffer (h : Leaked E G O role used b s s') (hs : KInv E G O role used s)
    (hlive : s.Live s.current) (hbuf : BufferOk role s va n) : BufferOk role s' va n := by
  have hS : ¬ (s.current = -2 ∨ s.current = -3) := by
    have := hlive.1
    omega
  have hc : s'.current = s.current := by rw [h.work.rest]
  intro d hd
  obtain ⟨root, hroot, hsp, -⟩ := (hs.live _ hlive).space
  have hpt : s.cur.pagetable = root * 4096 := hroot
  have hpt' : s'.cur.pagetable = root * 4096 := by rw [h.work.cur, hpt]
  rw [hpt', h.inv.mach.tables.virtualMemoryLookup_eq hsp.isRoot,
    hs.mach.leafEntry_frame hsp.isRoot h.work.frame hS,
    ← hs.mach.tables.virtualMemoryLookup_eq hsp.isRoot, ← hpt, hc]
  refine (hbuf d hd).frame h.work.frame ?_ hS
  have := hlive.1
  omega

theorem Minor.userByte (h : Minor s s') {i : Int} (hx : UserByte role s i x) :
    UserByte role s' i x := by
  unfold UserByte OwnPage
  rw [h.mach.pageinfo]
  exact hx

/-- `writeAt` into a buffer of the process. -/
theorem KInv.writeAt {src : ByteMap} (h : KInv E G O role used s)
    (hbuf : ∀ d < n, UserByte role s s.current (pa + d)) (hva : va ≤ n)
    (hrun : writeAt E pa src va s = (.ok u, s')) : KInv E G O role used s' := by
  obtain ⟨-, rfl⟩ := writeAt_state hrun
  refine h.write_user h.numbered.current.1 fun x hx => ?_
  have hin : pa ≤ x ∧ x < pa + va := by
    by_contra hout
    exact hx (copy_of_not_mem hout)
  have hd := hbuf (x - pa) (by omega)
  rwa [Nat.add_sub_cancel' hin.1] at hd

theorem KInv.listdir (h : KInv E G O role used s) (hlive : s.Live s.current)
    (hbuf : BufferOk role s (u64 s.cur.registers.rsi) 1025)
    (hrun : sysListdir E s = (.ok (), s')) : Leaks E G O role used s' := by
  unfold sysListdir lookupVa at hrun
  obtain ⟨p, s1, h1, h2⟩ := bind_ok.mp hrun
  obtain ⟨b, hleak⟩ := h.pathArg h1
  rw [get_bind] at h2
  obtain ⟨pa, s3, h5, h6⟩ := bind_ok.mp h2
  rw [get_bind] at h5
  cases h5
  obtain ⟨r, s5, h9, h10⟩ := bind_ok.mp h6
  have hbuf1 := hleak.buffer h hlive hbuf
  rw [← hleak.work.cur] at hbuf1
  have hm5 := (fsCall_minor _).of_run h9
  refine ⟨b, hleak.size, ?_⟩
  cases r with
  | error c => exact (hleak.inv.minor hm5).minor ((setRax_minor _).of_run h10)
  | ok v =>
    obtain ⟨nodeIndex, count⟩ := v
    dsimp only at h10
    by_cases hneg : count < 0
    · rw [if_pos hneg] at h10
      exact (hleak.inv.minor hm5).minor ((setRax_minor _).of_run h10)
    · rw [if_neg hneg] at h10
      obtain ⟨names, s6, h11, h12⟩ := bind_ok.mp h10
      obtain ⟨_, s7, h13, h14⟩ := bind_ok.mp h12
      have hm6 := hm5.trans ((listNames_minor nodeIndex _ 0).of_run h11)
      have hlen := length_listNames h11
      have hk := (hleak.inv.minor hm6).writeAt
        (fun d hd => hm6.current.symm ▸ hm6.userByte (hbuf1 d hd)) (by omega) h13
      exact hk.minor ((setRax_minor _).of_run h14)

-- ==== open

theorem FdOk.next (h : FdOk used m a) (h0 : a ≠ 0) : load m (a + 16) 8 = 0 := by
  obtain ⟨c, -, -, -, hz⟩ := h.resolve_left h0
  exact hz

/-- The list has one entry, so advancing empties it. -/
theorem KInv.fdAdvance (h : KInv E G O role used s) (h0 : s.cur.fdList ≠ 0)
    (hrun : fdAdvance s = (.ok u, s')) : KInv E G O role used s' := by
  unfold Kernel.fdAdvance guardRead at hrun
  rw [get_bind] at hrun
  obtain ⟨-, h4⟩ := failIf_bind_ok hrun
  cases h4
  exact h.own
    (fun _ => ⟨rfl, rfl, rfl, rfl, rfl, rfl⟩) fun hfd => .inl (hfd.next h0)

theorem KInv.fdlistDrain {fuel : Nat} : ∀ {s s' u}, KInv E G O role used s →
    fdlistDrain fuel s = (.ok u, s') → KInv E G O role used s' := by
  induction fuel with
  | zero =>
    intro s s' u h hrun
    cases hrun
  | succ fuel ih =>
    intro s s' u h hrun
    rw [Kernel.fdlistDrain, get_bind] at hrun
    by_cases h0 : s.cur.fdList = 0
    · rw [if_pos h0] at hrun
      cases hrun
      exact h
    · rw [if_neg h0] at hrun
      obtain ⟨_, s1, h1, h2⟩ := bind_ok.mp hrun
      exact ih (h.fdAdvance h0 h1) h2

/-- The fields of a new descriptor. -/
def fdBytes (m : ByteMap) (entry : Nat) (fd : Int) (inode : Nat) : ByteMap :=
  store (store (store (store m entry 4 (reg64 fd)) (entry + 4) 4 inode) (entry + 8) 4 0)
    (entry + 16) 8 0

theorem fdBytes_outside (m : ByteMap) {entry : Nat} (fd : Int) (inode : Nat)
    (hx : ¬ (entry ≤ x ∧ x < entry + 24)) : fdBytes m entry fd inode x = m x := by
  unfold fdBytes
  rw [store_of_not_mem (by omega), store_of_not_mem (by omega), store_of_not_mem (by omega),
    store_of_not_mem (by omega)]

/-- `fdlist_add_entry` takes a block for the entry, or fails. -/
theorem KInv.fdlistAddEntry {fd r : Int} (h : KInv E G O role used s)
    (hrun : fdlistAddEntry E fd inode s = (.ok r, s')) :
    (r = -1 ∧ KInv E G O role used s')
      ∨ (r = 0 ∧ ∃ e : Blk, 24 ≤ e.size ∧ KInv E G O role (e :: used) s'
        ∧ s'.cur.fdList = e.h + 16) := by
  obtain ⟨_, s1, h1, h2⟩ := bind_ok.mp hrun
  have hk1 := h.fdlistDrain h1
  obtain ⟨entry, s2, h3, h4⟩ := bind_ok.mp h2
  rcases (hk1.mach.kmalloc hk1.bare 24).1 entry s2 h3 with ⟨rfl, hm, hb, hw⟩ |
    ⟨e, rfl, hsize, -, hm, hb, hw⟩
  · rw [if_pos rfl] at h4
    cases h4
    exact .inl ⟨rfl, hk1.of_heap hm hb hw fun _ hu => hu⟩
  rw [if_neg (by omega)] at h4
  obtain ⟨_, s3, h5, h6⟩ := bind_ok.mp h4
  obtain ⟨_, s4, h7, h8⟩ := bind_ok.mp h6
  cases h8
  cases h5
  cases h7
  have hproc : s2.processes = s1.processes := by rw [hw.rest]
  have hout : ∀ x, ¬ (e.h + 16 ≤ x ∧ x < e.h + 16 + 24) →
      fdBytes s2.mem (e.h + 16) fd inode x = s2.mem x := fun x hx =>
    fdBytes_outside s2.mem fd inode hx
  have hkept : ∀ c ∈ used, ∀ x, c.Has x → fdBytes s2.mem (e.h + 16) fd inode x = s2.mem x := by
    intro c hc x hx
    refine hout x fun hxx => ?_
    exact (hm.apart_head hc).not_inside (Blk.has_iff.mpr (by omega)) hx
  have hin : ∀ x, fdBytes s2.mem (e.h + 16) fd inode x ≠ s2.mem x →
      e.h + 16 ≤ x ∧ x < e.h + 16 + e.size := by
    intro x hx
    by_contra hne
    exact hx (hout x (by omega))
  -- the entries of the others are in other blocks
  have hothers : ∀ i : Int, 0 ≤ i → i < 16 → FdOk (e :: used)
      (fdBytes s2.mem (e.h + 16) fd inode) (s2.processes i).fdList := by
    intro i h0 h16
    rw [hproc]
    exact ((hk1.fd i h0 h16).congr hw.kept).other hkept
  obtain ⟨hk3, -⟩ := (hk1.of_heap hm hb hw (List.subset_cons_self e used)).write_block hin hothers
  refine .inr ⟨rfl, e, hsize, ?_, ?_⟩
  · refine hk3.own
      (fun _ => ⟨rfl, rfl, rfl, rfl, rfl, rfl⟩) fun _ => .inr ?_
    exact ⟨e, List.mem_cons_self, rfl, hsize, load_store_same _ _ _ _⟩
  · have hsame := KState.updProc_same { s2 with mem := fdBytes s2.mem (e.h + 16) fd inode }
      s2.current fun p => { p with fdList := e.h + 16 }
    exact congrArg Proc.fdList hsame

theorem KInv.open (h : KInv E G O role used s) (hrun : sysOpen E s = (.ok (), s')) :
    ∃ b : Blk, 256 ≤ b.size ∧ (KInv E G O role (b :: used) s'
      ∨ ∃ e : Blk, 24 ≤ e.size ∧ KInv E G O role (e :: b :: used) s'
        ∧ s'.cur.fdList = e.h + 16) := by
  obtain ⟨p, s1, h1, h2⟩ := bind_ok.mp hrun
  obtain ⟨b, hleak⟩ := h.pathArg h1
  rw [get_bind] at h2
  obtain ⟨r, s3, h5, h6⟩ := bind_ok.mp h2
  have hk3 := hleak.inv.minor ((fsCall_minor _).of_run h5)
  refine ⟨b, hleak.size, ?_⟩
  cases r with
  | error c => exact .inl (hk3.minor ((setRax_minor _).of_run h6))
  | ok inode =>
    have h8 := bind_step h6 rfl
    have hk4 := hk3.minor (Minor.own
      (f := fun p => { p with fdMax := i32 (reg64 (p.fdMax + 1)) })
      (fun _ => ⟨rfl, rfl, rfl, rfl, rfl, rfl⟩) fun _ => rfl)
    rw [get_bind] at h8
    obtain ⟨r, s6, h11, h12⟩ := bind_ok.mp h8
    rcases hk4.fdlistAddEntry h11 with ⟨rfl, hk6⟩ | ⟨rfl, e, hsize, hk6, hfd⟩
    · rw [if_pos (by decide)] at h12
      exact .inl (hk6.minor ((setRax_minor _).of_run h12))
    · rw [if_neg (by decide)] at h12
      have hm := (setRax_minor _).of_run h12
      refine .inr ⟨e, hsize, hk6.minor hm, ?_⟩
      rw [← hfd, KState.cur, hm.fd, hm.current]
      rfl

-- ==== progress

/-- A string in memory is read back. -/
theorem strAt_strBytes (h0 : 0 ∉ str) : ∀ {m : ByteMap} {n a : Nat},
    (∀ d ≤ str.length, m (a + d) = strBytes str d) → str.length < n →
    strAt m n a = some str := by
  induction str with
  | nil =>
    intro m n a hm hn
    obtain ⟨n, rfl⟩ : ∃ k, n = k + 1 := ⟨n - 1, by omega⟩
    have hend : m a = 0 := hm 0 (Nat.le_refl 0)
    unfold strAt
    rw [if_pos hend]
  | cons c cs ih =>
    intro m n a hm hn
    rw [List.length_cons] at hn hm
    obtain ⟨n, rfl⟩ : ∃ k, n = k + 1 := ⟨n - 1, by omega⟩
    rw [List.mem_cons, not_or] at h0
    have hfirst : m a = c := hm 0 (Nat.zero_le _)
    have hrest : strAt m n (a + 1) = some cs := by
      refine ih h0.2 (fun d hd => ?_) (by omega)
      rw [Nat.add_assoc, Nat.add_comm 1 d]
      exact hm (d + 1) (by omega)
    unfold strAt
    rw [if_neg (hfirst ▸ Ne.symm h0.1), hrest, hfirst]
    rfl

theorem strAt_congr : ∀ {a str}, strAt m n a = some str →
    (∀ d ≤ str.length, m' (a + d) = m (a + d)) → strAt m' n a = some str := by
  induction n with
  | zero =>
    intro a str h
    cases h
  | succ n ih =>
    intro a str h hm
    have hfirst : m' a = m a := hm 0 (Nat.zero_le _)
    unfold strAt at h ⊢
    rw [hfirst]
    by_cases h0 : m a = 0
    · rw [if_pos h0] at h ⊢
      exact h
    · rw [if_neg h0] at h ⊢
      obtain ⟨rest, hrest, rfl⟩ := Option.map_eq_some_iff.mp h
      rw [ih hrest fun d hd => ?_]
      · rfl
      · rw [Nat.add_assoc, Nat.add_comm 1 d]
        exact hm (d + 1) (by rw [List.length_cons]; omega)

/-- Page `v` of the running process is the page `pn` of its own, which it
can write. -/
structure TextPage (E : KEnv) (role : Roles) (s : KState) (v pn : Nat) : Prop where
  low : v < 0x200
  page : pn < 512
  pos : pn ≠ 0
  own : OwnPage role s s.current pn
  plain : ¬ E.KernelPage pn
  entry : ∃ root, s.cur.pagetable = root * 4096 ∧ role root = some ⟨s.current, 0, 0⟩
    ∧ leafEntry s.mem root (v * 4096) = pn * 4096 + 7

/-- The program of a live process has such a page. -/
theorem KInv.textPage (h : KInv E True O role used s) (hlive : s.Live s.current) :
    ∃ v pn, TextPage E role s v pn := by
  obtain ⟨root, hroot, hsp, hfit⟩ := (h.live _ hlive).space
  obtain ⟨v, h1, h2, pn, he, hown⟩ := (hfit trivial).text
  have hlow : pn < 512 := by
    rcases hsp.entry (v * 4096) with hz | ⟨-, hlt, -⟩
    · omega
    · omega
  have hboot : bootOwner E pn < 0 → False := by
    intro hneg
    have howner := hown.1
    have hpos := hlive.1
    rw [h.mach.boot pn hlow (by omega)] at howner
    dsimp only at howner
    omega
  refine ⟨v, pn, h2, hlow, fun h0 => hboot ?_, hown, fun hk => hboot ?_, root, hroot,
    hsp.isRoot, he⟩
  · rw [h0]
    exact (by decide : (-1 : Int) < 0)
  · rw [bootOwner_kernel hk]
    decide

theorem TextPage.byte (h : TextPage E role s v pn) {d : Nat} (hd : d < 4096) :
    UserByte role s s.current (pn * 4096 + d) := by
  refine .inr ?_
  rw [show (pn * 4096 + d) / 4096 = pn by omega]
  exact h.own

theorem KInv.textPage_pa (h : KInv E G O role used s) (ht : TextPage E role s v pn) :
    (virtualMemoryLookup s.mem s.cur.pagetable (v * 4096)).pa = pn * 4096 := by
  obtain ⟨root, hroot, hr, he⟩ := ht.entry
  rw [hroot, h.mach.tables.virtualMemoryLookup_eq hr, he, if_pos (by omega)]
  dsimp only
  rw [pteAddr_page pn (by decide)]
  omega

/-- The process writes to that page. -/
theorem KInv.scribble (h : KInv E True O role used s) (hlive : s.Live s.current)
    (ht : TextPage E role s v pn)
    (hin : ∀ x, m x ≠ s.mem x → pn * 4096 ≤ x ∧ x < pn * 4096 + 4096) :
    KStep E s (.user m) { s with mem := m } ∧ KInv E True O role used { s with mem := m }
      ∧ TextPage E role { s with mem := m } v pn := by
  obtain ⟨root, hroot, hr, he⟩ := ht.entry
  have hv512 := ht.low
  have hstep : ∀ x, m x ≠ s.mem x → UserWritable s x ∧ ¬ E.KernelPage (x / 4096) := by
    intro x hx
    have hpage : x / 4096 = pn := by
      have := hin x hx
      omega
    refine ⟨⟨v * 4096 + x % 4096, ?_⟩, hpage.symm ▸ ht.plain⟩
    have hv : leafEntry s.mem root (v * 4096 + x % 4096) = pn * 4096 + 7 := by
      have hvpn : vpn (v * 4096 + x % 4096) = vpn (v * 4096) := by
        rw [vpn_of_lt (by omega), vpn_page (by omega)]
        omega
      rw [leafEntry_of_vpn hvpn, he]
    have hx' : pn * 4096 + (v * 4096 + x % 4096) % 4096 = x := by omega
    rw [hroot, h.mach.tables.userWalk_eq hr hv, hx']
  have hplain : ∀ x, m x ≠ s.mem x → role (x / 4096) = none := by
    intro x hx
    have := hin x hx
    rw [show x / 4096 = pn by omega]
    exact ht.own.2
  have hleaf := (h.mach.tables.leafEntry_write hr hplain (v * 4096)).1
  exact ⟨.user hstep, h.user hlive hstep, ht.low, ht.page, ht.pos, ht.own, ht.plain, root, hroot,
    hr, hleaf.trans he⟩

/-- The process puts a string at the start of a page of its program. -/
theorem KInv.poke (h : KInv E True O role used s) (hlive : s.Live s.current)
    (h0 : 0 ∉ str) (hlen : str.length < 4096) :
    ∃ v pn m, KStep E s (.user m) { s with mem := m }
      ∧ KInv E True O role used { s with mem := m } ∧ TextPage E role { s with mem := m } v pn
      ∧ strAt m (0x200000 - pn * 4096) (pn * 4096) = some str := by
  obtain ⟨v, pn, ht⟩ := h.textPage hlive
  have hlow := ht.page
  have hin : ∀ x, copy s.mem (pn * 4096) (strBytes str) 0 (str.length + 1) x ≠ s.mem x →
      pn * 4096 ≤ x ∧ x < pn * 4096 + 4096 := by
    intro x hx
    by_contra hout
    exact hx (copy_of_not_mem (by omega))
  obtain ⟨hstep, hk, ht'⟩ := h.scribble hlive ht hin
  refine ⟨v, pn, _, hstep, hk, ht', strAt_strBytes h0 (fun d hd => ?_) (by omega)⟩
  rw [copy_of_mem (by omega), Nat.add_sub_cancel_left, Nat.zero_add]

theorem readStr_eq (h : strAt s.mem (0x200000 - a) a = some str) :
    readStr a s = (.ok str, s) := by
  unfold readStr
  rw [get_bind, h]
  rfl

theorem writePath_eq {buffer : Nat} (h0 : buffer ≠ 0) (hlen : str.length < 256) :
    writePath buffer str s = (.ok (), { s with
      mem := copy s.mem buffer (strBytes str) 0 (str.length + 1) }) := by
  unfold writePath
  rw [failIf_bind h0, failIf_bind (by omega)]
  rfl

theorem joinPath_eq {buffer : Nat} (h0 : buffer ≠ 0) (hlong : ¬ tooLong cwd path) :
    ∃ m, joinPath cwd path buffer s = (.ok (resolved cwd path), { s with mem := m }) := by
  unfold tooLong at hlong
  unfold joinPath resolved at *
  by_cases habs : path.head? = some slash
  · rw [if_pos habs] at hlong ⊢
    rw [if_pos habs, bind_of_ok (writePath_eq h0 (by omega))]
    exact ⟨_, rfl⟩
  · rw [if_neg habs] at hlong ⊢
    have hstart : (joinStart cwd).length < 256 := by
      by_contra hge
      exact hlong (.inl ⟨habs, by omega⟩)
    rw [if_neg habs, bind_of_ok (writePath_eq h0 hstart),
      bind_of_ok (writePath_eq h0 (by omega))]
    exact ⟨_, rfl⟩

/-- Room for another `n` blocks. -/
structure Roomy (E : KEnv) (n : Nat) (s : KState) : Prop where
  fuel : 131074 ≤ E.fuel
  pages : s.heapPages.length + n ≤ 1024
  queue : n ≤ (freeQueue s).length

theorem Roomy.spend (h : Roomy E (n + 1) s) (hs : Spends s s') : Roomy E n s' := by
  have h1 := h.pages
  have h2 := h.queue
  have h3 := hs.pages
  have h4 := hs.queue
  exact ⟨h.fuel, by omega, by omega⟩

/-- A block, with room for another `n` after it. -/
theorem KInv.kmalloc_eq (h : KInv E G O role used s) (hroom : Roomy E (n + 1) s)
    {size : Nat} (hs : 0 < size ∧ size ≤ 4064) : ∃ (e : Blk) (t : KState),
      kmalloc E size s = (.ok (e.h + 16), t) ∧ size ≤ e.size ∧ HeapWork role used s t
        ∧ MInv E role (e :: used) t ∧ Roomy E n t := by
  have hpages := hroom.pages
  have hqueue := hroom.queue
  obtain ⟨p, t, hmal, hne, hspend⟩ := h.mach.kmalloc_some h.bare hs.1 hs.2 hroom.fuel (by omega)
    (List.ne_nil_of_length_pos (by omega))
  rcases (h.mach.kmalloc h.bare size).1 p t hmal with ⟨h0, -⟩ | ⟨e, rfl, hsize, -, hm, -, hw⟩
  · exact absurd h0 hne
  · exact ⟨e, t, hmal, hsize, hw, hm, hroom.spend hspend⟩

/-- `resolve_path` calls `join_path` with the string `str` and the buffer
at `buffer`; `t` is the state then. -/
structure Joins (E : KEnv) (s : KState) (str : Path) (buffer : Nat) (t : KState) : Prop where
  malloc : kmalloc E 256 s = (.ok buffer, t)
  string : ∀ pa, (virtualMemoryLookup s.mem s.cur.pagetable (u64 s.cur.registers.rdi)).pa = pa →
    (strAt s.mem (0x200000 - pa) pa).isSome ∧ strAt t.mem (0x200000 - pa) pa = some str

theorem Joins.unique {str' : Path} {buffer buffer' : Nat} {t' : KState}
    (h : Joins E s str buffer t) (h' : Joins E s str' buffer' t') : str = str' := by
  have hrun := h.malloc.symm.trans h'.malloc
  cases hrun
  exact Option.some.inj ((h.string _ rfl).2.symm.trans (h'.string _ rfl).2)

theorem Joins.cur {buffer : Nat} (h : Joins E s str buffer t) : t.cur = s.cur := by
  have hcalm := (Calm.pooled.kmalloc 256).of_run h.malloc
  unfold KState.cur
  rw [hcalm.processes, hcalm.current]

theorem Joins.pathArg {buffer : Nat} (h : Joins E s str buffer t) :
    Kernel.pathArg E s = joinPath s.cur.cwd str buffer t := by
  obtain ⟨hsome, hstr⟩ := h.string _ rfl
  obtain ⟨str0, hstr0⟩ := Option.isSome_iff_exists.mp hsome
  have hlook : lookupVa (u64 s.cur.registers.rdi) s = (.ok _, s) := rfl
  unfold Kernel.pathArg resolvePath
  rw [get_bind, bind_of_ok hlook, bind_of_ok (readStr_eq hstr0), bind_of_ok h.malloc,
    bind_of_ok (readStr_eq hstr), get_bind, h.cur]

section

variable (h : KInv E G O role used s) (hroom : Roomy E (n + 1) s)
  (hpa : (virtualMemoryLookup s.mem s.cur.pagetable (u64 s.cur.registers.rdi)).pa = pa)
  (hstr : strAt s.mem (0x200000 - pa) pa = some str)
  (hown : ∀ d ≤ str.length, UserByte role s s.current (pa + d))

include h hroom hpa hstr hown

/-- `resolve_path` gets to `join_path`: the string is still there when it
is read again. -/
theorem KInv.joins : ∃ buffer t, buffer ≠ 0 ∧ Joins E s str buffer t ∧ Roomy E n t := by
  have h256 : 0 < 256 ∧ 256 ≤ 4064 := by decide
  obtain ⟨b, t, hmal, -, hw, -, hroom'⟩ := h.kmalloc_eq hroom h256
  have hcur1 := h.numbered.current.1
  have hkeep : ∀ d ≤ str.length, t.mem (pa + d) = s.mem (pa + d) := by
    intro d hd
    have hframe := hw.frame ((pa + d) / 4096)
    rcases hown d hd with hcon | ⟨ho, -⟩
    · have hinfo : s.pageinfo 0xB8 = ⟨-1, 1⟩ :=
        h.mach.boot 0xB8 (by decide) (show (-1 : Int) ≠ 0 by decide)
      rw [hcon, hinfo] at hframe
      exact (hframe (by decide) (by decide)).2.2 _ hcon
    · rw [ho] at hframe
      exact (hframe (by omega) (by omega)).2.2 _ rfl
  refine ⟨b.h + 16, t, by omega, ⟨hmal, ?_⟩, hroom'⟩
  rintro _ rfl
  rw [hpa]
  exact ⟨by rw [hstr]; rfl, strAt_congr hstr hkeep⟩

/-- `resolve_path` of a string that is not too long. -/
theorem KInv.pathArg_eq (hlong : ¬ tooLong s.cur.cwd str) :
    ∃ s', Kernel.pathArg E s = (.ok (resolved s.cur.cwd str), s') ∧ Roomy E n s' := by
  obtain ⟨buffer, t, hne, hjoin, hroom'⟩ := h.joins hroom hpa hstr hown
  obtain ⟨m, heq⟩ := joinPath_eq hne hlong
  rw [hjoin.pathArg]
  exact ⟨_, heq, hroom'.fuel, hroom'.pages, hroom'.queue⟩

end

-- ------------------------------------------------------ the descriptor

/-- The head of the list is the descriptor `fd`, at the start of
`inode`. -/
structure Descriptor (s : KState) (fd inode : Nat) : Prop where
  some : s.cur.fdList ≠ 0
  fd : load s.mem s.cur.fdList 4 = fd
  inode : load s.mem (s.cur.fdList + 4) 4 = inode
  offset : load s.mem (s.cur.fdList + 8) 4 = 0

theorem load_fdBytes (m : ByteMap) (entry : Nat) (fd : Int) (inode : Nat) :
    load (fdBytes m entry fd inode) entry 4 = reg64 fd % 2 ^ 32
      ∧ load (fdBytes m entry fd inode) (entry + 4) 4 = inode % 2 ^ 32
      ∧ load (fdBytes m entry fd inode) (entry + 8) 4 = 0 := by
  unfold fdBytes
  refine ⟨?_, ?_, ?_⟩
  · rw [load_store_of_disjoint (by omega), load_store_of_disjoint (by omega),
      load_store_of_disjoint (by omega), load_store_same]
    rfl
  · rw [load_store_of_disjoint (by omega), load_store_of_disjoint (by omega), load_store_same]
    rfl
  · rw [load_store_of_disjoint (by omega), load_store_of_lt (by omega)]

/-- `fdlist_add_entry` on an empty list. -/
theorem KInv.fdlistAddEntry_eq (h : KInv E G O role used s)
    (hroom : Roomy E (n + 1) s) (hfd : s.cur.fdList = 0) (fd : Int) (inode : Nat) :
    ∃ (e : Blk) (t : KState), HeapWork role used s t ∧ Roomy E n t
      ∧ Frame (fun o => o = -2 ∨ o = -3) role s role
          { t with mem := fdBytes t.mem (e.h + 16) fd inode }
      ∧ Kernel.fdlistAddEntry E fd inode s
        = (.ok 0, ({ t with mem := fdBytes t.mem (e.h + 16) fd inode } : KState).updProc
            s.current fun p => { p with fdList := e.h + 16 }) := by
  have h24 : 0 < 24 ∧ 24 ≤ 4064 := by decide
  obtain ⟨e, t, hmal, hsize, hw, hm, hroom'⟩ := h.kmalloc_eq hroom h24
  have hdrain : Kernel.fdlistDrain E.fuel s = (.ok (), s) := by
    have hfuel := hroom.fuel
    obtain ⟨k, hk⟩ : ∃ k, E.fuel = k + 1 := ⟨E.fuel - 1, by omega⟩
    rw [hk, Kernel.fdlistDrain, get_bind, if_pos hfd]
    rfl
  have hcur : t.current = s.current := by rw [hw.rest]
  refine ⟨e, t, hw, hroom', hw.frame.trans (hm.frame_block (.head _) fun x hx => ?_), ?_⟩
  · rw [Blk.has_iff]
    by_contra hout
    exact hx (fdBytes_outside t.mem fd inode (by omega))
  unfold Kernel.fdlistAddEntry
  rw [bind_of_ok hdrain, bind_of_ok hmal, if_neg (by omega), ← hcur]
  rfl

/-- `sys_open` of something that is there, as the first descriptor. -/
theorem KInv.open_eq (h : KInv E G O role used s) (hp : Kernel.pathArg E s = (.ok p, t))
    (hroom : Roomy E (n + 1) t) (hattr : fsGetattr E.fsEnv t.desc p t.world = (.ok inode, w))
    (hfd : s.cur.fdList = 0) (hmax : s.cur.fdMax = 0) :
    ∃ s', sysOpen E s = (.ok (), s') ∧ Descriptor s' 1 (inode % 2 ^ 32)
      ∧ s'.disk = w.disk ∧ s'.desc = t.desc ∧ s'.cur.fdMax = 1 ∧ Roomy E n s'
      ∧ Frame (fun o => o = -2 ∨ o = -3) role s role s' := by
  obtain ⟨b, hleak⟩ := h.pathArg hp
  have hsame : Minor t (t.afterFs w) := Minor.of_same ⟨rfl, rfl, rfl, rfl, rfl⟩ rfl rfl
  -- the state with the new number
  obtain ⟨u, hu, hucur, hudisk, hudesc, hminor, hroom'⟩ : ∃ u, u = (t.afterFs w).updProc
        (t.afterFs w).current (fun p => { p with fdMax := i32 (reg64 (p.fdMax + 1)) })
      ∧ u.cur = { t.cur with fdMax := i32 (reg64 (t.cur.fdMax + 1)) }
      ∧ u.disk = w.disk ∧ u.desc = t.desc ∧ Minor t u ∧ Roomy E (n + 1) u :=
    ⟨_, rfl, (t.afterFs w).updProc_same t.current _, rfl, rfl,
      hsame.trans (Minor.own (fun _ => ⟨rfl, rfl, rfl, rfl, rfl, rfl⟩) fun _ => rfl),
      hroom.fuel, hroom.pages, hroom.queue⟩
  rw [hleak.work.cur, hmax] at hucur
  obtain ⟨e, v, hw, hroom2, hframe, hadd⟩ := (hleak.inv.minor hminor).fdlistAddEntry_eq hroom'
    (by rw [hucur]; exact hfd) u.cur.fdMax inode
  have hone : u.cur.fdMax = 1 := by
    rw [hucur]
    rfl
  have hvcur : v.cur = u.cur := hw.cur
  have hcurrent : v.current = u.current := by rw [hw.rest]
  rw [hone, ← hcurrent] at hadd
  rw [hone] at hframe
  -- and the one with the new entry
  obtain ⟨x, hx, hxcur, hxmem, hxdisk, hxdesc, hxroom, hxmach⟩ : ∃ x, x = (setRax (reg64 1)
        (({ v with mem := fdBytes v.mem (e.h + 16) 1 inode } : KState).updProc v.current
          fun p => { p with fdList := e.h + 16 })).2
      ∧ x.cur = { v.cur with
          fdList := e.h + 16, registers := { v.cur.registers with rax := reg64 1 } }
      ∧ x.mem = fdBytes v.mem (e.h + 16) 1 inode ∧ x.disk = v.disk ∧ x.desc = v.desc
      ∧ Roomy E n x ∧ SameMach { v with mem := fdBytes v.mem (e.h + 16) 1 inode } x := by
    refine ⟨_, rfl, ?_, rfl, rfl, rfl, ⟨hroom2.fuel, hroom2.pages, hroom2.queue⟩,
      ⟨rfl, rfl, rfl, rfl, rfl⟩⟩
    rw [setRax_cur]
    exact congrArg (fun p : Proc => { p with registers := { p.registers with rax := reg64 1 } })
      (KState.updProc_same _ v.current _)
  have hrun : sysOpen E s = (.ok (), x) := by
    unfold sysOpen
    rw [bind_of_ok hp, get_bind, bind_of_ok (fsCall_of_ok hattr)]
    dsimp only
    rw [bind_of_ok (modify_apply _ _), ← hu, get_bind, hone, bind_of_ok hadd,
      if_neg (by decide), hx]
    rfl
  obtain ⟨hl1, hl2, hl3⟩ := load_fdBytes v.mem (e.h + 16) 1 inode
  have hlist : x.cur.fdList = e.h + 16 := by rw [hxcur]
  refine ⟨x, hrun, ⟨?_, ?_, ?_, ?_⟩, ?_, ?_, ?_, hxroom, ?_⟩
  · rw [hlist]
    omega
  · rw [hlist, hxmem, hl1]
    rfl
  · rw [hlist, hxmem, hl2]
  · rw [hlist, hxmem, hl3]
  · rw [hxdisk, hw.rest]
    exact hudisk
  · rw [hxdesc, hw.rest]
    exact hudesc
  · rw [hxcur, hvcur]
    exact hone
  · exact hleak.work.frame.trans (hminor.mach.frame.trans (hframe.trans hxmach.frame))

-- ==== after the boot

/-- A call with the string at the start of page `v`. -/
def callAt (intno v : Nat) : Registers := { intno := intno, rdi := v * 4096 }

/-- Process 1 runs right after boot, and has put `str` at the start of its
page `v` for a call `intno`. -/
structure Asks (intno : Nat) (str : Path) (role : Roles) (s : KState) (m : ByteMap)
    (v pn : Nat) : Prop where
  started : Started patientKEnv blank role s
  step : KStep patientKEnv s (.user m) { s with mem := m }
  inv : KInv patientKEnv True True role [] { s with mem := m }
  cwd : (trapped (callAt intno v) { s with mem := m }).cur.cwd = [slash]
  room : Roomy patientKEnv 300 (trapped (callAt intno v) { s with mem := m })
  pa : (virtualMemoryLookup (trapped (callAt intno v) { s with mem := m }).mem
      (trapped (callAt intno v) { s with mem := m }).cur.pagetable
      (u64 (trapped (callAt intno v) { s with mem := m }).cur.registers.rdi)).pa = pn * 4096
  string : strAt m (0x200000 - pn * 4096) (pn * 4096) = some str
  owned : ∀ d, d < 4096 → UserByte role s s.current (pn * 4096 + d)

theorem asks (intno : Nat) (str : Path) (h0 : 0 ∉ str) (hlen : str.length < 4096) :
    ∃ role s m v pn, Asks intno str role s m v pn := by
  obtain ⟨s, role, h⟩ := patient_started
  obtain ⟨v, pn, m, hstep, hk, ht, hstr⟩ := h.up.inv.poke h.up.live h0 hlen
  have hcur := trapped_cur (callAt intno v) { s with mem := m }
  refine ⟨role, s, m, v, pn, h, hstep, hk, ?_, ⟨by decide, ?_, ?_⟩, ?_, hstr,
    fun d hd => ht.byte hd⟩
  · rw [hcur]
    rw [h.up.table.current]
    exact h.up.cwd
  · show s.heapPages.length + 300 ≤ 1024
    rw [h.heap]
    decide
  · show 300 ≤ (freeQueue s).length
    rw [length_freeQueue]
    exact h.patient_room
  · have hv := ht.low
    have hva : u64 (v * 4096) = v * 4096 := Nat.mod_eq_of_lt (by omega)
    rw [hcur]
    show (virtualMemoryLookup m s.cur.pagetable (u64 (v * 4096))).pa = _
    rw [hva]
    exact hk.textPage_pa ht

section Asking

variable {intno : Nat}

theorem Asks.live (h : Asks intno str role s m v pn) :
    (trapped (callAt intno v) { s with mem := m }).Live s.current := by
  refine ⟨h.started.up.live.1, h.started.up.live.2.1, .inl ?_⟩
  have hcur := trapped_cur (callAt intno v) { s with mem := m }
  exact (congrArg Proc.state hcur).trans h.started.up.running

theorem Asks.entered (h : Asks intno str role s m v pn) : Entered patientKEnv
    (callAt intno v) { s with mem := m } (trapped (callAt intno v) { s with mem := m }) :=
  ⟨rfl, (h.inv.saved (callAt intno v)).check⟩

/-- However it is entered, the call is about `str` in the root directory. -/
theorem Asks.joins (h : Asks intno str role s m v pn) (hlen : str.length < 4096)
    {s1 : KState} (hin : Entered patientKEnv (callAt intno v) { s with mem := m } s1) :
    s1.cur.cwd = [slash] ∧ ∃ buffer t, buffer ≠ 0 ∧ Joins patientKEnv s1 str buffer t := by
  have hinv := (h.inv.saved (callAt intno v)).idle hin.rest
  obtain ⟨_, _, _, _, _, rfl⟩ := hin.rest.exists_eq
  obtain ⟨buffer, t, hne, hjoin, -⟩ := hinv.joins
    ⟨h.room.fuel, h.room.pages, h.room.queue⟩ h.pa h.string
    fun d hd => h.owned d (Nat.lt_of_le_of_lt hd hlen)
  exact ⟨h.cwd, buffer, t, hne, hjoin⟩

end Asking

end RojocOS.Kernel
