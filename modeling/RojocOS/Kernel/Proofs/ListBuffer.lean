/-
How long the text of `INT_SYS_LISTDIR` is.

The kernel writes the names of a directory, a newline behind each, and a
zero to the buffer it is given, and does not know its size. `p-ls` gives it
64 bytes.

In a state made by `sys_mkdir` and `sys_touch` the text is what was created
in the directory (`runCalls_listing`), so it fits exactly if the names of
those calls come to at most 63 bytes with their newlines (`listdir_fits_iff`).
Two names of 31 characters are too long.
-/
import RojocOS.Fs.Proofs.ListingText
import RojocOS.Kernel.Proofs.DiskFaults
import RojocOS.Kernel.Proofs.TreeRun

namespace RojocOS.Kernel

open ByteMap Fs Prog

variable {F : FsEnv} {i n : Nat} {m : ByteMap}

-- ==== creations

section Creations

variable {E : FsEnv} {c : FileCall} {w : FsWorld}

/-- A call of `sys_mkdir` or `sys_touch`. -/
def Creates (_ : FsWorld) (c : FileCall) : Prop := c.op ≠ .remove ∧ c.Strings

instance (w : FsWorld) (c : FileCall) : Decidable (Creates w c) :=
  inferInstanceAs (Decidable (_ ∧ _))

/-- A creation hangs a node into the tree or leaves it; before that
`sys_touch` may change the inode table. -/
theorem FileCall.creation_cases (hE : E.Reliable) (hop : c.op ≠ .remove) (w : FsWorld) :
    (∃ disk par name u k v, (∀ a, 4876 ≤ a → disk a = w.disk a)
        ∧ splitPath c.target = pure (par, name) ∧ TouchOk disk par name u k
        ∧ (c.exec E w).1 = .ok () ∧ (c.exec E w).2.disk = touchDisk disk u k name v)
      ∨ ((∃ e, (c.exec E w).1 = .error e)
        ∧ ∀ a, 4876 ≤ a → (c.exec E w).2.disk a = w.disk a) := by
  rcases c.exec_cases w with hx | hx
  · rw [hx]
    exact .inr ⟨⟨_, rfl⟩, fun _ _ => rfl⟩
  rw [hx]
  cases hc : c.op with
  | mkdir =>
    rcases fsTouch_cases hE c.target 0 w with ⟨par, name, u, k, hs, ht, hok, hw⟩ | ⟨he, hw⟩
    · exact .inl ⟨w.disk, par, name, u, k, 0, fun _ _ => rfl, hs, ht, hok, hw.disk_eq⟩
    · refine .inr ⟨he, fun a _ => congrFun hw.disk_eq a⟩
  | touch =>
    have halloc := (fsAllocInode_effect hE w).1
    rcases ha : fsAllocInode E fsdesc w with ⟨e | i, w1⟩
    · rw [ha] at halloc
      have hrun : FileOp.touch.apply E c.target w = (.error e, w1) := bind_of_error ha
      rw [hrun]
      exact .inr ⟨⟨e, rfl⟩, halloc⟩
    · rw [ha] at halloc
      have hrun : FileOp.touch.apply E c.target w = fsTouch E fsdesc c.target (u32 i) w1 :=
        bind_of_ok ha
      rw [hrun]
      rcases fsTouch_cases hE c.target (u32 i) w1 with
        ⟨par, name, u, k, hs, ht, hok, hw⟩ | ⟨he, hw⟩
      · exact .inl ⟨w1.disk, par, name, u, k, u32 i, halloc, hs, ht, hok, hw.disk_eq⟩
      · exact .inr ⟨he, fun a h => (congrFun hw.disk_eq a).trans (halloc a h)⟩
  | remove => exact absurd hc hop

/-- The bytes a call adds to the text of node `u`: those of the name it
creates there, and the newline. -/
def addedTo (E : FsEnv) (w : FsWorld) (c : FileCall) (u : Nat) : Nat :=
  match (c.exec E w).1, ((splitPath c.target : FsM (Path × Path)) w).1 with
  | .ok _, .ok (par, name) =>
      if (lookup w.disk 0 (pathParts par)).toOption = some u then name.length + 1 else 0
  | _, _ => 0

/-- What the calls of a run add. -/
def namesIn (E : FsEnv) (w : FsWorld) (u : Nat) : List FileCall → Nat
  | [] => 0
  | c :: cs => addedTo E w c u + namesIn E (c.exec E w).2 u cs

theorem exec_listing (hE : E.Reliable) (h : Rooted w.disk) (hc : Creates w c) :
    Rooted (c.exec E w).2.disk ∧ ∀ u < 16, (listing (c.exec E w).2.disk u).length
      = (listing w.disk u).length + addedTo E w c u := by
  rcases c.creation_cases hE hc.1 w with
    ⟨disk, par, name, u, k, v, hsame, hs, ht, hok, hd⟩ | ⟨⟨e, he⟩, hsame⟩
  · have hord := h.of_above hsame
    have h0 : 0 ∉ name := fun hx => hc.2.target ((splitPath_last hs).2.2.1 0 hx)
    have hu : Dir disk u := hord.lookup_dir (.inl rfl) ht.parent
    have hparent := ht.parent
    rw [lookup_of_above hsame] at hparent
    rw [hd]
    refine ⟨hord.touch ht hu h0, fun y hy => ?_⟩
    have hadd : addedTo E w c y = if y = u then name.length + 1 else 0 := by
      unfold addedTo
      rw [hok, hs]
      show (if (lookup w.disk 0 (pathParts par)).toOption = some y then _ else 0) = _
      rw [hparent]
      exact if_congr ⟨fun hx => (Option.some.inj hx).symm, fun hx => congrArg some hx.symm⟩ rfl rfl
    rw [hord.touch_listing ht hu h0 hy, hadd]
    split
    · next hyu =>
        rw [hyu, List.length_append, List.length_append, listing_of_above hsame]
        rfl
    · rw [listing_of_above hsame]
      rfl
  · refine ⟨h.of_above hsame, fun y _ => ?_⟩
    have hadd : addedTo E w c y = 0 := by
      unfold addedTo
      rw [he]
    rw [listing_of_above hsame, hadd]
    rfl

/-- Over a run, the text of every node grows by the names created in it. -/
theorem runCalls_listing (hE : E.Reliable) {calls : List FileCall} : ∀ {w : FsWorld},
    Rooted w.disk → CallsMeet E Creates w calls → Rooted (runCalls E w calls).disk
      ∧ ∀ u < 16, (listing (runCalls E w calls).disk u).length
        = (listing w.disk u).length + namesIn E w u calls := by
  induction calls with
  | nil => exact fun h _ => ⟨h, fun _ _ => rfl⟩
  | cons c calls ih =>
    rintro w h ⟨hc, -, hrest⟩
    obtain ⟨hord, hlen⟩ := exec_listing hE h hc
    obtain ⟨hord', hlen'⟩ := ih hord hrest
    refine ⟨hord', fun u hu => ?_⟩
    rw [runCalls, hlen' u hu, hlen u hu, namesIn, Nat.add_assoc]

end Creations

-- ==== the handler

section Handler

variable {E : KEnv} {s s' : KState} {u : Nat}

/-- A string that ends is read as it is. -/
theorem strAt_cstr : ∀ {a : Nat}, (cstr m a n).length < n →
    strAt m n a = some (cstr m a n) := by
  induction n with
  | zero => intro a h; exact absurd h (Nat.not_lt_zero _)
  | succ n ih =>
    intro a h
    unfold cstr at h ⊢
    unfold strAt
    by_cases hz : m a = 0
    · rw [if_pos hz, if_pos hz]
    · rw [if_neg hz] at h
      rw [if_neg hz, if_neg hz, ih (Nat.lt_of_succ_lt_succ h)]
      rfl

theorem fsReaddirNext_eq (hF : F.Reliable) (hu : u < 16) (hi : i < 32)
    (w : FsWorld) : fsReaddirNext F fsdesc u i w
      = (.ok (slice (nodeAt w.disk u) (Node.nameAt i) (1160 - Node.nameAt i)),
          { w with io := w.io + 1 }) := by
  unfold fsReaddirNext
  rw [bind_of_ok (fsdr_node hF (by omega) w), failIf_bind (Nat.not_le.mpr hi)]
  rfl

/-- The names from slot `i` on. -/
theorem listNames_eq (hE : E.fsEnv.Reliable) (hd : s.desc = fsdesc) (hu : u < 16)
    (h : Rooted s.disk) (n : Nat) : ∀ {i : Nat} {s1 : KState}, s1.disk = s.disk →
    s1.desc = s.desc → i + n = Node.count (nodeAt s.disk u) →
    ∃ s2, listNames E u n i s1
        = (.ok ((List.range' i n).flatMap fun j => Node.slotName (nodeAt s.disk u) j ++ [10]), s2)
      ∧ s2.mem = s1.mem := by
  induction n with
  | zero => intro i s1 _ _ _; exact ⟨s1, rfl, rfl⟩
  | succ n ih =>
    intro i s1 hdisk hdesc hcount
    have hle := (h.count u hu).2
    have hi : i < 32 := by
      unfold Node.count at hcount
      omega
    have hnext := fsCall_of_ok (fsReaddirNext_eq hE hu hi s1.world)
    generalize hs3 : s1.afterFs _ = s3 at hnext
    obtain ⟨s2, hrest, hmem⟩ := ih (i := i + 1) (show s3.disk = s.disk by rw [← hs3]; exact hdisk)
      (by rw [← hs3]; exact hdesc) (by omega)
    have hshort := h.short u hu i (by omega)
    have hname : cstr (slice (nodeAt s.disk u) (Node.nameAt i) (1160 - Node.nameAt i)) 0 32
        = Node.slotName (nodeAt s.disk u) i := by
      apply cstr_congr
      intro b hb
      rw [slice_of_lt (by unfold Node.nameAt; omega), Nat.zero_add]
    have hstr := strAt_cstr (by rwa [hname])
    rw [hname] at hstr
    refine ⟨s2, ?_, hmem.trans (by rw [← hs3]; rfl)⟩
    rw [listNames, get_bind, hdesc, hd, bind_of_ok hnext,
      show s1.world.disk = s.disk from hdisk]
    dsimp only
    rw [hstr]
    dsimp only
    rw [bind_of_ok hrest, List.range'_succ, List.flatMap_cons]
    rfl

/-- A call that returns has failed and written nothing, or has written the
text of the directory and a zero to its buffer. -/
theorem sysListdir_text (hE : E.fsEnv.Reliable) (hd : s.desc = fsdesc) (h : Rooted s.disk)
    (hrun : sysListdir E s = (.ok (), s')) : ∃ path s1, pathArg E s = (.ok path, s1)
      ∧ ((∃ u, Dir s.disk u ∧ lookup s.disk 0 (pathParts path) = .ok u
          ∧ s'.mem = copy s1.mem (listBuffer s1) (strBytes (listing s.disk u)) 0
              ((listing s.disk u).length + 1))
        ∨ (∃ code, ErrorCode code ∧ s'.cur.registers.rax = reg64 code) ∧ s'.mem = s1.mem) := by
  unfold sysListdir lookupVa at hrun
  obtain ⟨path, s1, hp, h1⟩ := bind_ok.mp hrun
  have hsame := (pathArg_ok hp).1
  refine ⟨path, s1, hp, ?_⟩
  rw [get_bind] at h1
  obtain ⟨pa, s3, h4, h5⟩ := bind_ok.mp h1
  rw [get_bind] at h4
  cases h4
  obtain ⟨r, s5, hcall, h8⟩ := bind_ok.mp h5
  rw [hsame.desc.trans hd] at hcall
  obtain ⟨w, rfl, ⟨⟨u, count⟩, rfl, hinit⟩ | ⟨code, rfl, hinit⟩⟩ := fsCall_back hcall
  · obtain ⟨⟨u', nd⟩, w1, hsearch, hpure⟩ := bind_ok.mp hinit
    obtain ⟨-, hl, rfl, n, rfl⟩ := searchNode_ok hE hsearch
    cases hpure
    rw [show s1.world.disk = s.disk from hsame.disk] at hl h8
    have hu : Dir s.disk u := h.lookup_dir (.inl rfl) hl
    have hcount := (h.count u hu.lt).1
    dsimp only at h8
    rw [if_neg (Int.not_lt.mpr hcount)] at h8
    generalize hs4 : s1.afterFs _ = s4 at h8
    have hm4 : s4.mem = s1.mem := by rw [← hs4]; rfl
    obtain ⟨s6, hnames, hm6⟩ := listNames_eq hE hd hu.lt h (Node.childrenCount (nodeAt s.disk u)).toNat
      (show s4.disk = s.disk by rw [← hs4]; rfl)
      (by rw [← hs4]; exact hsame.desc) (Nat.zero_add _)
    rw [← List.range_eq_range'] at hnames
    rw [bind_of_ok hnames] at h8
    obtain ⟨_, s7, hwrite, hset⟩ := bind_ok.mp h8
    obtain ⟨-, rfl⟩ := writeAt_state hwrite
    cases hset
    exact .inl ⟨u, hu, hl, congrArg (fun m => copy m (listBuffer s1)
      (strBytes (listing s.disk u)) 0 ((listing s.disk u).length + 1)) (hm6.trans hm4)⟩
  · refine .inr ⟨⟨code, ?_, (setRax_ok h8).1⟩, ?_⟩
    · exact fsReaddirInit_code _ hinit
    · cases h8
      rfl

end Handler

-- ==== the buffer

/-- A listing in a state made by `sys_mkdir` and `sys_touch` either fails
and writes nothing, or writes the names of the directory with their
newlines and a zero. That fits the 64 bytes of `p-ls` exactly if the names
created in the directory come to at most 63 bytes with their newlines. -/
theorem listdir_fits_iff {E : KEnv} (hE : E.fsEnv.Reliable) {calls : List FileCall}
    (hcalls : CallsMeet E.fsEnv Creates (start E.fsEnv) calls) {s s' : KState}
    (hd : s.desc = fsdesc) (hdisk : s.disk = (runCalls E.fsEnv (start E.fsEnv) calls).disk)
    (hrun : sysListdir E s = (.ok (), s')) : ∃ path s₁, pathArg E s = (.ok path, s₁)
      ∧ ((∃ u, lookup s.disk 0 (pathParts path) = .ok u
          ∧ s'.mem = copy s₁.mem (listBuffer s₁) (strBytes (listing s.disk u)) 0
              ((listing s.disk u).length + 1)
          ∧ ((listing s.disk u).length + 1 ≤ 64
            ↔ namesIn E.fsEnv (start E.fsEnv) u calls ≤ 63))
        ∨ (∃ code, ErrorCode code ∧ s'.cur.registers.rax = reg64 code) ∧ s'.mem = s₁.mem) := by
  have hstart : Rooted (start E.fsEnv).disk := by
    rw [start_disk]
    exact Rooted.zero
  obtain ⟨hord, hlen⟩ := runCalls_listing hE hstart hcalls
  rw [← hdisk] at hord hlen
  obtain ⟨path, s₁, hp, ⟨u, hu, hl, hmem⟩ | hfail⟩ := sysListdir_text hE hd hord hrun
  · refine ⟨path, s₁, hp, .inl ⟨u, hl, hmem, ?_⟩⟩
    have hempty : listing (start E.fsEnv).disk u = [] := by
      unfold listing
      rw [start_disk, nodeAt_zero]
      rfl
    rw [hlen u hu.lt, hempty, List.length_nil]
    omega
  · exact ⟨path, s₁, hp, .inr hfail⟩

/-- A process in `/` that lists `/` into a buffer at address 256, behind
whose 64 bytes there is an `A`. -/
def listingRoot (disk : ByteMap) : KState :=
  { Kernel.blank with
    mem := store (store (store (store (store (store zero 0x1000 8 0x2007) 0x2000 8 0x3007)
      0x3000 8 0x4007) 0x4000 8 0x5007) 0x5000 8 47) 0x5140 1 65
    pageno := 6
    processes := fun i => { Proc.zero i with
      pagetable := 0x1000, cwd := [slash], registers := { rsi := 256 } }
    desc := fsdesc
    disk := disk }

theorem listingRoot_disk (disk : ByteMap) : (listingRoot disk).disk = disk := rfl

/-- `mkdir("/a")`. -/
def shortNames : List FileCall := [⟨.mkdir, [slash], [slash, 97]⟩]

theorem listdir_fits_iff_short :
    let s := listingRoot (runCalls plainKEnv.fsEnv (start plainKEnv.fsEnv) shortNames).disk
    ∃ u s₁, lookup s.disk 0 (pathParts [slash]) = .ok u
      ∧ (sysListdir plainKEnv s).2.mem = copy s₁.mem (listBuffer s₁) (strBytes (listing s.disk u)) 0
          ((listing s.disk u).length + 1)
      ∧ (listing s.disk u).length + 1 ≤ 64 := by
  intro s
  have hrun := eq_of_toOption
    (by decide +kernel : (sysListdir plainKEnv s).1.toOption = some ())
  have hpath := eq_of_toOption
    (by decide +kernel : (pathArg plainKEnv s).1.toOption = some [slash])
  have hcalls : CallsMeet plainKEnv.fsEnv Creates (start plainKEnv.fsEnv) shortNames :=
    ⟨by decide, by decide +kernel, trivial⟩
  have hdesc : s.desc = fsdesc := rfl
  have hdisk : s.disk = (runCalls plainKEnv.fsEnv (start plainKEnv.fsEnv) shortNames).disk :=
    listingRoot_disk _
  obtain ⟨path, s₁, hp, ⟨u, hl, hmem, hiff⟩ | ⟨⟨code, hcode, hrax⟩, -⟩⟩ :=
    listdir_fits_iff (E := plainKEnv) plainEnv_reliable hcalls (s := s) hdesc hdisk hrun
  · rw [hpath] at hp
    cases hp
    have h0 : (lookup s.disk 0 (pathParts [slash])).toOption = some 0 := by decide +kernel
    obtain rfl : u = 0 := Except.ok.inj (hl.symm.trans (ok_of_toOption h0))
    exact ⟨0, _, hl, hmem, hiff.mpr (by decide +kernel)⟩
  · have hzero : (sysListdir plainKEnv s).2.cur.registers.rax = 0 := by decide +kernel
    exact absurd (hrax.symm.trans hzero) (reg64_ne_zero hcode.2 (by have := hcode.1; omega))

/-- Two names of 31 characters. -/
def longNames : List FileCall :=
  [⟨.mkdir, [slash], slash :: List.replicate 31 97⟩, ⟨.mkdir, [slash], slash :: List.replicate 31 98⟩]

/-- The listing of two names of 31 characters is a byte too long. -/
theorem listdir_overruns :
    let s := listingRoot (runCalls plainKEnv.fsEnv (start plainKEnv.fsEnv) longNames).disk
    CallsMeet plainKEnv.fsEnv Creates (start plainKEnv.fsEnv) longNames
      ∧ listBuffer s = 0x5100 ∧ (sysListdir plainKEnv s).1.toOption = some ()
      ∧ s.mem (0x5100 + 64) = 65 ∧ (sysListdir plainKEnv s).2.mem (0x5100 + 64) = 0 := by
  intro s
  exact ⟨⟨by decide, by decide +kernel, by decide, by decide +kernel, trivial⟩,
    by decide +kernel, by decide +kernel, by decide +kernel, by decide +kernel⟩

end RojocOS.Kernel
