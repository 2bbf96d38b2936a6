/-
The arguments of `sys_execv`.

The caller has an array of strings in its memory. The kernel counts them,
takes a page, and copies the strings behind each other to it, after as many
pointers, which are those the new program will see: the page is going to be
at `0x140000`. Then the process loses its pages, all but this one, and gets
new ones for the new program. `Passed` says what is left of the arguments
in the end: at `0x140000` there is an array of the same strings.
-/
import RojocOS.Kernel.Proofs.Ownership
import RojocOS.Kernel.Proofs.Tame

namespace RojocOS.Kernel

open ByteMap Prog

variable {E : KEnv} {G O : Prop} {role role' : Roles} {used : List Blk}
  {s s' t t' u : KState} {args : List Fs.Path} {pn argc v x : Nat} {path : Fs.Path}
variable {o : Int} {argv d n page root va : Nat} {V m : ByteMap}

-- ==== the new program

/-- What the running process sees. -/
def userView (s : KState) : ByteMap := fun va =>
  s.mem (virtualMemoryLookup s.mem s.cur.pagetable va).pa

/-- The pages that are free or will be, when the process has given back its
own. -/
def sparePages (s : KState) : Nat :=
  ((List.range 512).filter fun q =>
    (s.pageinfo q).owner = PO_FREE ∨ (s.pageinfo q).owner = s.current).length

/-- With the pages released, all are free again that could be, but for the
one that is kept. -/
theorem sparePages_le (hfree : ∀ q < 512, q ≠ pn →
      (s.pageinfo q).owner = PO_FREE ∨ (s.pageinfo q).owner = s.current →
      (u.pageinfo q).owner = PO_FREE) : sparePages s ≤ freePages u + 1 := by
  have hsub : ((List.range 512).filter fun q =>
      (s.pageinfo q).owner = PO_FREE ∨ (s.pageinfo q).owner = s.current)
      ⊆ pn :: (List.range 512).filter fun q => (u.pageinfo q).owner = PO_FREE := by
    intro q hq
    rw [List.mem_filter, List.mem_range, decide_eq_true_eq] at hq
    rw [List.mem_cons, List.mem_filter, List.mem_range, decide_eq_true_eq]
    by_cases hqp : q = pn
    · exact .inl hqp
    · exact .inr ⟨hq.1, hfree q hq.1 hqp hq.2⟩
  exact (List.subperm_of_subset (List.nodup_range.filter _) hsub).length_le

/-- The translation of the addresses in a page. -/
theorem MInv.lookup_mapped (h : MInv E role used s)
    (hroot : role root = some ⟨o, 0, 0⟩) (hv : v < 512) (hlt : pn < 512)
    (he : leafEntry s.mem root (v * 4096) = pn * 4096 + 7) (hd : d < 4096) :
    virtualMemoryLookup s.mem (root * 4096) (v * 4096 + d) = ⟨pn, pn * 4096 + d, 7⟩ := by
  have hvpn : vpn (v * 4096 + d) = vpn (v * 4096) := by
    rw [vpn_of_lt (by omega), vpn_page (by omega)]
    omega
  have hent : leafEntry s.mem root (v * 4096 + d) = pn * 4096 + 7 :=
    (leafEntry_of_vpn hvpn).trans he
  have h1 : (pn * 4096 + 7) / 4096 = pn := by omega
  have h2 : (pn * 4096 + 7) % 4096 = 7 := by omega
  have h3 : (v * 4096 + d) % 4096 = d := by rw [Nat.mul_comm, Nat.mul_add_mod, Nat.mod_eq_of_lt hd]
  rw [h.tables.lookup_some hroot (by omega) (by omega), hent, h1, h2, h3]

/-- The page is mapped at `0x140000` in a table that has a page of the
program. -/
theorem MInv.map_args (h : MInv E role used s) (ho : 1 ≤ o)
    (hf : Fitted E role s o root) (hlt : pn < 512) :
    ∃ s', virtualMemoryMap (root * 4096) 0x140000 (pn * 4096) 4096 7 none s = (.ok 0, s')
      ∧ Built o 0 role s role s' ∧ MInv E role used s'
      ∧ leafEntry s'.mem root (0x140 * 4096) = pn * 4096 + 7 := by
  obtain ⟨r, s', hrun, hb, hm, -, hcase⟩ := h.map_none ho hf.space.isRoot
    (show 0x140000 % 4096 = 0 by decide) (by decide) (show pn * 4096 % 4096 = 0 by omega)
    (by omega) (show 7 < 4096 by decide) (by decide)
  obtain ⟨v, h1, h2, q, he, -⟩ := hf.text
  have hleaf : leafTable s.mem root 0x140000 ≠ none := by
    refine leafTable_of_entry _ (by rw [he]; omega) ?_
    rw [region_low (by decide), region_low (by omega)]
  rcases hcase with ⟨-, -, hno | hno⟩ | ⟨rfl, hent⟩
  · exact absurd hno (by decide)
  · exact absurd hno hleaf
  · refine ⟨s', hrun, hb, hm, ?_⟩
    rw [hent, if_pos (by decide)]

/-- The arguments are passed on: `t` is the state with the page built, `s'`
that of the new program. -/
structure Passed (E : KEnv) (s : KState) (args : List Fs.Path) (pn : Nat) (t s' : KState) :
    Prop where
  built : argsPage E (execArgv s) args.length s = (.ok (pn * 4096), t)
  /-- No byte outside the page is written. -/
  inside : ∀ x, x / 4096 ≠ pn → t.mem x = s.mem x
  /-- The page is still the process's, and what is in it too. -/
  owner : s'.pageinfo pn = ⟨s.current, 1⟩
  kept : ∀ x, x / 4096 = pn → s'.mem x = t.mem x
  mapped : ∀ d, d < 4096 →
    virtualMemoryLookup s'.mem s'.cur.pagetable (0x140000 + d) = ⟨pn, pn * 4096 + d, 7⟩
  array : ArrayAt (userView s') 0x140000 args
  rdi : s'.cur.registers.rdi = args.length
  rsi : s'.cur.registers.rsi = 0x140000
  current : s'.current = s.current

/-- The page as it is seen at `0x140000`. -/
theorem Laid.arrayAt
    (hV : ∀ d < 4096, V (0x140000 + d) = m (page + d)) : ∀ {i offset : Nat},
    Laid m page i offset args → load m (page + 8 * (i + args.length)) 8 = 0 →
    8 * (i + args.length) + 8 ≤ 4096 → offset + argsSize args ≤ 4096 →
    ArrayAt V (0x140000 + 8 * i) args := by
  have hload : ∀ {i : Nat}, 8 * i + 8 ≤ 4096 →
      load V (0x140000 + 8 * i) 8 = load m (page + 8 * i) 8 := by
    intro i hi
    refine load_move fun d hd => ?_
    rw [Nat.add_assoc, Nat.add_assoc]
    exact hV (8 * i + d) (by omega)
  induction args with
  | nil =>
    intro i offset _ hnull h1 _
    exact (hload h1).trans hnull
  | cons str rest ih =>
    rintro i offset ⟨hptr, hstr, hrest⟩ hnull h1 h2
    rw [List.length_cons] at hnull h1
    rw [argsSize_cons] at h2
    refine ⟨?_, ?_, ih hrest ?_ (by omega) (by omega)⟩
    · rw [hload (by omega), hptr]
      omega
    · rw [hload (by omega), hptr]
      refine hstr.move fun d hd => ?_
      rw [Nat.add_assoc, Nat.add_assoc]
      exact hV (offset + d) (by omega)
    · rw [Nat.add_right_comm]
      exact hnull

/-- The release of the other pages. -/
theorem ArgsBuilt.release (hb : ArgsBuilt E G O role used s (execArgv s) args pn t)
    (hlive : s.Live s.current) :
    ∃ u, releasePages s.current (fun q => q * 4096 == pn * 4096) t = (.ok (), u)
      ∧ Emptied E G O (role.drop t.current) used pn u ∧ u.current = s.current ∧ u.mem = t.mem
      ∧ sparePages s ≤ (freeQueue u).length + 1 := by
  have h0 : s.current ≠ 0 := fun hx => absurd (hx ▸ hlive.1) (by decide)
  obtain ⟨u, hu⟩ : ∃ u : KState, u = { t with
    pageinfo := fun q => if q < 512 ∧ (t.pageinfo q).owner = s.current
      ∧ (q * 4096 == pn * 4096) = false then ⟨PO_FREE, 0⟩ else t.pageinfo q } := ⟨_, rfl⟩
  have hrel : releasePages s.current (fun q => q * 4096 == pn * 4096) t = (.ok (), u) := by
    rw [hu]
    refine releasePages_eq fun q hq howner _ => ?_
    rw [hb.inv.mach.count q hq, howner, if_neg h0]
  refine ⟨u, hrel, (hb.inv.emptied hb.own (by simp) (hb.current.symm ▸ hrel)).1, ?_, ?_, ?_⟩
  · rw [hu, ← hb.current]
  · rw [hu]
  rw [length_freeQueue]
  refine sparePages_le fun q hq (hne : q ≠ pn) hor => ?_
  have hkeep : (q * 4096 == pn * 4096) = false := beq_false_of_ne (by omega)
  rw [hu]
  dsimp only
  rw [hkeep, hb.others q hne]
  rcases hor with hfree | hown
  · by_cases hx : q < 512 ∧ (s.pageinfo q).owner = s.current ∧ false = false
    · rw [if_pos hx]
    · rw [if_neg hx]
      exact hfree
  · rw [if_pos ⟨hq, hown, rfl⟩]

/-- The second half of the call: the pages do not suffice, or the page with
the arguments gets through. -/
theorem ArgsBuilt.newProgram (hb : ArgsBuilt E G O role used s (execArgv s) args pn t)
    (hlive : s.Live s.current) (hn : n < 11) (hmag : (E.image n).magic = true)
    (hfit : (args.length + 1) * 8 + argsSize args ≤ 4096) :
    (sparePages s < 5 + loadSize (E.image n).segments
        ∧ ∀ u s', Kernel.newProgram E s.cur n args.length (pn * 4096) t ≠ (.ok u, s'))
      ∨ ∃ s', Kernel.newProgram E s.cur n args.length (pn * 4096) t = (.ok (), s')
          ∧ Passed E s args pn t s' := by
  have ho : 1 ≤ s.current := hlive.1
  have h0 : s.current ≠ 0 := fun hx => absurd (hx ▸ ho) (by decide)
  have hlt := hb.page.lt
  have hpid : s.cur.pid = s.current := by
    have hcur := hb.inv.numbered.cur
    unfold KState.cur at hcur ⊢
    rwa [hb.processes, hb.current] at hcur
  obtain ⟨u, hrel, hempty, hcur, hmem, hspare⟩ := hb.release hlive
  have hown := hempty.own
  have hpid' := hempty.pid
  rw [hcur] at hown hpid'
  unfold Kernel.newProgram
  rw [hpid, bind_of_ok hrel]
  rcases hempty.mach.processSetup ho hpid' hn hmag s.cur.parent
    with ⟨hno, hless⟩ | ⟨s1, role', root, k, hrun, hset, -, hproc⟩
  · refine .inl ⟨by omega, fun v s' hx => ?_⟩
    obtain ⟨w, s1, h1, -⟩ := bind_ok.mp hx
    exact hno w s1 h1
  -- the new program comes, and the page with it
  have hown1 : OwnPage role' s1 s.current pn := hown.work hset.work h0
  have hpt : s1.cur.pagetable = root * 4096 := by
    unfold KState.cur
    rw [hset.current, hproc, if_pos rfl]
    rfl
  obtain ⟨s2, hmap, hbuilt, hm2, hent⟩ := hset.inv.map_args ho hset.fitted hlt
  have hkeep : ∀ x, x / 4096 = pn → s2.mem x = t.mem x := by
    intro x hx
    have hstep1 := hempty.mach.keeps_page ho hown (processSetup_ownerBlind _ n _)
      (fun t' hm ht => by
        obtain ⟨role', root, k, hset, -⟩ := hm.processSetup_ok ho hpid' ht
        exact ⟨k, role', hset.work⟩) hrun x hx
    have hstep2 := hset.inv.keeps_page ho hown1
      (ownerBlind.virtualMemoryMap_none _ _ _ _ _) (fun t' hm ht => by
        obtain ⟨r', s3, hrun3, hb, -⟩ := hm.map_none ho hset.fitted.space.isRoot
          (by decide : 0x140000 % 4096 = 0) (by decide) (Nat.mul_mod_left pn 4096) (by omega)
          (by decide : 7 < 4096) (by decide)
        rw [hrun3] at ht
        cases ht
        exact ⟨0, _, hb.toWork⟩) hmap x hx
    rw [hstep2, hstep1, hmem]
  have hcur2 : s2.current = s.current := hbuilt.current.trans hset.current
  obtain ⟨s', hs'⟩ : ∃ s' : KState, s' = s2.updProc s2.current fun p =>
    { p with registers := { p.registers with rdi := args.length, rsi := 0x140000 } } := ⟨_, rfl⟩
  have hnow : s'.cur = { s1.cur with
      registers := { s1.cur.registers with rdi := args.length, rsi := 0x140000 } } := by
    rw [hs']
    refine (s2.updProc_same _ _).trans ?_
    rw [hbuilt.processes, hbuilt.current]
    rfl
  have hmem' : s'.mem = s2.mem := by rw [hs']; rfl
  have hpt' : s'.cur.pagetable = root * 4096 := by
    rw [hnow]
    exact hpt
  have hmapped : ∀ d < 4096,
      virtualMemoryLookup s'.mem s'.cur.pagetable (0x140000 + d) = ⟨pn, pn * 4096 + d, 7⟩ := by
    intro d hd
    rw [hmem', hpt']
    exact hm2.lookup_mapped (v := 0x140) hset.fitted.space.isRoot (by decide) hlt hent hd
  refine .inr ⟨s', ?_, hb.call, hb.same, ?_, ?_, hmapped, ?_, ?_, ?_, ?_⟩
  · rw [bind_of_ok hrun, get_bind, hpt, bind_of_ok hmap, assert_bind rfl, hs']
    rfl
  · have hown2 := (hown1.work hbuilt.toWork h0).1
    have hcount := hm2.count pn hlt
    rw [hown2, if_neg h0] at hcount
    rw [hs', ← hown2, ← hcount]
    rfl
  · exact fun x hx => (congrFun hmem' x).trans (hkeep x hx)
  · refine hb.laid.arrayAt (fun d hd => ?_) ?_ (by omega) hfit
    · unfold userView
      rw [hmapped d hd, hmem']
      exact hkeep (pn * 4096 + d) (by omega)
    · rw [Nat.zero_add]
      exact hb.null
  · rw [hnow]
  · rw [hnow]
  · rw [hs']
    exact hcur2

-- ==== the caller

/-- The `n` bytes from `va` on are the process's to read, one behind the
other in memory. -/
def UserPiece (s : KState) (va n : Nat) : Prop :=
  ∀ d, d < n →
    (virtualMemoryLookup s.mem s.cur.pagetable (va + d)).pa
        = (virtualMemoryLookup s.mem s.cur.pagetable va).pa + d
      ∧ (virtualMemoryLookup s.mem s.cur.pagetable (va + d)).perm / 4 % 2 = 1

/-- The caller passes `args`: there is an array of them at the address in
`rsi`, and neither it nor a string is scattered over memory. -/
structure ArgsGiven (s : KState) (args : List Fs.Path) : Prop where
  array : ArrayAt (userView s) (u64 s.cur.registers.rsi) args
  piece : UserPiece s (u64 s.cur.registers.rsi) (8 * (args.length + 1))
  pieces : ∀ i str, args[i]? = some str →
    UserPiece s (load (userView s) (u64 s.cur.registers.rsi + 8 * i) 8) (str.length + 1)

/-- What the process can read is in a page in use. -/
theorem KInv.lookup_used (h : KInv E G O role used s) (hlive : s.Live s.current)
    (hperm : (virtualMemoryLookup s.mem s.cur.pagetable va).perm / 4 % 2 = 1) :
    (virtualMemoryLookup s.mem s.cur.pagetable va).pa < 0x200000
      ∧ (s.pageinfo ((virtualMemoryLookup s.mem s.cur.pagetable va).pa / 4096)).owner
        ≠ PO_FREE := by
  refine ⟨?_, ?_⟩
  · obtain ⟨root, hroot, hsp, -⟩ := (h.live _ hlive).space
    have hcur : s.cur.pagetable = root * 4096 := hroot
    rw [hcur] at hperm ⊢
    rcases hsp.entry va with hzero | ⟨hodd, hlt, -⟩
    · rw [h.mach.tables.lookup_none hsp.isRoot (by rw [hzero]; decide)] at hperm
      exact absurd hperm (by decide)
    · rw [h.mach.tables.lookup_some hsp.isRoot hodd hlt]
      dsimp only
      omega
  · rcases h.lookup_user hlive hperm with hconsole | hown
    · rw [hconsole, h.mach.boot 0xB8 (by decide) (show (-1 : Int) ≠ 0 by decide)]
      exact show (-1 : Int) ≠ 0 by decide
    · rw [hown.1]
      exact fun hx => absurd (hx ▸ hlive.1) (by decide)

theorem UserPiece.byte (h : UserPiece s va n) (hd : d < n) :
    s.mem ((virtualMemoryLookup s.mem s.cur.pagetable va).pa + d) = userView s (va + d) := by
  unfold userView
  rw [(h d hd).1]

theorem KInv.piece_used (h : KInv E G O role used s) (hlive : s.Live s.current)
    (hp : UserPiece s va n) :
    InUseFrom s (virtualMemoryLookup s.mem s.cur.pagetable va).pa n := by
  intro x h1 h2
  obtain ⟨d, rfl⟩ := Nat.exists_eq_add_of_le h1
  obtain ⟨hpa, hperm⟩ := hp d (by omega)
  rw [← hpa]
  exact (h.lookup_used hlive hperm).2

theorem KInv.piece_end (h : KInv E G O role used s) (hlive : s.Live s.current)
    (hp : UserPiece s va (n + 1)) :
    (virtualMemoryLookup s.mem s.cur.pagetable va).pa + n < 0x200000 := by
  obtain ⟨hpa, hperm⟩ := hp n (Nat.lt_succ_self n)
  rw [← hpa]
  exact (h.lookup_used hlive hperm).1

/-- The arguments are counted. -/
theorem countArgs_eq : ∀ {c n : Nat}, ArrayAt V (va + 8 * c) args →
    (∀ i ≤ args.length, load m (argv + 8 * (c + i)) 8 = load V (va + 8 * (c + i)) 8) →
    argv + 8 * (c + args.length) + 8 ≤ 0x200000 → args.length < n →
    countArgs m argv n c = some (c + args.length) := by
  induction args with
  | nil =>
    intro c n h hload hend hn
    obtain ⟨n, rfl⟩ := Nat.exists_eq_succ_of_ne_zero (Nat.ne_of_gt hn)
    have hnull : load m (argv + 8 * c) 8 = 0 := (hload 0 (Nat.le_refl 0)).trans h
    rw [List.length_nil, Nat.add_zero] at hend
    unfold countArgs
    rw [if_neg (by omega), if_pos hnull]
    rfl
  | cons str rest ih =>
    rintro c n ⟨hptr, -, hrest⟩ hload hend hn
    rw [List.length_cons] at hload hend hn
    obtain ⟨n, rfl⟩ := Nat.exists_eq_succ_of_ne_zero (Nat.ne_of_gt (Nat.zero_lt_of_lt hn))
    have hfirst : load m (argv + 8 * c) 8 ≠ 0 := by
      rw [show load m (argv + 8 * c) 8 = load V (va + 8 * c) 8 from hload 0 (Nat.zero_le _)]
      exact hptr
    unfold countArgs
    rw [if_neg (by omega), if_neg hfirst, ih hrest (fun i hi => ?_) (by omega)
      (Nat.lt_of_succ_lt_succ hn), List.length_cons, Nat.add_assoc, Nat.add_comm 1]
    rw [Nat.add_assoc, Nat.add_comm 1]
    exact hload (i + 1) (by omega)

/-- What the kernel finds behind the pointers. -/
theorem KInv.argsAt (h : KInv E G O role used s) (hlive : s.Live s.current) :
    ∀ {c : Nat}, ArrayAt (userView s) (va + 8 * c) args →
    (∀ i < args.length,
      load s.mem (argv + 8 * (c + i)) 8 = load (userView s) (va + 8 * (c + i)) 8) →
    (∀ i str, args[i]? = some str →
      UserPiece s (load (userView s) (va + 8 * (c + i)) 8) (str.length + 1)) →
    ArgsAt s argv c args := by
  induction args with
  | nil => exact fun _ _ _ => trivial
  | cons str rest ih =>
    rintro c ⟨-, hstr, hrest⟩ hload hpieces
    rw [List.length_cons] at hload
    have hptr : load s.mem (argv + 8 * c) 8 = load (userView s) (va + 8 * c) 8 :=
      hload 0 (Nat.succ_pos _)
    have hpiece : UserPiece s (load (userView s) (va + 8 * c) 8) (str.length + 1) :=
      hpieces 0 str rfl
    have hat : argAt s argv c = (virtualMemoryLookup s.mem s.cur.pagetable
        (load (userView s) (va + 8 * c) 8)).pa := by
      unfold argAt
      rw [hptr]
    refine ⟨?_, ?_, ?_, ih hrest (fun i hi => ?_) fun i str' hi => ?_⟩
    · rw [hat]
      exact hstr.move fun d hd => hpiece.byte hd
    · rw [hat]
      exact h.piece_end hlive hpiece
    · rw [hat]
      exact h.piece_used hlive hpiece
    · rw [Nat.add_assoc, Nat.add_comm 1]
      exact hload (i + 1) (by omega)
    · rw [Nat.add_assoc, Nat.add_comm 1]
      exact hpieces (i + 1) str' hi

-- ==== the call

theorem command_program_lt (h : command path = some (.program n)) : n < 11 := by
  have hite : ∀ {b : Prop} [Decidable b] {x y : Option Command},
      (x = some (.program n) → n < 11) → (y = some (.program n) → n < 11) →
      (if b then x else y) = some (.program n) → n < 11 := by
    intro b _ x y hx hy hxy
    split at hxy
    · exact hx hxy
    · exact hy hxy
  have hprog : ∀ {k : Nat}, k < 11 → some (Command.program k) = some (.program n) → n < 11 := by
    rintro k hk ⟨⟩
    exact hk
  revert h
  -- four commands that are no programs, then eight programs
  refine hite nofun (hite nofun (hite nofun (hite nofun ?_)))
  refine hite (hprog (by decide)) (hite (hprog (by decide)) (hite (hprog (by decide)) ?_))
  refine hite (hprog (by decide)) (hite (hprog (by decide)) (hite (hprog (by decide)) ?_))
  exact hite (hprog (by decide)) (hite (hprog (by decide)) nofun)

theorem sysExecv_program (hcmd : execCommand s = some (.program n))
    (hargc : countArgs s.mem (execArgv s) 0x40001 0 = some argc) :
    sysExecv E s = execArgs E n (execArgv s) argc s := by
  obtain ⟨path, hpath, hcommand⟩ := Option.bind_eq_some_iff.mp hcmd
  unfold sysExecv
  rw [get_bind, bind_of_ok (x := lookupVa _) rfl, bind_of_ok (readStr_eq hpath), hcommand]
  dsimp only
  unfold execProgram
  rw [get_bind, bind_of_ok (x := lookupVa _) rfl]
  unfold execArgv at hargc ⊢
  rw [hargc]

/-- `sys_execv` of a program, with arguments that fit in a page: the pages
do not suffice, or the new program gets the arguments as they were. -/
theorem execv_arguments_intact {n : Nat} (h : Intact E G O s)
    (hcmd : execCommand s = some (.program n)) (hmag : (E.image n).magic = true)
    (hpass : ArgsGiven s args) (hfit : (args.length + 1) * 8 + argsSize args ≤ 4096) :
    ((∀ u s', sysExecv E s ≠ (.ok u, s'))
        ∧ (freePages s = 0 ∨ sparePages s < 5 + loadSize (E.image n).segments))
      ∨ ∃ pn t s', sysExecv E s = (.ok (), s') ∧ Passed E s args pn t s' := by
  obtain ⟨⟨role, used, hk⟩, hlive⟩ := h
  obtain ⟨path, -, hcommand⟩ := Option.bind_eq_some_iff.mp hcmd
  have hlen : args.length < 512 := by omega
  -- the array, where the kernel reads it
  have hload : ∀ i, i ≤ args.length → load s.mem (execArgv s + 8 * (0 + i)) 8
      = load (userView s) (u64 s.cur.registers.rsi + 8 * (0 + i)) 8 := by
    intro i hi
    refine load_move fun d hd => ?_
    rw [Nat.add_assoc, Nat.add_assoc]
    exact hpass.piece.byte (by omega)
  have hend := hk.piece_end (n := 8 * args.length + 7) hlive hpass.piece
  have hargc := countArgs_eq (n := 0x40001) (c := 0) hpass.array hload
    (show execArgv s + 8 * (0 + args.length) + 8 ≤ 0x200000 by
      unfold execArgv
      omega) (by omega)
  rw [Nat.zero_add] at hargc
  have hargs : ArgsAt s (execArgv s) 0 args := hk.argsAt hlive (c := 0) hpass.array
    (fun i hi => hload i (Nat.le_of_lt hi)) fun i str hi => by
      rw [Nat.zero_add]
      exact hpass.pieces i str hi
  have hused : InUseFrom s (execArgv s) (8 * args.length) := fun x h1 h2 =>
    hk.piece_used hlive hpass.piece x h1 (by unfold execArgv at h2; omega)
  -- the two halves
  rw [sysExecv_program hcmd hargc, execArgs_eq]
  rcases hk.argsPage hlive hargs hused (by unfold execArgv; omega) hfit
    with ⟨hnone, hno⟩ | ⟨pn, t, hb⟩
  · refine .inl ⟨fun u s' hrun => ?_, .inl hnone⟩
    obtain ⟨p, t, hpage, -⟩ := bind_ok.mp hrun
    exact hno p t hpage
  · rw [bind_of_ok hb.call]
    rcases hb.newProgram hlive (command_program_lt hcommand) hmag hfit
      with ⟨hfew, hno⟩ | ⟨s', hrun, hpassed⟩
    · exact .inl ⟨hno, .inr hfew⟩
    · exact .inr ⟨pn, t, s', hrun, hpassed⟩

/-- `ls` as its only argument. -/
def lsPage (m : ByteMap) (page va : Nat) : ByteMap :=
  store (store (store m page 8 (va + 16)) (page + 8) 8 0) (page + 16) 8 0x736C

theorem lsPage_spec (m : ByteMap) (page : Nat) (hva : va < 0x200000) :
    load (lsPage m page va) page 8 = va + 16 ∧ load (lsPage m page va) (page + 8) 8 = 0
      ∧ StringAt (lsPage m page va) (page + 16) [108, 115] := by
  have hbyte : ∀ d < 8, lsPage m page va (page + 16 + d) = UInt8.ofNat (0x736C / 256 ^ d) := by
    intro d hd
    unfold lsPage store
    rw [if_pos (by omega), Nat.add_sub_cancel_left]
  refine ⟨?_, ?_, ?_⟩
  · unfold lsPage
    rw [load_store_of_disjoint (by omega), load_store_of_disjoint (by omega),
      load_store_of_lt (by omega)]
  · unfold lsPage
    rw [load_store_of_disjoint (by omega), load_store_of_lt (by decide)]
  · exact ⟨by decide, hbyte 0 (by decide), by decide, hbyte 1 (by decide), hbyte 2 (by decide)⟩

theorem lsPage_of_not_mem (h : x < page ∨ page + 24 ≤ x) : lsPage m page va x = m x := by
  unfold lsPage
  rw [store_of_not_mem (by omega), store_of_not_mem (by omega), store_of_not_mem (by omega)]

theorem freePages_le_spare (s : KState) : freePages s ≤ sparePages s := by
  refine (List.monotone_filter_right _ fun q hq => ?_).length_le
  rw [decide_eq_true_eq] at hq ⊢
  exact .inl hq

/-- The first process, about to call `execv("ls", {"ls", NULL})`. -/
theorem ls_caller : ∃ s, Intact patientKEnv True True s ∧ 300 ≤ freePages s
    ∧ execCommand s = some (.program 5) ∧ ArgsGiven s [[108, 115]] := by
  obtain ⟨s0, role, hs⟩ := patient_started
  obtain ⟨v, pn, ht0⟩ := hs.up.inv.textPage hs.up.live
  have hv := ht0.low
  have hpn := ht0.page
  obtain ⟨-, hk, ht⟩ := hs.up.inv.scribble (m := lsPage s0.mem (pn * 4096) (v * 4096)) hs.up.live
    ht0 fun x hx => by
      by_contra hout
      exact hx (lsPage_of_not_mem (by omega))
  obtain ⟨hptr, hnull, hstr⟩ := lsPage_spec s0.mem (pn * 4096) (show v * 4096 < 0x200000 by omega)
  generalize hm : lsPage s0.mem (pn * 4096) (v * 4096) = m at *
  obtain ⟨s, hs'⟩ : ∃ s, s = saved { rdi := v * 4096 + 16, rsi := v * 4096 }
    { s0 with mem := m } := ⟨_, rfl⟩
  have hmem : s.mem = m := by rw [hs']; rfl
  have hregs : s.cur.registers = { rdi := v * 4096 + 16, rsi := v * 4096 } := by
    rw [hs']
    exact saved_registers _ _
  have hrdi : u64 s.cur.registers.rdi = v * 4096 + 16 := by
    rw [hregs]
    exact u64_of_lt (by dsimp only; omega)
  have hrsi : u64 s.cur.registers.rsi = v * 4096 := by
    rw [hregs]
    exact u64_of_lt (by dsimp only; omega)
  have hlook : ∀ d < 4096,
      virtualMemoryLookup s.mem s.cur.pagetable (v * 4096 + d) = ⟨pn, pn * 4096 + d, 7⟩ := by
    intro d hd
    obtain ⟨root, hroot, hrole, he⟩ := ht.entry
    have hpt : s.cur.pagetable = root * 4096 := by
      rw [hs']
      refine (congrArg Proc.pagetable (KState.updProc_same _ _ _)).trans ?_
      exact hroot
    rw [hmem, hpt]
    exact hk.mach.lookup_mapped hrole hv hpn he hd
  have hview : ∀ d < 4096, userView s (v * 4096 + d) = m (pn * 4096 + d) := by
    intro d hd
    unfold userView
    rw [hlook d hd, hmem]
  have hpiece : ∀ d n, d + n ≤ 4096 → UserPiece s (v * 4096 + d) n := by
    intro d n hdn e he
    rw [Nat.add_assoc, hlook (d + e) (by omega), hlook d (by omega)]
    exact ⟨(Nat.add_assoc _ _ _).symm, show 7 / 4 % 2 = 1 by decide⟩
  have hptr' : load (userView s) (v * 4096) 8 = v * 4096 + 16 :=
    (load_move fun d hd => hview d (by omega)).trans hptr
  refine ⟨s, ⟨⟨role, [], ?_⟩, ?_⟩, ?_, ?_, ?_, ?_, ?_⟩
  · rw [hs']
    exact hk.saved _
  · rw [hs']
    unfold KState.Live
    rw [((saved_serves _ _).sameRole _).state]
    exact hs.up.live
  · rw [hs']
    exact hs.patient_room
  · have hpath : execPath s = some [108, 115] := by
      unfold execPath
      rw [hrdi, hlook 16 (by decide), hmem]
      exact strAt_of_stringAt hstr (by simp only [List.length_cons, List.length_nil]; omega)
    unfold execCommand
    rw [hpath]
    decide
  · rw [hrsi]
    refine ⟨?_, ?_, ?_⟩
    · rw [hptr']
      omega
    · rw [hptr']
      refine hstr.move fun d hd => ?_
      rw [Nat.add_assoc, Nat.add_assoc, hview (16 + d) ?_]
      exact Nat.lt_of_lt_of_le (Nat.add_lt_add_left hd 16) (by decide)
    · refine (load_move fun d hd => ?_).trans hnull
      rw [Nat.add_assoc, Nat.add_assoc]
      exact hview (8 + d) (by omega)
  · have hfirst := hpiece 0 16 (by decide)
    rw [Nat.add_zero] at hfirst
    rw [hrsi]
    exact hfirst
  · rintro (- | i) str hi
    · cases hi
      rw [hrsi, Nat.mul_zero, Nat.add_zero, hptr']
      exact hpiece 16 _ (by decide)
    · cases hi

theorem execv_arguments_intact_ls : ∃ s pn t s', Intact patientKEnv True True s
    ∧ ArgsGiven s [[108, 115]] ∧ sysExecv patientKEnv s = (.ok (), s')
    ∧ Passed patientKEnv s [[108, 115]] pn t s' := by
  obtain ⟨s, hs, hroom, hcmd, hpass⟩ := ls_caller
  rcases execv_arguments_intact hs hcmd rfl hpass (by decide) with ⟨-, hfew⟩ | ⟨pn, t, s', hrun, hp⟩
  · have hspare := freePages_le_spare s
    have hsize : loadSize (patientKEnv.image 5).segments = 1 := by decide
    omega
  · exact ⟨s, pn, t, s', hs, hpass, hrun, hp⟩

end RojocOS.Kernel
