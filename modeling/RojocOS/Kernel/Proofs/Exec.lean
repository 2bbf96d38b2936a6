/-
`sys_execv` of a program, and the invariant.

The arguments are copied to one page, behind each other, with nobody
looking at how long they are. `ArgsFit` says that they fit, and that they
are in pages that are in use, so that the new page is not among them. Then
the copy changes that page only (`copyArgs_eq`). The process loses its
other pages and is set up again, as a new one would be (`KInv.exec`).
-/
import RojocOS.Kernel.Proofs.DescCalls
import RojocOS.Kernel.Proofs.NewPages
import RojocOS.Lib.CStrings

namespace RojocOS.Kernel

open ByteMap Prog

variable {E : KEnv} {G O : Prop} {role role' : Roles} {used : List Blk}
  {s s' t t' : KState}
  {args : List Fs.Path} {pn page size v : Nat} {m' : ByteMap} {parent : Int}
variable {a argc argv n : Nat} {m : ByteMap} {str : Fs.Path}

-- ==== the arguments

/-- The `n` bytes from `a` on are in pages in use. -/
def InUseFrom (s : KState) (a n : Nat) : Prop :=
  ∀ x, a ≤ x → x < a + n → (s.pageinfo (x / 4096)).owner ≠ PO_FREE

/-- The physical address of the `i`-th argument. -/
def argAt (s : KState) (argv i : Nat) : Nat :=
  (virtualMemoryLookup s.mem s.cur.pagetable (load s.mem (argv + 8 * i) 8)).pa

/-- The `n` arguments from the `i`-th on are strings in pages in use, and
take `size` bytes. -/
def ArgsTake (s : KState) (argv : Nat) : Nat → Nat → Nat → Prop
  | 0, _, size => size = 0
  | n + 1, i, size =>
      ∃ str rest, strAt s.mem (0x200000 - argAt s argv i) (argAt s argv i) = some str
        ∧ InUseFrom s (argAt s argv i) (str.length + 1)
        ∧ size = str.length + 1 + rest ∧ ArgsTake s argv n (i + 1) rest

/-- The argument vector that `sys_execv` is given. -/
def execArgv (s : KState) : Nat :=
  (virtualMemoryLookup s.mem s.cur.pagetable (u64 s.cur.registers.rsi)).pa

/-- The pointers and the strings fit in a page. -/
def ArgsFit (s : KState) : Prop :=
  ∀ argc, countArgs s.mem (execArgv s) 0x40001 0 = some argc →
    InUseFrom s (execArgv s) (8 * argc)
      ∧ ∃ size, ArgsTake s (execArgv s) argc 0 size ∧ (argc + 1) * 8 + size ≤ 4096

section Congr

variable (hm : s'.mem = s.mem) (hp : s'.pageinfo = s.pageinfo) (hc : s'.cur = s.cur)
include hm hp hc

theorem ArgsTake.congr : ∀ {n i size}, ArgsTake s argv n i size →
    ArgsTake s' argv n i size := by
  intro n
  induction n with
  | zero => exact fun h => h
  | succ n ih =>
    rintro i size ⟨str, rest, hstr, hin, hsize, hrest⟩
    have hat : argAt s' argv i = argAt s argv i := by
      unfold argAt
      rw [hm, hc]
    refine ⟨str, rest, ?_, ?_, hsize, ih hrest⟩
    · rw [hat, hm]
      exact hstr
    · unfold InUseFrom
      rw [hat, hp]
      exact hin

theorem ArgsFit.congr (h : ArgsFit s) : ArgsFit s' := by
  have hargv : execArgv s' = execArgv s := by
    unfold execArgv
    rw [hm, hc]
  intro argc hargc
  rw [hargv, hm] at hargc
  obtain ⟨hin, size, htake, hroom⟩ := h argc hargc
  rw [hargv]
  refine ⟨?_, size, htake.congr hm hp hc, hroom⟩
  unfold InUseFrom
  rw [hp]
  exact hin

end Congr

/-- The pointers counted are in memory. -/
theorem countArgs_le : ∀ {n c : Nat},
    countArgs m argv n c = some argc → argv + 8 * argc ≤ 0x200000 := by
  intro n
  induction n with
  | zero => exact fun h => by cases h
  | succ n ih =>
    intro c h
    unfold countArgs at h
    split at h
    · cases h
    · split at h
      · cases h
        omega
      · exact ih h

-- ==== the copy

/-- Memory differs from `s` in the page `pn` at most. -/
def SameBut (pn : Nat) (s t : KState) : Prop := ∀ x, x / 4096 ≠ pn → t.mem x = s.mem x

theorem SameBut.store (h : SameBut pn s t) (ha : pn * 4096 ≤ a)
    (hn : a + n ≤ pn * 4096 + 4096) : SameBut pn s { t with mem := store t.mem a n v } :=
  fun x hx => (store_of_not_mem (by omega)).trans (h x hx)

/-- The page is none of the process's tables. -/
def Apart (s : KState) (pn : Nat) : Prop :=
  ∀ t, SameBut pn s t → ∀ va, virtualMemoryLookup t.mem s.cur.pagetable va
    = virtualMemoryLookup s.mem s.cur.pagetable va

/-- A free page is none of the tables. -/
theorem KInv.apart (h : KInv E G O role used s) (hlive : s.Live s.current)
    (hr : role pn = none) : Apart s pn := by
  intro t ht va
  obtain ⟨root, hroot, hsp, -⟩ := (h.live _ hlive).space
  have hcur : s.cur.pagetable = root * 4096 := hroot
  have hrole : ∀ x, t.mem x ≠ s.mem x → role (x / 4096) = none := by
    intro x hx
    by_contra hne
    refine hx (ht x fun hpn => hne ?_)
    rw [hpn, hr]
  have htab : Tables t.mem role := by
    refine h.mach.tables.congr fun q p hq _ x h1 h2 => ?_
    by_contra hne
    have hx : x / 4096 = q := by omega
    have hnone := hrole x hne
    rw [hx, hq] at hnone
    cases hnone
  rw [hcur, htab.virtualMemoryLookup_eq hsp.isRoot,
    h.mach.tables.virtualMemoryLookup_eq hsp.isRoot,
    (h.mach.tables.leafEntry_write hsp.isRoot hrole va).1]

/-- A page that the kernel may write to. -/
structure PlainPage (E : KEnv) (pn : Nat) : Prop where
  pos : pn ≠ 0
  lt : pn < 512
  plain : ¬ E.KernelPage pn

theorem PlainPage.guardWrite (h : PlainPage E pn) (h1 : pn * 4096 ≤ a) (hn : 0 < n)
    (h2 : a + n ≤ pn * 4096 + 4096) : guardWrite E a n t = (.ok (), t) := by
  have hpos := h.pos
  have hlt := h.lt
  have hpage : a / 4096 = pn := by omega
  exact guardWrite_eq (by omega) (by omega) (by omega) (hpage.symm ▸ h.plain)

theorem guardRead_eq (h : a + n ≤ 0x200000) : guardRead a n t = (.ok (), t) :=
  failIf_of_not fun hx => absurd hx.2 (Nat.not_lt.mpr h)

theorem strAt_of_stringAt : ∀ {n a : Nat}, StringAt m a str →
    str.length < n → strAt m n a = some str := by
  induction str with
  | nil =>
    intro n a h hn
    obtain ⟨n, rfl⟩ := Nat.exists_eq_succ_of_ne_zero (Nat.ne_of_gt hn)
    exact if_pos h
  | cons c str ih =>
    rintro n a ⟨hc, ha, hrest⟩ hn
    obtain ⟨n, rfl⟩ := Nat.exists_eq_succ_of_ne_zero (Nat.ne_of_gt (Nat.zero_lt_of_lt hn))
    unfold strAt
    rw [if_neg (ha ▸ hc), ih hrest (Nat.lt_of_succ_lt_succ hn), ha]
    rfl

theorem stringAt_of_strAt : ∀ {n a : Nat},
    strAt m n a = some str → StringAt m a str ∧ str.length < n := by
  intro n
  induction n generalizing str with
  | zero => exact fun h => by cases h
  | succ n ih =>
    intro a h
    unfold strAt at h
    by_cases h0 : m a = 0
    · rw [if_pos h0] at h
      cases h
      exact ⟨h0, Nat.succ_pos n⟩
    · rw [if_neg h0] at h
      obtain ⟨rest, hrest, rfl⟩ := Option.map_eq_some_iff.mp h
      obtain ⟨hat, hlen⟩ := ih hrest
      exact ⟨⟨h0, rfl, hat⟩, Nat.succ_lt_succ hlen⟩

/-- A string is copied to the page, to bytes that are not its own. -/
theorem strcpyLoop_eq (hp : PlainPage E pn) : ∀ {k dst src : Nat} {t : KState},
    StringAt t.mem src str → str.length < k → src + str.length < 0x200000 →
    pn * 4096 ≤ dst → dst + str.length < pn * 4096 + 4096 →
    (src + str.length < dst ∨ dst + str.length < src) →
    ∃ m, strcpyLoop E k dst src t = (.ok (), { t with mem := m })
      ∧ StringAt m dst str ∧ ∀ x, (x < dst ∨ dst + str.length < x) → m x = t.mem x := by
  -- one byte, whichever it is
  have hstep : ∀ {k dst src : Nat} {t : KState}, src < 0x200000 → pn * 4096 ≤ dst →
      dst < pn * 4096 + 4096 → strcpyLoop E (k + 1) dst src t
        = (if t.mem src = 0 then pure () else strcpyLoop E k (dst + 1) (src + 1))
          { t with mem := store t.mem dst 1 (t.mem src).toNat } := by
    intro k dst src t h1 h2 h3
    rw [strcpyLoop, bind_of_ok (guardRead_eq h1),
      bind_of_ok (hp.guardWrite h2 Nat.one_pos h3), get_bind,
      bind_of_ok (modify_apply _ t)]
  induction str with
  | nil =>
    intro k dst src t h hk hsrc h1 h2 hapart
    obtain ⟨k, rfl⟩ := Nat.exists_eq_succ_of_ne_zero (Nat.ne_of_gt hk)
    have h0 : t.mem src = 0 := h
    refine ⟨store t.mem dst 1 (t.mem src).toNat, ?_, ?_, fun x hx => ?_⟩
    · refine (hstep (by omega) h1 h2).trans ?_
      rw [if_pos h0]
      rfl
    · exact (store_byte t.mem dst (t.mem src)).trans h0
    · exact store_of_not_mem (by rw [List.length_nil] at hx; omega)
  | cons c str ih =>
    rintro k dst src t ⟨hc, hfirst, hrest⟩ hk hsrc h1 h2 hapart
    rw [List.length_cons] at hk hsrc h2 hapart
    obtain ⟨k, rfl⟩ := Nat.exists_eq_succ_of_ne_zero (Nat.ne_of_gt (Nat.zero_lt_of_lt hk))
    have hkeep : ∀ x ≠ dst, store t.mem dst 1 (t.mem src).toNat x = t.mem x :=
      fun x hx => store_of_not_mem (by omega)
    obtain ⟨m, hrun, hat, hframe⟩ := ih (k := k)
      (t := { t with mem := store t.mem dst 1 (t.mem src).toNat })
      (hrest.congr fun x h3 h4 => hkeep x (by omega)) (by omega) (by omega)
      (show pn * 4096 ≤ dst + 1 by omega) (by omega) (by omega)
    refine ⟨m, ?_, ⟨hc, ?_, hat⟩, fun x hx => ?_⟩
    · refine (hstep (by omega) h1 (by omega)).trans ?_
      rw [if_neg (hfirst ▸ hc)]
      exact hrun
    · rw [hframe dst (by omega), ← hfirst]
      exact store_byte t.mem dst (t.mem src)
    · rw [List.length_cons] at hx
      rw [hframe x (by omega)]
      exact hkeep x (by omega)

/-- The arguments from the `i`-th on are in memory, in pages in use. -/
def ArgsAt (s : KState) (argv : Nat) : Nat → List Fs.Path → Prop
  | _, [] => True
  | i, str :: rest => StringAt s.mem (argAt s argv i) str
      ∧ argAt s argv i + str.length < 0x200000
      ∧ InUseFrom s (argAt s argv i) (str.length + 1) ∧ ArgsAt s argv (i + 1) rest

/-- The bytes of the strings, with the zero behind each. -/
def argsSize (args : List Fs.Path) : Nat := (args.map fun str => str.length + 1).sum

theorem argsSize_cons (str : Fs.Path) (args : List Fs.Path) :
    argsSize (str :: args) = str.length + 1 + argsSize args := rfl

/-- The strings that `ArgsTake` is about. -/
theorem ArgsTake.strings : ∀ {n i size : Nat}, ArgsTake s argv n i size →
    ∃ args, args.length = n ∧ argsSize args = size ∧ ArgsAt s argv i args := by
  intro n
  induction n with
  | zero => exact fun h => ⟨[], rfl, h.symm, trivial⟩
  | succ n ih =>
    rintro i size ⟨str, rest, hstr, hin, rfl, hrest⟩
    obtain ⟨args, rfl, rfl, hargs⟩ := ih hrest
    obtain ⟨hat, hlen⟩ := stringAt_of_strAt hstr
    exact ⟨str :: args, rfl, rfl, hat, by omega, hin, hargs⟩

/-- The arguments from the `i`-th on, in the page at `page`: the pointers
as the new program will see them, the strings from `offset` on. -/
def Laid (m : ByteMap) (page : Nat) : Nat → Nat → List Fs.Path → Prop
  | _, _, [] => True
  | i, offset, str :: rest => load m (page + 8 * i) 8 = 0x140000 + offset
      ∧ StringAt m (page + offset) str ∧ Laid m page (i + 1) (offset + str.length + 1) rest

theorem Laid.congr : ∀ {i offset : Nat}, Laid m page i offset args →
    (∀ x, page + 8 * i ≤ x → x < page + 8 * (i + args.length) → m' x = m x) →
    (∀ x, page + offset ≤ x → x < page + offset + argsSize args → m' x = m x) →
    Laid m' page i offset args := by
  induction args with
  | nil => exact fun h _ _ => h
  | cons str rest ih =>
    rintro i offset ⟨hptr, hstr, hrest⟩ hp hs
    rw [List.length_cons] at hp
    rw [argsSize_cons] at hs
    refine ⟨?_, hstr.congr fun x h1 h2 => hs x (by omega) (by omega), ih hrest ?_ ?_⟩
    · rw [load_congr fun x h1 h2 => hp x (by omega) (by omega)]
      exact hptr
    · exact fun x h1 h2 => hp x (by omega) (by omega)
    · exact fun x h1 h2 => hs x (by omega) (by omega)

/-- The copy of arguments that fit, one step per argument: the pointer, the
string, then the rest behind it. -/
theorem copyArgs_eq (hp : PlainPage E pn)
    (hfree : (s.pageinfo pn).owner = PO_FREE) (hapart : Apart s pn) :
    ∀ {i offset : Nat} {t : KState}, SameBut pn s t → ArgsAt s argv i args →
    InUseFrom s (argv + 8 * i) (8 * args.length) → argv + 8 * (i + args.length) ≤ 0x200000 →
    8 * (i + args.length) ≤ offset → offset + argsSize args ≤ 4096 →
    ∃ m, copyArgs E s.cur.pagetable argv (pn * 4096) args.length i offset t
        = (.ok (), { t with mem := m })
      ∧ Laid m (pn * 4096) i offset args
      ∧ ∀ x, (x < pn * 4096 + 8 * i
          ∨ (pn * 4096 + 8 * (i + args.length) ≤ x ∧ x < pn * 4096 + offset)
          ∨ pn * 4096 + offset + argsSize args ≤ x) → m x = t.mem x := by
  have huse : ∀ {a n : Nat}, InUseFrom s a n → ∀ x, a ≤ x → x < a + n → x / 4096 ≠ pn := by
    rintro a n hin x h1 h2 rfl
    exact hin x h1 h2 hfree
  induction args with
  | nil =>
    intro i offset t _ _ _ _ _ _
    exact ⟨t.mem, rfl, trivial, fun x _ => rfl⟩
  | cons str rest ih =>
    rintro i offset t ht ⟨hstr, hend, hin, hargs⟩ hargv hmem hptr hroom
    rw [List.length_cons] at hargv hmem hptr ⊢
    rw [argsSize_cons] at hroom ⊢
    -- the pointer
    obtain ⟨t1, ht1⟩ : ∃ t1 : KState, t1 = { t with
      mem := store t.mem (pn * 4096 + 8 * i) 8 (0x140000 + offset) } := ⟨_, rfl⟩
    have hmem1 : t1.mem = store t.mem (pn * 4096 + 8 * i) 8 (0x140000 + offset) := by rw [ht1]
    have hsame1 : SameBut pn s t1 := ht1 ▸ ht.store (by omega) (by omega)
    have hload : load t1.mem (argv + 8 * i) 8 = load s.mem (argv + 8 * i) 8 :=
      load_congr fun x h1 h2 => hsame1 x (huse hargv x h1 (by omega))
    have hsrc : (virtualMemoryLookup t1.mem s.cur.pagetable (load t1.mem (argv + 8 * i) 8)).pa
        = argAt s argv i := by
      rw [hload, hapart t1 hsame1]
      rfl
    -- the string
    have hkeep : ∀ u : KState, SameBut pn s u → StringAt u.mem (argAt s argv i) str :=
      fun u hu => hstr.congr fun x h1 h2 => hu x (huse hin x h1 (by omega))
    have hout : argAt s argv i + str.length < pn * 4096 + offset
        ∨ pn * 4096 + offset + str.length < argAt s argv i := by
      by_contra hboth
      rcases Nat.le_total (argAt s argv i) (pn * 4096 + offset) with hle | hle
      · exact huse hin (pn * 4096 + offset) hle (by omega) (by omega)
      · exact huse hin (argAt s argv i) (Nat.le_refl _) (by omega) (by omega)
    obtain ⟨m2, hcpy, hat, hframe2⟩ := strcpyLoop_eq hp (k := 0x200001) (hkeep t1 hsame1)
      (by omega) hend (by omega) (by omega) hout
    have hsame2 : SameBut pn s { t1 with mem := m2 } := fun x hx =>
      (hframe2 x (by omega)).trans (hsame1 x hx)
    have hread : readStr (argAt s argv i) { t1 with mem := m2 }
        = (.ok str, { t1 with mem := m2 }) :=
      readStr_eq (strAt_of_stringAt (hkeep _ hsame2) (by omega))
    -- the rest
    obtain ⟨m, hrun, hlaid, hframe⟩ := ih hsame2 hargs
      (fun x h1 h2 => hargv x (by omega) (by omega)) (by omega)
      (show 8 * (i + 1 + rest.length) ≤ offset + str.length + 1 by omega) (by omega)
    refine ⟨m, ?_, ⟨?_, ?_, hlaid⟩, fun x hx => ?_⟩
    · rw [copyArgs, bind_of_ok (hp.guardWrite (by omega) (by decide) (by omega)),
        bind_of_ok (modify_apply _ t), ← ht1, get_bind,
        bind_of_ok (guardRead_eq (by omega))]
      rw [hsrc, bind_of_ok hcpy, bind_of_ok hread, hrun, ht1]
    · have hfirst : load m (pn * 4096 + 8 * i) 8 = load t1.mem (pn * 4096 + 8 * i) 8 :=
        load_congr fun x h1 h2 => (hframe x (by omega)).trans (hframe2 x (by omega))
      rw [hfirst, hmem1, load_store_of_lt (by omega)]
    · exact hat.congr fun x h1 h2 => hframe x (by omega)
    · rw [hframe x (by omega)]
      refine (hframe2 x (by omega)).trans ?_
      rw [hmem1]
      exact store_of_not_mem (by omega)

-- ==== the page

/-- The first half of `sys_execv`: the page with the arguments. -/
def argsPage (E : KEnv) (argv argc : Nat) : KM Nat := do
  let s ← Prog.get
  let pargs ← pageAlloc s.cur.pid
  Prog.assert (pargs ≠ 0)
  copyArgs E s.cur.pagetable argv pargs argc 0 ((argc + 1) * 8)
  guardWrite E (pargs + 8 * argc) 8
  Prog.modify fun s => { s with mem := store s.mem (pargs + 8 * argc) 8 0 }
  pure pargs

/-- The second half: the new program in place of the old one. -/
def newProgram (E : KEnv) (p : Proc) (programNumber argc pargs : Nat) : KM Unit := do
  releasePages p.pid fun pn => pn * 4096 == pargs
  processSetup E p.pid programNumber p.parent
  let t ← Prog.get
  let r ← virtualMemoryMap t.cur.pagetable 0x140000 pargs 4096 7 none
  Prog.assert (r = 0)
  Prog.modify fun s => s.updProc s.current fun p =>
    { p with registers := { p.registers with rdi := argc, rsi := 0x140000 } }

theorem execArgs_eq (n argv argc : Nat) (s : KState) :
    execArgs E n argv argc s = (argsPage E argv argc >>= newProgram E s.cur n argc) s := by
  unfold execArgs argsPage newProgram
  simp only [Prog.bind_assoc, Prog.pure_bind]
  rw [get_bind, get_bind]

/-- The page is there, with the arguments in it, and nothing else has been
written. -/
structure ArgsBuilt (E : KEnv) (G O : Prop) (role : Roles) (used : List Blk) (s : KState)
    (argv : Nat) (args : List Fs.Path) (pn : Nat) (t : KState) : Prop where
  call : argsPage E argv args.length s = (.ok (pn * 4096), t)
  page : PlainPage E pn
  same : SameBut pn s t
  laid : Laid t.mem (pn * 4096) 0 ((args.length + 1) * 8) args
  null : load t.mem (pn * 4096 + 8 * args.length) 8 = 0
  inv : KInv E G O role used t
  own : OwnPage role t t.current pn
  free : (s.pageinfo pn).owner = PO_FREE
  others : ∀ q, q ≠ pn → t.pageinfo q = s.pageinfo q
  processes : t.processes = s.processes
  current : t.current = s.current

theorem Received.plainPage (h : Received E G O role used s pn s')
    (hm : MInv E role used s) : PlainPage E pn := by
  refine ⟨h.pos, h.lt, fun hk => ?_⟩
  have hfree := h.free
  have hboot := bootOwner_kernel hk
  rw [hm.boot pn h.lt (by rw [hboot]; decide), hboot] at hfree
  cases hfree

/-- Only the page received changes hands. -/
theorem Received.others (h : Received E G O role used s pn s') (h1 : s.current ≠ 0)
    (q : Nat) (hq : q ≠ pn) : s'.pageinfo q = s.pageinfo q := by
  have hpn := h.built.pages pn
  by_cases hin : pn ∈ (freeQueue s).take 1
  · rw [h.built.pages q]
    refine if_neg fun hin' => hq ?_
    cases hf : freeQueue s with
    | nil =>
      rw [hf] at hin
      cases hin
    | cons a rest =>
      rw [hf] at hin hin'
      exact (List.mem_singleton.mp hin').trans (List.mem_singleton.mp hin).symm
  · rw [if_neg hin] at hpn
    have howner := h.own.1
    rw [hpn, h.free] at howner
    exact absurd howner.symm h1

theorem KInv.argsPage (h : KInv E G O role used s) (hlive : s.Live s.current)
    (hargs : ArgsAt s argv 0 args) (hargv : InUseFrom s argv (8 * args.length))
    (hmem : argv + 8 * args.length ≤ 0x200000)
    (hfit : (args.length + 1) * 8 + argsSize args ≤ 4096) :
    (freePages s = 0 ∧ ∀ p t, Kernel.argsPage E argv args.length s ≠ (.ok p, t))
      ∨ ∃ pn t, ArgsBuilt E G O role used s argv args pn t := by
  unfold Kernel.argsPage
  rcases h.received hlive with ⟨hnil, heq⟩ | ⟨pn, s1, ht⟩
  · refine .inl ⟨?_, fun p t hrun => ?_⟩
    · rw [← length_freeQueue, hnil]
      rfl
    · rw [get_bind, bind_of_ok heq,
        bind_of_error (assert_of_not fun hx => hx rfl)] at hrun
      cases hrun
  have hp := ht.plainPage h.mach
  have hpos := ht.pos
  have hsame1 : SameBut pn s s1 := fun x hx => by
    rw [ht.clear]
    exact fill_of_not_mem (by omega)
  obtain ⟨m, hcopy, hlaid, hframe⟩ := copyArgs_eq hp ht.free (h.apart hlive ht.own.2) hsame1 hargs
    (by rwa [Nat.mul_zero, Nat.add_zero]) (by omega)
    (by omega) hfit
  have hsame : SameBut pn s { s1 with mem := store m (pn * 4096 + 8 * args.length) 8 0 } := by
    intro x hx
    refine (store_of_not_mem (by omega)).trans ((hframe x ?_).trans (hsame1 x hx))
    omega
  refine .inr ⟨pn, { s1 with mem := store m (pn * 4096 + 8 * args.length) 8 0 }, ?_, hp, hsame,
    ?_, load_store_of_lt (by decide), ?_, ?_, ht.free, ?_, ht.built.processes, ht.built.current⟩
  · unfold Kernel.argsPage
    rw [get_bind, bind_of_ok ht.call, assert_bind (by omega), bind_of_ok hcopy,
      bind_of_ok (hp.guardWrite (by omega) (by decide) (by omega))]
    rfl
  · refine hlaid.congr (fun x h1 h2 => ?_) fun x h1 h2 => ?_
    · exact store_of_not_mem (by omega)
    · exact store_of_not_mem (by omega)
  · refine ht.inv.write_user hlive.1 fun x hx => .inr ?_
    have hpage : x / 4096 = pn := by
      by_contra hne
      exact hx ((hsame x hne).trans (hsame1 x hne).symm)
    rw [hpage]
    exact ht.own
  · exact ht.built.current.symm ▸ ht.own
  · exact ht.others fun hx => absurd (hx ▸ hlive.1) (by decide)

-- ==== the new program

/-- The process has given back its pages but one. -/
structure Emptied (E : KEnv) (G O : Prop) (role : Roles) (used : List Blk) (pn : Nat)
    (s : KState) : Prop where
  mach : MInv E role used s
  /-- As if the process had ended. -/
  dead : KInv E G O role used (s.updProc s.current fun p => { p with state := .broken })
  own : OwnPage role s s.current pn
  pid : (s.processes s.current).pid = s.current

theorem KInv.emptied {keep : Nat → Bool} (h : KInv E G O role used s)
    (hown : OwnPage role s s.current pn) (hkeep : keep pn = true)
    (hrun : releasePages s.current keep s = (.ok (), s')) :
    Emptied E G O (role.drop s.current) used pn s' ∧ s'.processes = s.processes
      ∧ s'.current = s.current := by
  have h1 := h.numbered.current.1
  have hs := releasePages_ok hrun
  have hpages : ∀ q, s'.pageinfo q = s.pageinfo q
      ∨ ((s.pageinfo q).owner = s.current ∧ s'.pageinfo q = ⟨0, 0⟩) := by
    intro q
    rw [hs]
    dsimp only
    by_cases hq : q < 512 ∧ (s.pageinfo q).owner = s.current ∧ keep q = false
    · rw [if_pos hq]
      exact .inr ⟨hq.2.1, rfl⟩
    · rw [if_neg hq]
      exact .inl rfl
  have hpn : s'.pageinfo pn = s.pageinfo pn := by
    rw [hs]
    refine if_neg fun hq => ?_
    rw [hkeep] at hq
    exact absurd hq.2.2 (by decide)
  have hproc : s'.processes = s.processes := by rw [hs]
  have hcur : s'.current = s.current := by rw [hs]
  have hr : Released s.current s s' := by
    refine ⟨?_, ?_, ?_, ?_, hpages⟩ <;> rw [hs]
  refine ⟨⟨h.mach.released h1 hr, ?_, ?_, ?_⟩, hproc, hcur⟩
  · rw [hcur]
    refine (h.broken h1).released h1 ⟨hr.mem, hr.heapPages, hr.freeList, hr.pageno, hpages⟩
      (fun hx => ?_) ?_ hcur
    · have hst := hx.2.2
      rw [s.updProc_same] at hst
      rcases hst with hst | hst <;> cases hst
    · unfold KState.updProc
      rw [hproc]
  · rw [hcur]
    exact ⟨(congrArg PageInfo.owner hpn).trans hown.1, Roles.drop_none hown.2⟩
  · rw [hproc, hcur]
    exact h.numbered.cur

/-- `process_setup` of the running process. -/
theorem Emptied.setup (h : Emptied E G O role used pn s)
    (hrun : processSetup E s.current n parent s = (.ok (), s')) :
    ∃ role', KInv E G O role' used s' ∧ OwnPage role' s' s.current pn
      ∧ s'.current = s.current ∧ s'.Live s.current := by
  have hcur := h.dead.numbered.current
  have hrange : 1 ≤ s.current ∧ s.current < 16 := hcur
  obtain ⟨role', root, k, hset, -, hproc⟩ := h.mach.processSetup_ok hrange.1 h.pid hrun
  have hown : s'.processes s.current = setupProc E n parent root s (s.processes s.current) := by
    rw [hproc, if_pos rfl]
  have hw : Work s.current k role
      (s.updProc s.current fun p => { p with state := .broken }) role' s' :=
    ⟨hset.work.heapPages, hset.work.freeList, hset.work.enough, hset.work.queue, hset.work.pages,
      hset.work.role, hset.work.mem⟩
  have hlive : s'.Live s.current := by
    refine ⟨hrange.1, hrange.2, .inl ?_⟩
    rw [hown]
    rfl
  refine ⟨role', ?_, h.own.work hset.work (by omega), hset.current, hlive⟩
  refine h.dead.work hw hset.inv hrange (hset.current.symm ▸ hrange) (fun i hi => ?_) ?_ ?_
    (fun _ => ⟨⟨root, ?_, hset.fitted.space, fun _ => hset.fitted⟩, fun hw => ?_⟩) ?_ (.inl ?_)
  · have hsame : s'.processes i
        = (s.updProc s.current fun p => { p with state := .broken }).processes i := by
      rw [hproc, if_neg hi, s.updProc_other _ hi]
    rw [hsame]
    exact ⟨SameRole.refl _, rfl⟩
  · rw [hown]
    exact h.pid
  · rw [hown]
    exact fun hx => by cases hx
  · rw [hown]
    rfl
  · rw [hown] at hw
    exact absurd (show (1 : Int) ≤ -1 from hw) (by decide)
  · rw [hown]
    exact hset.inv.root_ne hrange.1 hset.fitted.space.isRoot
  · rw [hown]
    rfl

/-- `sys_execv` of a program whose arguments fit. -/
theorem KInv.exec (h : KInv E G O role used s)
    (hlive : s.Live s.current) (hargv : InUseFrom s argv (8 * argc))
    (hmem : argv + 8 * argc ≤ 0x200000) (htake : ArgsTake s argv argc 0 size)
    (hroom : (argc + 1) * 8 + size ≤ 4096)
    (hrun : execArgs E n argv argc s = (.ok (), s')) : ∃ role', KInv E G O role' used s' := by
  have hpid := h.numbered.cur
  obtain ⟨args, rfl, rfl, hargs⟩ := htake.strings
  rw [execArgs_eq] at hrun
  rcases h.argsPage hlive hargs hargv hmem hroom with ⟨-, hno⟩ | ⟨pn, t, hb⟩
  · obtain ⟨p, t, hpage, -⟩ := bind_ok.mp hrun
    exact absurd hpage (hno p t)
  rw [bind_of_ok hb.call] at hrun
  -- the old pages go, the new program comes
  obtain ⟨_, s1, h1, h2⟩ := bind_ok.mp hrun
  rw [hpid, ← hb.current] at h1
  obtain ⟨hempty, -, hcur1⟩ := hb.inv.emptied hb.own (by simp) h1
  obtain ⟨_, s2, h3, h4⟩ := bind_ok.mp h2
  rw [hpid, ← hb.current, ← hcur1] at h3
  obtain ⟨role', hk, hown, hcur2, hlive2⟩ := hempty.setup h3
  rw [← hcur2] at hown hlive2
  rw [get_bind] at h4
  obtain ⟨r, s3, h5, h6⟩ := bind_ok.mp h4
  obtain ⟨root, hroot, -, -⟩ := (hk.live _ hlive2).space
  have hplace := hk.placed_of_run hlive2 hroot hb.page.lt (by decide) h5
  have hk3 := hplace.inv hk hlive2 hroot hown hb.page.lt fun _ hv => by
    have := E.kernelPage_lt hv
    exact absurd this (by decide)
  obtain ⟨-, h7⟩ := assert_bind_ok h6
  cases h7
  exact ⟨role', hk3.own (fun _ => ⟨rfl, rfl, rfl, rfl, rfl, rfl⟩) fun hfd => hfd⟩

end RojocOS.Kernel
