/-
Runs of the page allocator.

Pages change hands in three places: `page_alloc` gives one to an owner,
`process_kill` takes those of a process back, and so does `sys_execv`,
but for the page of the arguments. A run interleaves the three in any
order with whatever else the kernel does, as long as that leaves
`pageinfo` and the cursor alone, from `pageinfo_init` with the cursor
anywhere.

`PageOk` is the invariant: a page has count 0 if it is free and 1
otherwise, and page 0 is reserved, which is why address 0 can stand for
failure. Its step lemma is one lemma for each place; `page_accounting` is
what follows for every state of every run.

# The owner field

`pageinfo[pn].owner` is an `int8_t` and `page_alloc` takes an `int`. The
owners the kernel passes, the numbers of processes and the `PO_`
constants, all fit. One that does not is cut: for a multiple of 256 the
page gets a count and stays free (`page_alloc_cut`).
-/
import RojocOS.Kernel.Proofs.Boot

namespace RojocOS.Kernel

open ByteMap

-- ==== the owner

/-- Conversion to `int8_t`. -/
def i8 (x : Int) : Int := (x + 128) % 256 - 128

/-- `page_alloc(owner)` for any `int`. The owner is only stored, so it is
cut to the field first. -/
def pageAllocInt (owner : Int) : KM Nat := pageAlloc (i8 owner)

/-- An owner the field can hold, other than `PO_FREE`. -/
def Storable (owner : Int) : Prop := i8 owner = owner ∧ owner ≠ PO_FREE

instance (owner : Int) : Decidable (Storable owner) :=
  inferInstanceAs (Decidable (_ ∧ _))

-- ==== steps

/-- One step of the pages. -/
inductive PageStep (E : KEnv) : KState → KState → Prop
  /-- `page_alloc(owner)` returns `p`. -/
  | alloc {s s' owner p} (ho : Storable owner)
      (hrun : pageAllocInt owner s = (.ok p, s')) : PageStep E s s'
  /-- `process_kill(pid)`. -/
  | kill {s s' pid} (h1 : 1 ≤ pid) (h16 : pid < 16)
      (hrun : processKill E pid s = (.ok (), s')) : PageStep E s s'
  /-- `sys_execv` releases the pages of the process, less its arguments. -/
  | reclaim {s s' pid} (pargs : Nat) (h1 : 1 ≤ pid) (h16 : pid < 16)
      (hrun : releasePages pid (fun pn => pn * 4096 == pargs) s = (.ok (), s')) :
      PageStep E s s'
  /-- Anything that does not touch `pageinfo` or the cursor. -/
  | other {s s'} (hp : s'.pageinfo = s.pageinfo) (hc : s'.pageno = s.pageno) :
      PageStep E s s'

/-- The states a run reaches from `pageinfo_init`. -/
def PageRun (E : KEnv) (s : KState) : Prop :=
  ∃ s₀, s₀.pageno < 512
    ∧ Relation.ReflTransGen (PageStep E) (pageinfoInit E s₀).2 s

/-- What holds along a run. -/
structure PageOk (s : KState) : Prop where
  count : ∀ pn, pn < 512 → (s.pageinfo pn).refcount
    = if (s.pageinfo pn).owner = PO_FREE then 0 else 1
  zero : (s.pageinfo 0).owner = PO_RESERVED
  cursor : s.pageno < 512

section Steps

variable {E : KEnv} {s s' : KState} {pid owner : Int} {keep : Nat → Bool}

theorem PageOk.init {s0 : KState} (hc : s0.pageno < 512) :
    PageOk (pageinfoInit E s0).2 := by
  refine ⟨fun pn hpn => ?_, ?_, hc⟩
  · rw [pageinfoInit_info s0 hpn]
    by_cases hfree : bootOwner E pn = 0
    · simp [hfree, PO_FREE]
    · simp [hfree, PO_FREE]
  · rw [pageinfoInit_info s0 (by decide)]
    rfl

/-- The invariant is about `pageinfo` and the cursor. -/
theorem PageOk.of_same (h : PageOk s) (hp : s'.pageinfo = s.pageinfo)
    (hc : s'.pageno = s.pageno) : PageOk s' :=
  ⟨fun pn hpn => by rw [hp]; exact h.count pn hpn, by rw [hp]; exact h.zero,
    by rw [hc]; exact h.cursor⟩

/-- Releasing pages of a process keeps the invariant: page 0 is not one
of them. -/
theorem PageOk.released (h : PageOk s) (h1 : 1 ≤ pid)
    (hp : ∀ pn, s'.pageinfo pn = ⟨PO_FREE, 0⟩ ∧ (s.pageinfo pn).owner = pid
      ∨ s'.pageinfo pn = s.pageinfo pn)
    (hc : s'.pageno = s.pageno) : PageOk s' := by
  refine ⟨fun pn hpn => ?_, ?_, hc ▸ h.cursor⟩
  · rcases hp pn with ⟨hnew, -⟩ | hsame
    · rw [hnew, if_pos rfl]
    · rw [hsame]
      exact h.count pn hpn
  · rcases hp 0 with ⟨-, hown⟩ | hsame
    · rw [h.zero] at hown
      rw [← hown] at h1
      exact absurd h1 (by decide)
    · rw [hsame]
      exact h.zero

theorem PageOk.releasePages (h : PageOk s) (h1 : 1 ≤ pid)
    (hrun : releasePages pid keep s = (.ok (), s')) : PageOk s' := by
  rw [releasePages_ok hrun]
  refine h.released h1 (fun pn => ?_) rfl
  by_cases hx : pn < 512 ∧ (s.pageinfo pn).owner = pid ∧ keep pn = false
  · exact .inl ⟨if_pos hx, hx.2.1⟩
  · exact .inr (if_neg hx)

theorem PageOk.processKill (h : PageOk s) (h1 : 1 ≤ pid)
    (hrun : processKill E pid s = (.ok (), s')) : PageOk s' := by
  have hkill : PageOk (killed pid s) := by
    refine h.released h1 (fun pn => ?_) rfl
    by_cases hx : pn < 512 ∧ (s.pageinfo pn).owner = pid
    · exact .inl ⟨if_pos hx, hx.2⟩
    · exact .inr (if_neg hx)
  rcases processKill_ok hrun with ⟨-, -, rfl⟩ | ⟨-, rfl⟩
  · exact hkill.of_same rfl rfl
  · exact hkill

/-- What `page_alloc` returns in a state of a run: `0` if nothing is free,
else a page that was. -/
structure PageGiven (owner : Int) (s : KState) (p : Nat) (s' : KState) : Prop where
  aligned : p % 4096 = 0
  low : p / 4096 < 512
  free : (s.pageinfo (p / 4096)).owner = PO_FREE
  info : s'.pageinfo (p / 4096) = ⟨owner, 1⟩
  cleared : ∀ x, p ≤ x → x < p + 4096 → s'.mem x = 0
  others : ∀ pn, pn ≠ p / 4096 → s'.pageinfo pn = s.pageinfo pn

theorem PageOk.page_alloc (h : PageOk s) (ho : Storable owner) :
    ((∀ pn < 512, (s.pageinfo pn).owner ≠ PO_FREE)
        ∧ pageAllocInt owner s = (.ok 0, s))
      ∨ ∃ p s', p ≠ 0 ∧ pageAllocInt owner s = (.ok p, s')
          ∧ PageGiven owner s p s' ∧ PageOk s' := by
  unfold pageAllocInt
  rw [ho.1]
  rcases pageAlloc_eq h.cursor ho.2 with ⟨hnil, heq⟩ | ⟨pn, rest, hq, heq, -⟩
  · refine .inl ⟨fun pn hpn hfree => ?_, heq⟩
    have hin := mem_freeQueue.mpr ⟨hpn, hfree⟩
    rw [hnil] at hin
    cases hin
  obtain ⟨hlt, hfree⟩ := mem_freeQueue.mp (hq ▸ List.mem_cons_self : pn ∈ freeQueue s)
  have hpn0 : pn ≠ 0 := by
    rintro rfl
    rw [h.zero] at hfree
    cases hfree
  have hdiv : pn * 4096 / 4096 = pn := Nat.mul_div_cancel _ (by decide)
  have hcount : (s.pageinfo pn).refcount = 0 := (h.count pn hlt).trans (if_pos hfree)
  have hinfo : (takePage owner { s with pageno := pn }).pageinfo pn = ⟨owner, 1⟩ := by
    refine (if_pos rfl).trans ?_
    rw [hcount]
    rfl
  have hothers : ∀ q ≠ pn,
      (takePage owner { s with pageno := pn }).pageinfo q = s.pageinfo q :=
    fun q hne => if_neg hne
  refine .inr ⟨pn * 4096, _, by omega, heq, ⟨Nat.mul_mod_left pn 4096, ?_, ?_, ?_,
    fun x h1 h2 => fill_of_mem ⟨h1, h2⟩, ?_⟩, ⟨fun q hq => ?_, ?_, hlt⟩⟩
  · rw [hdiv]
    exact hlt
  · rw [hdiv]
    exact hfree
  · rw [hdiv]
    exact hinfo
  · rw [hdiv]
    exact hothers
  · by_cases hqp : q = pn
    · rw [hqp, hinfo, if_neg ho.2]
    · rw [hothers q hqp]
      exact h.count q hq
  · rw [hothers 0 (Ne.symm hpn0)]
    exact h.zero

/-- One step keeps the invariant. -/
theorem PageOk.step (h : PageOk s) (hs : PageStep E s s') : PageOk s' := by
  cases hs with
  | alloc ho hrun =>
    rcases h.page_alloc ho with ⟨-, heq⟩ | ⟨p, s1, -, heq, -, hok⟩
    · rw [heq] at hrun
      cases hrun
      exact h
    · rw [heq] at hrun
      cases hrun
      exact hok
  | kill h1 _ hrun => exact h.processKill h1 hrun
  | reclaim pargs h1 _ hrun => exact h.releasePages h1 hrun
  | other hp hc => exact h.of_same hp hc

theorem PageRun.ok (h : PageRun E s) : PageOk s := by
  obtain ⟨s0, hc, hrun⟩ := h
  induction hrun with
  | refl => exact PageOk.init hc
  | tail _ hs ih => exact ih.step hs

/-- In every state of every run a page has no reference exactly if it is
free and never more than one; the release loops of `process_kill` and
`sys_execv` find what they assert; and `page_alloc` returns, with 0
exactly if no page is free, and otherwise with a cleared page that was
free and is its owner's now, all other entries being as before. -/
theorem page_accounting (h : PageRun E s) :
    (∀ pn, pn < 512 →
        ((s.pageinfo pn).refcount = 0 ↔ (s.pageinfo pn).owner = PO_FREE)
          ∧ 0 ≤ (s.pageinfo pn).refcount ∧ (s.pageinfo pn).refcount ≤ 1)
      ∧ (∀ pid keep t, 1 ≤ pid → pid < 16 → t.pageinfo = s.pageinfo →
          ∃ t', releasePages pid keep t = (.ok (), t'))
      ∧ ∀ owner, Storable owner → ∃ p s', pageAllocInt owner s = (.ok p, s')
          ∧ (p = 0 ↔ ∀ pn, pn < 512 → (s.pageinfo pn).owner ≠ PO_FREE)
          ∧ (p = 0 → s' = s) ∧ (p ≠ 0 → PageGiven owner s p s') := by
  have hok := h.ok
  refine ⟨fun pn hpn => ?_, fun pid keep t h1 _ ht => ?_, fun owner ho => ?_⟩
  · rw [hok.count pn hpn]
    by_cases hfree : (s.pageinfo pn).owner = PO_FREE
    · simp [hfree]
    · simp [hfree]
  · refine ⟨_, releasePages_eq fun pn hpn hown _ => ?_⟩
    rw [ht] at hown ⊢
    rw [hok.count pn hpn, if_neg]
    rw [hown]
    exact fun h0 => absurd h1 (by rw [h0]; decide)
  · rcases hok.page_alloc ho with ⟨hnone, heq⟩ | ⟨p, s', hp0, heq, hgiven, -⟩
    · exact ⟨0, s, heq, iff_of_true rfl hnone, fun _ => rfl, fun hx => absurd rfl hx⟩
    · refine ⟨p, s', heq, iff_of_false hp0 fun hnone => ?_, fun hx => absurd hx hp0,
        fun _ => hgiven⟩
      exact hnone _ hgiven.low hgiven.free

end Steps

/-- The small kernel, right after `pageinfo_init`. -/
def marked : KState := (pageinfoInit plainKEnv blank).2

theorem page_accounting_first :
    ∃ p s', pageAllocInt 1 marked = (.ok p, s') ∧ PageGiven 1 marked p s' := by
  have hrun : PageRun plainKEnv marked := ⟨blank, by decide, .refl⟩
  obtain ⟨-, -, halloc⟩ := page_accounting hrun
  obtain ⟨p, s', heq, hzero, -, hgiven⟩ := halloc 1 (by decide)
  refine ⟨p, s', heq, hgiven fun h0 => ?_⟩
  -- page 1 is free
  exact hzero.mp h0 1 (by decide) (by decide +kernel)

/-- An owner that the field cannot hold: page 1 has a reference and is
free, so it will be handed out a second time. -/
theorem page_alloc_cut :
    let r := pageAllocInt 256 marked
    (256 : Int) ≠ PO_FREE ∧ PageRun plainKEnv marked
      ∧ r.1.toOption = some 0x1000
      ∧ r.2.pageinfo 1 = ⟨PO_FREE, 1⟩
      ∧ (pageAllocInt 1 r.2).1.toOption = some 0x1000
      ∧ (pageAllocInt 1 r.2).2.pageinfo 1 = ⟨1, 2⟩ := by
  refine ⟨by decide, ⟨blank, by decide, .refl⟩, ?_⟩
  decide +kernel

end RojocOS.Kernel
