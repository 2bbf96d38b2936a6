/-
Whose page it is.

`page_alloc` asks of a page only whether it is free, and nothing else that
`process_setup` does looks at `pageinfo`. So the run of `process_setup` is
the same whoever owns a page in use (`processSetup_ownerBlind`). A page of the
process that is none of its tables may then count as a stranger's, which
`process_setup` is known to leave alone (`MInv.keeps_page`): this is how the
arguments of `sys_execv` get through.
-/
import RojocOS.Kernel.Proofs.Keeps
import RojocOS.Kernel.Proofs.NewProcess

namespace RojocOS.Kernel

open ByteMap Prog

variable {E : KEnv} {role role' : Roles} {used : List Blk} {s s' t : KState} {pn : Nat}

-- ==== the disguise

/-- The page `pn` is in use in both tables, and its owner is the only
difference between them. -/
structure SameElse (pn : Nat) (p p' : Nat → PageInfo) : Prop where
  other : ∀ q, q ≠ pn → p' q = p q
  inUse : (p pn).owner ≠ PO_FREE
  inUse' : (p' pn).owner ≠ PO_FREE

theorem SameElse.free_iff {p p' : Nat → PageInfo} (h : SameElse pn p p') (q : Nat) :
    (p' q).owner = PO_FREE ↔ (p q).owner = PO_FREE := by
  by_cases hq : q = pn
  · rw [hq]
    exact iff_of_false h.inUse' h.inUse
  · rw [h.other q hq]

/-- The same state, but for the owner of the page `pn`. -/
def Disguised (pn : Nat) (s t : KState) : Prop :=
  ∃ p, t = { s with pageinfo := p } ∧ SameElse pn s.pageinfo p

/-- Changes to anything but `pageinfo`. -/
theorem change_ownerBlind {f : KState → KState} (hf : ∀ s, (f s).pageinfo = s.pageinfo)
    (hrest : ∀ (s : KState) p, f { s with pageinfo := p } = { f s with pageinfo := p }) :
    Blind (Disguised pn) (Prog.modify f) := by
  refine Blind.modify ?_
  rintro s _ ⟨p, rfl, h⟩
  exact ⟨p, hrest s p, (hf s).symm ▸ h⟩

-- ==== page_alloc

/-- A free page is not the one in disguise. -/
theorem Disguised.takePage {o : Int} {p : Nat → PageInfo} (h : SameElse pn s.pageinfo p)
    (hfree : (s.pageinfo s.pageno).owner = PO_FREE) :
    Disguised pn (takePage o s) (takePage o { s with pageinfo := p }) := by
  have hne : pn ≠ s.pageno := fun hx => h.inUse (hx ▸ hfree)
  refine ⟨_, rfl, fun q hq => ?_, ?_, ?_⟩
  · show (if q = s.pageno then ⟨o, (p q).refcount + 1⟩ else p q)
      = if q = s.pageno then ⟨o, (s.pageinfo q).refcount + 1⟩ else s.pageinfo q
    rw [h.other q hq]
  · show (if pn = s.pageno then _ else s.pageinfo pn).owner ≠ PO_FREE
    rw [if_neg hne]
    exact h.inUse
  · show (if pn = s.pageno then _ else p pn).owner ≠ PO_FREE
    rw [if_neg hne]
    exact h.inUse'

theorem pageAlloc_ownerBlind (o : Int) : Blind (Disguised pn) (pageAlloc o) := by
  suffices hloop : ∀ n, Blind (Disguised pn) (pageAllocLoop o n) from hloop 512
  intro n
  induction n with
  | zero => exact Blind.pure 0
  | succ n ih =>
    have hnext : Blind (Disguised pn)
        (Prog.modify fun s : KState => { s with pageno := (s.pageno + 1) % 512 }) :=
      change_ownerBlind (fun _ => rfl) fun _ _ => rfl
    rintro s _ ⟨p, rfl, h⟩
    unfold pageAllocLoop
    rw [get_bind, get_bind]
    by_cases hfree : (s.pageinfo s.pageno).owner = PO_FREE
    · rw [if_pos hfree, if_pos ((h.free_iff _).mpr hfree)]
      exact ⟨rfl, Disguised.takePage h hfree⟩
    · rw [if_neg hfree, if_neg fun hx => hfree ((h.free_iff _).mp hx)]
      exact Blind.bind hnext (fun _ => ih) s _ ⟨p, rfl, h⟩

/-- Nothing else looks. -/
theorem ownerBlind : Supplied fun _ x => Blind (Disguised pn) x where
  pure := Blind.pure
  stop := Blind.stop
  bind := Blind.bind
  read hf hx := by
    rintro s _ ⟨p, rfl, h⟩
    rw [get_bind, get_bind, hf s p]
    exact hx s s _ ⟨p, rfl, h⟩
  store hf := change_ownerBlind (fun _ => rfl) fun s p => by rw [hf]
  alloc := pageAlloc_ownerBlind

/-- `process_setup` does not see whose a page in use is. -/
theorem processSetup_ownerBlind (pid : Int) (n : Nat) (parent : Int) :
    Blind (Disguised pn) (processSetup E pid n parent) := by
  refine ownerBlind.processSetup (fun f hf => ?_) ?_ n
  · exact change_ownerBlind (fun _ => rfl) fun s p => by rw [hf]; rfl
  · exact change_ownerBlind (fun _ => rfl) fun _ _ => rfl

-- ==== the page

/-- The page `pn` counts as reserved. -/
def disguise (pn : Nat) (s : KState) : KState :=
  { s with pageinfo := fun q => if q = pn then ⟨PO_RESERVED, 1⟩ else s.pageinfo q }

section Page

variable {o : Int} {α : Type} {x : KM α} {r : Except Stop α}

theorem disguised (ho : 1 ≤ o) (hown : OwnPage role s o pn) : Disguised pn s
    (disguise pn s) := by
  refine ⟨_, rfl, fun q hq => if_neg hq, ?_, ?_⟩
  · rw [hown.1]
    exact fun hx => absurd (hx ▸ ho) (by decide)
  · rw [if_pos rfl]
    decide

/-- The invariant knows a page of a process only as one that is in use. -/
theorem MInv.disguise (h : MInv E role used s) (ho : 1 ≤ o) (hown : OwnPage role s o pn) :
    MInv E role used (disguise pn s) := by
  obtain ⟨howner, hrole⟩ := hown
  have hsame : ∀ q ≠ pn, (Kernel.disguise pn s).pageinfo q = s.pageinfo q :=
    fun q hq => if_neg hq
  refine ⟨h.tables, h.kernel, h.identity, fun q p hq => ?_, fun q hq hb => ?_, fun q hq => ?_,
    h.heap, fun p hp => ?_, h.cursor⟩
  · rw [hsame q fun hx => by rw [hx, hrole] at hq; cases hq]
    exact h.own q p hq
  · rw [hsame q ?_]
    · exact h.boot q hq hb
    · rintro rfl
      rw [h.boot q hq hb] at howner
      have hcases := bootOwner_cases E q
      dsimp only at howner
      omega
  · by_cases hqp : q = pn
    · subst hqp
      show (if q = q then (⟨PO_RESERVED, 1⟩ : PageInfo) else s.pageinfo q).refcount
        = if (if q = q then (⟨PO_RESERVED, 1⟩ : PageInfo) else s.pageinfo q).owner = 0 then 0 else 1
      rw [if_pos rfl]
      rfl
    · rw [hsame q hqp]
      exact h.count q hq
  · rw [hsame _ ?_]
    · exact h.heapOwn p hp
    · intro hx
      rw [← hx, h.heapOwn p hp] at howner
      dsimp only at howner
      omega

/-- Work for a process, by a program that does not look at owners, leaves
those of its pages alone that are none of its tables. -/
theorem MInv.keeps_page (h : MInv E role used s) (ho : 1 ≤ o)
    (hown : OwnPage role s o pn) (hx : Blind (Disguised pn) x)
    (hwork : ∀ t', MInv E role used (Kernel.disguise pn s) → x (Kernel.disguise pn s) = (r, t') →
      ∃ k role', Work o k role (Kernel.disguise pn s) role' t')
    (hrun : x s = (r, s')) : ∀ a, a / 4096 = pn → s'.mem a = s.mem a := by
  intro a ha
  obtain ⟨t', ht, p, rfl, -⟩ := hx.run (disguised ho hown) hrun
  obtain ⟨k, role', hw⟩ := hwork _ (h.disguise ho hown) ht
  have hinfo : ((Kernel.disguise pn s).pageinfo (a / 4096)).owner = PO_RESERVED := by
    rw [ha]
    exact congrArg PageInfo.owner (if_pos rfl)
  refine hw.mem a (fun hin => ?_) ?_
  · have hfree := (mem_freeQueue.mp hin).2
    rw [hinfo] at hfree
    cases hfree
  · rw [hinfo]
    intro hx
    rw [← hx] at ho
    exact absurd ho (by decide)

end Page

end RojocOS.Kernel
