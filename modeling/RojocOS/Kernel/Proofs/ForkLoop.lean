/-
The copy loop of `sys_fork`.

The loop goes through the pages below 3 MiB: a page of the parent is
copied to a fresh one, any other page the parent maps is shared. It looks
at the result of `page_alloc` for a copy, where failure is an assertion,
and never at the result of the mapping. So with too few pages it panics,
or goes on and leaves pages out.

# How many pages

`forkCost` counts what the call will ask for: a root, a copy for each
page of the parent, three tables for the first page mapped, one more for
the first page of the other 2 MiB region. It is read off the state before
the call.

# The invariant

`Copying` holds whatever the pages: the child's tables are a tree of
fresh pages, and its entries from `v` on are empty. `Whole` says that
nothing was left out so far and how many pages that took. A turn keeps
the first, and the second while pages last (`Copying.step`). An entry
left out stays empty (`Copying.loop_broken`).
-/
import RojocOS.Kernel.Proofs.Supply

namespace RojocOS.Kernel

open ByteMap Prog

variable {P'' : Nat → Prop} {a s'' : KState} {c e e0 j k' n pn root src va w x : Nat}
  {m : ByteMap} {o : Int} {role : Roles}

-- ==== the parent

/-- Page `v` of the running process. -/
def forkView (s : KState) (v : Nat) : VaMapping :=
  virtualMemoryLookup s.mem s.cur.pagetable (v * 4096)

/-- The page is mapped. -/
def MapsPage (s : KState) (v : Nat) : Prop := (forkView s v).pn ≠ -1

/-- The page belongs to the running process. -/
def OwnsPage (s : KState) (v : Nat) : Prop :=
  (s.pageinfo (forkView s v).pn.toNat).owner = s.cur.pid

instance (s : KState) (v : Nat) : Decidable (MapsPage s v) :=
  inferInstanceAs (Decidable (_ ≠ _))

instance (s : KState) (v : Nat) : Decidable (OwnsPage s v) :=
  inferInstanceAs (Decidable (_ = _))

/-- The pages that turn `v` of the copy loop asks for. -/
def turnCost (s : KState) (v : Nat) : Nat :=
  if MapsPage s v then
    (if OwnsPage s v then 1 else 0)
      + (if ∀ w < v, ¬ MapsPage s w then 3
        else if ∀ w < v, w / 512 = v / 512 → ¬ MapsPage s w then 1 else 0)
  else 0

/-- The pages that `n` turns from `v` on ask for. -/
def turnsCost (s : KState) (n v : Nat) : Nat :=
  ((List.range' v n).map (turnCost s)).sum

theorem turnsCost_succ (s : KState) (n v : Nat) :
    turnsCost s (n + 1) v = turnCost s v + turnsCost s n (v + 1) := by
  unfold turnsCost
  rw [List.range'_succ, List.map_cons, List.sum_cons]

/-- The pages that `sys_fork` asks for. -/
def forkCost (s : KState) : Nat := 1 + turnsCost s 768 0

/-- What the kernel keeps true of the process that is running: its page
table is a tree of pages in use and leads, below 3 MiB, to pages in use;
slots have their numbers; page 0 is never free. -/
structure ForkReady (s : KState) : Prop where
  table : ∃ role, Tree (fun _ => True) Owned (s.cur.pagetable / 4096) role s
  aligned : s.cur.pagetable % 4096 = 0
  mapped : ∀ v, v < 768 → (forkView s v).perm % 2 = 1 →
    (forkView s v).pa < 0x200000 ∧ Owned s ((forkView s v).pa / 4096)
  pids : ∀ i : Int, 1 ≤ i → i < 16 → (s.processes i).pid = i
  running : s.cur.state ≠ .free
  cursor : s.pageno < 512
  zero : Owned s 0

/-- The last-level entry of page `v` of the running process. -/
def forkEntry (s : KState) (v : Nat) : Nat :=
  leafEntry s.mem (s.cur.pagetable / 4096) (v * 4096)

section Parent

variable {s₀ : KState} {m : ByteMap} {v : Nat}

/-- While the pages in use keep their bytes, the parent's table says what
it said. -/
theorem ForkReady.lookup_eq (h : ForkReady s₀)
    (hkeep : ∀ x, Owned s₀ (x / 4096) → m x = s₀.mem x) (va : Nat) :
    virtualMemoryLookup m s₀.cur.pagetable va
      = virtualMemoryLookup s₀.mem s₀.cur.pagetable va := by
  obtain ⟨role, ht⟩ := h.table
  have hal := h.aligned
  have hroot : s₀.cur.pagetable / 4096 * 4096 = s₀.cur.pagetable := by omega
  have hstay : ∀ pn, Owned s₀ pn → Owned { s₀ with mem := m } pn := fun _ hp => hp
  obtain ⟨ht', -, hg⟩ := ht.frame trivial hstay hkeep
  have e1 : virtualMemoryLookup _ _ va = _ := ht.trees.virtualMemoryLookup_eq ht.root
  have e2 : virtualMemoryLookup _ _ va = _ := ht'.trees.virtualMemoryLookup_eq ht'.root
  rw [hroot] at e1 e2
  rw [(hg va).entry] at e2
  exact e2.trans e1.symm

/-- The translation of a page, from an entry that leads to physical
memory. -/
theorem Trees.lookup_page (ht : Trees m role) (hr : role root = some ⟨o, 0, 0⟩)
    (hlow : leafEntry m root (v * 4096) % 2 = 1 → leafEntry m root (v * 4096) < 0x200000) :
    virtualMemoryLookup m (root * 4096) (v * 4096)
      = if leafEntry m root (v * 4096) % 2 = 1 then
          { pn := (leafEntry m root (v * 4096) / 4096 : Nat)
            pa := leafEntry m root (v * 4096) / 4096 * 4096
            perm := leafEntry m root (v * 4096) % 4096 }
        else { pn := -1, pa := 2 ^ 64 - 1, perm := 0 } := by
  rw [ht.virtualMemoryLookup_eq hr]
  generalize leafEntry m root (v * 4096) = e at hlow
  by_cases hodd : e % 2 = 1
  · have hlt := hlow hodd
    have hi : i32 (e / 4096) = (e / 4096 : Nat) := by
      unfold i32 u32
      omega
    rw [if_pos hodd, if_pos hodd, hi, Nat.mul_mod_left, Nat.add_zero]
    rfl
  · rw [if_neg hodd, if_neg hodd]

section

variable (h : ForkReady s₀) (hv : v < 768)

include h hv

/-- The parent's page in terms of its entry. -/
theorem ForkReady.view_eq : forkView s₀ v = if forkEntry s₀ v % 2 = 1 then
        { pn := (forkEntry s₀ v / 4096 : Nat), pa := forkEntry s₀ v / 4096 * 4096
          perm := forkEntry s₀ v % 4096 }
      else { pn := -1, pa := 2 ^ 64 - 1, perm := 0 } := by
  obtain ⟨role, ht⟩ := h.table
  have hal := h.aligned
  have hroot : s₀.cur.pagetable / 4096 * 4096 = s₀.cur.pagetable := by omega
  have hlook : virtualMemoryLookup _ _ (v * 4096) = _ :=
    ht.trees.virtualMemoryLookup_eq ht.root
  have hpage := ht.trees.lookup_page ht.root (v := v)
  rw [hroot] at hlook hpage
  refine hpage fun hodd => ?_
  rw [if_pos hodd] at hlook
  have hm := h.mapped v hv
  unfold forkView at hm
  rw [hlook] at hm
  have hlow := (hm (by dsimp only; omega)).1
  unfold pteAddr at hlow
  dsimp only at hlow
  omega

theorem ForkReady.maps_iff : MapsPage s₀ v ↔ forkEntry s₀ v % 2 = 1 := by
  unfold MapsPage
  rw [h.view_eq hv]
  by_cases hodd : forkEntry s₀ v % 2 = 1
  · rw [if_pos hodd]
    exact ⟨fun _ => hodd, fun _ => by dsimp only; omega⟩
  · rw [if_neg hodd]
    exact ⟨fun hx => absurd rfl hx, fun hx => absurd hx hodd⟩

theorem ForkReady.entry (hodd : forkEntry s₀ v % 2 = 1) :
    forkEntry s₀ v < 0x200000 ∧ Owned s₀ (forkEntry s₀ v / 4096) := by
  have hview := h.view_eq hv
  rw [if_pos hodd] at hview
  have hm := h.mapped v hv (by rw [hview]; dsimp only; omega)
  rw [hview] at hm
  dsimp only at hm
  rw [Nat.mul_div_cancel _ (by decide)] at hm
  exact ⟨by omega, hm.2⟩

theorem ForkReady.owns_iff (hodd : forkEntry s₀ v % 2 = 1) :
    OwnsPage s₀ v ↔ (s₀.pageinfo (forkEntry s₀ v / 4096)).owner = s₀.cur.pid := by
  unfold OwnsPage
  rw [h.view_eq hv, if_pos hodd]
  rfl

end

end Parent

-- the proofs below never look into an entry
attribute [irreducible] forkEntry

-- ==== the child

/-- Page `c`, free before, belongs to `o` and holds the bytes that page
`src` had; `P` are the pages that later turns leave alone. -/
structure FreshCopy (P : Nat → Prop) (s₀ s : KState) (o : Int) (src c : Nat) : Prop where
  free : ¬ Owned s₀ c
  own : (s.pageinfo c).owner = o
  bytes : ∀ i, i < 4096 → s.mem (c * 4096 + i) = s₀.mem (src * 4096 + i)
  prot : P c

/-- Entry `e` of the child stands for entry `e₀` of the parent. -/
def CopiedEntry (P : Nat → Prop) (s₀ s : KState) (o : Int) (e₀ e : Nat) : Prop :=
  if e₀ % 2 = 1 then
    if (s₀.pageinfo (e₀ / 4096)).owner = s₀.cur.pid then
      e < 0x200000 ∧ e % 4096 = e₀ % 4096 ∧ FreshCopy P s₀ s o (e₀ / 4096) (e / 4096)
    else e = e₀
  else e = 0

/-- The copy loop at page `v`: the child's tables are a tree of pages that
were free, and nothing is mapped from `v` on. -/
structure Copying (s₀ : KState) (o : Int) (root v : Nat) (P : Nat → Prop)
    (role : Roles) (s : KState) : Prop where
  tree : Tree (Stocked P o) (Loose P) root role s
  kept : ∀ pn, Owned s₀ pn → P pn
  took : ∃ k, Took (Owned s₀) o k { s₀ with current := o } s
  rest : ∀ va, v ≤ vpn va → leafEntry s.mem root va = 0

section Child

variable {s₀ s s' : KState} {o : Int} {root v k : Nat} {P P' : Nat → Prop} {role : Roles}

theorem FreshCopy.took (h : FreshCopy P s₀ s o src c)
    (ht : Took P o k s s') (hown : Owned s c) (hP : ∀ pn, P pn → P' pn) :
    FreshCopy P' s₀ s' o src c := by
  refine ⟨h.free, ?_, fun i hi => ?_, hP c h.prot⟩
  · rw [ht.info hown]
    exact h.own
  · rw [← h.bytes i hi]
    refine ht.mem _ ?_
    rw [show (c * 4096 + i) / 4096 = c by omega]
    exact h.prot

theorem CopiedEntry.took (h : CopiedEntry P s₀ s o e0 e)
    (ht : Took P o k s s') (hst : Stocked P o s) (hP : ∀ pn, P pn → P' pn) :
    CopiedEntry P' s₀ s' o e0 e := by
  unfold CopiedEntry at h ⊢
  by_cases hodd : e0 % 2 = 1
  · rw [if_pos hodd] at h ⊢
    by_cases hown : (s₀.pageinfo (e0 / 4096)).owner = s₀.cur.pid
    · rw [if_pos hown] at h ⊢
      obtain ⟨hlt, hperm, hcopy⟩ := h
      exact ⟨hlt, hperm, hcopy.took ht (hst.prot _ hcopy.prot) hP⟩
    · rw [if_neg hown] at h ⊢
      exact h
  · rw [if_neg hodd] at h ⊢
    exact h

/-- What a turn that maps its page did. -/
structure Turn (s₀ : KState) (o : Int) (root v k : Nat) (P P' : Nat → Prop)
    (s s' : KState) : Prop where
  took : Took P o k s s'
  grows : ∀ pn, P pn → P' pn
  table : ∀ a, region a ≠ region (v * 4096) →
    leafTable s'.mem root a = leafTable s.mem root a
  entry : ∀ a, vpn a ≠ v → leafEntry s'.mem root a = leafEntry s.mem root a

section

variable (h : Copying s₀ o root v P role s)

include h

theorem Copying.processes : s.processes = s₀.processes := by
  obtain ⟨k, ht⟩ := h.took
  exact ht.processes

theorem Copying.keep (hx : Owned s₀ (x / 4096)) : s.mem x = s₀.mem x := by
  obtain ⟨k, ht⟩ := h.took
  exact ht.mem x hx

theorem Copying.info (hp : Owned s₀ pn) : s.pageinfo pn = s₀.pageinfo pn := by
  obtain ⟨k, ht⟩ := h.took
  exact ht.info hp

/-- What the loop sees of the parent's page. -/
theorem Copying.view (hr : ForkReady s₀) :
    virtualMemoryLookup s.mem (s.processes s₀.current).pagetable (v * 4096)
      = forkView s₀ v := by
  rw [h.processes]
  exact hr.lookup_eq (fun x hx => h.keep hx) (v * 4096)

/-- A mapping for the child of page `v`, from a state in which `P` is
protected. -/
theorem Copying.map_one (ho : o ≠ 0) (hv : v < 768)
    (pa perm : Nat) (hpa : pa % 4096 = 0) (hpa' : pa + 4096 ≤ 0x200000)
    (hperm : perm < 4096) (hp : perm % 2 = 1) :
    ∃ r s' k role', virtualMemoryMap (root * 4096) (v * 4096) pa 4096 perm
          (some pagetableAlloc) s = (.ok r, s')
      ∧ Turn s₀ o root v k P P s s' ∧ Copying s₀ o root (v + 1) P role' s'
      ∧ ((freeQueue s' = [] ∧ k < missing s.mem root (v * 4096)
            ∧ leafEntry s'.mem root (v * 4096) = 0)
        ∨ (k = missing s.mem root (v * 4096)
            ∧ leafEntry s'.mem root (v * 4096) = pa + perm)) := by
  have hvpn : vpn (v * 4096) = v := vpn_page (by omega)
  obtain ⟨r, s', k, role', hrun, htook, htree, htab, hent, hcase⟩ :=
    h.tree.map_one ho (v * 4096) pa perm
      ⟨Nat.mul_mod_left _ _, by decide, pageindex_lt _ _, by omega, hpa, hpa', hperm, hp⟩
  rw [hvpn] at hent
  have hempty := h.rest (v * 4096) (Nat.le_of_eq hvpn.symm)
  refine ⟨r, s', k, role', hrun, ⟨htook, fun _ hP => hP, htab, hent⟩,
    ⟨htree, h.kept, ?_, fun va hva => ?_⟩, ?_⟩
  · obtain ⟨k0, ht0⟩ := h.took
    exact ⟨k0 + k, ht0.trans (htook.mono h.kept) ho⟩
  · rw [hent va (by omega)]
    exact h.rest va (by omega)
  · rw [hempty] at hcase
    exact hcase

end

theorem Turn.trans
    (h : Turn s₀ o root v k P P' s s') (h' : Turn s₀ o root v k' P' P'' s' s'')
    (ho : o ≠ 0) : Turn s₀ o root v (k + k') P P'' s s'' where
  took := h.took.trans (h'.took.mono h.grows) ho
  grows := fun pn hP => h'.grows pn (h.grows pn hP)
  table := fun a ha => (h'.table a ha).trans (h.table a ha)
  entry := fun a ha => (h'.entry a ha).trans (h.entry a ha)

/-- A page for the child and the bytes of page `src` in it. -/
theorem Copying.copy_page (h : Copying s₀ o root v P role s) (ho : o ≠ 0)
    (hsrc : Owned s₀ src) :
    (freeQueue s = [] ∧ pageAlloc o s = (.ok 0, s))
      ∨ ∃ c s1, pageAlloc o s = (.ok (c * 4096), s1) ∧ c ≠ 0 ∧ c < 512 ∧ ¬ P c
          ∧ let s2 := { s1 with mem := copy s1.mem (c * 4096) s1.mem (src * 4096) 4096 }
            let P' := fun pn => P pn ∨ pn = c
            Turn s₀ o root v 1 P P' s s2 ∧ Copying s₀ o root v P' role s2
              ∧ FreshCopy P' s₀ s2 o src c
              ∧ missing s2.mem root (v * 4096) = missing s.mem root (v * 4096) := by
  rcases h.tree.ok.page_alloc ho
    with hnil | ⟨c, s1, hc, hc0, hlt, heq, htook, hst, hinfo, hmem⟩
  · exact .inl hnil
  have hcP : ¬ P c := fun hP => not_owned_of_free hc (h.tree.ok.prot c hP)
  have hsc : src ≠ c := fun hx => hcP (hx ▸ h.kept src hsrc)
  refine .inr ⟨c, s1, heq, hc0, hlt, hcP, ?_⟩
  intro s2 P'
  -- only the new page changes
  have hkeep : ∀ x, x / 4096 ≠ c → s2.mem x = s.mem x := by
    intro x hx
    show copy s1.mem (c * 4096) s1.mem (src * 4096) 4096 x = _
    rw [copy_of_not_mem (by omega), hmem, fill_of_not_mem (by omega)]
  have hbytes : ∀ i < 4096, s2.mem (c * 4096 + i) = s₀.mem (src * 4096 + i) := by
    intro i hi
    show copy s1.mem (c * 4096) s1.mem (src * 4096) 4096 _ = _
    rw [copy_of_mem (by omega), hmem, fill_of_not_mem (by omega), Nat.add_sub_cancel_left]
    refine h.keep ?_
    rwa [show (src * 4096 + i) / 4096 = src by omega]
  have htook2 : Took P o 1 s s2 := by
    refine htook.trans (Took.of_mem fun x hx => ?_) ho
    exact copy_of_not_mem fun hin => hcP (by rwa [show x / 4096 = c by omega] at hx)
  have hown : Owned s2 c := by
    show (s1.pageinfo c).owner ≠ PO_FREE
    rw [hinfo]
    exact ho
  have hst2 : Stocked P o s2 := ⟨hst.cur, hst.cursor, hst.zero, hst.prot⟩
  obtain ⟨htree, hreach, hgrown⟩ := h.tree.frame hst2
    (fun pn hp => ⟨htook2.owned hp.1, hp.2⟩)
    (fun x hx => hkeep x fun hxc => not_owned_of_free hc (hxc ▸ hx.1))
  have hcr : role c = none := by
    rcases hr : role c with - | p
    · rfl
    · exact absurd (h.tree.taken c p hr).1 (not_owned_of_free hc)
  have hcfree : ¬ Owned s₀ c := fun hx => hcP (h.kept c hx)
  refine ⟨⟨htook2, fun pn => .inl, fun a _ => ?_, fun a _ => (hgrown a).entry a⟩,
    ⟨⟨⟨hst.cur, hst.cursor, hst.zero, ?_⟩, htree.trees, htree.root, fun pn p hp => ?_,
      htree.inner⟩, fun pn hp => .inl (h.kept pn hp), ?_, fun va hva => ?_⟩,
    ⟨hcfree, ?_, hbytes, .inr rfl⟩, missing_congr fun j => hreach _ j⟩
  · rw [leafTable_eq_reach, leafTable_eq_reach, hreach a 3 (Nat.le_refl 3)]
  · rintro pn (hP | rfl)
    · exact hst2.prot pn hP
    · exact hown
  · -- the copy is no table, so it may be protected
    obtain ⟨h1, h2, h3⟩ := htree.taken pn p hp
    refine ⟨h1, ?_, h3⟩
    rintro (hP | rfl)
    · exact h2 hP
    · rw [hcr] at hp
      cases hp
  · obtain ⟨k0, ht0⟩ := h.took
    exact ⟨k0 + 1, ht0.trans (htook2.mono h.kept) ho⟩
  · rw [(hgrown va).entry]
    exact h.rest va hva
  · show (s1.pageinfo c).owner = o
    rw [hinfo]

-- ==== one turn

section Page

variable {p : Int} {pt va e : Nat}

section

variable
  (hlook : virtualMemoryLookup s.mem (s.processes p).pagetable va = ⟨(e / 4096 : Nat), e / 4096 * 4096, e % 4096⟩)

include hlook

/-- A page that is not the parent's is mapped as it is. -/
theorem forkPage_shared (hown : (s.pageinfo (e / 4096)).owner ≠ (s.processes p).pid) :
    forkPage p o pt va s = (do
      let _ ← virtualMemoryMap pt va (e / 4096 * 4096) 4096 (e % 4096) (some pagetableAlloc)
      pure ()) s := by
  unfold forkPage
  rw [get_bind, hlook]
  dsimp only
  rw [if_neg (by omega), assert_bind (by omega), Int.toNat_natCast, if_neg hown]

/-- A page of the parent is copied. -/
theorem forkPage_owned (hown : (s.pageinfo (e / 4096)).owner = (s.processes p).pid) :
    forkPage p o pt va s = (do
      let pa ← pageAlloc o
      Prog.assert (pa ≠ 0)
      guardRead (e / 4096 * 4096) 4096
      Prog.modify fun s => { s with mem := copy s.mem pa s.mem (e / 4096 * 4096) 4096 }
      let _ ← virtualMemoryMap pt va pa 4096 (e % 4096) (some pagetableAlloc)
      pure ()) s := by
  unfold forkPage
  rw [get_bind, hlook]
  dsimp only
  rw [if_neg (by omega), assert_bind (by omega), Int.toNat_natCast, if_pos hown]

end

end Page

/-- The pages that the turn needs from this state on. -/
def turnNeed (s₀ : KState) (m : ByteMap) (root v : Nat) : Nat :=
  (if (s₀.pageinfo (forkEntry s₀ v / 4096)).owner = s₀.cur.pid then 1 else 0)
    + missing m root (v * 4096)

theorem Copying.turn_unmapped (h : Copying s₀ o root v P role s) (hr : ForkReady s₀)
    (hv : v < 768) (hodd : forkEntry s₀ v % 2 ≠ 1) (pid : Int) (pt : Nat) :
    forkPage s₀.current pid pt (v * 4096) s = (.ok (), s) := by
  unfold forkPage
  rw [get_bind, h.view hr, hr.view_eq hv, if_neg hodd, if_pos rfl]
  rfl

theorem Copying.mapped (h : Copying s₀ o root v P role s) (hr : ForkReady s₀)
    (hv : v < 768) (hodd : forkEntry s₀ v % 2 = 1) :
    virtualMemoryLookup s.mem (s.processes s₀.current).pagetable (v * 4096)
        = ⟨(forkEntry s₀ v / 4096 : Nat), forkEntry s₀ v / 4096 * 4096, forkEntry s₀ v % 4096⟩
      ∧ ((s.pageinfo (forkEntry s₀ v / 4096)).owner = (s.processes s₀.current).pid
        ↔ (s₀.pageinfo (forkEntry s₀ v / 4096)).owner = s₀.cur.pid) := by
  rw [h.view hr, hr.view_eq hv, if_pos hodd, h.info (hr.entry hv hodd).2, h.processes]
  exact ⟨rfl, Iff.rfl⟩

/-- How a turn that maps its page ends: the page is left out for want of
a table, or stood for. -/
def TurnEnd (s₀ : KState) (o : Int) (root v k : Nat) (P P' : Nat → Prop) (s s' : KState) :
    Prop :=
  (freeQueue s' = [] ∧ k < turnNeed s₀ s.mem root v
      ∧ leafEntry s'.mem root (v * 4096) = 0)
    ∨ (k = turnNeed s₀ s.mem root v
      ∧ CopiedEntry P' s₀ s' o (forkEntry s₀ v) (leafEntry s'.mem root (v * 4096))
      ∧ leafEntry s'.mem root (v * 4096) ≠ 0
      ∧ ((s₀.pageinfo (forkEntry s₀ v / 4096)).owner = s₀.cur.pid →
          ¬ P (leafEntry s'.mem root (v * 4096) / 4096)))

section

variable (h : Copying s₀ o root v P role s) (hr : ForkReady s₀) (ho : o ≠ 0)
  (hv : v < 768) (hodd : forkEntry s₀ v % 2 = 1)

include h hr ho hv hodd

/-- A page that is not the parent's is mapped as it is. -/
theorem Copying.turn_shared
    (hown : (s₀.pageinfo (forkEntry s₀ v / 4096)).owner ≠ s₀.cur.pid) :
    ∃ s' k role', forkPage s₀.current o (root * 4096) (v * 4096) s = (.ok (), s')
      ∧ Turn s₀ o root v k P P s s' ∧ Copying s₀ o root (v + 1) P role' s'
      ∧ TurnEnd s₀ o root v k P P s s' := by
  obtain ⟨hlt, hused⟩ := hr.entry hv hodd
  obtain ⟨hlook, hown'⟩ := h.mapped hr hv hodd
  obtain ⟨r, s', k, role', hrun, hturn, hcopy, hcase⟩ := h.map_one ho hv
    (forkEntry s₀ v / 4096 * 4096) (forkEntry s₀ v % 4096)
    (Nat.mul_mod_left _ _) (by omega) (Nat.mod_lt _ (by decide)) (by omega)
  rw [Nat.div_add_mod'] at hcase
  refine ⟨s', k, role', ?_, hturn, hcopy, ?_⟩
  · rw [forkPage_shared hlook (mt hown'.mp hown)]
    exact (bind_of_ok hrun).trans rfl
  · unfold TurnEnd turnNeed
    rw [if_neg hown, Nat.zero_add]
    refine hcase.imp_right fun ⟨hk, hent⟩ => ⟨hk, ?_, by omega, fun hx => absurd hx hown⟩
    unfold CopiedEntry
    rw [if_pos hodd, if_neg hown]
    exact hent

/-- A page of the parent is copied and the copy mapped; without a page
left, the assertion fails. -/
theorem Copying.turn_owned
    (hown : (s₀.pageinfo (forkEntry s₀ v / 4096)).owner = s₀.cur.pid) :
    (freeQueue s = []
        ∧ forkPage s₀.current o (root * 4096) (v * 4096) s = (.error .panic, s))
      ∨ ∃ s' k P' role', forkPage s₀.current o (root * 4096) (v * 4096) s = (.ok (), s')
          ∧ Turn s₀ o root v k P P' s s' ∧ Copying s₀ o root (v + 1) P' role' s'
          ∧ TurnEnd s₀ o root v k P P' s s' := by
  obtain ⟨hlt, hused⟩ := hr.entry hv hodd
  obtain ⟨hlook, hown'⟩ := h.mapped hr hv hodd
  rw [forkPage_owned hlook (hown'.mpr hown)]
  rcases h.copy_page ho hused with ⟨hnil, heq⟩
    | ⟨c, s1, heq, hc0, hc, hcP, hturn1, hcopy1, hfresh, hmiss⟩
  · refine .inl ⟨hnil, ?_⟩
    rw [bind_of_ok heq, bind_of_error (assert_of_not fun hx => hx rfl)]
  · obtain ⟨r, s', k, role', hrun, hturn2, hcopy2, hcase⟩ := hcopy1.map_one ho hv
      (c * 4096) (forkEntry s₀ v % 4096) (Nat.mul_mod_left _ _) (by omega)
      (Nat.mod_lt _ (by decide)) (by omega)
    have hownc : Owned _ c := hcopy1.tree.ok.prot c hfresh.prot
    refine .inr ⟨s', 1 + k, _, role', ?_, hturn1.trans hturn2 ho, hcopy2, ?_⟩
    · have hguard : guardRead (forkEntry s₀ v / 4096 * 4096) 4096 s1 = (.ok (), s1) :=
        failIf_of_not (by omega)
      rw [bind_of_ok heq, assert_bind (by omega),
        bind_of_ok hguard, bind_of_ok (x := Prog.modify _) rfl]
      exact (bind_of_ok hrun).trans rfl
    · unfold TurnEnd turnNeed
      rw [if_pos hown]
      rw [hmiss] at hcase
      rcases hcase with ⟨hnil, hless, hzero⟩ | ⟨hk, hent⟩
      · exact .inl ⟨hnil, by omega, hzero⟩
      · have hdiv : leafEntry s'.mem root (v * 4096) / 4096 = c := by omega
        refine .inr ⟨by omega, ?_, by omega, fun _ => by rwa [hdiv]⟩
        unfold CopiedEntry
        rw [if_pos hodd, if_pos hown, hdiv]
        exact ⟨by omega, by omega, hfresh.took hturn2.took hownc fun _ hP => hP⟩

end

theorem Turn.refl : Turn s₀ o root v 0 P P s s :=
  ⟨Took.refl, fun _ hP => hP, fun _ _ => rfl, fun _ _ => rfl⟩

/-- How a turn can end: in the assertion for want of a page, or with the
page not mapped, left out, or stood for. -/
theorem Copying.step (h : Copying s₀ o root v P role s) (hr : ForkReady s₀)
    (ho : o ≠ 0) (hv : v < 768) :
    (forkEntry s₀ v % 2 = 1 ∧ freeQueue s = [] ∧ 0 < turnNeed s₀ s.mem root v
        ∧ forkPage s₀.current o (root * 4096) (v * 4096) s = (.error .panic, s))
      ∨ ∃ s' k P' role', forkPage s₀.current o (root * 4096) (v * 4096) s = (.ok (), s')
          ∧ Turn s₀ o root v k P P' s s' ∧ Copying s₀ o root (v + 1) P' role' s'
          ∧ ((forkEntry s₀ v % 2 ≠ 1 ∧ k = 0 ∧ P' = P ∧ s' = s)
            ∨ (forkEntry s₀ v % 2 = 1 ∧ TurnEnd s₀ o root v k P P' s s')) := by
  by_cases hodd : forkEntry s₀ v % 2 = 1
  · by_cases hown : (s₀.pageinfo (forkEntry s₀ v / 4096)).owner = s₀.cur.pid
    · rcases h.turn_owned hr ho hv hodd hown
        with ⟨hnil, hrun⟩ | ⟨s', k, P', role', hrun, hturn, hcopy, hend⟩
      · refine .inl ⟨hodd, hnil, ?_, hrun⟩
        unfold turnNeed
        rw [if_pos hown]
        omega
      · exact .inr ⟨s', k, P', role', hrun, hturn, hcopy, .inr ⟨hodd, hend⟩⟩
    · obtain ⟨s', k, role', hrun, hturn, hcopy, hend⟩ :=
        h.turn_shared hr ho hv hodd hown
      exact .inr ⟨s', k, P, role', hrun, hturn, hcopy, .inr ⟨hodd, hend⟩⟩
  · exact .inr ⟨s, 0, P, role, h.turn_unmapped hr hv hodd _ _, Turn.refl,
      ⟨h.tree, h.kept, h.took, fun va hva => h.rest va (by omega)⟩,
      .inl ⟨hodd, rfl, rfl, rfl⟩⟩

-- ==== the loop

/-- Pages 0 to `v` are stood for in the child, at the cost of `k` pages in
all, and the tables are those that they need. -/
structure Whole (s₀ : KState) (o : Int) (root v k : Nat) (P : Nat → Prop)
    (s : KState) : Prop where
  took : Took (Owned s₀) o k { s₀ with current := o } s
  done : ∀ w, w < v →
    CopiedEntry P s₀ s o (forkEntry s₀ w) (leafEntry s.mem root (w * 4096))
  apart : ∀ w w', w < v → w' < v → w ≠ w' → forkEntry s₀ w % 2 = 1 →
    forkEntry s₀ w' % 2 = 1 → (s₀.pageinfo (forkEntry s₀ w / 4096)).owner = s₀.cur.pid →
    (s₀.pageinfo (forkEntry s₀ w' / 4096)).owner = s₀.cur.pid →
    leafEntry s.mem root (w * 4096) / 4096 ≠ leafEntry s.mem root (w' * 4096) / 4096
  bare : (∀ w, w < v → forkEntry s₀ w % 2 ≠ 1) → reach s.mem root 0 1 = none
  upper : ∀ w, w < v → forkEntry s₀ w % 2 = 1 → reach s.mem root 0 2 ≠ none
  leaf : ∀ u, u < 768 → (leafTable s.mem root (u * 4096) = none
    ↔ ∀ w, w < v → forkEntry s₀ w % 2 = 1 → w / 512 ≠ u / 512)

theorem region_page (hw : w < 768) : region (w * 4096) = w / 512 := by
  unfold region
  omega

/-- The first two levels are the same for all addresses below 1 GiB. -/
theorem reach_low (hva : va < 2 ^ 30) (hj : j ≤ 2) :
    reach m root va j = reach m root 0 j := by
  refine reach_congr fun i hi => ?_
  have h0 : i = 0 ∨ i = 1 := by omega
  rcases h0 with rfl | rfl
  · rw [pageindex_zero, pageindex_zero, Nat.div_eq_of_lt (by omega), Nat.zero_div]
  · rw [pageindex_one, pageindex_one, Nat.div_eq_of_lt (by omega), Nat.zero_div]

section

variable (h : Whole s₀ o root v k P s)

include h

/-- The tables that are missing are the ones that were counted. -/
theorem Whole.missing_eq (hr : ForkReady s₀) (hv : v < 768) :
    missing s.mem root (v * 4096)
      = if ∀ w < v, ¬ MapsPage s₀ w then 3
        else if ∀ w < v, w / 512 = v / 512 → ¬ MapsPage s₀ w then 1 else 0 := by
  have hbefore : ∀ w < v, (MapsPage s₀ w ↔ forkEntry s₀ w % 2 = 1) :=
    fun w hw => hr.maps_iff (by omega)
  have hlow : v * 4096 < 2 ^ 30 := by omega
  have hleaf := h.leaf v hv
  rw [leafTable_eq_reach] at hleaf
  rw [Kernel.missing_eq, reach_low hlow (by decide), reach_low hlow (Nat.le_refl 2)]
  by_cases hno : ∀ w < v, ¬ MapsPage s₀ w
  · have hnone := h.bare fun w hw hx => hno w hw ((hbefore w hw).mpr hx)
    have h3 : reach s.mem root (v * 4096) 3 = none :=
      hleaf.mpr fun w hw hx => absurd ((hbefore w hw).mpr hx) (hno w hw)
    rw [if_pos hno, if_pos hnone, if_pos (reach_succ_none hnone), if_pos h3]
  · rw [if_neg hno]
    obtain ⟨w, hw, hmw⟩ : ∃ w < v, MapsPage s₀ w := by
      by_contra hx
      exact hno fun w hw hm => hx ⟨w, hw, hm⟩
    have h2 := h.upper w hw ((hbefore w hw).mp hmw)
    have h1 : reach s.mem root 0 1 ≠ none := fun hx => h2 (reach_succ_none hx)
    rw [if_neg h1, if_neg h2]
    by_cases hreg : ∀ w < v, w / 512 = v / 512 → ¬ MapsPage s₀ w
    · have h3 : reach s.mem root (v * 4096) 3 = none :=
        hleaf.mpr fun w hw hx heq => hreg w hw heq ((hbefore w hw).mpr hx)
      rw [if_pos hreg, if_pos h3]
    · have h3 : reach s.mem root (v * 4096) 3 ≠ none := fun hx =>
        hreg fun w hw heq hm => hleaf.mp hx w hw ((hbefore w hw).mp hm) heq
      rw [if_neg hreg, if_neg h3]

/-- The pages that the turn needs are the ones it was counted for. -/
theorem Whole.need (hr : ForkReady s₀) (hv : v < 768)
    (hodd : forkEntry s₀ v % 2 = 1) : turnNeed s₀ s.mem root v = turnCost s₀ v := by
  unfold turnNeed turnCost
  rw [if_pos ((hr.maps_iff hv).mpr hodd), h.missing_eq hr hv]
  simp only [hr.owns_iff hv hodd]

/-- A turn over a page that is not mapped. -/
theorem Whole.skip (hc : Copying s₀ o root v P role s)
    (hv : v < 768) (hodd : forkEntry s₀ v % 2 ≠ 1) : Whole s₀ o root (v + 1) k P s := by
  have hlast : ∀ w < v + 1, forkEntry s₀ w % 2 = 1 → w < v := by
    intro w hw hx
    rcases Nat.lt_or_ge w v with hlt | hge
    · exact hlt
    · obtain rfl : w = v := by omega
      exact absurd hx hodd
  refine ⟨h.took, fun w hw => ?_, fun w w' hw hw' hne h1 h2 => ?_, fun hx => ?_,
    fun w hw hx => h.upper w (hlast w hw hx) hx, fun u hu => ?_⟩
  · by_cases hwv : w = v
    · subst hwv
      unfold CopiedEntry
      rw [if_neg hodd]
      exact hc.rest _ (Nat.le_of_eq (vpn_page (by omega)).symm)
    · exact h.done w (by omega)
  · exact h.apart w w' (hlast w hw h1) (hlast w' hw' h2) hne h1 h2
  · exact h.bare fun w hw => hx w (by omega)
  · rw [h.leaf u hu]
    exact ⟨fun hx w hw hm => hx w (hlast w hw hm) hm,
      fun hx w hw hm => hx w (by omega) hm⟩

/-- A turn that stood for its page. -/
theorem Whole.turn (hc : Copying s₀ o root v P role s) (ho : o ≠ 0) (hv : v < 768)
    (ht : Turn s₀ o root v k' P P' s s') (hodd : forkEntry s₀ v % 2 = 1)
    (hcopied : CopiedEntry P' s₀ s' o (forkEntry s₀ v) (leafEntry s'.mem root (v * 4096)))
    (hent : leafEntry s'.mem root (v * 4096) ≠ 0)
    (hnew : (s₀.pageinfo (forkEntry s₀ v / 4096)).owner = s₀.cur.pid →
      ¬ P (leafEntry s'.mem root (v * 4096) / 4096)) :
    Whole s₀ o root (v + 1) (k + k') P' s' := by
  have hold : ∀ w < v,
      leafEntry s'.mem root (w * 4096) = leafEntry s.mem root (w * 4096) := by
    intro w hw
    refine ht.entry _ ?_
    rw [vpn_page (by omega)]
    omega
  have hprot : ∀ w < v, forkEntry s₀ w % 2 = 1 →
      (s₀.pageinfo (forkEntry s₀ w / 4096)).owner = s₀.cur.pid →
      P (leafEntry s.mem root (w * 4096) / 4096) := by
    intro w hw hx hown
    have hdone := h.done w hw
    unfold CopiedEntry at hdone
    rw [if_pos hx, if_pos hown] at hdone
    exact hdone.2.2.prot
  have htable : leafTable s'.mem root (v * 4096) ≠ none := by
    intro hx
    unfold leafEntry at hent
    rw [hx] at hent
    exact hent rfl
  have hupper : reach s'.mem root 0 2 ≠ none := by
    rw [← reach_low (show v * 4096 < 2 ^ 30 by omega) (Nat.le_refl 2)]
    intro hx
    rw [leafTable_eq_reach] at htable
    exact htable (reach_succ_none hx)
  refine ⟨h.took.trans (ht.took.mono hc.kept) ho, fun w hw => ?_,
    fun w w' hw hw' hne h1 h2 o1 o2 => ?_,
    fun hx => absurd hodd (hx v (by omega)), fun w hw hx => hupper, fun u hu => ?_⟩
  · by_cases hwv : w = v
    · rw [hwv]
      exact hcopied
    · rw [hold w (by omega)]
      exact (h.done w (by omega)).took ht.took hc.tree.ok ht.grows
  · -- a page handed out later was not yet protected
    by_cases hwv : w = v
    · subst hwv
      rw [hold w' (by omega)]
      intro heq
      apply hnew o1
      rw [heq]
      exact hprot w' (by omega) h2 o2
    · by_cases hwv' : w' = v
      · subst hwv'
        rw [hold w (by omega)]
        intro heq
        apply hnew o2
        rw [← heq]
        exact hprot w (by omega) h1 o1
      · rw [hold w (by omega), hold w' (by omega)]
        exact h.apart w w' (by omega) (by omega) hne h1 h2 o1 o2
  · by_cases hreg : u / 512 = v / 512
    · have hrg : region (u * 4096) = region (v * 4096) := by
        rw [region_page hu, region_page hv, hreg]
      rw [leafTable_of_region hrg]
      exact ⟨fun hx => absurd hx htable,
        fun hx => absurd hreg.symm (hx v (by omega) hodd)⟩
    · have hrg : region (u * 4096) ≠ region (v * 4096) := by
        rw [region_page hu, region_page hv]
        exact hreg
      rw [ht.table _ hrg, h.leaf u hu]
      refine ⟨fun hx w hw hm => ?_, fun hx w hw hm => hx w (by omega) hm⟩
      by_cases hwv : w = v
      · subst hwv
        exact fun heq => hreg heq.symm
      · exact hx w (by omega) hm

end

theorem forkPages_succ {out : Except Stop Unit}
    (hrun : forkPage s₀.current o (root * 4096) (v * 4096) s = (out, s')) :
    forkPages s₀.current o (root * 4096) (n + 1) (v * 4096) s
      = match out with
        | .ok () => forkPages s₀.current o (root * 4096) n ((v + 1) * 4096) s'
        | .error e => (.error e, s') := by
  rw [forkPages]
  cases out with
  | ok u => rw [bind_of_ok hrun, Nat.succ_mul]
  | error e => exact bind_of_error hrun

/-- A page left out stays out. -/
theorem Copying.loop_broken (hr : ForkReady s₀) (ho : o ≠ 0) (hw : w < 768) :
    ∀ n v P role s, v + n = 768 → w < v → Copying s₀ o root v P role s →
      leafEntry s.mem root (w * 4096) = 0 →
      ∃ out s', forkPages s₀.current o (root * 4096) n (v * 4096) s = (out, s')
        ∧ (out = .error .panic
          ∨ (out = .ok () ∧ (∃ P' role', Copying s₀ o root 768 P' role' s')
              ∧ leafEntry s'.mem root (w * 4096) = 0)) := by
  intro n
  induction n with
  | zero =>
    intro v P role s hv hwv h hzero
    obtain rfl : v = 768 := hv
    exact ⟨_, s, rfl, .inr ⟨rfl, ⟨P, role, h⟩, hzero⟩⟩
  | succ n ih =>
    intro v P role s hv hwv h hzero
    rcases h.step hr ho (by omega)
      with ⟨-, -, -, hrun⟩ | ⟨s', k, P', role', hrun, hturn, hcopy, -⟩
    · exact ⟨_, s, forkPages_succ hrun, .inl rfl⟩
    · have hkeep := hturn.entry (w * 4096) (by rw [vpn_page (by omega)]; omega)
      obtain ⟨out, s'', hloop, hcase⟩ :=
        ih (v + 1) P' role' s' (by omega) (by omega) hcopy (hkeep.trans hzero)
      exact ⟨out, s'', (forkPages_succ hrun).trans hloop, hcase⟩

/-- The pages that the loop will need are there or not. -/
theorem Took.short (h : Took P o k a s) (hnil : freeQueue s = []) :
    (freeQueue a).length ≤ k := by
  have hq := h.queue
  rw [hnil] at hq
  exact List.drop_eq_nil_iff.mp hq.symm

/-- The copy loop: all pages are stood for at the cost that was counted,
or the free pages are fewer than that and it panics or leaves one out. -/
theorem Whole.loop (hr : ForkReady s₀) (ho : o ≠ 0) :
    ∀ n v k P role s, v + n = 768 → Copying s₀ o root v P role s →
      Whole s₀ o root v k P s →
      ∃ out s', forkPages s₀.current o (root * 4096) n (v * 4096) s = (out, s')
        ∧ ((out = .ok () ∧ ∃ P' role', Copying s₀ o root 768 P' role' s'
              ∧ Whole s₀ o root 768 (k + turnsCost s₀ n v) P' s')
          ∨ ((freeQueue s₀).length < k + turnsCost s₀ n v
              ∧ (out = .error .panic
                ∨ (out = .ok () ∧ (∃ P' role', Copying s₀ o root 768 P' role' s')
                    ∧ ∃ w < 768, forkEntry s₀ w % 2 = 1
                        ∧ leafEntry s'.mem root (w * 4096) = 0)))) := by
  intro n
  induction n with
  | zero =>
    intro v k P role s hv hc h
    obtain rfl : v = 768 := hv
    exact ⟨_, s, rfl, .inl ⟨rfl, P, role, hc, h⟩⟩
  | succ n ih =>
    intro v k P role s hv hc h
    have hlt : v < 768 := by omega
    rw [turnsCost_succ, ← Nat.add_assoc]
    rcases hc.step hr ho hlt
      with ⟨hodd, hnil, hneed, hrun⟩ | ⟨s', k', P', role', hrun, hturn, hcopy, hcase⟩
    · -- no page for the copy
      have hfree : (freeQueue s₀).length ≤ k := h.took.short hnil
      rw [h.need hr hlt hodd] at hneed
      exact ⟨_, s, forkPages_succ hrun, .inr ⟨by omega, .inl rfl⟩⟩
    rw [forkPages_succ hrun]
    rcases hcase with ⟨hodd, rfl, rfl, rfl⟩
      | ⟨hodd, ⟨hnil, hless, hzero⟩ | ⟨hk, hcopied, hent, hnew⟩⟩
    · have hcost : turnCost s₀ v = 0 :=
        if_neg fun hm => hodd ((hr.maps_iff hlt).mp hm)
      rw [hcost, Nat.add_zero]
      exact ih (v + 1) k P' role' s' (by omega) hcopy (h.skip hc hlt hodd)
    · -- no page for a table: the mapping fails and nobody looks
      have hfree : (freeQueue s₀).length ≤ k + k' :=
        (h.took.trans (hturn.took.mono hc.kept) ho).short hnil
      rw [h.need hr hlt hodd] at hless
      obtain ⟨out, s'', hloop, hend⟩ := Copying.loop_broken hr ho hlt n (v + 1) P' role' s'
        (by omega) (by omega) hcopy hzero
      refine ⟨out, s'', hloop, .inr ⟨by omega, ?_⟩⟩
      rcases hend with hpanic | ⟨hok, hcop, hz⟩
      · exact .inl hpanic
      · exact .inr ⟨hok, hcop, v, hlt, hodd, hz⟩
    · rw [← h.need hr hlt hodd, ← hk]
      exact ih (v + 1) (k + k') P' role' s' (by omega) hcopy
        (h.turn hc ho hlt hturn hodd hcopied hent hnew)

end Child

end RojocOS.Kernel
