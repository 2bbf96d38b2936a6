/-
`testmalloc`, and the invariant.

The test takes blocks from the kernel's heap and gives them back. The
blocks it holds are apart from those that were in use before, so giving
them back takes no descriptor away (`Holding`). What it leaves in use are
blocks it could not free because another request failed.
-/
import RojocOS.Kernel.Proofs.DescCalls

namespace RojocOS.Kernel

open ByteMap Prog

variable {E : KEnv} {G O : Prop} {role : Roles} {used extra : List Blk} {b : Blk} {s s' : KState}

/-- The blocks `extra` are in use besides those of before, and no
descriptor is in one of them. -/
structure Holding (E : KEnv) (G O : Prop) (role : Roles) (used extra : List Blk) (s : KState) :
    Prop where
  inv : KInv E G O role (extra ++ used) s
  fd : ∀ i : Int, 0 ≤ i → i < 16 → FdOk used s.mem (s.processes i).fdList

theorem KInv.holding (h : KInv E G O role used s) : Holding E G O role used
    [] s := ⟨h, h.fd⟩

theorem Holding.perm {extra' : List Blk} (h : Holding E G O role used extra s)
    (hp : extra.Perm extra') : Holding E G O role used extra' s :=
  ⟨h.inv.perm (hp.append_right used), h.fd⟩

theorem Holding.kmalloc {size p : Nat} (h : Holding E G O role used extra s)
    (hrun : kmalloc E size s = (.ok p, s')) :
    (p = 0 ∧ Holding E G O role used extra s')
      ∨ ∃ b : Blk, p = b.h + 16 ∧ Holding E G O role used (b :: extra) s' := by
  have hfd : HeapWork role (extra ++ used) s s' → ∀ i : Int, 0 ≤ i → i < 16 →
      FdOk used s'.mem (s'.processes i).fdList := by
    intro hw i h0 h16
    have hproc : s'.processes = s.processes := by rw [hw.rest]
    rw [hproc]
    exact (h.fd i h0 h16).congr fun c hc => hw.kept c (List.mem_append_right _ hc)
  rcases (h.inv.mach.kmalloc h.inv.bare size).1 p s' hrun
    with ⟨hp, hm, hb, hw⟩ | ⟨b, hp, -, -, hm, hb, hw⟩
  · exact .inl ⟨hp, h.inv.of_heap hm hb hw fun _ hx => hx, hfd hw⟩
  · exact .inr ⟨b, hp, h.inv.of_heap hm hb hw (List.subset_cons_self b _), hfd hw⟩

theorem Holding.kfree (h : Holding E G O role used (b :: extra) s)
    (hrun : kfree E (b.h + 16) s = (.ok (), s')) : Holding E G O role used extra s' := by
  obtain ⟨free, hinv⟩ := h.inv.mach.heap
  unfold Kernel.kfree at hrun
  rcases hinv.kernelFree E.fuel with ⟨hstop, -⟩ | ⟨m', heq, hinv', hout⟩
  · rw [hstop] at hrun
    cases hrun
  rw [heq] at hrun
  cases hrun
  have hin : ∀ x, ¬ InPages s.heapPages x → m' x = s.mem x := by
    intro x hx
    refine hout x fun c hc hcx => hx (hinv.tiles.mem ?_ hcx)
    rcases List.mem_cons.mp hc with rfl | hc
    · exact List.mem_append_right _ (.head _)
    · exact List.mem_append_left _ hc
  obtain ⟨hm, hf⟩ := h.inv.mach.in_heap h.inv.bare hinv' hin
  -- the blocks that stay are apart from the one that goes and the free ones
  have hkept : ∀ c ∈ used, ∀ x, c.Has x → m' x = s.mem x := by
    intro c hc x hx
    have hap := (hinv.tiles.perm List.perm_middle).apart
    rw [List.pairwise_cons] at hap
    refine hout x fun d hd hdx => ?_
    rcases List.mem_cons.mp hd with rfl | hd
    · exact (hap.1 c (List.mem_append_right _ (List.mem_append_right _ hc))).not_inside hdx hx
    · exact ((List.pairwise_append.mp hap.2).2.2 d hd c
        (List.mem_append_right _ hc)).not_inside hdx hx
  have hfd : ∀ i : Int, 0 ≤ i → i < 16 → FdOk used m' (s.processes i).fdList :=
    fun i h0 h16 => (h.fd i h0 h16).congr hkept
  refine ⟨h.inv.in_heap hm h.inv.bare hf (fun _ => .inl rfl) rfl rfl fun i h0 h16 => ?_, hfd⟩
  exact (hfd i h0 h16).imp_right fun ⟨c, hc, hrest⟩ => ⟨c, List.mem_append_right _ hc, hrest⟩

-- ==== the tests

theorem kfree_null {u : Unit} (hrun : kfree E 0 s = (.ok u, s')) : s' = s := by
  unfold Kernel.kfree kernelFree at hrun
  rw [get_bind, if_pos (.inl rfl)] at hrun
  cases hrun
  rfl

theorem Holding.mallocFree {size : Nat} (h : Holding E G O role used extra s)
    (hrun : mallocFree E size s = (.ok (), s')) : Holding E G O role used extra s' := by
  obtain ⟨p, s1, h1, h2⟩ := bind_ok.mp hrun
  rcases h.kmalloc h1 with ⟨rfl, hk⟩ | ⟨b, rfl, hk⟩
  · obtain rfl := kfree_null h2
    exact hk
  · exact hk.kfree h2

/-- The pointers of `mallocMany`: blocks, or null. -/
inductive Pointers : List Nat → List Blk → Prop where
  | nil : Pointers [] []
  | null {ps bs} : Pointers ps bs → Pointers (0 :: ps) bs
  | block {ps bs} (b : Blk) : Pointers ps bs → Pointers ((b.h + 16) :: ps) (b :: bs)

theorem Holding.mallocMany {size n : Nat} : ∀ {extra : List Blk} {s s' : KState}
    {ps : List Nat},
    Holding E G O role used extra s → mallocMany E size n s = (.ok ps, s') →
    ∃ bs, Pointers ps bs ∧ Holding E G O role used (bs ++ extra) s' := by
  induction n with
  | zero =>
    intro extra s s' ps h hrun
    cases hrun
    exact ⟨[], .nil, h⟩
  | succ n ih =>
    intro extra s s' ps h hrun
    obtain ⟨p, s1, h1, h2⟩ := bind_ok.mp hrun
    obtain ⟨qs, s2, h3, h4⟩ := bind_ok.mp h2
    cases h4
    rcases h.kmalloc h1 with ⟨rfl, hk⟩ | ⟨b, rfl, hk⟩
    · obtain ⟨bs, hp, hk'⟩ := ih hk h3
      exact ⟨bs, .null hp, hk'⟩
    · obtain ⟨bs, hp, hk'⟩ := ih hk h3
      exact ⟨b :: bs, .block b hp, hk'.perm List.perm_middle⟩

theorem Holding.freeMany {ps : List Nat} {bs : List Blk} (hp : Pointers ps bs) :
    ∀ {s s' : KState}, Holding E G O role used (bs ++ extra) s →
    freeMany E ps s = (.ok (), s') → Holding E G O role used extra s' := by
  induction hp with
  | nil =>
    intro s s' h hrun
    cases hrun
    exact h
  | null _ ih =>
    intro s s' h hrun
    obtain ⟨_, s1, h1, h2⟩ := bind_ok.mp hrun
    obtain rfl := kfree_null h1
    exact ih h h2
  | block b _ ih =>
    intro s s' h hrun
    obtain ⟨_, s1, h1, h2⟩ := bind_ok.mp hrun
    exact ih (h.kfree h1) h2

theorem Holding.pointer {size p : Nat} (h : Holding E G O role used extra s)
    (hrun : Kernel.kmalloc E size s = (.ok p, s')) :
    ∃ bs, Pointers [p] bs ∧ Holding E G O role used (bs ++ extra) s' := by
  rcases h.kmalloc hrun with ⟨rfl, hk⟩ | ⟨b, rfl, hk⟩
  · exact ⟨[], .null .nil, hk⟩
  · exact ⟨[b], .block b .nil, hk⟩

/-- Two blocks are given back if both are there. -/
theorem Holding.freePair {p q : Nat} {bs cs : List Blk} (hp : Pointers [p] bs)
    (hq : Pointers [q] cs) (h : Holding E G O role used (cs ++ bs ++ extra) s)
    (hrun : Prog.when (p ≠ 0 ∧ q ≠ 0) (do Kernel.kfree E p; Kernel.kfree E q) s = (.ok (), s')) :
    ∃ left, Holding E G O role used (left ++ extra) s' := by
  by_cases hpq : p ≠ 0 ∧ q ≠ 0
  · rw [when_of hpq] at hrun
    obtain ⟨_, s1, h1, h2⟩ := bind_ok.mp hrun
    cases hp with
    | null hnil => exact absurd rfl hpq.1
    | block b hnil =>
      cases hnil
      cases hq with
      | null hnil => exact absurd rfl hpq.2
      | block c hnil =>
        cases hnil
        have hswap : ([c] ++ [b] ++ extra).Perm (b :: c :: extra) := List.Perm.swap b c extra
        exact ⟨[], ((h.perm hswap).kfree h1).kfree h2⟩
  · rw [when_of_not hpq] at hrun
    cases hrun
    exact ⟨cs ++ bs, h⟩

theorem Holding.testmalloc (h : Holding E G O role used extra s)
    (hrun : testmalloc E s = (.ok (), s')) : ∃ extra', Holding E G O role used extra' s' := by
  obtain ⟨_, s1, h1, h2⟩ := bind_ok.mp hrun
  have hk1 := h.mallocFree h1
  obtain ⟨p, s2, h3, h4⟩ := bind_ok.mp h2
  obtain ⟨bs, hp, hk2⟩ := hk1.pointer h3
  obtain ⟨q, s3, h5, h6⟩ := bind_ok.mp h4
  obtain ⟨cs, hq, hk3⟩ := hk2.pointer h5
  rw [← List.append_assoc] at hk3
  obtain ⟨_, s4, h7, h8⟩ := bind_ok.mp h6
  obtain ⟨left, hk4⟩ := hk3.freePair hp hq h7
  obtain ⟨_, s5, h9, h10⟩ := bind_ok.mp h8
  have hk5 := hk4.mallocFree h9
  obtain ⟨ps, s6, h11, h12⟩ := bind_ok.mp h10
  obtain ⟨ds, hps, hk6⟩ := hk5.mallocMany h11
  obtain ⟨_, s7, h13, h14⟩ := bind_ok.mp h12
  have hk7 := hk6.freeMany hps h13
  obtain ⟨r, s8, h15, h16⟩ := bind_ok.mp h14
  cases h16
  obtain ⟨es, -, hk8⟩ := hk7.pointer h15
  exact ⟨_, hk8⟩

theorem KInv.execTestmalloc (h : KInv E G O role used s)
    (hrun : execTestmalloc E s = (.ok (), s')) : ∃ used', KInv E G O role used' s' := by
  have h2 := bind_step hrun rfl
  have h4 := bind_step h2 rfl
  obtain ⟨-, h6⟩ := failIf_bind_ok h4
  obtain ⟨_, s4, h7, h8⟩ := bind_ok.mp h6
  have hs : s4 = s := by
    by_cases harg : load s.mem
        ((virtualMemoryLookup s.mem s.cur.pagetable (u64 s.cur.registers.rsi)).pa + 8) 8 ≠ 0
    · rw [when_of harg] at h7
      have h10 := bind_step h7 rfl
      obtain ⟨str, s6, h11, h12⟩ := bind_ok.mp h10
      cases h12
      exact (readStr_ok h11).1
    · rw [when_of_not harg] at h7
      cases h7
      rfl
  subst hs
  obtain ⟨extra, hk⟩ := h.holding.testmalloc h8
  exact ⟨_, hk.inv⟩

end RojocOS.Kernel
