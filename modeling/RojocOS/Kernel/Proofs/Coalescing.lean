/-
What coalescing leaves.

`kernel_free` puts the block in front of the free list and walks the list
once, merging a block with the next one of the list when it starts where
the first ends. The list is in the order of the frees, not of the
addresses, so two free blocks that touch in memory are merged only if
they stand one right behind the other in the list. `noneTouch_join` is
the exact condition, on the list before the walk; the rest of the module
reads it off the bytes, and says what a heap without live blocks is when
it holds.
-/
import RojocOS.Kernel.Proofs.MallocReturns

namespace RojocOS.Kernel

open ByteMap Tiling

variable {b : Blk} {fl : Nat} {free : List Blk} {m : ByteMap} {pages : List Nat}

-- ==== lists of blocks

/-- The address behind the block. -/
def Blk.fin (b : Blk) : Nat := b.h + 16 + b.size

/-- No block of the list ends where another begins. -/
def NoneTouch (l : List Blk) : Prop := ∀ b ∈ l, ∀ c ∈ l, b.fin ≠ c.h

/-- A block that ends where another begins is followed by it. -/
def Followed (l : List Blk) : Prop := ∀ b ∈ l, ∀ c ∈ l, b.fin = c.h → [b, c] <:+: l

section Lists

variable {b c d x y : Blk} {l : List Blk}

theorem Blk.fin_ne (b : Blk) : b.fin ≠ b.h := by
  unfold Blk.fin
  omega

theorem Blk.Apart.ne (h : b.Apart c) : b ≠ c := by
  intro hbc
  subst hbc
  unfold Blk.Apart Tiling.Apart at h
  have := b.len_pos
  omega

theorem Blk.Apart.fin_ne (h : b.Apart c) : b.fin ≠ c.fin := by
  unfold Blk.Apart Tiling.Apart Blk.len at h
  unfold Blk.fin
  omega

theorem Blk.Apart.h_ne (h : b.Apart c) : b.h ≠ c.h := by
  unfold Blk.Apart Tiling.Apart Blk.len at h
  omega

/-- The condition, block by block: nothing touches the first block from
below, and from above at most the second one does. -/
theorem followed_cons (hap : (c :: l).Pairwise Blk.Apart) :
    Followed (c :: l) ↔ (∀ x ∈ l, x.fin ≠ c.h) ∧ (∀ y ∈ l.tail, c.fin ≠ y.h)
      ∧ Followed l := by
  obtain ⟨hc, hl⟩ := List.pairwise_cons.mp hap
  have hnotin : c ∉ l := fun hin => (hc c hin).ne rfl
  constructor
  · intro h
    refine ⟨fun x hx htouch => ?_, fun y hy htouch => ?_, fun x hx y hy htouch => ?_⟩
    · -- `c` would follow `x`, but it is the first
      rcases List.infix_cons_iff.mp (h x (.tail _ hx) c (.head _) htouch) with hpre | hin
      · rw [List.cons_prefix_cons] at hpre
        exact hnotin (hpre.1 ▸ hx)
      · exact hnotin (hin.subset (by simp))
    · rcases List.infix_cons_iff.mp (h c (.head _) y
        (.tail _ (List.mem_of_mem_tail hy)) htouch) with hpre | hin
      · cases l with
        | nil => cases hy
        | cons d l =>
          rw [List.cons_prefix_cons, List.cons_prefix_cons] at hpre
          exact ((List.pairwise_cons.mp hl).1 y hy).ne hpre.2.1.symm
      · exact hnotin (hin.subset (by simp))
    · rcases List.infix_cons_iff.mp (h x (.tail _ hx) y
        (.tail _ hy) htouch) with hpre | hin
      · rw [List.cons_prefix_cons] at hpre
        exact absurd (hpre.1 ▸ hx) hnotin
      · exact hin
  · rintro ⟨hbelow, habove, h⟩ x hx y hy htouch
    rcases List.mem_cons.mp hx with rfl | hx'
    · rcases List.mem_cons.mp hy with rfl | hy'
      · exact absurd htouch (Blk.fin_ne _)
      · cases hy' with
        | head => exact ⟨[], _, rfl⟩
        | tail _ hy' => exact absurd htouch (habove y hy')
    · rcases List.mem_cons.mp hy with rfl | hy
      · exact absurd htouch (hbelow x hx')
      · exact (h x hx' y hy htouch).trans (List.infix_cons (List.infix_refl _))

-- ==== joining

/-- The block `c` with the block `d` behind it. -/
theorem joined_fin (h : c.fin = d.h) : Blk.fin ⟨c.h, c.size + (16 + d.size)⟩ = d.fin := by
  unfold Blk.fin at *
  dsimp only
  omega

theorem Blk.Apart.joined (hadj : c.fin = d.h) (hc : c.Apart x) (hd : d.Apart x) :
    Blk.Apart ⟨c.h, c.size + (16 + d.size)⟩ x := by
  unfold Blk.fin at hadj
  unfold Blk.Apart Tiling.Apart Blk.len at *
  dsimp only
  omega

theorem joinFrom_touch (h : c.fin = d.h) :
    joinFrom c (d :: l) = joinFrom ⟨c.h, c.size + (16 + d.size)⟩ l := by
  unfold Blk.fin at h
  rw [joinFrom, if_pos h]

theorem joinFrom_apart (h : c.fin ≠ d.h) : joinFrom c (d :: l) = c :: joinFrom d l := by
  unfold Blk.fin at h
  rw [joinFrom, if_neg h]

/-- The joined block stands for `c` below and for `d` above. -/
theorem joined_edges (hadj : c.fin = d.h)
    (hx : x ∈ (⟨c.h, c.size + (16 + d.size)⟩ : Blk) :: l) :
    (∃ z ∈ c :: d :: l, z.h = x.h) ∧ ∃ z ∈ c :: d :: l, z.fin = x.fin := by
  rcases List.mem_cons.mp hx with rfl | hx
  · exact ⟨⟨c, by simp, rfl⟩, d, by simp, (joined_fin hadj).symm⟩
  · exact ⟨⟨x, by simp [hx], rfl⟩, x, by simp [hx], rfl⟩

/-- Joined blocks begin and end where some block did. -/
theorem mem_joinFrom (l : List Blk) : ∀ {c}, b ∈ joinFrom c l →
    (∃ x ∈ c :: l, x.h = b.h) ∧ ∃ y ∈ c :: l, y.fin = b.fin := by
  induction l with
  | nil =>
    intro c hb
    rw [joinFrom, List.mem_singleton] at hb
    exact ⟨⟨c, List.mem_cons_self, hb ▸ rfl⟩, c, List.mem_cons_self, hb ▸ rfl⟩
  | cons d l ih =>
    intro c hb
    by_cases hadj : c.fin = d.h
    · rw [joinFrom_touch hadj] at hb
      obtain ⟨⟨x, hx, hxb⟩, y, hy, hyb⟩ := ih hb
      obtain ⟨z, hz, hzx⟩ := (joined_edges hadj hx).1
      obtain ⟨z', hz', hzy⟩ := (joined_edges hadj hy).2
      exact ⟨⟨z, hz, hzx.trans hxb⟩, z', hz', hzy.trans hyb⟩
    · rw [joinFrom_apart hadj] at hb
      rcases List.mem_cons.mp hb with rfl | hb
      · exact ⟨⟨b, List.mem_cons_self, rfl⟩, b, List.mem_cons_self, rfl⟩
      · obtain ⟨⟨x, hx, hxb⟩, y, hy, hyb⟩ := ih hb
        exact ⟨⟨x, List.mem_cons_of_mem _ hx, hxb⟩, y, List.mem_cons_of_mem _ hy, hyb⟩

/-- Where a block begins, a joined block begins or another block ends, and
where it ends, a joined block ends or another block begins. -/
theorem joinFrom_edges (l : List Blk) : ∀ {c y}, y ∈ c :: l →
    ((∃ b ∈ joinFrom c l, b.h = y.h) ∨ ∃ x ∈ c :: l, x.fin = y.h)
      ∧ ((∃ b ∈ joinFrom c l, b.fin = y.fin) ∨ ∃ x ∈ c :: l, x.h = y.fin) := by
  induction l with
  | nil =>
    intro c y hy
    cases List.mem_singleton.mp hy
    exact ⟨.inl ⟨c, List.mem_cons_self, rfl⟩, .inl ⟨c, List.mem_cons_self, rfl⟩⟩
  | cons d l ih =>
    intro c y hy
    by_cases hadj : c.fin = d.h
    · rw [joinFrom_touch hadj]
      have hfin : ∀ {n}, (∃ x ∈ (⟨c.h, c.size + (16 + d.size)⟩ : Blk) :: l, x.fin = n) →
          ∃ x ∈ c :: d :: l, x.fin = n := by
        rintro n ⟨x, hx, rfl⟩
        exact (joined_edges hadj hx).2
      have hh : ∀ {n}, (∃ x ∈ (⟨c.h, c.size + (16 + d.size)⟩ : Blk) :: l, x.h = n) →
          ∃ x ∈ c :: d :: l, x.h = n := by
        rintro n ⟨x, hx, rfl⟩
        exact (joined_edges hadj hx).1
      obtain ⟨hbegin, hend⟩ := ih (c := ⟨c.h, c.size + (16 + d.size)⟩) List.mem_cons_self
      rcases List.mem_cons.mp hy with rfl | hy
      · exact ⟨hbegin.imp_right hfin, .inr ⟨d, by simp, hadj.symm⟩⟩
      · rcases List.mem_cons.mp hy with rfl | hy
        · exact ⟨.inr ⟨c, List.mem_cons_self, hadj⟩, joined_fin hadj ▸ hend.imp_right hh⟩
        · exact (ih (.tail _ hy)).imp (Or.imp_right hfin) (Or.imp_right hh)
    · rw [joinFrom_apart hadj]
      rcases List.mem_cons.mp hy with rfl | hy
      · exact ⟨.inl ⟨y, List.mem_cons_self, rfl⟩, .inl ⟨y, List.mem_cons_self, rfl⟩⟩
      · have hmore : ∀ {l : List Blk} {e : Blk} {P : Blk → Prop}, (∃ x ∈ l, P x) →
            ∃ x ∈ e :: l, P x := fun ⟨x, hx, hP⟩ => ⟨x, List.mem_cons_of_mem _ hx, hP⟩
        exact (ih hy).imp (Or.imp hmore hmore) (Or.imp hmore hmore)

/-- No joined blocks touch just if the blocks that touched were in the
order of their addresses. -/
theorem noneTouch_join (l : List Blk) : ∀ {c}, (c :: l).Pairwise Blk.Apart →
    (NoneTouch (joinFrom c l) ↔ Followed (c :: l)) := by
  induction l with
  | nil =>
    intro c _
    have hc : ∀ x ∈ [c], ∀ y ∈ [c], x.fin ≠ y.h := by
      intro x hx y hy
      rw [List.mem_singleton.mp hx, List.mem_singleton.mp hy]
      exact c.fin_ne
    exact ⟨fun _ x hx y hy htouch => absurd htouch (hc x hx y hy), fun _ => hc⟩
  | cons d l ih =>
    intro c hap
    obtain ⟨hc, hap'⟩ := List.pairwise_cons.mp hap
    obtain ⟨hd, hl⟩ := List.pairwise_cons.mp hap'
    by_cases hadj : c.fin = d.h
    · -- one block stands for `c` and `d`
      have hjoined : ∀ x ∈ l, Blk.Apart ⟨c.h, c.size + (16 + d.size)⟩ x := fun x hx =>
        Blk.Apart.joined hadj (hc x (.tail _ hx)) (hd x hx)
      rw [joinFrom_touch hadj, ih (List.pairwise_cons.mpr ⟨hjoined, hl⟩), followed_cons hap,
        followed_cons hap', followed_cons (List.pairwise_cons.mpr ⟨hjoined, hl⟩), joined_fin hadj]
      have hfirst : d.fin ≠ c.h := by
        unfold Blk.fin at *
        omega
      have habove : ∀ y ∈ l, c.fin ≠ y.h := fun y hy => hadj.trans_ne (hd y hy).h_ne
      have hbelow : ∀ x ∈ l, x.fin ≠ d.h := fun x hx heq =>
        (hc x (.tail _ hx)).fin_ne (hadj.trans heq.symm)
      constructor
      · rintro ⟨h1, h2, h3⟩
        exact ⟨List.forall_mem_cons.mpr ⟨hfirst, h1⟩, habove, hbelow, h2, h3⟩
      · rintro ⟨h1, -, -, h2, h3⟩
        exact ⟨fun x hx => h1 x (.tail _ hx), h2, h3⟩
    · rw [joinFrom_apart hadj, followed_cons hap, ← ih hap']
      constructor
      · intro h
        refine ⟨fun x hx htouch => ?_, fun y hy htouch => ?_, fun x hx y hy =>
          h x (.tail _ hx) y (.tail _ hy)⟩
        · rcases (joinFrom_edges l hx).2 with ⟨b, hb, hbx⟩ | ⟨z, hz, hzx⟩
          · exact h b (.tail _ hb) c (.head _) (hbx.trans htouch)
          · exact (hc z hz).h_ne (hzx.trans htouch).symm
        · rcases (joinFrom_edges l (.tail _ hy)).1 with ⟨b, hb, hby⟩ | ⟨z, hz, hzy⟩
          · exact h c (.head _) b (.tail _ hb) (htouch.trans hby.symm)
          · exact (hc z hz).fin_ne (htouch.trans hzy.symm)
      · rintro ⟨hbelow, habove, h⟩ x hx y hy htouch
        rcases List.mem_cons.mp hx with rfl | hx'
        · rcases List.mem_cons.mp hy with rfl | hy'
          · exact Blk.fin_ne _ htouch
          · obtain ⟨⟨z, hz, hzy⟩, -⟩ := mem_joinFrom l hy'
            rcases List.mem_cons.mp hz with rfl | hz
            · exact hadj (htouch.trans hzy.symm)
            · exact habove z hz (htouch.trans hzy.symm)
        · rcases List.mem_cons.mp hy with rfl | hy'
          · obtain ⟨-, z, hz, hzx⟩ := mem_joinFrom l hx'
            exact hbelow z hz (hzx.trans htouch)
          · exact h x hx' y hy' htouch

end Lists

-- ==== runs

variable {E : KEnv} {s s' : KState} {live : List (Nat × Nat)}

/-- No two free blocks touch. -/
def Coalesced (s : KState) : Prop := ∃ free, Listed s free ∧ NoneTouch free

/-- What `kernel_free(p)` needs for that: in the list with the block of `p`
in front, blocks that touch follow each other. `kernel_free(NULL)` merges
nothing. -/
def FreesInOrder (s : KState) (p : Nat) : Prop :=
  ∃ free, Listed s free ∧
    if p = 0 then NoneTouch free
    else Followed (⟨p - 16, blockSize s.mem (p - 16)⟩ :: free)

/-- The block covers heap pages, and they end where it does. -/
def MaximalRun (pages : List Nat) (b : Blk) : Prop :=
  (∀ x, b.Has x → InPages pages x) ∧ ¬ InPages pages (b.h - 1) ∧ ¬ InPages pages b.fin

/-- Without live blocks the free blocks are all of the heap, so a block
that touches no other ends where its pages do. -/
theorem HeapInv.maximal
    (h : HeapInv m fl pages free []) (hnone : NoneTouch free) (hb : b ∈ free) :
    MaximalRun pages b := by
  have ht : Tiles Blk.h Blk.len (InPages pages) free := by
    have ht := h.tiles
    rw [List.append_nil] at ht
    exact ht
  have hlo := h.bounds (List.mem_append_left _ hb)
  refine ⟨fun x hx => ht.mem hb hx, fun hin => ?_, fun hin => ?_⟩
  · -- the block in front would end where `b` begins
    obtain ⟨c, hc, hcx⟩ := (ht.cover _).mp hin
    rw [← Blk.Has, Blk.has_iff] at hcx
    by_cases hle : c.h + (16 + c.size) ≤ b.h
    · refine hnone c hc b hb ?_
      unfold Blk.fin
      omega
    · have hcb : c = b := ht.eq_of_inside hc hb (a := b.h)
        (Blk.has_iff.mpr (by omega)) (Blk.has_iff.mpr (by omega))
      subst hcb
      omega
  · obtain ⟨c, hc, hcx⟩ := (ht.cover _).mp hin
    rw [← Blk.Has, Blk.has_iff] at hcx
    unfold Blk.fin at hcx
    by_cases hle : b.h + (16 + b.size) ≤ c.h
    · refine hnone b hb c hc ?_
      unfold Blk.fin
      omega
    · have hcb : c = b := ht.eq_of_inside hc hb (a := b.h + 15 + b.size)
        (Blk.has_iff.mpr (by omega)) (Blk.has_iff.mpr (by omega))
      subst hcb
      omega

/-- `kernel_free` leaves no two free blocks that touch just if the blocks
that touch before it, with the freed one in front of the list, follow each
other there. When it does and nothing is live any more, there is one free
block for each maximal run of heap pages. -/
theorem free_coalesces_iff (h : HeapRun E s live) {fuel p : Nat}
    (hp : p = 0 ∨ p ∈ live.map Prod.fst) (hrun : kernelFree fuel p s = (.ok (), s')) :
    (Coalesced s' ↔ FreesInOrder s p)
      ∧ (Coalesced s' → live.filter (fun x => x.1 ≠ p) = [] →
          ∃ free, Listed s' free ∧ (∀ b ∈ free, MaximalRun s'.heapPages b)
            ∧ ∀ x, InPages s'.heapPages x → ∃ b ∈ free, b.Has x) := by
  have hok := h.liveOk
  obtain ⟨free, hinv⟩ := hok.1.heap
  constructor
  · by_cases hp0 : p = 0
    · subst hp0
      rw [kernelFree_null] at hrun
      cases hrun
      unfold Coalesced FreesInOrder
      simp only [if_pos]
    · have hmem := hp.resolve_left hp0
      obtain ⟨m', rfl, hi, -⟩ := hok.freed hinv hmem hrun
      have hap : ((⟨p - 16, blockSize s.mem (p - 16)⟩ : Blk) :: free).Pairwise Blk.Apart := by
        have ht := (hinv.perm_used (hok.split hmem rfl)).tiles.perm List.perm_middle
        obtain ⟨h1, h2⟩ := List.pairwise_cons.mp ht.apart
        exact List.pairwise_cons.mpr ⟨fun x hx => h1 x (List.mem_append_left _ hx),
          (List.pairwise_append.mp h2).1⟩
      have hl : Listed { s with mem := m', freeList := p - 16 } _ := hi.listed
      constructor
      · rintro ⟨free', hl', hnone⟩
        refine ⟨free, hinv.listed, ?_⟩
        rw [if_neg hp0, ← noneTouch_join free hap, hl.unique hl']
        exact hnone
      · rintro ⟨free', hl', hord⟩
        rw [if_neg hp0, ← hinv.listed.unique hl', ← noneTouch_join free hap] at hord
        exact ⟨_, hl, hord⟩
  · rintro ⟨free', hl', hnone⟩ hlive
    have hok' := hok.frees hp hrun
    rw [hlive] at hok'
    obtain ⟨free'', hinv'⟩ := hok'.1.heap
    have hinv' : HeapInv s'.mem s'.freeList s'.heapPages free'' [] := hinv'
    rw [hinv'.listed.unique hl'] at hinv'
    refine ⟨free', hl', fun b hb => hinv'.maximal hnone hb, fun x hx => ?_⟩
    obtain ⟨b, hb, hbx⟩ := (hinv'.tiles.cover x).mp hx
    rw [List.append_nil] at hb
    exact ⟨b, hb, hbx⟩

/-- The heap of `twoBlocks` with the second block freed first. -/
theorem free_coalesces_iff_twoBlocks : Coalesced (kernelFree 9 0x1090 twoBlocks).2 := by
  have hrun := Prog.eq_of_toOption (a := ()) (x := kernelFree 9 0x1090) (s := twoBlocks)
    (by decide +kernel)
  refine (free_coalesces_iff twoBlocks_run (.inr (by decide)) hrun).1.mpr
    ⟨_, twoBlocks_listed, ?_⟩
  have hsize : blockSize twoBlocks.mem (0x1090 - 16) = 32 := by decide +kernel
  rw [if_neg (by decide), hsize]
  unfold Followed
  decide

/-- The heap of `twoBlocks` with both blocks freed, the first one first. -/
def bothFreed : KState := (kernelFree 9 0x1090 (kernelFree 9 0x1010 twoBlocks).2).2

/-- Three blocks are left, though nothing is live and the heap is one
page. -/
theorem free_leaves_neighbours :
    HeapRun plainKEnv bothFreed []
      ∧ Listed bothFreed [⟨0x1080, 32⟩, ⟨0x1000, 112⟩, ⟨0x10b0, 3904⟩]
      ∧ ¬ Coalesced bothFreed := by
  have h1 := Prog.eq_of_toOption (a := ()) (x := kernelFree 9 0x1010) (s := twoBlocks)
    (by decide +kernel)
  have h2 := Prog.eq_of_toOption (a := ()) (x := kernelFree 9 0x1090)
    (s := (kernelFree 9 0x1010 twoBlocks).2) (by decide +kernel)
  have hl : Listed bothFreed [⟨0x1080, 32⟩, ⟨0x1000, 112⟩, ⟨0x10b0, 3904⟩] := by
    refine ⟨⟨by decide +kernel, by decide +kernel, by decide +kernel, by decide +kernel,
      by decide +kernel, by decide +kernel, ?_⟩, by simp⟩
    show blockNext bothFreed.mem 0x10b0 = 0
    decide +kernel
  refine ⟨?_, hl, ?_⟩
  · obtain ⟨s₀, hp, hf, hrun⟩ := twoBlocks_run
    exact ⟨s₀, hp, hf, (hrun.tail (HeapStep.free (.inr (by decide)) h1)).tail
      (HeapStep.free (.inr (by decide)) h2)⟩
  · rintro ⟨free, hl', hnone⟩
    rw [← hl.unique hl'] at hnone
    exact hnone ⟨0x1000, 112⟩ (by decide) ⟨0x1080, 32⟩ (by decide) rfl

end RojocOS.Kernel
