/-
The heap of a user program.

`malloc` never looks how far its heap has grown. It starts at 2 MiB, and
the stack is the last page below 3 MiB. As long as all the memory asked for
so far ends below the stack, the regions follow one another in pages of
their own (`Tops`, `malloc_eq`); the call with which the sum goes beyond it
returns a region over the stack, whatever its size was, for the addition to
`heap_top` may also wrap (`user_heap_iff`).
-/
import RojocOS.Clib.Process

namespace RojocOS.Clib

open ByteMap Prog

variable {E : UserEnv} {u u' v : User} {size addr fuel last limit : Nat} {bytes : ByteMap}
  {regions : List (Nat × Nat)}
variable {k n : Nat} {sizes : List Nat}

-- ==== the loop

/-- The kernel has a page every time. -/
def UserEnv.Generous (E : UserEnv) : Prop := ∀ k, E.grant k = true

/-- `k` pages more, from `page_top` on. -/
structure Grown (u : User) (k : Nat) (u' : User) : Prop where
  heapTop : u'.heapTop = u.heapTop
  pageTop : u'.pageTop = u.pageTop + k * 4096
  pages : ∀ p, p ∈ u'.pages ↔ p ∈ u.pages ∨ ∃ j < k, p = u.pageTop + j * 4096
  stores : u'.stores = u.stores
  rest : ∀ x, x < u.pageTop ∨ u.pageTop + k * 4096 ≤ x → u'.bytes x = u.bytes x

theorem Grown.refl (u : User) : Grown u 0 u :=
  ⟨rfl, rfl, fun _ => ⟨.inl, fun h => h.resolve_right fun ⟨_, hj, _⟩ => absurd hj (Nat.not_lt_zero _)⟩,
    rfl, fun _ _ => rfl⟩

/-- The user after one turn of the loop. -/
def oneMore (u : User) : User :=
  { u with
    bytes := fill u.bytes u.pageTop 4096 0
    pages := u.pageTop :: u.pages
    pageTop := u64 (u.pageTop + 4096) }

theorem oneMore_pageTop (h : u.pageTop + 4096 < 2 ^ 64) :
    (oneMore u).pageTop = u.pageTop + 4096 := u64_of_lt h

theorem Grown.step (hlt : u.pageTop + 4096 < 2 ^ 64) (h : Grown (oneMore u) k u') :
    Grown u (k + 1) u' := by
  have htop := oneMore_pageTop hlt
  have hpt := h.pageTop
  rw [htop] at hpt
  refine ⟨h.heapTop, by omega, fun p => ?_, h.stores, fun x hx => ?_⟩
  · rw [h.pages, htop]
    show p ∈ u.pageTop :: u.pages ∨ _ ↔ _
    rw [List.mem_cons]
    constructor
    · rintro ((rfl | hp) | ⟨j, hj, rfl⟩)
      · exact .inr ⟨0, Nat.succ_pos k, rfl⟩
      · exact .inl hp
      · exact .inr ⟨j + 1, Nat.succ_lt_succ hj, by omega⟩
    · rintro (hp | ⟨j, hj, rfl⟩)
      · exact .inl (.inr hp)
      · cases j with
        | zero => exact .inl (.inl rfl)
        | succ j => exact .inr ⟨j, Nat.lt_of_succ_lt_succ hj, by omega⟩
  · rw [h.rest x (by rw [htop]; omega)]
    exact fill_of_not_mem (by omega)

theorem i32_low (h : n < 2 ^ 31) : 0 ≤ i32 n := by
  unfold i32 u32
  rw [if_pos (by omega)]
  omega

/-- One turn: the kernel gives the page at `page_top`. -/
theorem mallocLoop_turn (hE : E.Generous) (hlow : u.pageTop < 2 ^ 31)
    (hmore : u.pageTop ≤ roundDown (u64 (u.heapTop + size))) (fuel : Nat) :
    mallocLoop E size (fuel + 1) u = mallocLoop E size fuel (oneMore u) := by
  have hcall : sysPageAlloc E u.pageTop u = (.ok (i32 u.pageTop), { u with
      bytes := fill u.bytes u.pageTop 4096 0, pages := u.pageTop :: u.pages }) := by
    unfold sysPageAlloc
    rw [get_bind, if_pos (hE _)]
    rfl
  rw [mallocLoop, get_bind, if_pos hmore, bind_of_ok hcall,
    assert_bind (i32_low hlow), bind_of_ok (x := Prog.modify _) rfl]
  rfl

theorem mallocLoop_done (hdone : ¬ u.pageTop ≤ roundDown (u64 (u.heapTop + size)))
    (fuel : Nat) : mallocLoop E size (fuel + 1) u = (.ok (), u) := by
  rw [mallocLoop, get_bind, if_neg hdone]
  rfl

/-- The loop takes the pages up to the one of the new `heap_top`. -/
theorem mallocLoop_grows (hE : E.Generous) (k : Nat) : ∀ {fuel : Nat} {u : User},
    k < fuel → roundDown (u64 (u.heapTop + size)) = last → u.pageTop + k * 4096 < 2 ^ 31 →
    (∀ j < k, u.pageTop + j * 4096 ≤ last) → last < u.pageTop + k * 4096 →
    ∃ u', mallocLoop E size fuel u = (.ok (), u') ∧ Grown u k u' := by
  induction k with
  | zero =>
    intro fuel u hf hlast _ _ hdone
    obtain ⟨fuel, rfl⟩ : ∃ f, fuel = f + 1 := ⟨fuel - 1, by omega⟩
    exact ⟨u, mallocLoop_done (by rw [hlast]; omega) fuel, Grown.refl u⟩
  | succ k ih =>
    intro fuel u hf hlast hlow hmore hdone
    obtain ⟨fuel, rfl⟩ : ∃ f, fuel = f + 1 := ⟨fuel - 1, by omega⟩
    have hfirst := hmore 0 (Nat.succ_pos k)
    have hone : u.pageTop + 4096 < 2 ^ 31 := by
      omega
    have h64 : u.pageTop + 4096 < 2 ^ 64 := Nat.lt_trans hone (by decide)
    have htop := oneMore_pageTop h64
    have hnext : ∀ j, (oneMore u).pageTop + j * 4096 = u.pageTop + (j + 1) * 4096 := fun j => by
      rw [htop]
      omega
    obtain ⟨u', hrun, hg⟩ := ih (u := oneMore u) (Nat.lt_of_succ_lt_succ hf) hlast
      (by rw [hnext]; exact hlow) (fun j hj => by rw [hnext]; exact hmore _ (Nat.succ_lt_succ hj))
      (by rw [hnext]; exact hdone)
    refine ⟨u', ?_, hg.step h64⟩
    rw [mallocLoop_turn hE (Nat.lt_of_le_of_lt (Nat.le_add_right _ _) hlow) (hlast ▸ hfirst)]
    exact hrun

-- ==== one call

theorem roundDown_le (n : Nat) : roundDown n ≤ n := Nat.sub_le _ _

theorem lt_roundDown (n : Nat) : n < roundDown n + 4096 := by
  unfold roundDown
  omega

theorem roundDown_mod (n : Nat) : roundDown n % 4096 = 0 := by
  unfold roundDown
  omega

/-- `page_top` is the end of the pages obtained, which begin at 2 MiB. -/
structure Tops (u : User) : Prop where
  aligned : u.pageTop % 4096 = 0
  base : 0x200000 ≤ u.pageTop
  high : u.pageTop < 2 ^ 31
  pages : ∀ x, 0x200000 ≤ x → x < u.pageTop → roundDown x ∈ u.pages

theorem Tops.start (bytes : ByteMap) : Tops (User.start bytes) :=
  ⟨by simp [User.start], by simp [User.start], by simp [User.start],
    fun _ hx hlt => absurd hlt (Nat.not_lt.mpr hx)⟩

theorem Tops.grown (h : Tops u) (hg : Grown u k u') (hlow : u.pageTop + k * 4096 < 2 ^ 31) :
    Tops u' := by
  have htop := hg.pageTop
  have haligned := h.aligned
  have hbase := h.base
  refine ⟨by omega, by omega, by omega, fun x hx hlt => (hg.pages _).mpr ?_⟩
  by_cases hold : x < u.pageTop
  · exact .inl (h.pages x hx hold)
  · refine .inr ⟨(x - u.pageTop) / 4096, by omega, ?_⟩
    unfold roundDown
    omega

/-- What a call that returns does: the region starts at `heap_top`, which
moves behind it, and there are pages up to there. -/
structure Took (u : User) (size : Nat) (u' : User) : Prop where
  heapTop : u'.heapTop = u.heapTop + size
  covered : u'.heapTop ≤ u'.pageTop
  tops : Tops u'
  pages : ∀ p ∈ u.pages, p ∈ u'.pages
  grows : u.pageTop ≤ u'.pageTop
  bytes : ∀ x, x < u.pageTop ∨ u'.heapTop + 4096 ≤ x → u'.bytes x = u.bytes x

theorem Took.trans (h : Took u size v) (h' : Took v n u') : Took u (size + n) u' := by
  have htop := h'.heapTop
  have hgrows := h.grows
  refine ⟨by rw [htop, h.heapTop, Nat.add_assoc], h'.covered, h'.tops,
    fun p hp => h'.pages p (h.pages p hp), Nat.le_trans hgrows h'.grows, fun x hx => ?_⟩
  rw [h'.bytes x (hx.imp_left fun hlt => Nat.lt_of_lt_of_le hlt hgrows), h.bytes x (by omega)]

theorem malloc_eq (hE : E.Generous) (h : Tops u)
    (hroom : u.heapTop + size + 4096 < 2 ^ 31) :
    ∃ u', malloc E size u = (.ok u.heapTop, u') ∧ Took u size u' := by
  have h64 : u64 (u.heapTop + size) = u.heapTop + size :=
    u64_of_lt (Nat.lt_trans (Nat.lt_of_le_of_lt (Nat.le_add_right _ _) hroom) (by decide))
  obtain ⟨last, hlast⟩ : ∃ last, roundDown (u.heapTop + size) = last := ⟨_, rfl⟩
  have hlast' : roundDown (u64 (u.heapTop + size)) = last := by rw [h64, hlast]
  have hle := hlast ▸ roundDown_le (u.heapTop + size)
  have hlt := hlast ▸ lt_roundDown (u.heapTop + size)
  have hmod := hlast ▸ roundDown_mod (u.heapTop + size)
  have haligned := h.aligned
  have hhigh := h.high
  -- the turns it takes from `page_top` to the page behind the last one
  obtain ⟨k, hk⟩ : ∃ k, k = (last + 4096 - u.pageTop) / 4096 := ⟨_, rfl⟩
  have hlow : u.pageTop + k * 4096 < 2 ^ 31 := by omega
  obtain ⟨w, hrun, hg⟩ : ∃ w, mallocLoop E size (2 ^ 20) u = (.ok (), w) ∧ Grown u k w :=
    mallocLoop_grows hE k (by omega) hlast' hlow (fun j hj => by omega) (by omega)
  have htops := h.grown hg hlow
  have hh := hg.heapTop
  have hp := hg.pageTop
  refine ⟨{ w with heapTop := u64 (w.heapTop + size) }, ?_, ?_, ?_,
    ⟨htops.aligned, htops.base, htops.high, htops.pages⟩, fun p hp => (hg.pages p).mpr (.inl hp),
    ?_, fun x hx => hg.rest x ?_⟩
  · unfold malloc
    rw [bind_of_ok hrun, get_bind,
      bind_of_ok (x := Prog.modify _) rfl, ← hh, Prog.pure_apply]
  · show u64 (w.heapTop + size) = _
    rw [hh, h64]
  · show u64 (w.heapTop + size) ≤ w.pageTop
    rw [hh, h64, hp]
    omega
  · show u.pageTop ≤ w.pageTop
    omega
  · change x < u.pageTop ∨ u64 (w.heapTop + size) + 4096 ≤ x at hx
    rw [hh, h64] at hx
    omega

-- ==== a run

/-- The regions of calls of these sizes, one after the other. -/
def layout (addr : Nat) : List Nat → List (Nat × Nat)
  | [] => []
  | size :: sizes => (addr, size) :: layout (addr + size) sizes

def InRegion (r : Nat × Nat) (x : Nat) : Prop := r.1 ≤ x ∧ x < r.1 + r.2

theorem layout_within : ∀ {addr : Nat}, ∀ r ∈ layout addr sizes,
    addr ≤ r.1 ∧ r.1 + r.2 ≤ addr + sizes.sum := by
  induction sizes with
  | nil => intro addr r hr; cases hr
  | cons size sizes ih =>
    intro addr r hr
    rw [List.sum_cons]
    cases hr with
    | head => exact ⟨Nat.le_refl _, by show addr + size ≤ _; omega⟩
    | tail _ hr =>
      have := ih r hr
      omega

theorem layout_apart : ∀ {addr : Nat},
    (layout addr sizes).Pairwise fun r s => r.1 + r.2 ≤ s.1 := by
  induction sizes with
  | nil => intro addr; exact List.Pairwise.nil
  | cons size sizes ih => intro addr; exact List.Pairwise.cons (fun r hr => (layout_within r hr).1) ih

/-- Calls that ask for little enough return. -/
theorem mallocs_eq (hE : E.Generous) : ∀ {u : User}, Tops u →
    u.heapTop ≤ u.pageTop → u.heapTop + sizes.sum + 4096 < 2 ^ 31 →
    ∃ u', mallocs E sizes u = (.ok (layout u.heapTop sizes), u') ∧ Took u sizes.sum u' := by
  induction sizes with
  | nil => intro u h hle _; exact ⟨u, rfl, rfl, hle, h, fun _ hp => hp, Nat.le_refl _, fun _ _ => rfl⟩
  | cons size sizes ih =>
    intro u h hle hroom
    rw [List.sum_cons] at hroom ⊢
    obtain ⟨v, hfirst, hv⟩ := malloc_eq hE h (show u.heapTop + size + 4096 < 2 ^ 31 by omega)
    have hvtop := hv.heapTop
    obtain ⟨u', hrest, hu'⟩ := ih hv.tops hv.covered (by omega)
    refine ⟨u', ?_, hv.trans hu'⟩
    rw [mallocs, bind_of_ok hfirst, bind_of_ok hrest, hvtop, Prog.pure_apply]
    rfl

theorem mallocLoop_keeps : ∀ {u u' : User},
    mallocLoop E size fuel u = (.ok (), u') → u'.heapTop = u.heapTop ∧ u'.stores = u.stores := by
  induction fuel with
  | zero => intro u u' h; cases h
  | succ fuel ih =>
    intro u u' h
    rw [mallocLoop, get_bind] at h
    by_cases hmore : u.pageTop ≤ roundDown (u64 (u.heapTop + size))
    · rw [if_pos hmore, bind_ok] at h
      obtain ⟨r, v, hcall, h⟩ := h
      rw [bind_ok] at h
      obtain ⟨_, w, hassert, h⟩ := h
      cases (assert_ok.mp hassert).2
      rw [bind_of_ok (x := Prog.modify _) rfl] at h
      have hv : v.heapTop = u.heapTop ∧ v.stores = u.stores := by
        unfold sysPageAlloc at hcall
        rw [get_bind] at hcall
        split at hcall <;> · cases hcall; exact ⟨rfl, rfl⟩
      obtain ⟨hheap, hstores⟩ := ih h
      exact ⟨hheap.trans hv.1, hstores.trans hv.2⟩
    · rw [if_neg hmore] at h
      cases h
      exact ⟨rfl, rfl⟩

/-- A call that returns, however much it asked for. -/
theorem malloc_ok (h : malloc E size u = (.ok addr, u')) :
    addr = u.heapTop ∧ u'.heapTop = u64 (u.heapTop + size) ∧ u'.stores = u.stores := by
  unfold malloc at h
  rw [bind_ok] at h
  obtain ⟨_, v, hloop, h⟩ := h
  obtain ⟨hv, hstores⟩ := mallocLoop_keeps hloop
  rw [get_bind, bind_of_ok (x := Prog.modify _) rfl] at h
  cases h
  exact ⟨hv, by rw [← hv], hstores⟩

/-- Calls that ask for more than there is below `limit` return a region
over it: the one with which the sum goes beyond it. -/
theorem mallocs_over (hl : limit < 2 ^ 64) :
    ∀ {u u' : User} {regions : List (Nat × Nat)}, mallocs E sizes u = (.ok regions, u') →
    u.heapTop ≤ limit → limit < u.heapTop + sizes.sum → ∃ r ∈ regions, InRegion r limit := by
  induction sizes with
  | nil =>
    intro u u' regions _ hle hlt
    exact absurd hlt (Nat.not_lt.mpr hle)
  | cons size sizes ih =>
    intro u u' regions h hle hlt
    rw [List.sum_cons] at hlt
    rw [mallocs, bind_ok] at h
    obtain ⟨addr, v, hfirst, h⟩ := h
    rw [bind_ok] at h
    obtain ⟨rest, w, hrest, h⟩ := h
    cases h
    obtain ⟨rfl, hv, -⟩ := malloc_ok hfirst
    by_cases hover : limit < u.heapTop + size
    · exact ⟨_, List.mem_cons_self, hle, hover⟩
    · rw [u64_of_lt (by omega)] at hv
      obtain ⟨r, hr, hin⟩ := ih hrest (by omega) (by omega)
      exact ⟨r, List.mem_cons_of_mem _ hr, hin⟩

-- ==== the address space

/-- The addresses at which a process has pages before it calls `malloc`;
its stack is the page below 3 MiB. -/
structure AddressSpace where
  mapped : Nat → Prop
  stack : ∀ x, 0x2FF000 ≤ x → x < 0x300000 → mapped x

structure HeapSafe (A : AddressSpace) (pages : List Nat) (regions : List (Nat × Nat)) : Prop where
  disjoint : regions.Pairwise fun r s => ∀ x, InRegion r x → ¬ InRegion s x
  owned : ∀ r ∈ regions, ∀ x, InRegion r x → roundDown x ∈ pages
  stack : ∀ r ∈ regions, ∀ x, InRegion r x → ¬ (0x2FF000 ≤ x ∧ x < 0x300000)
  fresh : ∀ r ∈ regions, ∀ x, InRegion r x → ¬ A.mapped x

/-- The calls ask for at most what is between 2 MiB and the stack, and
there are no pages yet in the part they ask for. -/
structure HeapRoom (A : AddressSpace) (sizes : List Nat) : Prop where
  sum : sizes.sum ≤ 0xFF000
  unmapped : ∀ x, 0x200000 ≤ x → x < 0x200000 + sizes.sum → ¬ A.mapped x

variable {A : AddressSpace} {sizes : List Nat}

theorem HeapRoom.safe (h : HeapRoom A sizes) (hu : Took (User.start bytes) sizes.sum u') :
    HeapSafe A u'.pages (layout 0x200000 sizes) := by
  have hsum := h.sum
  have htop : u'.heapTop = 0x200000 + sizes.sum := hu.heapTop
  have hcover := hu.covered
  have hin : ∀ r ∈ layout 0x200000 sizes, ∀ x, InRegion r x →
      0x200000 ≤ x ∧ x < 0x200000 + sizes.sum := fun r hr x hx => by
    have hr := layout_within r hr
    have hx : r.1 ≤ x ∧ x < r.1 + r.2 := hx
    omega
  refine ⟨layout_apart.imp fun hrs x hr hs => ?_, fun r hr x hx => ?_, fun r hr x hx hstack => ?_,
    fun r hr x hx => ?_⟩
  · exact absurd hs.1 (Nat.not_le.mpr (Nat.lt_of_lt_of_le hr.2 hrs))
  · have := hin r hr x hx
    exact hu.tops.pages x this.1 (by omega)
  · have := hin r hr x hx
    omega
  · have := hin r hr x hx
    exact h.unmapped x this.1 this.2

theorem HeapSafe.room (hrun : mallocs E sizes (User.start bytes) = (.ok regions, u'))
    (h : HeapSafe A u'.pages regions) : HeapRoom A sizes := by
  have hsum : sizes.sum ≤ 0xFF000 := by
    by_contra hover
    have hlt : 0x2FF000 < (User.start bytes).heapTop + sizes.sum := by
      show 0x2FF000 < 0x200000 + sizes.sum
      omega
    obtain ⟨r, hr, hin⟩ := mallocs_over (by decide) hrun (by simp [User.start]) hlt
    exact h.stack r hr _ hin ⟨Nat.le_refl _, by decide⟩
  refine ⟨hsum, fun x hx hlt => ?_⟩
  obtain ⟨r, hr, hin⟩ := mallocs_over (by omega) hrun hx hlt
  exact h.fresh r hr x hin

/-- The heap of a program is safe exactly if the sizes add up to at most
`0xFF000` and nothing is mapped where they go. -/
theorem user_heap_iff (A : AddressSpace) (hE : E.Generous) (sizes : List Nat)
    (bytes : ByteMap) :
    (HeapRoom A sizes → ∃ regions u', mallocs E sizes (User.start bytes) = (.ok regions, u') ∧
      HeapSafe A u'.pages regions) ∧
    ∀ regions u', mallocs E sizes (User.start bytes) = (.ok regions, u') →
      (HeapSafe A u'.pages regions ↔ HeapRoom A sizes) := by
  have hreturns : HeapRoom A sizes → ∃ u', mallocs E sizes (User.start bytes) =
      (.ok (layout 0x200000 sizes), u') ∧ HeapSafe A u'.pages (layout 0x200000 sizes) := fun h => by
    have hsum := h.sum
    obtain ⟨u', hrun, hu⟩ := mallocs_eq (u := User.start bytes) hE (Tops.start bytes)
      (Nat.le_refl _) (by show 0x200000 + sizes.sum + 4096 < 2 ^ 31; omega)
    exact ⟨u', hrun, h.safe hu⟩
  refine ⟨fun h => ⟨_, hreturns h⟩, fun regions u' hrun => ⟨fun h => h.room hrun, fun h => ?_⟩⟩
  obtain ⟨v, hrun', hsafe⟩ := hreturns h
  rw [hrun] at hrun'
  cases hrun'
  exact hsafe

/-- The address space of a small program: its code, its arguments and its
stack. -/
def smallProgram : AddressSpace where
  mapped x := 0x100000 ≤ x ∧ x < 0x141000 ∨ 0x2FF000 ≤ x ∧ x < 0x300000
  stack _ hx hlt := .inr ⟨hx, hlt⟩

theorem user_heap_iff_small : ∃ regions u',
    mallocs ⟨fun _ => true⟩ [80, 0, 5000] (User.start fun _ => 0) = (.ok regions, u') ∧
      HeapSafe smallProgram u'.pages regions :=
  (user_heap_iff smallProgram (fun _ => rfl) [80, 0, 5000] fun _ => 0).1
    ⟨by decide, fun x hx hlt h => by
      have hlt : x < 0x200000 + 5080 := hlt
      rcases h with h | h <;> omega⟩

/-- One call for a byte more than there is: the region it returns reaches
into the stack, and the page of the stack is asked for again. -/
theorem malloc_over_stack : ∃ u',
    mallocs ⟨fun _ => true⟩ [0xFF001] (User.start fun _ => 0) = (.ok [(0x200000, 0xFF001)], u') ∧
      InRegion (0x200000, 0xFF001) 0x2FF000 ∧ 0x2FF000 ∈ u'.pages := by
  have hroom : (User.start fun _ => 0).heapTop + [0xFF001].sum + 4096 < 2 ^ 31 := by decide
  obtain ⟨u', hrun, hu⟩ := mallocs_eq (E := ⟨fun _ => true⟩) (fun _ => rfl)
    (Tops.start fun _ => 0) (Nat.le_refl _) hroom
  have hcover := hu.covered
  rw [hu.heapTop] at hcover
  exact ⟨u', hrun, ⟨by decide, by decide⟩,
    hu.tops.pages 0x2FF000 (by decide) (Nat.lt_of_lt_of_le (by decide) hcover)⟩

end RojocOS.Clib
