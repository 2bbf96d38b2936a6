/-
The descriptors of a process, as a table.

`fd_list` is meant to be a finite map from numbers to entries. But the list
functions are given the address of the list head and move the head itself:
`fdlist_add_entry` walks to the end before it adds, so it leaves a list of
one entry, and a search or a removal drops what it passes. What the list
holds is therefore the last descriptor, until a call asks for another.

`Refines` says that every number is found as the table has it. A call keeps
that just if no other descriptor than its own is open (`fd_table_iff`).
-/
import RojocOS.Kernel.Proofs.DescCalls
import Mathlib.Logic.Function.Basic

namespace RojocOS.Kernel

open ByteMap Prog

variable {E : KEnv} {G O : Prop} {role : Roles} {used : List Blk} {s s' : KState}
variable {fd fuel inode : Nat} {r : Int} {M M' : FdTable} {op : FdOp}

-- ==== calls

/-- What is left of the list is nothing. -/
theorem fdlistDrain_empty : ∀ {s s' u}, fdlistDrain fuel s = (.ok u, s') →
    s'.cur.fdList = 0 := by
  induction fuel with
  | zero =>
    intro s s' u h
    cases h
  | succ fuel ih =>
    intro s s' u h
    rw [fdlistDrain, get_bind] at h
    by_cases h0 : s.cur.fdList = 0
    · rw [if_pos h0] at h
      cases h
      exact h0
    · rw [if_neg h0] at h
      obtain ⟨_, s1, -, h2⟩ := bind_ok.mp h
      exact ih h2

/-- `fdlist_add_entry` leaves its own entry, or nothing. -/
theorem KInv.added {fd : Int} (h : KInv E G O role used s)
    (hrun : Kernel.fdlistAddEntry E fd inode s = (.ok r, s')) :
    (∃ used', KInv E G O role used' s')
      ∧ ((r = -1 ∧ s'.cur.fdList = 0)
        ∨ (r = 0 ∧ Descriptor s' (reg64 fd % 2 ^ 32) (inode % 2 ^ 32))) := by
  constructor
  · rcases h.fdlistAddEntry hrun with ⟨-, hk⟩ | ⟨-, e, -, hk, -⟩
    · exact ⟨used, hk⟩
    · exact ⟨e :: used, hk⟩
  obtain ⟨_, s1, h1, h2⟩ := bind_ok.mp hrun
  have hk1 := h.fdlistDrain h1
  obtain ⟨entry, s2, h3, h4⟩ := bind_ok.mp h2
  by_cases hentry : entry = 0
  · rw [if_pos hentry] at h4
    cases h4
    refine .inl ⟨rfl, ?_⟩
    rw [← fdlistDrain_empty h1]
    rcases (hk1.mach.kmalloc hk1.bare 24).1 entry s' h3 with ⟨-, -, -, hw⟩ | ⟨e, he, -⟩
    · unfold KState.cur
      rw [hw.rest]
    · omega
  · rw [if_neg hentry] at h4
    have h6 := bind_step h4 rfl
    have h8 := bind_step h6 rfl
    cases h8
    obtain ⟨hfd, hinode, hoff⟩ := load_fdBytes s2.mem entry fd inode
    have hcur := KState.updProc_same { s2 with mem := fdBytes s2.mem entry fd inode } s2.current
      fun p => { p with fdList := entry }
    have hentries : ∀ t : KState, t.cur.fdList = entry → t.mem = fdBytes s2.mem entry fd inode →
        Descriptor t (reg64 fd % 2 ^ 32) (inode % 2 ^ 32) := by
      intro t hl hm
      refine ⟨?_, ?_, ?_, ?_⟩
      · rw [hl]
        exact hentry
      · rw [hl, hm]
        exact hfd
      · rw [hl, hm]
        exact hinode
      · rw [hl, hm]
        exact hoff
    exact .inr ⟨rfl, hentries _ (congrArg Proc.fdList hcur) rfl⟩

/-- The entry at the head, if it is the one asked for. -/
def AtHead (s : KState) (fd : Nat) : Prop :=
  s.cur.fdList ≠ 0 ∧ load s.mem s.cur.fdList 4 = fd

/-- Behind the head there is nothing. -/
theorem KInv.advanced {u : Unit} (h : KInv E G O role used s) (h0 : s.cur.fdList ≠ 0)
    (hrun : Kernel.fdAdvance s = (.ok u, s')) : s'.cur.fdList = 0 := by
  have hcur := h.numbered.current
  have hnext := (h.fd s.current (by omega) hcur.2).next h0
  unfold Kernel.fdAdvance guardRead at hrun
  rw [get_bind] at hrun
  obtain ⟨-, h4⟩ := failIf_bind_ok hrun
  cases h4
  have hsame := s.updProc_same s.current fun p =>
    { p with fdList := load s.mem (p.fdList + 16) 8 }
  exact (congrArg Proc.fdList hsame).trans hnext

/-- A search finds the head, or empties the list. -/
theorem KInv.searched {a : Nat} (h : KInv E G O role used s)
    (hrun : Kernel.fdlistSearchEntry fd fuel s = (.ok a, s')) :
    (AtHead s fd ∧ a = s.cur.fdList ∧ s' = s)
      ∨ (¬ AtHead s fd ∧ a = 0 ∧ s'.cur.fdList = 0) := by
  cases fuel with
  | zero => cases hrun
  | succ fuel =>
    rw [Kernel.fdlistSearchEntry, get_bind] at hrun
    by_cases h0 : s.cur.fdList = 0
    · rw [if_pos h0] at hrun
      cases hrun
      exact .inr ⟨fun hx => hx.1 h0, rfl, h0⟩
    rw [if_neg h0] at hrun
    obtain ⟨-, h2⟩ := failIf_bind_ok hrun
    by_cases hfd : load s.mem s.cur.fdList 4 = fd
    · rw [if_pos hfd] at h2
      cases h2
      exact .inl ⟨⟨h0, hfd⟩, rfl, rfl⟩
    · rw [if_neg hfd] at h2
      obtain ⟨_, s2, h3, h4⟩ := bind_ok.mp h2
      have hempty := h.advanced h0 h3
      -- the next turn finds the list empty
      cases fuel with
      | zero => cases h4
      | succ fuel =>
        rw [Kernel.fdlistSearchEntry, get_bind, if_pos hempty] at h4
        cases h4
        exact .inr ⟨fun hx => hfd hx.2, rfl, hempty⟩

/-- A removal empties the list in any case. -/
theorem KInv.removed (h : KInv E G O role used s)
    (hrun : fdlistRemoveEntry fd fuel s = (.ok r, s')) :
    KInv E G O role used s' ∧ s'.cur.fdList = 0 := by
  cases fuel with
  | zero => cases hrun
  | succ fuel =>
    rw [fdlistRemoveEntry, get_bind] at hrun
    by_cases h0 : s.cur.fdList = 0
    · rw [if_pos h0] at hrun
      cases hrun
      exact ⟨h, h0⟩
    rw [if_neg h0] at hrun
    obtain ⟨-, h2⟩ := failIf_bind_ok hrun
    by_cases hfd : load s.mem s.cur.fdList 4 = fd
    · rw [if_pos hfd] at h2
      obtain ⟨_, s2, h3, h4⟩ := bind_ok.mp h2
      cases h4
      exact ⟨h.fdAdvance h0 h3, h.advanced h0 h3⟩
    · rw [if_neg hfd] at h2
      obtain ⟨_, s2, h3, h4⟩ := bind_ok.mp h2
      have hempty := h.advanced h0 h3
      cases fuel with
      | zero => cases h4
      | succ fuel =>
        rw [fdlistRemoveEntry, get_bind, if_pos hempty] at h4
        cases h4
        exact ⟨h.fdAdvance h0 h3, hempty⟩

-- ==== table

/-- The open descriptors: the inode of each number. -/
abbrev FdTable := Nat → Option Nat

/-- A call of one of the list functions. -/
inductive FdOp where
  | add (fd : Int) (inode : Nat)
  | search (fd : Nat)
  | remove (fd : Nat)

/-- The number it is about, as the entry has it. -/
def FdOp.number : FdOp → Nat
  | .add fd _ => reg64 fd % 2 ^ 32
  | .search fd => fd
  | .remove fd => fd

/-- A call that returns, and what it means for the table. -/
inductive FdStep (E : KEnv) : KState × FdTable → FdOp → KState × FdTable → Prop
  | added {s s' : KState} {M : FdTable} {fd : Int} {inode : Nat}
      (hfresh : M (reg64 fd % 2 ^ 32) = none)
      (hrun : fdlistAddEntry E fd inode s = (.ok 0, s')) :
      FdStep E (s, M) (.add fd inode)
        (s', Function.update M (reg64 fd % 2 ^ 32) (some (inode % 2 ^ 32)))
  | failed {s s' : KState} {M : FdTable} {fd : Int} {inode : Nat}
      (hfresh : M (reg64 fd % 2 ^ 32) = none)
      (hrun : fdlistAddEntry E fd inode s = (.ok (-1), s')) :
      FdStep E (s, M) (.add fd inode) (s', M)
  | searched {s s' : KState} {M : FdTable} {fd fuel a : Nat}
      (hrun : fdlistSearchEntry fd fuel s = (.ok a, s')) :
      FdStep E (s, M) (.search fd) (s', M)
  | removed {s s' : KState} {M : FdTable} {fd fuel : Nat} {r : Int}
      (hrun : fdlistRemoveEntry fd fuel s = (.ok r, s')) :
      FdStep E (s, M) (.remove fd) (s', Function.update M fd none)

/-- What a search for `fd` returns: `NULL`, or the entry of the inode, at
its start. -/
def Shows (s : KState) (fd : Nat) : Option Nat → Prop
  | none => ∃ fuel s', fdlistSearchEntry fd fuel s = (.ok 0, s')
  | some inode => ∃ fuel a s', fdlistSearchEntry fd fuel s = (.ok a, s') ∧ a ≠ 0
      ∧ load s'.mem a 4 = fd ∧ load s'.mem (a + 4) 4 = inode ∧ load s'.mem (a + 8) 4 = 0

/-- Every number is found as the table has it. -/
def Refines (s : KState) (M : FdTable) : Prop := ∀ fd, Shows s fd (M fd)

theorem Descriptor.atHead (h : Descriptor s fd inode) (fd' : Nat) :
    AtHead s fd' ↔ fd' = fd :=
  ⟨fun hx => hx.2.symm.trans h.fd, fun hx => ⟨h.some, h.fd.trans hx.symm⟩⟩

section

variable (h : KInv E G O role used s)

include h

/-- A search for what is not at the head returns `NULL`. -/
theorem KInv.shows_none (fd : Nat) : Shows s fd none ↔ ¬ AtHead s fd := by
  constructor
  · rintro ⟨fuel, s', hrun⟩
    rcases h.searched hrun with ⟨hx, h0, -⟩ | ⟨hx, -⟩
    · exact absurd h0.symm hx.1
    · exact hx
  · intro hx
    by_cases h0 : s.cur.fdList = 0
    · refine ⟨1, s, ?_⟩
      rw [Kernel.fdlistSearchEntry, get_bind, if_pos h0]
      rfl
    · -- the head is another one: the second turn finds nothing
      obtain ⟨b, hb, ha, hsize, -⟩ := h.head h0
      have hlast := h.used_byte hb (x := b.h + 39) (Blk.has_iff.mpr (by omega))
      have hstep : Kernel.fdAdvance s = (.ok (), s.updProc s.current fun p =>
          { p with fdList := load s.mem (p.fdList + 16) 8 }) := by
        unfold Kernel.fdAdvance guardRead
        rw [get_bind, failIf_bind (by omega)]
        rfl
      refine ⟨2, s.updProc s.current fun p =>
        { p with fdList := load s.mem (p.fdList + 16) 8 }, ?_⟩
      rw [Kernel.fdlistSearchEntry, get_bind, if_neg h0, guardRead,
        failIf_bind (by omega), if_neg fun hfd => hx ⟨h0, hfd⟩,
        bind_of_ok hstep, Kernel.fdlistSearchEntry, get_bind,
        if_pos (h.advanced h0 hstep)]
      rfl

theorem KInv.shows_some (fd inode : Nat) :
    Shows s fd (some inode) ↔ Descriptor s fd inode := by
  constructor
  · rintro ⟨fuel, a, s', hrun, ha, h1, h2, h3⟩
    rcases h.searched hrun with ⟨hx, rfl, rfl⟩ | ⟨-, h0, -⟩
    · exact ⟨hx.1, h1, h2, h3⟩
    · exact absurd h0 ha
  · intro hd
    exact ⟨1, _, s, h.search_head hd, hd.some, hd.fd, hd.inode, hd.offset⟩

/-- A list without entries stands for the empty table only. -/
theorem KInv.refines_empty (h0 : s.cur.fdList = 0) : Refines s M ↔ ∀ fd, M fd = none := by
  constructor
  · intro href fd
    have hs := href fd
    rcases hM : M fd with - | inode
    · rfl
    · rw [hM, h.shows_some] at hs
      exact absurd h0 hs.some
  · intro hM fd
    rw [hM fd, h.shows_none]
    exact fun hx => hx.1 h0

/-- A list with an entry stands for the table of this entry. -/
theorem KInv.refines_one (hd : Descriptor s fd inode) :
    Refines s M ↔ M fd = some inode ∧ ∀ fd' ≠ fd, M fd' = none := by
  constructor
  · intro href
    refine ⟨?_, fun fd' hne => ?_⟩
    · have hs := href fd
      rcases hM : M fd with - | inode'
      · rw [hM, h.shows_none] at hs
        exact absurd ((hd.atHead fd).mpr rfl) hs
      · rw [hM, h.shows_some] at hs
        rw [← hs.inode, hd.inode]
    · have hs := href fd'
      rcases hM : M fd' with - | inode'
      · rfl
      · rw [hM, h.shows_some] at hs
        exact absurd (hs.fd.symm.trans hd.fd) hne
  · rintro ⟨hM, hothers⟩ fd'
    by_cases hfd : fd' = fd
    · rw [hfd, hM, h.shows_some]
      exact hd
    · rw [hothers fd' hfd, h.shows_none, hd.atHead]
      exact hfd

theorem KInv.refines_head (href : Refines s M)
    (hx : AtHead s fd) : ∃ inode, Descriptor s fd inode := by
  have hs := href fd
  rcases hM : M fd with - | inode
  · rw [hM, h.shows_none] at hs
    exact absurd hx hs
  · rw [hM, h.shows_some] at hs
    exact ⟨inode, hs⟩

end

/-- No other descriptor is open. -/
def OnlyOpen (M : FdTable) (op : FdOp) : Prop := ∀ fd, fd ≠ op.number → M fd = none

theorem KInv.fd_step (h : KInv E G O role used s)
    (hs : FdStep E (s, M) op (s', M')) : ∃ used', KInv E G O role used' s' := by
  cases hs with
  | added _ hrun => exact (h.added hrun).1
  | failed _ hrun => exact (h.added hrun).1
  | searched hrun => exact ⟨used, (h.fdlistSearchEntry hrun).1⟩
  | removed hrun => exact ⟨used, (h.removed hrun).1⟩

/-- A call keeps the list and the table together just if no other
descriptor is open. -/
theorem KInv.fd_step_iff (h : KInv E G O role used s)
    (hs : FdStep E (s, M) op (s', M')) (href : Refines s M) : Refines s' M' ↔ OnlyOpen M op := by
  obtain ⟨used', h'⟩ := h.fd_step hs
  cases hs with
  | @added _ _ _ fd inode hfresh hrun =>
    rcases (h.added hrun).2 with ⟨hr, -⟩ | ⟨-, hd⟩
    · cases hr
    · rw [h'.refines_one hd]
      refine ⟨fun hM fd' hne => ?_, fun hM => ⟨Function.update_self .., fun fd' hne => ?_⟩⟩
      · have hupd := hM.2 fd' hne
        rwa [Function.update_of_ne (show fd' ≠ reg64 fd % 2 ^ 32 from hne)] at hupd
      · rw [Function.update_of_ne hne]
        exact hM fd' hne
  | @failed _ _ _ fd inode hfresh hrun =>
    rcases (h.added hrun).2 with ⟨-, h0⟩ | ⟨hr, -⟩
    · rw [h'.refines_empty h0]
      refine ⟨fun hM fd' _ => hM fd', fun hM fd' => ?_⟩
      by_cases hfd : fd' = reg64 fd % 2 ^ 32
      · rw [hfd]
        exact hfresh
      · exact hM fd' hfd
    · cases hr
  | @searched _ _ _ fd fuel a hrun =>
    rcases h.searched hrun with ⟨hx, -, rfl⟩ | ⟨hx, -, h0⟩
    · obtain ⟨inode, hd⟩ := h.refines_head href hx
      exact ⟨fun _ => ((h.refines_one hd).mp href).2, fun _ => href⟩
    · rw [h'.refines_empty h0]
      refine ⟨fun hM fd' _ => hM fd', fun hM fd' => ?_⟩
      by_cases hfd : fd' = fd
      · -- it was not found before either
        have hs := href fd
        rcases hMfd : M fd with - | inode
        · rw [hfd, hMfd]
        · rw [hMfd, h.shows_some] at hs
          exact absurd ((hs.atHead fd).mpr rfl) hx
      · exact hM fd' hfd
  | @removed _ _ _ fd fuel r hrun =>
    rw [h'.refines_empty (h.removed hrun).2]
    refine ⟨fun hM fd' hne => ?_, fun hM fd' => ?_⟩
    · have hupd := hM fd'
      rwa [Function.update_of_ne (show fd' ≠ fd from hne)] at hupd
    · by_cases hfd : fd' = fd
      · rw [hfd, Function.update_self]
      · rw [Function.update_of_ne hfd]
        exact hM fd' hfd

-- ==== runs

/-- The lists and tables that calls lead to, each meeting `C`, from an empty
list. -/
inductive FdRun (E : KEnv) (C : FdTable → FdOp → Prop) (s₀ : KState) :
    KState → FdTable → Prop
  | start : FdRun E C s₀ s₀ fun _ => none
  | step {s s' : KState} {M M' : FdTable} {op : FdOp} (h : FdRun E C s₀ s M) (hC : C M op)
      (hs : FdStep E (s, M) op (s', M')) : FdRun E C s₀ s' M'

theorem FdRun.inv {C : FdTable → FdOp → Prop} {s0 : KState}
    (hrun : FdRun E C s0 s M) (h : KInv E G O role used s0) :
    ∃ used', KInv E G O role used' s := by
  induction hrun with
  | start => exact ⟨used, h⟩
  | step _ _ hs ih =>
    obtain ⟨_, hk⟩ := ih
    exact hk.fd_step hs

/-- The list refines the table along every run whose calls find no other
descriptor open; and a call that finds one breaks it. -/
theorem fd_table_iff {s₀ : KState} (h : KInv E G O role used s₀) (h0 : s₀.cur.fdList = 0) :
    (∀ s M, FdRun E OnlyOpen s₀ s M → Refines s M)
      ∧ ∀ s s' M M' op, FdRun E (fun _ _ => True) s₀ s M → Refines s M →
          FdStep E (s, M) op (s', M') → (Refines s' M' ↔ OnlyOpen M op) := by
  constructor
  · intro s M hrun
    induction hrun with
    | start => exact (h.refines_empty h0).mpr fun _ => rfl
    | step hrun hC hs ih =>
        obtain ⟨_, hk⟩ := hrun.inv h
        exact (hk.fd_step_iff hs ih).mpr hC
  · intro s s' M M' op hrun href hs
    obtain ⟨_, hk⟩ := hrun.inv h
    exact hk.fd_step_iff hs href

/-- Process 1 adds descriptor 1, for inode 7, right after boot. -/
theorem first_descriptor : ∃ s role s', Booted patientKEnv s
    ∧ KInv patientKEnv True True role [] s ∧ s.cur.fdList = 0
    ∧ fdlistAddEntry patientKEnv 1 7 s = (.ok 0, s') := by
  obtain ⟨s, role, h⟩ := patient_started
  have hfd : s.cur.fdList = 0 := by
    rw [KState.cur, h.up.table.current]
    exact (h.up.table.entry 1 (by decide) (by decide)).fdList
  have hroom : Roomy patientKEnv (299 + 1) s := by
    refine ⟨by decide, ?_, ?_⟩
    · rw [h.heap]
      decide
    · rw [length_freeQueue]
      exact h.patient_room
  obtain ⟨e, t, -, -, -, hadd⟩ := h.up.inv.fdlistAddEntry_eq hroom hfd 1 7
  exact ⟨s, role, _, h.booted, h.up.inv, hfd, hadd⟩

theorem fd_table_iff_first : ∃ s s', Booted patientKEnv s
    ∧ fdlistAddEntry patientKEnv 1 7 s = (.ok 0, s')
    ∧ Refines s' (Function.update (fun _ => none) 1 (some 7)) := by
  obtain ⟨s, role, s', hboot, hk, hfd, hadd⟩ := first_descriptor
  have hstep : FdStep patientKEnv (s, fun _ => none) (.add 1 7)
      (s', Function.update (fun _ => none) 1 (some 7)) := FdStep.added rfl hadd
  exact ⟨s, s', hboot, hadd,
    (fd_table_iff hk hfd).1 s' _ (FdRun.step FdRun.start (fun _ _ => rfl) hstep)⟩

/-- A search for descriptor 2, which is not there, loses descriptor 1. -/
theorem fd_search_loses : ∃ s s₁ s₂ fuel, Booted patientKEnv s
    ∧ fdlistAddEntry patientKEnv 1 7 s = (.ok 0, s₁)
    ∧ fdlistSearchEntry 2 fuel s₁ = (.ok 0, s₂)
    ∧ Shows s₁ 1 (some 7) ∧ Shows s₂ 1 none := by
  obtain ⟨s, role, s₁, hboot, hk, hfd, hadd⟩ := first_descriptor
  obtain ⟨⟨used₁, hk₁⟩, ⟨hr, -⟩ | ⟨-, hd⟩⟩ := hk.added hadd
  · cases hr
  have hone : reg64 1 % 2 ^ 32 = 1 := by decide
  rw [hone] at hd
  have hnot : ¬ AtHead s₁ 2 := fun hx => absurd ((hd.atHead 2).mp hx) (by decide)
  obtain ⟨fuel, s₂, hsearch⟩ := (hk₁.shows_none 2).mpr hnot
  have hk₂ := (hk₁.fdlistSearchEntry hsearch).1
  refine ⟨s, s₁, s₂, fuel, hboot, hadd, hsearch, (hk₁.shows_some 1 7).mpr hd, ?_⟩
  rcases hk₁.searched hsearch with ⟨hx, -⟩ | ⟨-, -, h0⟩
  · exact absurd hx hnot
  · exact (hk₂.shows_none 1).mpr fun hx => hx.1 h0

end RojocOS.Kernel
