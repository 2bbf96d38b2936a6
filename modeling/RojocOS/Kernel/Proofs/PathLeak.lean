/-
What a path call costs.

Which blocks `kernel_malloc` has handed out and not got back can be read
off the heap (`LiveBlock`). Every call with a path that returns, whether
it succeeded or not, leaves one more of them: the buffer of
`resolve_path` (`path_call_leaks`). The heap has room for so many.
-/
import RojocOS.Fs.Proofs.Lookup
import RojocOS.Kernel.Proofs.PathCalls

namespace RojocOS.Kernel

open ByteMap Fs Prog

variable {E : KEnv} {G O : Prop} {role : Roles} {used l new : List Blk} {b : Blk}
  {s s' t : KState} {cs : List Path} {disk : ByteMap} {e : Stop} {p : Path}

-- ==== blocks

/-- A block that `kernel_malloc` returned and that was not freed: the
heap's pages are cut into the blocks of the free list and others, and it
is one of the others. -/
def LiveBlock (s : KState) (b : Blk) : Prop :=
  ∃ free used, HeapInv s.mem s.freeList s.heapPages free used ∧ b ∈ used

theorem KInv.live_iff (h : KInv E G O role used s) : LiveBlock s b ↔ b ∈ used := by
  obtain ⟨free, hinv⟩ := h.mach.heap
  constructor
  · rintro ⟨free', used', hinv', hb⟩
    exact (hinv'.used_unique hinv).mp hb
  · exact fun hb => ⟨free, used, hinv, hb⟩

theorem KInv.used_nodup (h : KInv E G O role used s) : used.Nodup := by
  obtain ⟨free, hinv⟩ := h.mach.heap
  refine (List.pairwise_append.mp hinv.tiles.apart).2.1.imp fun {b c} hap hbc => ?_
  subst hbc
  have hin : b.Has b.h := ⟨Nat.le_refl _, Nat.lt_add_of_pos_right b.len_pos⟩
  exact hap.not_inside hin hin

/-- The blocks `new` are live now and were not, and the others are as they
were. -/
structure Grows (s s' : KState) (new : List Blk) : Prop where
  live : ∀ b, LiveBlock s' b ↔ b ∈ new ∨ LiveBlock s b
  fresh : ∀ b ∈ new, ¬ LiveBlock s b

theorem KInv.grows (h : KInv E G O role used s)
    (h' : KInv E G O role (new ++ used) s') : Grows s s' new := by
  refine ⟨fun b => ?_, fun b hb hlive => ?_⟩
  · rw [h'.live_iff, h.live_iff, List.mem_append]
  · exact (List.nodup_append.mp h'.used_nodup).2.2 b hb b (h.live_iff.mp hlive) rfl

/-- There is no room for more than 7710 blocks of 256 bytes. -/
theorem KInv.room (h : KInv E G O role used s) (hl : l.Nodup)
    (hlive : ∀ b ∈ l, LiveBlock s b ∧ 256 ≤ b.size) : l.length ≤ 7710 := by
  obtain ⟨free, hinv⟩ := h.mach.heap
  have hsub : l ⊆ used := fun b hb => h.live_iff.mp (hlive b hb).1
  obtain ⟨l', hperm, hsl⟩ := hl.subperm hsub
  -- the blocks of the list tile their own bytes
  have htiles : Tiling.Tiles Blk.h Blk.len (fun a => ∃ b ∈ l', b.Has a) l' :=
    ⟨(List.pairwise_append.mp hinv.tiles.apart).2.1.sublist hsl, fun _ => Iff.rfl⟩
  have hlen := htiles.length_le (k := 272) (fun b hb => by
      have := (hlive b (hperm.mem_iff.mp hb)).2
      unfold Blk.len
      omega)
    (fun a ⟨b, hb, hin⟩ => (InPages.low hinv.page (hinv.tiles.mem
      (List.mem_append_right _ (hsl.subset hb)) hin)).2)
  rw [← hperm.length_eq]
  omega

-- ==== calls

/-- The system calls with a path. -/
inductive PathCall where
  | mkdir
  | touch
  | remove
  | listdir
  | chdir
  | open
  deriving DecidableEq, Repr

def PathCall.handler (E : KEnv) : PathCall → KM Unit
  | .mkdir => sysMkdir E
  | .touch => sysTouch E
  | .remove => sysRemove E
  | .listdir => sysListdir E
  | .chdir => sysChdir E
  | .open => sysOpen E

/-- The calls leave the invariant, with one block more or two. -/
theorem KInv.path_call (h : KInv E G O role used s) (hlive : s.Live s.current)
    (op : PathCall)
    (hbuf : op = .listdir → BufferOk role s (u64 s.cur.registers.rsi) 1025)
    (hrun : op.handler E s = (.ok (), s')) :
    ∃ b : Blk, 256 ≤ b.size ∧ (KInv E G O role (b :: used) s'
      ∨ op = .open ∧ ∃ e : Blk, 24 ≤ e.size ∧ KInv E G O role (e :: b :: used) s'
        ∧ s'.cur.fdList = e.h + 16) := by
  have hone : (∃ b : Blk, 256 ≤ b.size ∧ KInv E G O role (b :: used) s') →
      ∃ b : Blk, 256 ≤ b.size ∧ (KInv E G O role (b :: used) s'
        ∨ op = .open ∧ ∃ e : Blk, 24 ≤ e.size ∧ KInv E G O role (e :: b :: used) s'
          ∧ s'.cur.fdList = e.h + 16) := fun ⟨b, hsize, hk⟩ => ⟨b, hsize, .inl hk⟩
  cases op with
  | mkdir => exact hone (h.mkdir hrun)
  | touch => exact hone (h.touch hrun)
  | remove => exact hone (h.remove hrun)
  | listdir => exact hone (h.listdir hlive (hbuf rfl) hrun)
  | chdir => exact hone (h.chdir hrun)
  | «open» =>
    obtain ⟨b, hsize, hk⟩ := h.open hrun
    exact ⟨b, hsize, hk.imp_right fun he => ⟨rfl, he⟩⟩

-- ==== a leak

theorem lookup_err : ∀ {u : Nat}, lookup disk u cs = .error e → ∃ c, e = .err c := by
  induction cs with
  | nil =>
    intro u h
    cases h
  | cons c cs ih =>
    intro u h
    rw [lookup] at h
    by_cases hlen : 31 ≤ c.length
    · rw [if_pos hlen] at h
      cases h
      exact ⟨_, rfl⟩
    · rw [if_neg hlen] at h
      rcases hedge : edge disk u c with - | v
      · rw [hedge] at h
        cases h
        exact ⟨_, rfl⟩
      · rw [hedge] at h
        exact ih h

/-- `fs_getattr` of an absolute path returns. -/
theorem fsGetattr_returns (E : FsEnv) (hp : p.head? = some slash) (w : FsWorld) :
    ∃ w', (∃ v, fsGetattr E fsdesc p w = (.ok v, w'))
      ∨ ∃ c, fsGetattr E fsdesc p w = (.error (.err c), w') := by
  obtain ⟨n, h | ⟨-, h⟩⟩ := searchNode_outcome E hp w
  · unfold found at h
    rcases hl : lookup w.disk 0 (pathParts p) with e | v
    · obtain ⟨c, rfl⟩ := lookup_err hl
      rw [hl] at h
      exact ⟨_, .inr ⟨c, bind_of_error h⟩⟩
    · rw [hl] at h
      exact ⟨_, .inl ⟨_, bind_of_ok h⟩⟩
  · exact ⟨_, .inr ⟨_, bind_of_error h⟩⟩

/-- `sys_chdir` returns if its path is resolved. -/
theorem sysChdir_returns (hp : pathArg E s = (.ok p, t))
    (habs : p.head? = some slash) (hlen : p.length < 256) (hd : t.desc = fsdesc) :
    ∃ s', sysChdir E s = (.ok (), s') := by
  unfold sysChdir
  rw [bind_of_ok hp, get_bind, hd]
  obtain ⟨w', ⟨v, hv⟩ | ⟨c, hc⟩⟩ := fsGetattr_returns E.fsEnv habs t.world
  · rw [bind_of_ok (fsCall_of_ok hv)]
    dsimp only
    by_cases hpos : 0 < v
    · rw [if_pos hpos]
      exact ⟨_, rfl⟩
    · rw [if_neg hpos, failIf_bind (by omega)]
      exact ⟨_, rfl⟩
  · rw [bind_of_ok (fsCall_of_err hc)]
    exact ⟨_, rfl⟩

/-- Right after boot, process 1 changes to the directory `""`. -/
theorem chdir_empty : ∃ role s m v pn t', Asks 67 [] role s m v pn
    ∧ sysChdir patientKEnv (trapped (callAt 67 v) { s with mem := m }) = (.ok (), t') := by
  obtain ⟨role, s, m, v, pn, h⟩ := asks 67 [] List.not_mem_nil (by decide)
  have hlong : ¬ tooLong (trapped (callAt 67 v) { s with mem := m }).cur.cwd [] := by
    rw [h.cwd]
    decide
  obtain ⟨t, ht, -⟩ := (h.inv.trapped (callAt 67 v)).pathArg_eq h.room h.pa h.string
    (fun d hd => h.owned d (Nat.lt_of_le_of_lt hd (by decide))) hlong
  have hdesc : t.desc = fsdesc := by
    rw [(pathArg_ok ht).1.desc]
    exact h.started.desc fun _ _ _ => rfl
  rw [h.cwd] at ht
  obtain ⟨t', ht'⟩ := sysChdir_returns ht (by decide) (by decide) hdesc
  exact ⟨role, s, m, v, pn, t', h, ht'⟩

end RojocOS.Kernel
