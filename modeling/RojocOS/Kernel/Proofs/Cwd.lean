/-
The working directory in its 256 bytes.

`p_cwd` is written in three places: `process_setup` and `sys_fork` copy
it from another entry, and `sys_chdir` puts a path of `resolve_path`
there. So it is in bounds as long as the paths are (`Housed`). A path is
built in a buffer of 256 bytes by `join_path`, which does not look at how
much it writes. Whether that is safe depends on the string of the process
and its directory alone (`Fits`, `cwd_in_bounds`); a string of 256 bytes
is enough to leave the buffer (`long_path_overruns`).
-/
import RojocOS.Kernel.Proofs.PathCalls

namespace RojocOS.Kernel

open ByteMap Fs Prog

variable {E : KEnv} {s s' : KState} {buffer : Nat} {cwd path : Path} {ev : Event}
  {i pid : Int} {p q : Proc} {t : Trap}

-- ==== entries

/-- A directory in bounds, and a parent to copy another one from. -/
structure HousedEntry (p : Proc) : Prop where
  parent : 0 ≤ p.parent ∧ p.parent < 16
  len : p.cwd.length < 256
  root : Absolute p.cwd

/-- All entries are such. -/
def Housed (s : KState) : Prop := ∀ i : Int, 0 ≤ i → i < 16 → HousedEntry (s.processes i)

theorem HousedEntry.of_same (h : HousedEntry p) (hpar : q.parent = p.parent)
    (hcwd : q.cwd = p.cwd) : HousedEntry q :=
  ⟨hpar.symm ▸ h.parent, hcwd.symm ▸ h.len, hcwd.symm ▸ h.root⟩

theorem Housed.updProc (h : Housed s) {f : Proc → Proc}
    (hf : ∀ p, (f p).parent = p.parent ∧ (f p).cwd = p.cwd) : Housed (s.updProc i f) := by
  intro j h0 h16
  by_cases hj : j = i
  · rw [hj, s.updProc_same, ← hj]
    exact (h j h0 h16).of_same (hf _).1 (hf _).2
  · rw [s.updProc_other f hj]
    exact h j h0 h16

theorem Serves.housed (h : Serves s s') (hs : Housed s) : Housed s' := by
  intro i h0 h16
  by_cases hi : i = s.current
  · have hcur : s'.processes i = s'.cur := by
      unfold KState.cur
      rw [h.current, hi]
    have hold : HousedEntry s.cur := hs s.current (hi ▸ h0) (hi ▸ h16)
    rw [hcur]
    rcases h.cwd with hcwd | hcwd
    · exact hold.of_same h.role.parent hcwd
    · refine ⟨?_, hcwd.len, .inr hcwd.root⟩
      rw [h.role.parent]
      exact hold.parent
  · rw [h.others i hi]
    exact hs i h0 h16

theorem Housed.processKill (hs : Housed s)
    (h : processKill E pid s = (.ok (), s')) : Housed s' := by
  intro i h0 h16
  have hold := hs i h0 h16
  rw [processKill_processes h]
  split
  · exact hold.of_same rfl rfl
  · split
    · exact hold.of_same rfl rfl
    · exact hold

theorem Act.housed (h : Act E t s s') (hn : Numbered s) (hs : Housed s) : Housed s' := by
  have hcur := hn.current
  cases h with
  | serve h => exact h.housed hs
  | fault => exact hs.updProc fun _ => ⟨rfl, rfl⟩
  | forget _ _ _ _ _ h => exact h.housed (hs.updProc fun _ => ⟨rfl, rfl⟩)
  | block _ _ _ _ h => exact (h.housed hs).updProc fun _ => ⟨rfl, rfl⟩
  | exit _ h hkill => exact (h.housed hs).processKill hkill
  | kill h hkill => exact (h.housed hs).processKill hkill
  | @fork _ s1 _ c pagetable hslot h h' =>
    have hproc : s1.processes = s.processes := h.processes
    refine h'.housed fun i h0 h16 => ?_
    have heq := forkChild_processes s.current c pagetable s1 i
    rw [hproc] at heq
    have hparent : HousedEntry s.cur := hs s.current (by omega) hcur.2
    -- the child works where its parent does
    rw [heq]
    split
    · refine ⟨?_, hparent.len, hparent.root⟩
      show 0 ≤ (s.processes s.current).pid ∧ (s.processes s.current).pid < 16
      rw [hn.pids _ (by omega) hcur.2]
      omega
    · exact hs i h0 h16
  | @exec _ s1 s2 s3 _ n keep h hrelease hsetup h' =>
    have hs1 := h.housed hs
    have hren := processSetup_ok hsetup
    have hproc : s2.processes = s1.processes := by rw [releasePages_ok hrelease]
    have hold : HousedEntry s.cur := hs s.current (by omega) hcur.2
    refine h'.housed fun i h0 h16 => ?_
    -- the new program works where the parent does
    by_cases hi : i = s.cur.pid
    · have hfrom := hs1 s.cur.parent hold.parent.1 hold.parent.2
      rw [← hproc] at hfrom
      refine ⟨?_, ?_, ?_⟩
      · rw [hi, hren.parent]
        exact hold.parent
      · rw [hi, hren.cwd]
        exact hfrom.len
      · rw [hi, hren.cwd]
        exact hfrom.root
    · rw [hren.others i hi, hproc]
      exact hs1 i h0 h16

theorem BootTable.housed (h : BootTable s) : Housed s := by
  intro i h0 h16
  have he := h.entry i h0 h16
  refine ⟨by rw [he.parent]; decide, ?_, ?_⟩
  · rw [he.cwd]
    split <;> decide
  · rw [he.cwd]
    split
    · exact .inr rfl
    · exact .inl rfl

theorem Housed.step (hs : Housed s) (hn : Numbered s) (h : KStep E s ev s') :
    Housed s' := by
  cases h with
  | user h => exact hs
  | trap h =>
    obtain ⟨s1, s2, hin, hact, hout⟩ := exception_act h
    have hs2 := hact.housed (hin.serves.numbered hn) (hin.serves.housed hs)
    intro i h0 h16
    rw [hout.processes]
    exact hs2 i h0 h16

theorem Reached.housed {C : KState → Event → Prop} (h : Reached E C s) : Housed s :=
  (h.induct (fun _ hb => hb.bootTable.housed)
    fun _ _ _ hn _ hs hstep => hs.step hn hstep).2

-- ==== paths

/-- The traps with a path. -/
def Trap.HasPath (t : Trap) : Prop :=
  t = .open ∨ t = .remove ∨ t = .mkdir ∨ t = .touch ∨ t = .chdir ∨ t = .listdir

/-- Whatever string a call passes, it fits. -/
def ShortPaths (E : KEnv) (s : KState) : Event → Prop
  | .user _ => True
  | .trap regs => (trapOf regs.intno).HasPath → ∀ s₁ str buffer t, Entered E regs s s₁ →
      Joins E s₁ str buffer t → Fits s₁.cur.cwd str

/-- `join_path` stays in its buffer. -/
theorem joinPath_not_wild (buffer : Nat) (h : ¬ tooLong cwd path) (s : KState) :
    (joinPath cwd path buffer s).1 ≠ .error .wild := by
  by_cases h0 : buffer = 0
  · rw [h0, joinPath_null]
    simp
  · obtain ⟨s', heq⟩ := joinPath_eq h0 h
    rw [heq]
    simp

/-- And leaves it otherwise. -/
theorem joinPath_wild (h0 : buffer ≠ 0)
    (habs : path.head? = some slash) (h : 256 ≤ (joinAbsolute path).length) (cwd : Path)
    (s : KState) : joinPath cwd path buffer s = (.error .wild, s) := by
  have hwrite : writePath buffer (joinAbsolute path) s = (.error .wild, s) := by
    unfold writePath
    rw [failIf_bind h0]
    exact bind_of_error (failIf_of h)
  unfold joinPath
  rw [if_pos habs, bind_of_error hwrite]

-- ==== runs

/-- While the strings of the processes fit, every working directory has at
most 255 bytes and so has every path `resolve_path` builds; building it
writes nothing behind the buffer. -/
theorem cwd_in_bounds (h : Reached E (ShortPaths E) s) :
    (∀ i : Int, 0 ≤ i → i < 16 → (s.processes i).cwd.length ≤ 255) ∧
    ∀ regs s₁ str buffer t, ShortPaths E s (.trap regs) → (trapOf regs.intno).HasPath →
      Entered E regs s s₁ → Joins E s₁ str buffer t →
      pathArg E s₁ = joinPath s₁.cur.cwd str buffer t
        ∧ (resolved s₁.cur.cwd str).length ≤ 255 ∧ (pathArg E s₁).1 ≠ .error .wild := by
  have hs := h.housed
  refine ⟨fun i h0 h16 => Nat.le_of_lt_succ (hs i h0 h16).len, ?_⟩
  intro regs s₁ str buffer t hshort hpath hin hjoin
  have hn := hin.serves.numbered h.numbered
  have hentry : HousedEntry s₁.cur :=
    hin.serves.housed hs s₁.current (by have := hn.current.1; omega) hn.current.2
  have hfits := (hshort hpath s₁ str buffer t hin hjoin).not_tooLong hentry.root
  refine ⟨hjoin.pathArg, ?_, ?_⟩
  · have hlen : ¬ 256 ≤ (resolved s₁.cur.cwd str).length := fun hl => hfits (.inr hl)
    omega
  · rw [hjoin.pathArg]
    exact joinPath_not_wild buffer hfits t

/-- The empty string, right after boot. -/
theorem cwd_in_bounds_empty : ∃ s regs s₁ buffer t, Reached patientKEnv
    (ShortPaths patientKEnv) s
    ∧ trapOf regs.intno = .mkdir ∧ Entered patientKEnv regs s s₁
    ∧ Joins patientKEnv s₁ [] buffer t ∧ (resolved s₁.cur.cwd []).length ≤ 255
    ∧ (pathArg patientKEnv s₁).1 ≠ .error .wild := by
  obtain ⟨role, s, m, v, pn, h⟩ := asks 68 [] List.not_mem_nil (by decide)
  have hreach : Reached patientKEnv (ShortPaths patientKEnv) { s with mem := m } :=
    ⟨s, h.started.booted, .single ⟨.user m, trivial, h.step⟩⟩
  have hshort : ShortPaths patientKEnv { s with mem := m } (.trap (callAt 68 v)) := by
    intro _ s₁ str buffer t hin hjoin
    obtain ⟨hcwd, _, _, -, hjoin'⟩ := h.joins (by decide) hin
    obtain rfl := hjoin.unique hjoin'
    rw [hcwd]
    decide
  obtain ⟨-, buffer, t, -, hjoin⟩ := h.joins (by decide) h.entered
  obtain ⟨-, hlen, hwild⟩ := (cwd_in_bounds hreach).2 (callAt 68 v) _ [] buffer t hshort
    (.inr (.inr (.inl rfl))) h.entered hjoin
  exact ⟨_, _, _, buffer, t, hreach, rfl, h.entered, hjoin, hlen, hwild⟩

/-- A path with nothing to leave out. -/
theorem joinAbsolute_replicate (n : Nat) :
    joinAbsolute (slash :: List.replicate n 97) = slash :: List.replicate n 97 := by
  have hsqueeze : squeezeFrom false (List.replicate n 97) = List.replicate n 97 := by
    induction n with
    | zero => rfl
    | succ n ih => exact congrArg (List.cons 97) ih
  unfold joinAbsolute stripSlash
  rw [List.tail_cons, hsqueeze, if_neg]
  rintro ⟨hlen, hlast⟩
  rw [List.length_cons, List.length_replicate] at hlen
  rw [List.getLast?_cons, List.getLast?_replicate, if_neg (by omega)] at hlast
  exact absurd (Option.some.inj hlast) (by decide)

/-- A string of 256 bytes, right after boot. -/
theorem long_path_overruns : ∃ s m t regs s₁ str buffer t₁, Booted patientKEnv s
    ∧ KStep patientKEnv s (.user m) t ∧ trapOf regs.intno = .mkdir
    ∧ Entered patientKEnv regs t s₁ ∧ Joins patientKEnv s₁ str buffer t₁
    ∧ 255 < (resolved s₁.cur.cwd str).length
    ∧ (exception patientKEnv regs t).1 = .error .wild := by
  have hzero : 0 ∉ slash :: List.replicate 255 97 := by
    intro hmem
    rcases List.mem_cons.mp hmem with h | h
    · exact absurd h (by decide)
    · exact absurd (List.eq_of_mem_replicate h) (by decide)
  have hlen : (slash :: List.replicate 255 97).length = 256 := by
    rw [List.length_cons, List.length_replicate]
  have hjoined := joinAbsolute_replicate 255
  obtain ⟨role, s, m, v, pn, h⟩ := asks 68 (slash :: List.replicate 255 97) hzero (by omega)
  obtain ⟨-, buffer, t₁, hne, hjoin⟩ := h.joins (by omega) h.entered
  have hpath : pathArg patientKEnv (trapped (callAt 68 v) { s with mem := m })
      = (.error .wild, t₁) := by
    rw [hjoin.pathArg]
    exact joinPath_wild hne rfl (by rw [hjoined, hlen]) _ _
  refine ⟨s, m, _, callAt 68 v, _, _, buffer, t₁, h.started.booted, h.step, rfl, h.entered,
    hjoin, ?_, ?_⟩
  · unfold resolved
    rw [if_pos List.head?_cons, hjoined, hlen]
    decide
  · rw [h.inv.exception_eq (fun _ => rfl) h.started.up.live]
    have hmkdir : sysMkdir patientKEnv (trapped (callAt 68 v) { s with mem := m })
        = (.error .wild, t₁) := bind_of_error hpath
    show ((sysMkdir patientKEnv >>= fun _ => resume patientKEnv) _).1 = _
    rw [bind_of_error hmkdir]

end RojocOS.Kernel
