/-
Keys in order.

# The ring

`check_keyboard_push` and `check_keyboard_pop` share a ring of 2024
places, `pending`. A push puts the key it polls at the end, a pop without a
key takes the front: on its own the ring is a queue (`Ring.contents`).

# The order

But a pop polls the keyboard too, and hands out the key it finds at once,
ahead of everything in the ring. So the keys come out in the order in which
they came in exactly when no pop finds a key that differs from one still in
the ring (`keys_in_order_iff`). The law that says "in order, none lost, none
twice" is a conservation law: what was handed out, followed by what is
pending, is what was pending before, followed by what was polled since.
-/
import RojocOS.Kernel.Run
import RojocOS.Lib.Ring

namespace RojocOS.Kernel

open Prog

variable {E : KEnv} {s s' s1 : KState} {cs : List Int} {i j k : Nat}
variable {c : Int} {op : KeyOp} {ops : List KeyOp} {vs : List Int}

-- ==== the law

/-- A key: `keyboard_readc` answers -1 if there is none, and 0 for a part
of one. -/
def IsKey (c : Int) : Prop := c ≠ 0 ∧ c ≠ -1

instance (c : Int) : Decidable (IsKey c) := inferInstanceAs (Decidable (_ ∧ _))

/-- The keys among some answers. -/
def keysOf (cs : List Int) : List Int := cs.filter fun c => decide (IsKey c)

/-- The keys in the ring. -/
def pending (s : KState) : List Int := Ring.contents 2024 s.stdinNext s.stdinEnd s.stdinBuffer

/-- The keys of polls `i` to `j - 1`. -/
def polled (E : KEnv) (i j : Nat) : List Int :=
  keysOf ((List.range' i (j - i)).map E.keyboard)

/-- A call of one of the two functions. -/
inductive KeyOp where
  | push
  | pop
  deriving DecidableEq

/-- The call, with the values it returns. -/
def KeyOp.exec (E : KEnv) : KeyOp → KM (List Int)
  | .push => do checkKeyboardPush E; pure []
  | .pop => do let c ← checkKeyboardPop E; pure [c]

/-- A sequence of calls, with the values they return. -/
def keyRun (E : KEnv) : List KeyOp → KM (List Int)
  | [] => pure []
  | op :: ops => do
      let vs ← op.exec E
      let rest ← keyRun E ops
      pure (vs ++ rest)

/-- The calls return, and hand out the keys in order: none is lost, none
comes twice. -/
def Delivered (E : KEnv) (s : KState) (ops : List KeyOp) : Prop :=
  ∃ vs s', keyRun E ops s = (.ok vs, s')
    ∧ keysOf vs ++ pending s' = pending s ++ polled E s.polls s'.polls

/-- So do all shorter sequences. -/
def InOrder (E : KEnv) (s : KState) (ops : List KeyOp) : Prop :=
  ∀ pre, pre <+: ops → Delivered E s pre

-- ==== the conditions

/-- A call in state `s` that meets `C`, and so on. -/
def AllCalls (E : KEnv) (C : KState → KeyOp → Prop) : KState → List KeyOp → Prop
  | _, [] => True
  | s, op :: ops => C s op ∧ AllCalls E C (op.exec E s).2 ops

/-- A push that finds a key finds a place for it. -/
def HasRoom (E : KEnv) (s : KState) : KeyOp → Prop
  | .push => IsKey (E.keyboard s.polls) → (pending s).length < 2023
  | .pop => True

/-- A pop that finds a key finds nothing else in the ring. -/
def InTurn (E : KEnv) (s : KState) : KeyOp → Prop
  | .push => True
  | .pop => IsKey (E.keyboard s.polls) → ∀ c ∈ pending s, c = E.keyboard s.polls

/-- Neither control-C nor escape. -/
def Quiet (E : KEnv) : Prop := ∀ k, E.keyboard k ≠ 3 ∧ E.keyboard k ≠ 27

/-- The cursors are inside the ring, and what lies between them are
keys. -/
structure RingOk (s : KState) : Prop where
  next : s.stdinNext < 2024
  last : s.stdinEnd < 2024
  keys : ∀ c ∈ pending s, IsKey c

-- ==== one call

theorem checkKeyboard_quiet (h : Quiet E) (s : KState) :
    checkKeyboard E s = (.ok (E.keyboard s.polls), { s with polls := s.polls + 1 }) := by
  obtain ⟨h3, h27⟩ := h s.polls
  unfold checkKeyboard
  rw [get_bind, bind_of_ok (x := Prog.modify _) rfl, failIf_bind h3, failIf_bind h27]
  rfl

theorem keysOf_append (cs ds : List Int) : keysOf (cs ++ ds) = keysOf cs ++ keysOf ds :=
  List.filter_append ..

theorem keysOf_key (h : IsKey c) : keysOf [c] = [c] :=
  List.filter_cons_of_pos (decide_eq_true h)

theorem keysOf_other (h : ¬ IsKey c) : keysOf [c] = [] :=
  List.filter_cons_of_neg (by simpa using h)

/-- One poll. -/
theorem polled_succ (E : KEnv) (i : Nat) : polled E i (i + 1) = keysOf [E.keyboard i] := by
  unfold polled
  rw [Nat.add_sub_cancel_left]
  rfl

theorem polled_append (E : KEnv) (hij : i ≤ j) (hjk : j ≤ k) :
    polled E i k = polled E i j ++ polled E j k := by
  obtain ⟨a, rfl⟩ := Nat.exists_eq_add_of_le hij
  obtain ⟨b, rfl⟩ := Nat.exists_eq_add_of_le hjk
  unfold polled
  rw [← keysOf_append, ← List.map_append, Nat.add_sub_cancel_left, Nat.add_sub_cancel_left,
    Nat.add_assoc, Nat.add_sub_cancel_left, List.range'_append_1]

/-- A push that finds no key. -/
theorem push_idle (hq : Quiet E) (hk : ¬ IsKey (E.keyboard s.polls)) :
    checkKeyboardPush E s = (.ok (), { s with polls := s.polls + 1 }) := by
  unfold checkKeyboardPush
  rw [bind_of_ok (checkKeyboard_quiet hq s)]
  exact congrFun (if_neg hk) _

/-- A push that finds one. -/
theorem push_key (hq : Quiet E) (hs : RingOk s) (hk : IsKey (E.keyboard s.polls))
    (hroom : (pending s).length < 2023) :
    ∃ s', checkKeyboardPush E s = (.ok (), s') ∧ RingOk s' ∧ s'.polls = s.polls + 1
      ∧ pending s' = pending s ++ [E.keyboard s.polls] := by
  have hpend := Ring.contents_write hs.next hs.last
    (Nat.succ_lt_succ hroom) (E.keyboard s.polls)
  have hfree : s.stdinNext ≠ (s.stdinEnd + 1) % 2024 := by
    have hlen : (s.stdinEnd + (2024 - s.stdinNext)) % 2024 < 2023 := by
      rw [← Ring.length_contents]
      exact hroom
    omega
  refine ⟨{ s with
      polls := s.polls + 1
      stdinBuffer := fun i => if i = s.stdinEnd then E.keyboard s.polls else s.stdinBuffer i
      stdinEnd := (s.stdinEnd + 1) % 2024 }, ?_, ⟨hs.next, Nat.mod_lt _ (by decide), ?_⟩, rfl,
    hpend⟩
  · unfold checkKeyboardPush
    rw [bind_of_ok (checkKeyboard_quiet hq s),
      if_pos (show E.keyboard s.polls ≠ 0 ∧ E.keyboard s.polls ≠ -1 from hk),
      bind_of_ok (x := Prog.modify _) rfl, get_bind]
    exact assert_of hfree
  · intro c hc
    have hc' : c ∈ pending s ++ [E.keyboard s.polls] := hpend ▸ hc
    rcases List.mem_append.mp hc' with hold | hnew
    · exact hs.keys c hold
    · rw [List.mem_singleton.mp hnew]
      exact hk

/-- A pop that is answered by the keyboard: a key, or a part of one. -/
theorem pop_polled (hq : Quiet E) (hk : E.keyboard s.polls ≠ -1) :
    checkKeyboardPop E s = (.ok (E.keyboard s.polls), { s with polls := s.polls + 1 }) := by
  unfold checkKeyboardPop
  rw [bind_of_ok (checkKeyboard_quiet hq s), get_bind]
  exact congrFun (if_pos hk) _

/-- A pop with nothing to hand out. -/
theorem pop_empty (hq : Quiet E) (hk : E.keyboard s.polls = -1)
    (hempty : s.stdinNext = s.stdinEnd) :
    checkKeyboardPop E s = (.ok (-1), { s with polls := s.polls + 1 }) := by
  unfold checkKeyboardPop
  rw [bind_of_ok (checkKeyboard_quiet hq s), get_bind, if_neg (not_not_intro hk)]
  exact congrFun (if_pos hempty) _

/-- A pop from the ring. -/
theorem pop_ring (hq : Quiet E) (hs : RingOk s) (hk : E.keyboard s.polls = -1)
    (hne : s.stdinNext ≠ s.stdinEnd) :
    ∃ c s', checkKeyboardPop E s = (.ok c, s') ∧ RingOk s' ∧ s'.polls = s.polls + 1
      ∧ pending s = c :: pending s' ∧ IsKey c := by
  have hpend : pending s = s.stdinBuffer s.stdinNext
      :: pending { s with polls := s.polls + 1, stdinNext := (s.stdinNext + 1) % 2024 } :=
    Ring.contents_read hs.next hs.last hne
  refine ⟨s.stdinBuffer s.stdinNext,
    { s with polls := s.polls + 1, stdinNext := (s.stdinNext + 1) % 2024 }, ?_,
    ⟨Nat.mod_lt _ (by decide), hs.last, fun c hc => hs.keys c ?_⟩, rfl, hpend, hs.keys _ ?_⟩
  · unfold checkKeyboardPop
    rw [bind_of_ok (checkKeyboard_quiet hq s), get_bind,
      if_neg (not_not_intro hk), if_neg hne]
    rfl
  · rw [hpend]
    exact .tail _ hc
  · rw [hpend]
    exact .head _

/-- A value may overtake the values that are equal to it. -/
theorem overtakes_iff : c :: cs = cs ++ [c] ↔ ∀ x ∈ cs, x = c := by
  induction cs with
  | nil => simp
  | cons x cs ih =>
    constructor
    · intro h
      injection h with hx htail
      subst hx
      have hcs := ih.mp htail
      intro y hy
      rcases List.mem_cons.mp hy with rfl | hy
      · rfl
      · exact hcs y hy
    · intro h
      obtain rfl := h x (.head _)
      rw [List.cons_append, ← ih.mpr fun y hy => h y (.tail _ hy)]

/-- One call returns, keeps the ring in order, and obeys the law exactly
when it is in turn. -/
theorem exec_law (hq : Quiet E) (hs : RingOk s) (hroom : HasRoom E s op) :
    ∃ vs s', op.exec E s = (.ok vs, s') ∧ RingOk s' ∧ s'.polls = s.polls + 1
      ∧ (keysOf vs ++ pending s' = pending s ++ polled E s.polls (s.polls + 1)
        ↔ InTurn E s op) := by
  have hsame : pending { s with polls := s.polls + 1 } = pending s := rfl
  have hs' : RingOk { s with polls := s.polls + 1 } := ⟨hs.next, hs.last, hs.keys⟩
  rw [polled_succ]
  cases op with
  | push =>
    by_cases hk : IsKey (E.keyboard s.polls)
    · obtain ⟨s', hrun, hring, hpolls, hpend⟩ := push_key hq hs hk (hroom hk)
      refine ⟨[], s', (bind_of_ok hrun).trans rfl, hring, hpolls, ?_⟩
      rw [keysOf_key hk, hpend]
      exact ⟨fun _ => trivial, fun _ => rfl⟩
    · refine ⟨[], _, (bind_of_ok (push_idle hq hk)).trans rfl, hs', rfl, ?_⟩
      rw [keysOf_other hk, hsame, List.append_nil]
      exact ⟨fun _ => trivial, fun _ => rfl⟩
  | pop =>
    by_cases hnone : E.keyboard s.polls = -1
    · have hno : ¬ IsKey (E.keyboard s.polls) := fun hk => hk.2 hnone
      rw [keysOf_other hno, List.append_nil]
      by_cases hempty : s.stdinNext = s.stdinEnd
      · refine ⟨[-1], _, (bind_of_ok (pop_empty hq hnone hempty)).trans rfl, hs', rfl, ?_⟩
        exact ⟨fun _ hk => absurd hk hno, fun _ => rfl⟩
      · obtain ⟨c, s', hrun, hring, hpolls, hpend, hc⟩ := pop_ring hq hs hnone hempty
        refine ⟨[c], s', (bind_of_ok hrun).trans rfl, hring, hpolls, ?_⟩
        rw [hpend, keysOf_key hc]
        exact ⟨fun _ hk => absurd hk hno, fun _ => rfl⟩
    · refine ⟨[E.keyboard s.polls], _, (bind_of_ok (pop_polled hq hnone)).trans rfl, hs',
        rfl, ?_⟩
      rw [hsame]
      by_cases hk : IsKey (E.keyboard s.polls)
      · rw [keysOf_key hk]
        exact overtakes_iff.trans ⟨fun h _ => h, fun h => h hk⟩
      · rw [keysOf_other hk, List.append_nil]
        exact ⟨fun _ hk' => absurd hk' hk, fun _ => rfl⟩

-- ==== all calls

/-- The first call, then the others. -/
theorem keyRun_cons (h : op.exec E s = (.ok vs, s')) :
    keyRun E (op :: ops) s = (keyRun E ops >>= fun rest => pure (vs ++ rest)) s' :=
  bind_of_ok h

/-- What a sequence of calls hands out, and what it leaves. -/
theorem keyRun_returns (hq : Quiet E) :
    ∀ ops s, RingOk s → AllCalls E (HasRoom E) s ops →
      ∃ vs s', keyRun E ops s = (.ok vs, s') ∧ s.polls ≤ s'.polls := by
  intro ops
  induction ops with
  | nil => exact fun s _ _ => ⟨[], s, rfl, Nat.le_refl _⟩
  | cons op ops ih =>
    intro s hs hroom
    obtain ⟨vs, s1, hexec, hring, hpolls, -⟩ := exec_law hq hs hroom.1
    have hrest := hroom.2
    rw [hexec] at hrest
    obtain ⟨rest, s2, hrun, hle⟩ := ih s1 hring hrest
    exact ⟨vs ++ rest, s2, (keyRun_cons hexec).trans ((bind_of_ok hrun).trans rfl), by omega⟩

/-- The law of a sequence, behind a first call that obeys it. -/
theorem delivered_cons (hq : Quiet E)
    (hexec : op.exec E s = (.ok vs, s1)) (hring : RingOk s1)
    (hroom : AllCalls E (HasRoom E) s1 ops) (hpolls : s1.polls = s.polls + 1)
    (hlaw : keysOf vs ++ pending s1 = pending s ++ polled E s.polls (s.polls + 1)) :
    Delivered E s (op :: ops) ↔ Delivered E s1 ops := by
  obtain ⟨rest, s2, hrun, hle⟩ := keyRun_returns hq ops s1 hring hroom
  have hall : keyRun E (op :: ops) s = (.ok (vs ++ rest), s2) :=
    (keyRun_cons hexec).trans ((bind_of_ok hrun).trans rfl)
  have hsum : keysOf (vs ++ rest) ++ pending s2 = pending s ++ polled E s.polls s2.polls
      ↔ keysOf rest ++ pending s2 = pending s1 ++ polled E s1.polls s2.polls := by
    rw [polled_append E (Nat.le_succ s.polls) (by omega), ← List.append_assoc (pending s), ← hlaw,
      keysOf_append, List.append_assoc, List.append_assoc, List.append_cancel_left_eq, hpolls]
  constructor
  · rintro ⟨vs', s', h, hd⟩
    rw [hall] at h
    cases h
    exact ⟨rest, s2, hrun, hsum.mp hd⟩
  · rintro ⟨vs', s', h, hd⟩
    rw [hrun] at h
    cases h
    exact ⟨vs ++ rest, s2, hall, hsum.mpr hd⟩

theorem delivered_nil (E : KEnv) (s : KState) : Delivered E s [] := by
  refine ⟨[], s, rfl, ?_⟩
  unfold polled
  rw [Nat.sub_self]
  exact (List.append_nil _).symm

theorem AllCalls.of_prefix {C : KState → KeyOp → Prop} {pre : List KeyOp}
    (hpre : pre <+: ops) : ∀ {s}, AllCalls E C s ops → AllCalls E C s pre := by
  induction pre generalizing ops with
  | nil => exact fun _ => trivial
  | cons op pre ih =>
    intro s h
    obtain ⟨ops, rfl⟩ : ∃ rest, ops = op :: rest := by
      obtain ⟨rest, rfl⟩ := hpre
      exact ⟨pre ++ rest, rfl⟩
    exact ⟨h.1, ih (List.cons_prefix_cons.mp hpre).2 h.2⟩

/-- The keys come out in the order in which they came in, in every shorter
sequence too, exactly when every pop that finds a key is in turn. -/
theorem keys_in_order_iff (hq : Quiet E) :
    ∀ ops {s}, RingOk s → AllCalls E (HasRoom E) s ops →
      (InOrder E s ops ↔ AllCalls E (InTurn E) s ops) := by
  intro ops
  induction ops with
  | nil =>
      intro s _ _
      refine ⟨fun _ => trivial, fun _ pre hpre => ?_⟩
      rw [List.prefix_nil.mp hpre]
      exact delivered_nil E s
  | cons op ops ih =>
      intro s hs hroom
      obtain ⟨vs, s₁, hexec, hring, hpolls, hlaw⟩ := exec_law hq hs hroom.1
      have hrest := hroom.2
      rw [hexec] at hrest
      have hturns : AllCalls E (InTurn E) s (op :: ops)
          ↔ InTurn E s op ∧ AllCalls E (InTurn E) s₁ ops := by
        have hs₁ : (op.exec E s).2 = s₁ := by rw [hexec]
        rw [← hs₁]
        exact Iff.rfl
      rw [hturns, ← ih hring hrest]
      constructor
      · intro hord
        have hturn : InTurn E s op := by
          -- the sequence of this one call
          obtain ⟨vs', s', hrun, hd⟩ := hord [op] (List.cons_prefix_cons.mpr ⟨rfl, List.nil_prefix⟩)
          have hone : keyRun E [op] s = (.ok (vs ++ []), s₁) := keyRun_cons hexec
          rw [hone, List.append_nil] at hrun
          cases hrun
          rw [hpolls] at hd
          exact hlaw.mp hd
        refine ⟨hturn, fun pre hpre => ?_⟩
        have hroom' := hrest.of_prefix hpre
        exact (delivered_cons hq hexec hring hroom' hpolls (hlaw.mpr hturn)).mp
          (hord (op :: pre) (List.cons_prefix_cons.mpr ⟨rfl, hpre⟩))
      · rintro ⟨hturn, hord⟩ pre hpre
        cases pre with
        | nil => exact delivered_nil E s
        | cons op' pre =>
            obtain ⟨rfl, htail⟩ := List.cons_prefix_cons.mp hpre
            have hroom' := hrest.of_prefix htail
            exact (delivered_cons hq hexec hring hroom' hpolls (hlaw.mpr hturn)).mpr (hord pre htail)

/-- A keyboard on which `A` and then `B` are typed. -/
def typedAB : KEnv :=
  { plainKEnv with keyboard := fun k => if k = 0 then 65 else if k = 1 then 66 else -1 }

theorem typedAB_quiet : Quiet typedAB := by
  intro k
  unfold typedAB
  dsimp only
  split
  · decide
  · split
    · decide
    · decide

theorem blank_ringOk : RingOk blank := ⟨by decide, by decide, by decide⟩

/-- Both keys pushed, then both popped. -/
theorem keys_in_order_pushed : InOrder typedAB blank [.push, .push, .pop, .pop] := by
  refine (keys_in_order_iff typedAB_quiet _ blank_ringOk ?_).mpr ?_
  · exact ⟨fun _ => by decide +kernel, fun _ => by decide +kernel, trivial, trivial, trivial⟩
  · refine ⟨trivial, trivial, fun h => absurd h.2 ?_, fun h => absurd h.2 ?_, trivial⟩
    · exact not_not_intro (by decide +kernel)
    · exact not_not_intro (by decide +kernel)

/-- `A` is pushed, `B` arrives in time for the pop, and comes out
first. -/
theorem keys_overtake :
    RingOk blank ∧ Quiet typedAB
      ∧ AllCalls typedAB (HasRoom typedAB) blank [.push, .pop, .pop]
      ∧ (keyRun typedAB [.push, .pop, .pop] blank).1.toOption = some [66, 65]
      ∧ polled typedAB 0 3 = [65, 66] := by
  refine ⟨blank_ringOk, typedAB_quiet, ⟨fun _ => by decide +kernel, trivial, trivial, trivial⟩,
    by decide +kernel, by decide +kernel⟩

end RojocOS.Kernel
