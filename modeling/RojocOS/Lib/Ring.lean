/-
Next-fit search around a ring.

A cursor walks the indices `0 .. N-1` and wraps; a search stops at the
first index that is available and leaves the cursor there. What such a
search will deliver from now on is a list, `queue`: the available indices
in the order in which the cursor comes to them. A search takes the head
of the list and nothing else (`queue_take`), so an allocator of this kind
is a queue.

A buffer with two cursors is one too: what lies between them is
`contents`, reading takes its head and writing appends.
-/
import Mathlib.Data.List.Nodup
import Mathlib.Data.List.Range
import Mathlib.Data.Nat.ModEq

namespace Ring

variable {N c i j n : Nat}

/-- The `n` indices from `c` on. -/
def scan (N c n : Nat) : List Nat := (List.range n).map fun i => (c + i) % N

/-- The available indices, in the order of the search. -/
def queue (N : Nat) (p : Nat → Bool) (c : Nat) : List Nat :=
  (scan N c N).filter p

theorem scan_succ (n : Nat) : scan N c (n + 1) = c % N :: scan N (c + 1) n := by
  unfold scan
  rw [List.range_succ_eq_map, List.map_cons, List.map_map, Nat.add_zero]
  congr 1
  refine List.map_congr_left fun i _ => ?_
  show (c + (i + 1)) % N = (c + 1 + i) % N
  rw [Nat.add_assoc c 1 i, Nat.add_comm 1 i]

theorem scan_add (a b : Nat) : scan N c (a + b) = scan N c a ++ scan N (c + a) b := by
  induction a generalizing c with
  | zero =>
    rw [Nat.zero_add, Nat.add_zero]
    rfl
  | succ a ih =>
    rw [Nat.add_right_comm, scan_succ, scan_succ, ih, List.cons_append,
      Nat.add_assoc c 1 a, Nat.add_comm 1 a]

theorem scan_mod (n : Nat) : scan N (c % N) n = scan N c n :=
  List.map_congr_left fun i _ => Nat.mod_add_mod c N i

/-- A full turn changes nothing. -/
theorem scan_turn (n : Nat) : scan N (c + N) n = scan N c n := by
  rw [← scan_mod, Nat.add_mod_right, scan_mod]

theorem mem_scan_lt (hN : 0 < N) (h : i ∈ scan N c n) : i < N := by
  obtain ⟨j, -, rfl⟩ := List.mem_map.mp h
  exact Nat.mod_lt _ hN

theorem nodup_scan : (scan N c N).Nodup := by
  refine List.Nodup.map_on ?_ List.nodup_range
  intro i hi j hj h
  have hi := List.mem_range.mp hi
  have hj := List.mem_range.mp hj
  have hmod : i % N = j % N := Nat.ModEq.add_left_cancel' c h
  rwa [Nat.mod_eq_of_lt hi, Nat.mod_eq_of_lt hj] at hmod

theorem mem_scan (hi : i < N) : i ∈ scan N c N := by
  -- the index is as far from the cursor as it takes
  refine List.mem_map.mpr ⟨(i + (N - c % N)) % N, ?_, ?_⟩
  · exact List.mem_range.mpr (Nat.mod_lt _ (by omega))
  · have hc : c % N < N := Nat.mod_lt _ (by omega)
    rw [Nat.add_mod_mod, ← Nat.mod_add_mod,
      show c % N + (i + (N - c % N)) = i + N by omega, Nat.add_mod_right,
      Nat.mod_eq_of_lt hi]

section Queue

variable {p p' : Nat → Bool}

theorem mem_queue (hN : 0 < N) : i ∈ queue N p c ↔ i < N ∧ p i = true := by
  rw [queue, List.mem_filter]
  exact ⟨fun h => ⟨mem_scan_lt hN h.1, h.2⟩, fun h => ⟨mem_scan h.1, h.2⟩⟩

theorem nodup_queue : (queue N p c).Nodup := nodup_scan.filter _

/-- The search stops after `j` steps: it delivers the head of the queue,
and the queue seen from there, without what was delivered, is the
tail. -/
theorem queue_take (hj : j < N)
    (hskip : ∀ i ∈ scan N c j, p i = false) (hp : p ((c + j) % N) = true) :
    ∃ rest, queue N p c = (c + j) % N :: rest
      ∧ ∀ p', p' ((c + j) % N) = false → (∀ i, i ≠ (c + j) % N → p' i = p i)
        → queue N p' ((c + j) % N) = rest := by
  obtain ⟨k, rfl⟩ : ∃ k, N = j + (k + 1) := ⟨N - j - 1, by omega⟩
  have hnil : (scan (j + (k + 1)) c j).filter p = [] :=
    List.filter_eq_nil_iff.mpr fun i hi => by rw [hskip i hi]; decide
  have hsplit : scan (j + (k + 1)) c (j + (k + 1))
      = scan (j + (k + 1)) c j
        ++ (c + j) % (j + (k + 1)) :: scan (j + (k + 1)) (c + j + 1) k := by
    rw [scan_add j (k + 1), scan_succ]
  refine ⟨(scan (j + (k + 1)) (c + j + 1) k).filter p, ?_, fun p' h0 h => ?_⟩
  · rw [queue, hsplit, List.filter_append, hnil, List.nil_append,
      List.filter_cons_of_pos hp]
  · -- from its new place the cursor sees the rest first, then what it skipped
    have hturn : scan (j + (k + 1)) ((c + j) % (j + (k + 1))) (j + (k + 1))
        = (c + j) % (j + (k + 1)) :: scan (j + (k + 1)) (c + j + 1) k
          ++ scan (j + (k + 1)) c j := by
      rw [scan_mod, Nat.add_comm j (k + 1), scan_add, scan_succ,
        Nat.add_comm (k + 1) j, show c + j + (k + 1) = c + (j + (k + 1)) by omega,
        scan_turn]
    have hnd := hsplit ▸ nodup_scan (N := j + (k + 1)) (c := c)
    have hnot : (c + j) % (j + (k + 1)) ∉ scan (j + (k + 1)) (c + j + 1) k :=
      (List.nodup_cons.mp (List.nodup_append.mp hnd).2.1).1
    have hskip' : (scan (j + (k + 1)) c j).filter p' = [] := by
      refine List.filter_eq_nil_iff.mpr fun i hi => ?_
      by_cases hi' : i = (c + j) % (j + (k + 1))
      · rw [hi', h0]
        decide
      · rw [h i hi', hskip i hi]
        decide
    rw [queue, hturn, List.filter_append, hskip', List.append_nil,
      List.filter_cons_of_neg (by rw [h0]; decide)]
    exact List.filter_congr fun i hi => h i fun hi' => hnot (hi' ▸ hi)

/-- The search goes around without finding anything. -/
theorem queue_nil (h : ∀ i ∈ scan N c N, p i = false) : queue N p c = [] :=
  List.filter_eq_nil_iff.mpr fun i hi => by rw [h i hi]; decide

end Queue

section Contents

variable {α : Type} {first last : Nat} {b : Nat → α}

/-- The values between two cursors, in order: a buffer used as a queue,
read at `first` and written at `last`. -/
def contents (N first last : Nat) (b : Nat → α) : List α :=
  (scan N first ((last + (N - first)) % N)).map b

theorem length_contents : (contents N first last b).length = (last + (N - first)) % N := by
  unfold contents scan
  rw [List.length_map, List.length_map, List.length_range]

theorem gap_of_le (hle : first ≤ last) (hl : last < N) :
    (last + (N - first)) % N = last - first := by
  rw [show last + (N - first) = last - first + N by omega, Nat.add_mod_right]
  exact Nat.mod_eq_of_lt (by omega)

theorem gap_of_lt (hlt : last < first) (hf : first ≤ N) :
    (last + (N - first)) % N = last + (N - first) :=
  Nat.mod_eq_of_lt (by omega)

/-- One step of a cursor. -/
theorem cursor_succ (hc : c < N) :
    (c + 1) % N = c + 1 ∧ c + 1 < N ∨ (c + 1) % N = 0 ∧ c + 1 = N := by
  rcases Nat.lt_or_ge (c + 1) N with h | h
  · exact .inl ⟨Nat.mod_eq_of_lt h, h⟩
  · obtain rfl : c + 1 = N := by omega
    exact .inr ⟨Nat.mod_self _, rfl⟩

/-- Reading takes the head. -/
theorem contents_read (hf : first < N) (hl : last < N) (hne : first ≠ last) :
    contents N first last b = b first :: contents N ((first + 1) % N) last b := by
  have hgap : (last + (N - first)) % N = (last + (N - (first + 1) % N)) % N + 1 := by
    rcases cursor_succ hf with ⟨heq, hlt⟩ | ⟨heq, hlt⟩
    · rw [heq]
      rcases Nat.lt_or_ge last first with h | h
      · rw [gap_of_lt h (by omega), gap_of_lt (by omega) (by omega)]
        omega
      · rw [gap_of_le h hl, gap_of_le (by omega) hl]
        omega
    · rw [heq, gap_of_lt (by omega) (by omega), gap_of_le (Nat.zero_le _) hl]
      omega
  unfold contents
  rw [hgap, scan_succ, List.map_cons, Nat.mod_eq_of_lt hf, scan_mod]

/-- Writing appends, as long as a place stays free. -/
theorem contents_write (hf : first < N) (hl : last < N)
    (hroom : (contents N first last b).length + 1 < N) (c : α) :
    contents N first ((last + 1) % N) (fun i => if i = last then c else b i)
      = contents N first last b ++ [c] := by
  rw [length_contents] at hroom
  have hgap : ((last + 1) % N + (N - first)) % N = (last + (N - first)) % N + 1 := by
    rw [Nat.mod_add_mod, Nat.add_right_comm, ← Nat.mod_add_mod]
    exact Nat.mod_eq_of_lt hroom
  have hend : (first + (last + (N - first)) % N) % N = last := by
    rw [Nat.add_mod_mod, show first + (last + (N - first)) = last + N by omega,
      Nat.add_mod_right, Nat.mod_eq_of_lt hl]
  unfold contents
  rw [hgap, scan_add, List.map_append]
  congr 1
  · -- no index of the old part is the one written
    refine List.map_congr_left fun i hi => if_neg fun heq => ?_
    obtain ⟨j, hj, hji⟩ := List.mem_map.mp hi
    have hj := List.mem_range.mp hj
    have hmod : (first + j) % N = (first + (last + (N - first)) % N) % N :=
      hji.trans (heq.trans hend.symm)
    have hsame := Nat.ModEq.add_left_cancel' first hmod
    rw [Nat.ModEq, Nat.mod_eq_of_lt (by omega), Nat.mod_eq_of_lt (by omega)] at hsame
    omega
  · rw [scan_succ, hend, List.map_cons, if_pos rfl]
    rfl

end Contents

end Ring
