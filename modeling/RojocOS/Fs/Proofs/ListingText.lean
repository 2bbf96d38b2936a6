/-
The text of a directory: its names, a newline behind each.

Creations only ever add to it. A call that creates a name in a directory
puts it into the next slot, behind the names that are there, and no other
directory changes (`Rooted.touch_listing`). This holds for every name,
the empty one included, as long as nothing is removed: then a lookup ends
at the root or at a node in use whatever the names are (`Rooted`).
-/
import RojocOS.Fs.Proofs.Create

namespace RojocOS.Fs

open ByteMap

variable {disk disk' : ByteMap} {u k v y : Nat} {name par : Path} {cs : List Path}

/-- The names of node `u` as `INT_SYS_LISTDIR` puts them together. -/
def listing (disk : ByteMap) (u : Nat) : Path :=
  (List.range (Node.count (nodeAt disk u))).flatMap fun i =>
    Node.slotName (nodeAt disk u) i ++ [10]

/-- Every slot leads to the root or to a node in use, and the names of the
children end within their slots. -/
structure Rooted (disk : ByteMap) : Prop where
  index : ∀ y < 16, ∀ i < 32, Dir disk (Node.childIndex (nodeAt disk y) i)
  count : ∀ y < 16, 0 ≤ Node.childrenCount (nodeAt disk y)
    ∧ Node.childrenCount (nodeAt disk y) ≤ 32
  short : ∀ y < 16, ∀ i < Node.count (nodeAt disk y),
    (Node.slotName (nodeAt disk y) i).length < 32
  unused : ∀ y < 16, ¬ Dir disk y → Node.count (nodeAt disk y) = 0

theorem Rooted.zero : Rooted ByteMap.zero := by
  have hslot : ∀ i, ZeroSlot ByteMap.zero i := fun _ _ _ => rfl
  refine ⟨fun y _ i _ => ?_, fun y _ => ?_, fun y _ i hi => ?_, fun y _ _ => ?_⟩
  · rw [nodeAt_zero]
    exact .inl (hslot i).index
  · rw [nodeAt_zero]
    decide
  · rw [nodeAt_zero] at hi
    exact absurd hi (Nat.not_lt_zero i)
  · rw [nodeAt_zero]
    rfl

-- ==== lookups

theorem Rooted.lookup_dir (h : Rooted disk) : ∀ {u v : Nat}, Dir disk u →
    lookup disk u cs = .ok v → Dir disk v := by
  induction cs with
  | nil =>
    intro u v hu hl
    cases hl
    exact hu
  | cons c cs ih =>
    intro u v hu hl
    rw [lookup] at hl
    split at hl
    · cases hl
    · split at hl
      · cases hl
      · next x he =>
          obtain ⟨i, hi, rfl⟩ := Option.map_eq_some_iff.mp he
          have hlt := List.mem_range.mp (List.mem_of_find?_eq_some hi)
          exact ih (h.index u hu.lt i hlt) hl

section Congr

variable (hsame : ∀ a, 4876 ≤ a → disk' a = disk a)
include hsame

theorem nodeAt_of_above (y : Nat) : nodeAt disk' y = nodeAt disk y :=
  nodeAt_congr fun a h1 _ => hsame a (by omega)

theorem lookup_of_above : ∀ {u : Nat}, lookup disk' u cs = lookup disk u cs := by
  induction cs with
  | nil => intro u; rfl
  | cons c cs ih =>
    intro u
    have hedge : edge disk' u c = edge disk u c := by
      unfold edge
      rw [nodeAt_of_above hsame]
    rw [lookup, lookup, hedge]
    split
    · rfl
    · split
      · rfl
      · exact ih

theorem dir_of_above : Dir disk' u ↔ Dir disk u := by
  unfold Dir Used
  rw [hsame (4892 + u) (by omega)]

theorem listing_of_above : listing disk' u = listing disk u := by
  unfold listing
  rw [nodeAt_of_above hsame]

theorem Rooted.of_above (h : Rooted disk) : Rooted disk' := by
  refine ⟨fun y hy i hi => ?_, fun y hy => ?_, fun y hy => ?_, fun y hy hd => ?_⟩
  · rw [dir_of_above hsame, nodeAt_of_above hsame]
    exact h.index y hy i hi
  · rw [nodeAt_of_above hsame]
    exact h.count y hy
  · rw [nodeAt_of_above hsame]
    exact h.short y hy
  · rw [nodeAt_of_above hsame]
    exact h.unused y hy fun hd' => hd ((dir_of_above hsame).mpr hd')

end Congr

-- ==== creation

/-- The text of the parent grows by the name, and no other text changes. -/
theorem Rooted.touch_listing (h : Rooted disk) (ht : TouchOk disk par name u k)
    (hu : Dir disk u) (h0 : 0 ∉ name) (hy : y < 16) :
    listing (touchDisk disk u k name v) y
      = if y = u then listing disk u ++ (name ++ [10]) else listing disk y := by
  have hk := ht.index
  have hne : u ≠ k := fun he => ht.not_dir (he ▸ hu)
  by_cases hyu : y = u
  · subst hyu
    obtain ⟨hcount, hname, -, hsame⟩ := ht.parent_slots h0 hne
    have hroom := ht.room
    have hc : Node.count (nodeAt (touchDisk disk y k name v) y) = Node.count (nodeAt disk y) + 1 := by
      unfold Node.count
      rw [hcount]
      omega
    have hlt : Node.count (nodeAt disk y) < 32 := by
      unfold Node.count
      omega
    rw [if_pos rfl, listing, hc, List.range_succ, List.flatMap_append, List.flatMap_singleton, hname]
    refine congrArg (· ++ _) (List.flatMap_congr fun i hi => ?_)
    have hi := List.mem_range.mp hi
    rw [(hsame i (by omega) (by omega)).name]
  · rw [if_neg hyu]
    by_cases hyk : y = k
    · subst hyk
      unfold listing
      rw [h.unused y hy ht.not_dir, touchDisk_new, Node.count, newNode_count]
      rfl
    · unfold listing
      rw [touchDisk_other hk.2 hyk hyu]

theorem Rooted.touch (h : Rooted disk) (ht : TouchOk disk par name u k) (hu : Dir disk u)
    (h0 : 0 ∉ name) : Rooted (touchDisk disk u k name v) := by
  have hk := ht.index
  have hne : u ≠ k := fun he => ht.not_dir (he ▸ hu)
  have hroom := ht.room
  obtain ⟨hcount, hname, hindex, hsame⟩ := ht.parent_slots (v := v) h0 hne
  have hold : ∀ {x}, Dir disk x → Dir (touchDisk disk u k name v) x :=
    fun hx => (touchDisk_dir ht).mpr (.inl hx)
  refine ⟨fun y hy i hi => ?_, fun y hy => ?_, fun y hy i hi => ?_, fun y hy hd => ?_⟩
  · by_cases hyk : y = k
    · rw [hyk, touchDisk_new, (newNode_zero hi).index]
      exact .inl rfl
    · by_cases hyu : y = u
      · subst hyu
        by_cases hin : i = Node.count (nodeAt disk y)
        · rw [hin, hindex]
          exact (touchDisk_dir ht).mpr (.inr rfl)
        · rw [(hsame i hi hin).index]
          exact hold (h.index y hy i hi)
      · rw [touchDisk_other hk.2 hyk hyu]
        exact hold (h.index y hy i hi)
  · by_cases hyk : y = k
    · rw [hyk, touchDisk_new, newNode_count]
      decide
    · by_cases hyu : y = u
      · subst hyu
        rw [hcount]
        omega
      · rw [touchDisk_other hk.2 hyk hyu]
        exact h.count y hy
  · by_cases hyk : y = k
    · rw [hyk, touchDisk_new, Node.count, newNode_count] at hi
      exact absurd hi (Nat.not_lt_zero i)
    · by_cases hyu : y = u
      · subst hyu
        by_cases hin : i = Node.count (nodeAt disk y)
        · rw [hin, hname]
          exact ht.short
        · unfold Node.count at hi hin
          rw [hcount] at hi
          rw [(hsame i (by omega) hin).name]
          exact h.short y hy i (by unfold Node.count; omega)
      · rw [touchDisk_other hk.2 hyk hyu] at hi ⊢
        exact h.short y hy i hi
  · have hyk : y ≠ k := fun he => hd ((touchDisk_dir ht).mpr (.inr he))
    have hyu : y ≠ u := fun he => hd (hold (he ▸ hu))
    rw [touchDisk_other hk.2 hyk hyu]
    exact h.unused y hy fun hx => hd (hold hx)

end RojocOS.Fs
