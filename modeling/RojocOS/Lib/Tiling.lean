/-
Tilings: a set of addresses cut into intervals without overlap or gap.

An interval is any value with a lower end `lo` and a positive length
`len`. `Tiles S l` says that the intervals of the list `l` are pairwise
apart and that together they are exactly `S`. The order of the list does
not matter (`Tiles.perm`), which is what lets a list keep the tiles in
an order of its own, such as that of a linked list.

Two rules change a tiling. `Tiles.add` lays a new interval beside it, and
`Tiles.replace` recuts some of its intervals: splitting and merging are
both instances.
-/
import Mathlib.Data.List.Nodup
import Mathlib.Data.List.Pairwise
import Mathlib.Data.List.Perm.Subperm

namespace Tiling

variable {α : Type} {lo len : α → Nat}
variable {b c : α} {a : Nat}

/-- The address lies in the interval. -/
def Inside (lo len : α → Nat) (b : α) (a : Nat) : Prop :=
  lo b ≤ a ∧ a < lo b + len b

/-- One interval ends before the other starts. -/
def Apart (lo len : α → Nat) (b c : α) : Prop :=
  lo b + len b ≤ lo c ∨ lo c + len c ≤ lo b

theorem Apart.symm (h : Apart lo len b c) : Apart lo len c b :=
  Or.symm h

/-- Apart intervals have no common address. -/
theorem Apart.not_inside (h : Apart lo len b c)
    (hb : Inside lo len b a) : ¬ Inside lo len c a := by
  intro hc
  unfold Apart at h
  unfold Inside at hb hc
  omega

/-- Intervals of positive length without a common address are apart. -/
theorem Apart.of_disjoint (hb : 0 < len b) (hc : 0 < len c)
    (h : ∀ a, Inside lo len b a → ¬ Inside lo len c a) : Apart lo len b c := by
  have h1 := h (lo b)
  have h2 := h (lo c)
  unfold Inside at h1 h2
  unfold Apart
  omega

/-- The intervals of `l` are apart and cover exactly `S`. -/
structure Tiles (lo len : α → Nat) (S : Nat → Prop) (l : List α) : Prop where
  apart : l.Pairwise (Apart lo len)
  cover : ∀ a, S a ↔ ∃ b ∈ l, Inside lo len b a

variable {S S' : Nat → Prop} {l l' : List α}

theorem Tiles.perm (h : Tiles lo len S l) (hp : l.Perm l') : Tiles lo len S l' := by
  refine ⟨(hp.pairwise_iff Apart.symm).mp h.apart, fun a => ?_⟩
  rw [h.cover a]
  constructor
  · rintro ⟨b, hb, ha⟩
    exact ⟨b, hp.mem_iff.mp hb, ha⟩
  · rintro ⟨b, hb, ha⟩
    exact ⟨b, hp.mem_iff.mpr hb, ha⟩

theorem Tiles.nil (hs : ∀ a, ¬ S a) : Tiles lo len S ([] : List α) := by
  refine ⟨List.Pairwise.nil, fun a => ?_⟩
  constructor
  · exact fun h => absurd h (hs a)
  · rintro ⟨b, hb, _⟩
    cases hb

section

variable (h : Tiles lo len S l)

include h

/-- Every interval of a tiling lies in the set. -/
theorem Tiles.mem (hb : b ∈ l) (ha : Inside lo len b a) : S a :=
  (h.cover a).mpr ⟨b, hb, ha⟩

/-- Different intervals of a tiling have no common address. -/
theorem Tiles.eq_of_inside (hb : b ∈ l) (hc : c ∈ l)
    (hab : Inside lo len b a) (hac : Inside lo len c a) : b = c := by
  by_contra hne
  have : Std.Symm (Apart lo len) := ⟨fun _ _ => Apart.symm⟩
  have hap := h.apart.forall hb hc hne
  exact hap.not_inside hab hac

/-- If an interval is known by its lower end, a set has one tiling. -/
theorem Tiles.mem_unique (h' : Tiles lo len S l')
    (hpos : ∀ b ∈ l, 0 < len b) (hpos' : ∀ c ∈ l', 0 < len c)
    (hsame : ∀ b ∈ l, ∀ c ∈ l', lo b = lo c → b = c) : b ∈ l ↔ b ∈ l' := by
  have hself : ∀ {b : α}, 0 < len b → Inside lo len b (lo b) := fun h =>
    ⟨Nat.le_refl _, Nat.lt_add_of_pos_right h⟩
  -- from the bottom up: below `n` the two agree, so an interval at `n`
  -- cannot start inside one of the other tiling
  have hall : ∀ n, (∀ b ∈ l, lo b = n → b ∈ l') ∧ ∀ c ∈ l', lo c = n → c ∈ l := by
    intro n
    induction n using Nat.strongRecOn with
    | ind n ih =>
      constructor
      · rintro b hb rfl
        obtain ⟨c, hc, hin⟩ := (h'.cover _).mp (h.mem hb (hself (hpos b hb)))
        rcases Nat.lt_or_ge (lo c) (lo b) with hlt | hge
        · have hcl := (ih _ hlt).2 c hc rfl
          rw [h.eq_of_inside hcl hb hin (hself (hpos b hb))] at hlt
          exact absurd hlt (Nat.lt_irrefl _)
        · rw [hsame b hb c hc (Nat.le_antisymm hge hin.1)]
          exact hc
      · rintro c hc rfl
        obtain ⟨b, hb, hin⟩ := (h.cover _).mp (h'.mem hc (hself (hpos' c hc)))
        rcases Nat.lt_or_ge (lo b) (lo c) with hlt | hge
        · have hbl := (ih _ hlt).1 b hb rfl
          rw [h'.eq_of_inside hbl hc hin (hself (hpos' c hc))] at hlt
          exact absurd hlt (Nat.lt_irrefl _)
        · rw [← hsame b hb c hc (Nat.le_antisymm hin.1 hge)]
          exact hb
  exact ⟨fun hb => (hall _).1 b hb rfl, fun hb => (hall _).2 b hb rfl⟩

/-- There is no room for many long intervals. -/
theorem Tiles.length_le {k N : Nat} (hk : ∀ b ∈ l, k ≤ len b)
    (hN : ∀ a, S a → a < N) : l.length * k ≤ N := by
  have hnodup : (l.flatMap fun b => List.range' (lo b) k).Nodup := by
    refine List.nodup_flatMap.mpr ⟨fun b _ => List.nodup_range', ?_⟩
    refine List.Pairwise.imp_of_mem (fun {b c} hb hc hap a hab hac => ?_) h.apart
    rw [List.mem_range'_1] at hab hac
    have h1 := hk b hb
    have h2 := hk c hc
    exact hap.not_inside (a := a) ⟨hab.1, by omega⟩ ⟨hac.1, by omega⟩
  have hsub : (l.flatMap fun b => List.range' (lo b) k) ⊆ List.range N := by
    intro a ha
    obtain ⟨b, hb, hab⟩ := List.mem_flatMap.mp ha
    rw [List.mem_range'_1] at hab
    have h1 := hk b hb
    exact List.mem_range.mpr (hN a (h.mem hb ⟨hab.1, by omega⟩))
  have hlen := (hnodup.subperm hsub).length_le
  rw [List.length_range] at hlen
  have hsum : (l.flatMap fun b => List.range' (lo b) k).length = l.length * k := by
    simp [List.length_flatMap]
  rwa [hsum] at hlen

/-- An interval beside the tiling. -/
theorem Tiles.add (hlen : ∀ c, 0 < len c) (hnew : ∀ a, Inside lo len b a → ¬ S a)
    (hs : ∀ a, S' a ↔ S a ∨ Inside lo len b a) : Tiles lo len S' (b :: l) := by
  refine ⟨List.pairwise_cons.mpr ⟨fun c hc => ?_, h.apart⟩, fun a => ?_⟩
  · refine Apart.of_disjoint (hlen b) (hlen c) fun a hb hca => ?_
    exact hnew a hb (h.mem hc hca)
  · rw [hs a, h.cover a]
    constructor
    · rintro (⟨c, hc, ha⟩ | ha)
      · exact ⟨c, List.mem_cons_of_mem _ hc, ha⟩
      · exact ⟨b, List.mem_cons_self .., ha⟩
    · rintro ⟨c, hc, ha⟩
      rcases List.mem_cons.mp hc with rfl | hc
      · exact .inr ha
      · exact .inl ⟨c, hc, ha⟩

end

/-- Some intervals recut: the new ones cover what the old ones did. -/
theorem Tiles.replace (bs cs : List α) (h : Tiles lo len S (bs ++ l))
    (hlen : ∀ c, 0 < len c) (hcs : cs.Pairwise (Apart lo len))
    (hsame : ∀ a, (∃ c ∈ cs, Inside lo len c a)
      ↔ ∃ b ∈ bs, Inside lo len b a) :
    Tiles lo len S (cs ++ l) := by
  have hp := List.pairwise_append.mp h.apart
  refine ⟨List.pairwise_append.mpr ⟨hcs, hp.2.1, ?_⟩, fun a => ?_⟩
  · intro c hc d hd
    refine Apart.of_disjoint (hlen c) (hlen d) fun a hca hda => ?_
    obtain ⟨b, hb, hba⟩ := (hsame a).mp ⟨c, hc, hca⟩
    exact (hp.2.2 b hb d hd).not_inside hba hda
  · rw [h.cover a]
    constructor
    · rintro ⟨b, hb, ha⟩
      rcases List.mem_append.mp hb with hb | hb
      · obtain ⟨c, hc, hca⟩ := (hsame a).mpr ⟨b, hb, ha⟩
        exact ⟨c, List.mem_append_left _ hc, hca⟩
      · exact ⟨b, List.mem_append_right _ hb, ha⟩
    · rintro ⟨c, hc, ha⟩
      rcases List.mem_append.mp hc with hc | hc
      · obtain ⟨b, hb, hba⟩ := (hsame a).mp ⟨c, hc, ha⟩
        exact ⟨b, List.mem_append_left _ hb, hba⟩
      · exact ⟨c, List.mem_append_right _ hc, ha⟩

end Tiling
