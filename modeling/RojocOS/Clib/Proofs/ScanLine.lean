/-
What `scan_line` leaves in its buffer.

# The specification

A line is edited key by key: a printable key goes to its end while there is
room, backspace takes the last character away, and nothing else counts
(`edit`). The line that is read is what the keys before the first newline
make of an empty one (`lineText`).

# The code

The buffer holds the edited line at every moment (`scanLineFrom_edits`).
The limit of the loop is the number of characters, though, and the shell
passes the size of its buffer: a line that is full at the newline gets its
terminating zero behind the buffer (`scan_line_iff`).
-/
import RojocOS.Clib.Process

namespace RojocOS.Clib

open ByteMap

variable {dst room : Nat} {keys text : List UInt8} {u u' : User} {c : UInt8}
  {stores : List Nat}

-- ==== the specification

/-- One key typed into a line with room for `room` characters. -/
def edit (room : Nat) (text : List UInt8) (c : UInt8) : List UInt8 :=
  if c = 8 then text.dropLast
  else if (32 ≤ c ∧ c ≤ 127) ∧ text.length < room then text ++ [c]
  else text

/-- The line typed before the first newline. -/
def lineText (room : Nat) (keys : List UInt8) : List UInt8 :=
  (keys.takeWhile (· ≠ 10)).foldl (edit room) []

theorem length_edit (h : text.length ≤ room) (c : UInt8) :
    (edit room text c).length ≤ room := by
  unfold edit
  split
  · rw [List.length_dropLast]
    omega
  · split
    · rename_i hroom
      rw [List.length_append]
      exact hroom.2
    · exact h

/-- The text stands at `dst`. -/
def HoldsText (u : User) (dst : Nat) (text : List UInt8) : Prop :=
  ∀ i, i < text.length → text[i]? = some (u.bytes (dst + i))

-- ==== the loop

theorem storeAt_byte (a : Nat) (c : UInt8) (u : User) :
    storeAt a 1 c.toNat u = (.ok (), { u with
      bytes := store u.bytes a 1 c.toNat, stores := a :: u.stores }) := rfl

theorem HoldsText.append (h : HoldsText u dst text) (c : UInt8) :
    HoldsText { u with bytes := store u.bytes (dst + text.length) 1 c.toNat, stores := stores } dst
      (text ++ [c]) := by
  intro i hi
  rw [List.length_append, List.length_singleton] at hi
  by_cases hlast : i = text.length
  · subst hlast
    rw [List.getElem?_append_right (Nat.le_refl _), Nat.sub_self]
    exact congrArg some (store_byte _ _ c).symm
  · rw [List.getElem?_append_left (by omega), h i (by omega)]
    exact congrArg some (store_of_not_mem (by omega)).symm

theorem HoldsText.dropLast (h : HoldsText u dst text) : HoldsText u dst text.dropLast := by
  intro i hi
  rw [List.length_dropLast] at hi
  rw [List.getElem?_dropLast, if_pos hi]
  exact h i (by omega)

/-- How a run of the loop ends, and where it stored to, when `text` is the
line it made. -/
structure Scanned (dst room : Nat) (keys text : List UInt8) (u : User)
    (r : Except Stop Nat × User) : Prop where
  answer : r.1 = if 10 ∈ keys then .ok text.length else .error .hang
  holds : 10 ∈ keys → HoldsText r.2 dst text ∧ r.2.bytes (dst + text.length) = 0
  stores : ∀ a ∈ r.2.stores, a ∈ u.stores ∨ (dst ≤ a ∧ a < dst + room)
    ∨ (10 ∈ keys ∧ a = dst + text.length)
  zero : 10 ∈ keys → dst + text.length ∈ r.2.stores

/-- The rest of the keys. -/
theorem Scanned.key {r : Except Stop Nat × User} (hc : c ≠ 10)
    (h : Scanned dst room keys text u' r)
    (hu : ∀ a ∈ u'.stores, a ∈ u.stores ∨ (dst ≤ a ∧ a < dst + room)) :
    Scanned dst room (c :: keys) text u r := by
  have hmem : 10 ∈ c :: keys ↔ 10 ∈ keys := by
    rw [List.mem_cons]
    exact or_iff_right (Ne.symm hc)
  refine ⟨?_, fun hx => h.holds (hmem.mp hx), fun a ha => ?_, fun hx => h.zero (hmem.mp hx)⟩
  · rw [h.answer]
    exact if_congr hmem.symm rfl rfl
  · rcases h.stores a ha with ha | ha | ha
    · exact (hu a ha).imp_right .inl
    · exact .inr (.inl ha)
    · exact .inr (.inr ⟨hmem.mpr ha.1, ha.2⟩)

/-- The buffer follows the edited line. -/
theorem scanLineFrom_edits (keys : List UInt8) : ∀ {text : List UInt8} {u : User},
    HoldsText u dst text → text.length ≤ room →
    Scanned dst room keys ((keys.takeWhile (· ≠ 10)).foldl (edit room) text) u
      (scanLineFrom dst room keys text.length u) := by
  induction keys with
  | nil =>
    intro text u _ _
    exact ⟨rfl, nofun, fun a ha => .inl ha, nofun⟩
  | cons c keys ih =>
    intro text u h hle
    have hsame : ∀ a ∈ u.stores, a ∈ u.stores ∨ (dst ≤ a ∧ a < dst + room) := fun a ha => .inl ha
    by_cases hn : c = 10
    · subst hn
      rw [List.takeWhile_cons_of_neg (by decide), List.foldl_nil]
      refine ⟨?_, fun _ => ⟨?_, ?_⟩, fun a ha => ?_, fun _ => List.mem_cons_self⟩
      · rw [if_pos (.head _)]
        rfl
      · exact fun i hi => (h i hi).trans (congrArg some (store_of_not_mem (by omega)).symm)
      · exact store_byte u.bytes (dst + text.length) 0
      · rcases List.mem_cons.mp ha with ha | ha
        · exact .inr (.inr ⟨List.mem_cons_self, ha⟩)
        · exact .inl ha
    rw [List.takeWhile_cons_of_pos (by simpa using hn), List.foldl_cons]
    have hlen := length_edit hle c
    by_cases hb : c = 8
    · have hedit : edit room text c = text.dropLast := if_pos hb
      have hscan : scanLineFrom dst room (c :: keys) text.length
          = scanLineFrom dst room keys text.dropLast.length := by
        rw [scanLineFrom, if_pos hb, List.length_dropLast]
      rw [hedit] at hlen ⊢
      rw [hscan]
      exact (ih h.dropLast hlen).key hn hsame
    by_cases hp : 32 ≤ c ∧ c ≤ 127
    · by_cases hroom : text.length < room
      · have hedit : edit room text c = text ++ [c] := by
          rw [edit, if_neg hb, if_pos ⟨hp, hroom⟩]
        have hscan : scanLineFrom dst room (c :: keys) text.length u
            = scanLineFrom dst room keys (text ++ [c]).length { u with
              bytes := store u.bytes (dst + text.length) 1 c.toNat
              stores := (dst + text.length) :: u.stores } := by
          rw [scanLineFrom, if_neg hb, if_neg hn, if_pos hp, if_pos hroom,
            Prog.bind_of_ok (storeAt_byte _ c u), List.length_append]
          rfl
        rw [hedit] at hlen ⊢
        rw [hscan]
        refine (ih (h.append c) hlen).key hn fun a ha => ?_
        rcases List.mem_cons.mp ha with rfl | ha
        · exact .inr ⟨Nat.le_add_right _ _, by omega⟩
        · exact .inl ha
      · have hedit : edit room text c = text := by
          rw [edit, if_neg hb, if_neg fun hx => hroom hx.2]
        have hscan : scanLineFrom dst room (c :: keys) text.length
            = scanLineFrom dst room keys text.length := by
          rw [scanLineFrom, if_neg hb, if_neg hn, if_pos hp, if_neg hroom]
        rw [hedit, hscan]
        exact (ih h hle).key hn hsame
    · have hedit : edit room text c = text := by
        rw [edit, if_neg hb, if_neg fun hx => hp hx.1]
      have hscan : scanLineFrom dst room (c :: keys) text.length
          = scanLineFrom dst room keys text.length := by
        rw [scanLineFrom, if_neg hb, if_neg hn, if_neg hp]
      rw [hedit, hscan]
      exact (ih h hle).key hn hsame

-- ==== the line

theorem scanLine_scanned (dst room : Nat) (keys : List UInt8) (u : User) :
    Scanned dst room keys (lineText room keys) u (scanLine dst room keys u) :=
  scanLineFrom_edits keys (fun i hi => absurd hi (Nat.not_lt_zero i)) (Nat.zero_le room)

/-- `scan_line(dst, room)` reads a line into a buffer of `room` bytes: it
stores nowhere else, and returns the edited text with a zero behind it when
there is a newline. -/
structure ReadsLine (dst room : Nat) (keys : List UInt8) (u : User) : Prop where
  inside : ∀ a ∈ (scanLine dst room keys u).2.stores, a ∈ u.stores ∨ (dst ≤ a ∧ a < dst + room)
  line : 10 ∈ keys → (scanLine dst room keys u).1 = .ok (lineText room keys).length
    ∧ HoldsText (scanLine dst room keys u).2 dst (lineText room keys)
    ∧ (scanLine dst room keys u).2.bytes (dst + (lineText room keys).length) = 0

/-- The shell's line fits its 80 bytes exactly if it is not full when the
newline comes. -/
theorem scan_line_iff (dst : Nat) (keys : List UInt8) (u : User) (hu : u.stores = []) :
    ReadsLine dst 80 keys u ↔ (10 ∈ keys → (lineText 80 keys).length < 80) := by
  have hscan := scanLine_scanned dst 80 keys u
  constructor
  · intro h hkeys
    rcases h.inside _ (hscan.zero hkeys) with hx | hx
    · rw [hu] at hx
      cases hx
    · omega
  · intro hlt
    refine ⟨fun a ha => ?_, fun hkeys => ⟨?_, hscan.holds hkeys⟩⟩
    · rcases hscan.stores a ha with ha | ha | ⟨hkeys, rfl⟩
      · exact .inl ha
      · exact .inr ha
      · have := hlt hkeys
        exact .inr ⟨Nat.le_add_right _ _, by omega⟩
    · rw [hscan.answer, if_pos hkeys]

/-- `l`, `x`, backspace, `s` and a newline. -/
theorem scan_line_iff_ls : lineText 80 [108, 120, 8, 115, 10] = [108, 115]
    ∧ ReadsLine 0x2FF800 80 [108, 120, 8, 115, 10] (User.start zero) :=
  ⟨by decide, (scan_line_iff 0x2FF800 _ _ rfl).mpr fun _ => by decide⟩

/-- 80 characters and a newline: the zero goes behind the buffer. -/
theorem full_line_overruns :
    0x2FF800 + 80 ∈ (scanLine 0x2FF800 80 (List.replicate 80 97 ++ [10]) (User.start zero)).2.stores
      ∧ ¬ ReadsLine 0x2FF800 80 (List.replicate 80 97 ++ [10]) (User.start zero) := by
  have hlen : (lineText 80 (List.replicate 80 97 ++ [10])).length = 80 := by decide +kernel
  have hstore := (scanLine_scanned 0x2FF800 80 (List.replicate 80 97 ++ [10])
    (User.start zero)).zero (by simp)
  rw [hlen] at hstore
  refine ⟨hstore, fun h => ?_⟩
  rcases h.inside _ hstore with hx | hx
  · cases hx
  · omega

end RojocOS.Clib
