/-
What `split_string` returns.

The parts of the string are its `List.splitOn`. The first loop finds their
number (`countParts_eq`). The second one cuts the copy of the string at the
separators: from any place in the string, what it makes of the rest is the
end of the current part and the array of the parts behind it
(`cutLoop_cuts`).
-/
import RojocOS.Clib.Proofs.Malloc
import RojocOS.Clib.Proofs.ScanLine
import RojocOS.Lib.CStrings

namespace RojocOS.Clib

open ByteMap Prog

variable {E : UserEnv} {u u' : User} {str part buffer n s total w' : Nat} {sep : UInt8}
  {text : List UInt8} {m : ByteMap}
variable {a i w x : Nat} {c : UInt8} {hd : List UInt8} {tl : List (List UInt8)} {v : User}

-- ==== the first loop

theorem countParts_eq (sep : UInt8) (text : List UInt8) : ∀ {fuel n s : Nat},
    StringAt m (str + n) text → text.length < fuel →
    countParts m str sep fuel n s = some (n + text.length, s + text.count sep) := by
  induction text with
  | nil =>
    intro fuel n s h hf
    obtain ⟨fuel, rfl⟩ : ∃ f, fuel = f + 1 := ⟨fuel - 1, (Nat.succ_pred_eq_of_pos hf).symm⟩
    have hzero : m (str + n) = 0 := h
    rw [countParts, if_pos hzero]
    rfl
  | cons c text ih =>
    rintro fuel n s ⟨hc, hn, hrest⟩ hf
    obtain ⟨fuel, rfl⟩ : ∃ f, fuel = f + 1 := ⟨fuel - 1, by omega⟩
    rw [countParts, if_neg (by rwa [hn]), ih hrest (Nat.lt_of_succ_lt_succ hf), hn,
      List.length_cons, List.count_cons]
    by_cases hsep : c = sep
    · rw [if_pos hsep, if_pos (by simpa using hsep)]
      congr 2 <;> omega
    · rw [if_neg hsep, if_neg (by simpa using hsep)]
      congr 2
      omega

-- ==== the second loop

/-- The string, the array and the buffer do not overlap. -/
structure Regions (str n part s buffer : Nat) : Prop where
  stringBuffer : str + (n + 1) ≤ buffer ∨ buffer + (n + 1) ≤ str
  stringArray : str + (n + 1) ≤ part ∨ part + 8 * (s + 1) ≤ str
  arrayBuffer : part + 8 * (s + 1) ≤ buffer ∨ buffer + (n + 1) ≤ part
  low : 0 < buffer
  high : buffer + n < 2 ^ 64

/-- What the second loop, from index `i` and part `w` on, makes of the rest
of the string, whose parts are `hd` and `tl`. -/
structure Cut (part s buffer n i w : Nat) (hd : List UInt8) (tl : List (List UInt8))
    (u u' : User) : Prop where
  head : StringAt u'.bytes (buffer + i) hd
  tail : ArrayAt u'.bytes (part + 8 * (w + 1)) tl
  frame : ∀ x, ¬ (buffer + i ≤ x ∧ x < buffer + n) →
    ¬ (part + 8 * (w + 1) ≤ x ∧ x < part + 8 * s) → u'.bytes x = u.bytes x
  stores : ∀ a ∈ u'.stores, a ∈ u.stores ∨ (buffer + i ≤ a ∧ a < buffer + n)
    ∨ (part + 8 * (w + 1) ≤ a ∧ a < part + 8 * s)

/-- What the loop relies on. -/
structure Cutting (str part s buffer n i w : Nat) (sep : UInt8) (text : List UInt8) (u : User) :
    Prop where
  string : StringAt u.bytes (str + i) text
  length : i + text.length = n
  parts : w + 1 + text.count sep = s
  zero : u.bytes (buffer + n) = 0
  null : load u.bytes (part + 8 * s) 8 = 0

/-- After a change of the bytes already passed and of the pointers already
written. -/
theorem Cutting.next (hr : Regions str n part s buffer)
    (h : Cutting str part s buffer n i w sep (c :: text) u)
    (hw : w' + 1 + text.count sep = s) (hle : w ≤ w')
    (hframe : ∀ x ≠ buffer + i, ¬ (part + 8 * (w + 1) ≤ x ∧ x < part + 8 * (w' + 1)) →
      u'.bytes x = u.bytes x) :
    Cutting str part s buffer n (i + 1) w' sep text u' := by
  obtain ⟨hsb, hsa, hab, -, -⟩ := hr
  have hlen := h.length
  rw [List.length_cons] at hlen
  refine ⟨h.string.2.2.congr fun x h1 h2 => hframe x (by omega) (by omega), by omega, hw, ?_, ?_⟩
  · rw [hframe _ (by omega) (by omega)]
    exact h.zero
  · rw [load_congr fun x h1 h2 => hframe x (by omega) (by omega)]
    exact h.null

/-- The copy is cut at `buffer + i`, and a pointer goes behind it. -/
def cutHere (u : User) (part buffer i w : Nat) : User :=
  { u with
    bytes := store (store u.bytes (buffer + i) 1 0) (part + 8 * (w + 1)) 8 (buffer + (i + 1))
    stores := List.range' (part + 8 * (w + 1)) 8 ++ (buffer + i) :: u.stores }

theorem cutHere_frame (h : x ≠ buffer + i)
    (h' : ¬ (part + 8 * (w + 1) ≤ x ∧ x < part + 8 * (w + 1 + 1))) :
    (cutHere u part buffer i w).bytes x = u.bytes x :=
  (store_of_not_mem (by omega)).trans (store_of_not_mem (by omega))

/-- A character is copied. -/
def copied (u : User) (a : Nat) (c : UInt8) : User :=
  { u with bytes := store u.bytes a 1 c.toNat, stores := a :: u.stores }

theorem copied_frame (c : UInt8) (h : x ≠ a) : (copied u a c).bytes x = u.bytes x :=
  store_of_not_mem (by omega)

/-- A separator ends the part before it, and the rest begins another one. -/
theorem Cut.cutHere (hr : Regions str n part s buffer) (hi : i < n) (hw : w + 1 < s)
    (h : Cut part s buffer n (i + 1) (w + 1) hd tl (cutHere u part buffer i w) u') :
    Cut part s buffer n i w [] (hd :: tl) u u' := by
  obtain ⟨-, -, hab, hlow, hhigh⟩ := hr
  have hpointer : load u'.bytes (part + 8 * (w + 1)) 8 = buffer + (i + 1) := by
    rw [load_congr fun x h1 h2 => h.frame x (by omega) (by omega)]
    exact load_store_of_lt (by omega)
  refine ⟨?_, ⟨?_, ?_, h.tail⟩, fun x h1 h2 => ?_, fun a ha => ?_⟩
  · show u'.bytes (buffer + i) = 0
    rw [h.frame _ (by omega) (by omega)]
    exact (store_of_not_mem (by omega)).trans (store_byte u.bytes (buffer + i) 0)
  · rw [hpointer]
    omega
  · rw [hpointer]
    exact h.head
  · rw [h.frame x (by omega) (by omega)]
    exact cutHere_frame (by omega) (by omega)
  · rcases h.stores a ha with ha | ha
    · rcases List.mem_append.mp ha with ha | ha
      · have := List.mem_range'_1.mp ha
        omega
      · rcases List.mem_cons.mp ha with rfl | ha
        · omega
        · exact .inl ha
    · omega

/-- Another character belongs to the part of the one behind it. -/
theorem Cut.copied (hr : Regions str n part s buffer) (hi : i < n) (hc : c ≠ 0)
    (h : Cut part s buffer n (i + 1) w hd tl (copied u (buffer + i) c) u') :
    Cut part s buffer n i w (c :: hd) tl u u' := by
  obtain ⟨-, -, hab, -, -⟩ := hr
  refine ⟨⟨hc, ?_, h.head⟩, h.tail, fun x h1 h2 => ?_, fun a ha => ?_⟩
  · rw [h.frame _ (by omega) (by omega)]
    exact store_byte u.bytes (buffer + i) c
  · rw [h.frame x (by omega) (by omega)]
    exact copied_frame c (by omega)
  · rcases h.stores a ha with ha | ha
    · rcases List.mem_cons.mp ha with rfl | ha
      · omega
      · exact .inl ha
    · omega

theorem cutLoop_cuts (hr : Regions str n part s buffer) (text : List UInt8) :
    ∀ {i w : Nat} {u : User}, Cutting str part s buffer n i w sep text u →
    ∃ u' hd tl, cutLoop str part buffer sep text.length i w u = (.ok (), u')
      ∧ text.splitOn sep = hd :: tl ∧ Cut part s buffer n i w hd tl u u' := by
  induction text with
  | nil =>
    intro i w u h
    have hi : i = n := h.length
    have hw : w + 1 = s := h.parts
    refine ⟨u, [], [], rfl, List.splitOn_nil sep, ?_, ?_, fun _ _ _ => rfl, fun _ ha => .inl ha⟩
    · rw [hi]
      exact h.zero
    · rw [hw]
      exact h.null
  | cons c text ih =>
    intro i w u h
    have hlen := h.length
    have hparts := h.parts
    rw [List.length_cons] at hlen
    rw [List.count_cons] at hparts
    obtain ⟨hnz, hread, -⟩ := h.string
    by_cases hc : c = sep
    · have hb : (c == sep) = true := by simpa using hc
      rw [if_pos hb] at hparts
      obtain ⟨u', hd, tl, hrun, hsplit, hcut⟩ :=
        ih (h.next hr (by omega) (Nat.le_succ w) fun x h1 h2 => cutHere_frame h1 h2)
      refine ⟨u', [], hd :: tl, ?_, ?_, hcut.cutHere hr (by omega) (by omega)⟩
      · rw [List.length_cons, cutLoop, get_bind, if_pos (by rw [hread, hc]),
          bind_of_ok (x := storeAt _ _ _) rfl, bind_of_ok (x := storeAt _ _ _) rfl]
        exact hrun
      · rw [List.splitOn_cons_eq_if_modifyHead, if_pos hb, hsplit]
    · have hb : ¬ (c == sep) = true := by simpa using hc
      rw [if_neg hb] at hparts
      obtain ⟨u', hd, tl, hrun, hsplit, hcut⟩ :=
        ih (h.next hr (by omega) (Nat.le_refl w) fun x h1 _ => copied_frame c h1)
      refine ⟨u', c :: hd, tl, ?_, ?_, hcut.copied hr (by omega) hnz⟩
      · rw [List.length_cons, cutLoop, get_bind,
          if_neg (by rw [hread]; exact hc), hread, bind_of_ok (storeAt_byte _ c u)]
        exact hrun
      · rw [List.splitOn_cons_eq_if_modifyHead, if_neg hb, hsplit]
        rfl

-- ==== split_string

theorem length_splitOn (sep : UInt8) (text : List UInt8) :
    (text.splitOn sep).length = text.count sep + 1 := by
  induction text with
  | nil => simp
  | cons c text ih =>
    rw [List.splitOn_cons_eq_if_modifyHead, List.count_cons]
    split <;> simp [ih]

theorem not_mem_of_mem_splitOn (text : List UInt8) : ∀ p ∈ text.splitOn sep, sep ∉ p := by
  induction text with
  | nil => simp
  | cons c text ih =>
    obtain ⟨hd, tl, hsplit⟩ := List.exists_cons_of_ne_nil (List.splitOn_ne_nil sep text)
    rw [List.splitOn_cons_eq_if_modifyHead]
    rw [hsplit] at ih ⊢
    intro p hp
    split at hp
    · cases hp with
      | head => exact List.not_mem_nil
      | tail _ hp => exact ih p hp
    · rename_i hc
      cases hp with
      | head =>
        rw [List.mem_cons, not_or]
        exact ⟨fun h => hc (by simp [h]), ih hd (.head _)⟩
      | tail _ hp => exact ih p (.tail _ hp)

/-- The two calls of `malloc` succeed: they return an array and a buffer of
their own, and the string is still there. -/
structure Allocated (E : UserEnv) (u : User) (str : Nat) (sep : UInt8) (text : List UInt8)
    (part buffer : Nat) (v : User) : Prop where
  calls : ∃ w, malloc E ((1 + text.count sep + 1) * 8) u = (.ok part, w)
    ∧ malloc E (text.length + 1) w = (.ok buffer, v)
  regions : Regions str text.length part (1 + text.count sep) buffer
  string : StringAt v.bytes str text

/-- The state in which the second loop starts. -/
def beforeCut (v : User) (part s buffer n : Nat) : User :=
  { v with
    bytes := store (store (store v.bytes part 8 buffer) (part + 8 * s) 8 0) (buffer + n) 1 0
    stores := (buffer + n) :: (List.range' (part + 8 * s) 8 ++ (List.range' part 8 ++ v.stores)) }

theorem beforeCut_frame (h : ¬ (part ≤ x ∧ x < part + 8 * (s + 1)))
    (h' : ¬ (buffer ≤ x ∧ x < buffer + (n + 1))) :
    (beforeCut v part s buffer n).bytes x = v.bytes x :=
  ((store_of_not_mem (by omega)).trans (store_of_not_mem (by omega))).trans
    (store_of_not_mem (by omega))

theorem beforeCut_stores (h : a ∈ (beforeCut v part s buffer n).stores) :
    a ∈ v.stores ∨ (part ≤ a ∧ a < part + 8 * (s + 1)) ∨ (buffer ≤ a ∧ a < buffer + (n + 1)) := by
  simp only [beforeCut, List.mem_cons, List.mem_append, List.mem_range'_1] at h
  rcases h with h | h | h | h
  · omega
  · omega
  · omega
  · exact .inl h

theorem Allocated.cutting (ha : Allocated E u str sep text part buffer v) :
    Cutting str part (1 + text.count sep) buffer text.length 0 0 sep text
      (beforeCut v part (1 + text.count sep) buffer text.length) := by
  obtain ⟨hsb, hsa, hab, -, -⟩ := ha.regions
  refine ⟨ha.string.congr fun x h1 h2 => beforeCut_frame (by omega) (by omega), Nat.zero_add _,
    by omega, store_byte _ _ 0, ?_⟩
  refine (load_congr fun x h1 h2 => store_of_not_mem (by omega)).trans (load_store_of_lt (by decide))

theorem Allocated.first (ha : Allocated E u str sep text part buffer v)
    (hframe : ∀ x, part ≤ x → x < part + 8 →
      u'.bytes x = (beforeCut v part (1 + text.count sep) buffer text.length).bytes x) :
    load u'.bytes part 8 = buffer := by
  obtain ⟨-, -, hab, -, hhigh⟩ := ha.regions
  rw [load_congr hframe]
  refine (load_congr fun x h1 h2 => ?_).trans (load_store_of_lt (m := v.bytes) (by omega))
  exact (store_of_not_mem (by omega)).trans (store_of_not_mem (by omega))

/-- `split_string` returns the parts between the separators, and stores
nowhere but in the two regions it allocated. -/
theorem split_string_parts {v : User} (hstr : StringAt u.bytes str text)
    (hlen : text.length < 2 ^ 48) (ha : Allocated E u str sep text part buffer v) :
    ∃ u' parts, splitString E str sep u = (.ok part, u')
      ∧ ArrayAt u'.bytes part parts
      ∧ parts.length = text.count sep + 1
      ∧ (∀ p ∈ parts, sep ∉ p)
      ∧ [sep].intercalate parts = text
      ∧ ∀ a ∈ u'.stores, a ∈ u.stores ∨ (part ≤ a ∧ a < part + 8 * (1 + text.count sep + 1))
        ∨ (buffer ≤ a ∧ a < buffer + (text.length + 1)) := by
  obtain ⟨w, hpart, hbuffer⟩ := ha.calls
  obtain ⟨-, -, hab, hlow, hhigh⟩ := ha.regions
  obtain ⟨u', hd, tl, hrun, hsplit, hcut⟩ := cutLoop_cuts ha.regions text ha.cutting
  have hfirst : load u'.bytes part 8 = buffer :=
    ha.first fun x h1 h2 => hcut.frame x (by omega) (by omega)
  have hstores : v.stores = u.stores := (malloc_ok hbuffer).2.2.trans (malloc_ok hpart).2.2
  refine ⟨u', text.splitOn sep, ?_, ?_, length_splitOn sep text, not_mem_of_mem_splitOn text,
    List.intercalate_splitOn sep, fun a hin => ?_⟩
  · unfold splitString
    rw [get_bind, countParts_eq sep text hstr hlen, Nat.zero_add]
    dsimp only
    rw [bind_of_ok hpart, bind_of_ok hbuffer, bind_of_ok (x := storeAt _ _ _) rfl,
      bind_of_ok (x := storeAt _ _ _) rfl, bind_of_ok (x := storeAt _ _ _) rfl]
    exact bind_of_ok hrun
  · rw [hsplit]
    refine ⟨by omega, ?_, hcut.tail⟩
    rw [hfirst]
    exact hcut.head
  · rcases hcut.stores a hin with hin | hin
    · rw [← hstores]
      exact beforeCut_stores hin
    · exact .inr (by omega)

-- ==== when malloc succeeds

/-- With room on the heap `malloc` succeeds. The string is either below the
top of the heap, or above all that the calls may map, as the line of the
shell on its stack is. -/
theorem allocated_of_room (hE : E.Generous) (hu : Tops u) (hle : u.heapTop ≤ u.pageTop)
    (hpos : 0 < u.heapTop) (hstr : StringAt u.bytes str text)
    (htotal : total = (1 + text.count sep + 1) * 8 + (text.length + 1))
    (hroom : u.heapTop + total + 4096 < 2 ^ 31)
    (hplace : str + text.length < u.heapTop ∨ u.heapTop + total + 4096 ≤ str) :
    ∃ v, Allocated E u str sep text u.heapTop (u.heapTop + (1 + text.count sep + 1) * 8) v := by
  obtain ⟨w, hfirst, hw⟩ := malloc_eq hE hu
    (show u.heapTop + (1 + text.count sep + 1) * 8 + 4096 < 2 ^ 31 by omega)
  have hwtop := hw.heapTop
  obtain ⟨v, hsecond, hv⟩ := malloc_eq hE hw.tops
    (show w.heapTop + (text.length + 1) + 4096 < 2 ^ 31 by omega)
  have hvtop := (hw.trans hv).heapTop
  rw [hwtop] at hsecond
  refine ⟨v, ⟨w, hfirst, hsecond⟩, ⟨by omega, by omega, by omega, by omega, by omega⟩,
    hstr.congr fun x h1 h2 => (hw.trans hv).bytes x ?_⟩
  omega

/-- `ls -l` typed into the line of the shell. -/
def typedLine : ByteMap := fun x => [108, 115, 32, 45, 108].getD (x - 0x2FF800) 0

theorem split_string_parts_ls : ∃ u' parts,
    splitString ⟨fun _ => true⟩ 0x2FF800 32 (User.start typedLine) = (.ok 0x200000, u')
      ∧ ArrayAt u'.bytes 0x200000 parts ∧ parts.length = 2 ∧ (∀ p ∈ parts, 32 ∉ p)
      ∧ [32].intercalate parts = [108, 115, 32, 45, 108] := by
  have hstr : StringAt (User.start typedLine).bytes 0x2FF800 [108, 115, 32, 45, 108] := by
    simp [StringAt, User.start, typedLine]
  obtain ⟨v, hv⟩ : ∃ v, Allocated ⟨fun _ => true⟩ (User.start typedLine) 0x2FF800 32
      [108, 115, 32, 45, 108] 0x200000 0x200018 v :=
    allocated_of_room (fun _ => rfl) (Tops.start typedLine) (Nat.le_refl _)
      (by simp [User.start]) hstr rfl (by decide) (by decide)
  obtain ⟨u', parts, hrun, harray, hlen, hsep, htext, -⟩ := split_string_parts hstr (by decide) hv
  exact ⟨u', parts, hrun, harray, hlen, hsep, htext⟩

end RojocOS.Clib
