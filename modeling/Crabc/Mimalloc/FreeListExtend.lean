/-
  Crabc.Mimalloc.FreeListExtend

  The order in which an extension links the new blocks.

  `extend_count` links them one behind the other.  `link_randomized_suffix` cuts them into
  slices, draws a slice for every link and takes its next block.  In both cases the new
  blocks are linked in some order, each once, and the last one to the old list.
-/

import Crabc.Mimalloc.FreeListLinks

namespace Crabc.Mimalloc

open Crabc.Lib List Function Nat

namespace PageArea

variable {area : PageArea}

/-- The loop of `extend_count` and the last link. -/
theorem linkBlocks_eq {count index : Nat} (h : index + count < area.reserved) {m : ByteMemory}
    {last : Nat} : (area.linkBlocks count index (area.block index) m).1 = .ok () ∧
      area.writeNext (area.linkBlocks count index (area.block index) m).2
          (area.block (index + count)) last =
        area.linkAll m ((range' index (count + 1)).map area.block) last := by
  induction count generalizing index m with
  | zero => exact ⟨rfl, rfl⟩
  | succ count ih =>
    rw [linkBlocks, blockAt_eq (by omega : index + 1 < area.reserved)]
    obtain ⟨hok, hlinked⟩ := @ih (index + 1) (by omega)
      (area.writeNext m (area.block index) (area.block (index + 1)))
    refine ⟨hok, ?_⟩
    rw [show index + (count + 1) = index + 1 + count by omega, hlinked]
    rfl

/-! ## Slices -/

variable {k : Nat}

/-- The number of slices is a power of two, and no slice is empty. -/
theorem sliceCountFrom_spec {extend rounds count : Nat} (hcount : count = 2 ^ k) (hk : k + rounds = 6)
    (hle : count ≤ extend) : ∃ k', sliceCountFrom extend rounds count = 2 ^ k' ∧ k' ≤ 6 ∧ 2 ^ k' ≤ extend := by
  induction rounds generalizing count k with
  | zero => exact ⟨k, hcount, by omega, hcount ▸ hle⟩
  | succ rounds ih =>
    rw [sliceCountFrom]
    split
    case isTrue hmore =>
      exact ih (k := k + 1) (by rw [hcount, pow_succ]) (by omega) hmore.2
    case isFalse => exact ⟨k, hcount, by omega, hcount ▸ hle⟩

theorem sliceCount_spec {extend : Nat} (h : 0 < extend) : ∃ k, sliceCount extend = 2 ^ k ∧ k ≤ 6 ∧ 2 ^ k ≤ extend :=
  sliceCountFrom_spec (k := 0) rfl rfl h

/-- From any slice on the search gets to one with a block left. -/
theorem nextSlice_eq_some {counts : Nat → Nat} {rounds next distance : Nat} (hnext : next < 2 ^ k)
    (hfound : counts ((next + distance) % 2 ^ k) ≠ 0) (hdistance : distance < rounds) :
    ∃ slice, nextSlice (2 ^ k) counts rounds next = some slice ∧ slice < 2 ^ k ∧ counts slice ≠ 0 := by
  induction rounds generalizing next distance with
  | zero => cases hdistance
  | succ rounds ih =>
    rw [nextSlice]
    split
    case isFalse hcount => exact ⟨next, rfl, hnext, hcount⟩
    case isTrue hempty =>
      rw [and_two_pow_sub_one_eq_mod]
      cases distance with
      | zero =>
        rw [add_zero, mod_eq_of_lt hnext] at hfound
        exact absurd hempty hfound
      | succ distance =>
        refine @ih _ distance (mod_lt _ (Nat.two_pow_pos k)) ?_ (by omega)
        rw [mod_add_mod, show next + 1 + distance = next + (distance + 1) by omega]
        exact hfound

/-- One list of a family loses its first element. -/
theorem flatMap_perm {α ι : Type} {f f' : ι → List α} {x : α} {next : ι} {indices : List ι}
    (hnodup : indices.Nodup) (hmem : next ∈ indices) (hnext : f next = x :: f' next)
    (hother : ∀ i ∈ indices, i ≠ next → f i = f' i) :
    (indices.flatMap f).Perm (x :: indices.flatMap f') := by
  induction indices with
  | nil => exact absurd hmem not_mem_nil
  | cons i indices ih =>
    obtain ⟨hi, hnodup⟩ := nodup_cons.mp hnodup
    rw [flatMap_cons, flatMap_cons]
    by_cases heq : i = next
    · subst heq
      have hrest : indices.flatMap f = indices.flatMap f' :=
        flatMap_congr fun j hj =>
          hother j (mem_cons_of_mem _ hj) fun heq => hi (heq ▸ hj)
      rw [hnext, hrest]
      exact .refl _
    · have hmem : next ∈ indices := (mem_cons.mp hmem).resolve_left fun h => heq h.symm
      rw [hother i mem_cons_self heq]
      refine ((ih hnodup hmem fun j hj => hother j (mem_cons_of_mem _ hj)).append_left _).trans
        ?_
      exact perm_middle

/-- The blocks that are not linked yet, behind the current one. -/
def Shuffle.remaining (slices : Nat) (t : Shuffle) : List Nat :=
  (List.range slices).flatMap fun slice =>
    List.range' (t.blocks slice + if slice = t.current then 1 else 0) (t.counts slice)

/-- One round takes the first block of a slice. -/
theorem Shuffle.remaining_perm {slices next : Nat} {t : Shuffle} (hnext : next < slices)
    (hcount : t.counts next ≠ 0) (shuffled : Nat) (m : ByteMemory) : (t.remaining slices).Perm
      (update t.blocks t.current (t.blocks t.current + 1) next ::
        Shuffle.remaining slices ⟨update t.blocks t.current (t.blocks t.current + 1),
          update t.counts next (t.counts next - 1), next, shuffled, m⟩) := by
  -- where the blocks of a slice start that are not linked yet
  have hstart (slice : Nat) : update t.blocks t.current (t.blocks t.current + 1) slice =
      t.blocks slice + if slice = t.current then 1 else 0 := by
    by_cases heq : slice = t.current
    · rw [heq, update_self, if_pos rfl]
    · rw [update_of_ne heq, if_neg heq, add_zero]
  refine flatMap_perm nodup_range (mem_range.mpr hnext) ?_ fun slice _ hne => ?_
  · obtain ⟨count, hcount⟩ := exists_eq_succ_of_ne_zero hcount
    simp only [hstart, update_self, hcount, if_true, succ_sub_one]
    rfl
  · simp only [hstart, update_of_ne hne, if_neg hne, add_zero]

/-- **The rounds.**  Every round that is left links one block, and every block that is
    left is linked. -/
theorem linkShuffled_eq (hk : k ≤ 6) (shuffle : Nat → Nat) (last : Nat) {rounds index : Nat} {t : Shuffle}
    (hcurrent : t.current < 2 ^ k) (hblock : t.blocks t.current < area.reserved)
    (hlength : (t.remaining (2 ^ k)).length = rounds) (hreserved : ∀ i ∈ t.remaining (2 ^ k), i < area.reserved) :
    ∃ t' order, area.linkShuffled shuffle (2 ^ k) rounds index t = some (.ok (), t') ∧
      order.Perm (t.remaining (2 ^ k)) ∧ t'.blocks t'.current < area.reserved ∧
      area.writeNext t'.memory (area.block (t'.blocks t'.current)) last =
        area.linkAll t.memory ((t.blocks t.current :: order).map area.block) last := by
  induction rounds generalizing index t with
  | zero =>
    refine ⟨t, [], rfl, ?_, hblock, rfl⟩
    rw [eq_nil_of_length_eq_zero hlength]
  | succ rounds ih =>
    -- some slice has a block left
    obtain ⟨i, hi⟩ := exists_mem_of_length_pos (by omega : 0 < (t.remaining (2 ^ k)).length)
    obtain ⟨slice, hslice, hmem⟩ := mem_flatMap.mp hi
    have hslice := mem_range.mp hslice
    have hcount : t.counts slice ≠ 0 := by
      intro hzero
      rw [hzero] at hmem
      exact absurd hmem not_mem_nil
    have hsize : 2 ^ k ≤ 2 ^ 6 := Nat.pow_le_pow_right (by decide) hk
    have hpos := Nat.two_pow_pos k
    rw [linkShuffled]
    generalize (if index % 8 = 0 then shuffle t.shuffled else t.shuffled) = shuffled
    rw [and_two_pow_sub_one_eq_mod]
    -- and the search gets to one
    have hfirst : shuffled >>> (8 * (index % 8)) % 2 ^ k < 2 ^ k := mod_lt _ hpos
    generalize shuffled >>> (8 * (index % 8)) % 2 ^ k = first at *
    obtain ⟨next, hsome, hnext, hleft⟩ := @nextSlice_eq_some k t.counts 64 first
      ((slice + (2 ^ k - first)) % 2 ^ k) hfirst (by
        rw [add_mod_mod, show first + (slice + (2 ^ k - first)) = slice + 2 ^ k by omega,
          add_mod_right, mod_eq_of_lt hslice]
        exact hcount) (lt_of_lt_of_le (mod_lt _ hpos) hsize)
    have hperm := Shuffle.remaining_perm hnext hleft shuffled (area.writeNext t.memory
      (area.block (t.blocks t.current))
      (area.block (update t.blocks t.current (t.blocks t.current + 1) next)))
    have hsuccessor : update t.blocks t.current (t.blocks t.current + 1) next <
        area.reserved := hreserved _ (hperm.mem_iff.mpr mem_cons_self)
    rw [hsome, blockAt_eq hblock]
    dsimp only
    rw [blockAt_eq hsuccessor]
    have hlength' := hperm.length_eq
    rw [hlength, length_cons, add_right_cancel_iff] at hlength'
    obtain ⟨t', order, hrun, horder, hlast, hlinked⟩ := @ih (index + 1) _ hnext hsuccessor
      hlength'.symm fun i hi => hreserved i (hperm.mem_iff.mpr (mem_cons_of_mem _ hi))
    exact ⟨t', _ :: order, hrun, (horder.cons _).trans hperm.symm, hlast, hlinked⟩

/-- The slices have all new blocks. -/
theorem slices_eq {capacity slices : Nat} (sliceExtend : Nat) : ((range slices).flatMap fun slice =>
      range' (capacity + slice * sliceExtend) sliceExtend) = range' capacity (slices * sliceExtend) := by
  induction slices with
  | zero => rw [zero_mul]; rfl
  | succ slices ih =>
    rw [range_succ, flatMap_append, ih, flatMap_singleton, succ_mul, range'_append_1]


/-- The slices at the start, with what is left over in the last one. -/
theorem slices_start {capacity extend slices : Nat} (hslices : 0 < slices) : ((range slices).flatMap fun slice =>
      range' (if slice < slices then capacity + slice * (extend / slices) else 0)
        (update (fun slice => if slice < slices then extend / slices else 0) (slices - 1)
          ((if slices - 1 < slices then extend / slices else 0) + extend % slices) slice)) =
      range' capacity extend := by
  obtain ⟨n, rfl⟩ : ∃ n, slices = n + 1 := ⟨slices - 1, by omega⟩
  have hlow : ((range n).flatMap fun slice =>
      range' (if slice < n + 1 then capacity + slice * (extend / (n + 1)) else 0)
        (update (fun slice => if slice < n + 1 then extend / (n + 1) else 0) (n + 1 - 1)
          ((if n + 1 - 1 < n + 1 then extend / (n + 1) else 0) + extend % (n + 1)) slice)) =
      range' capacity (n * (extend / (n + 1))) := by
    rw [← slices_eq]
    refine flatMap_congr fun slice hslice => ?_
    have hslice := mem_range.mp hslice
    rw [update_of_ne (by omega), if_pos (by omega), if_pos (by omega)]
  have hsum : n * (extend / (n + 1)) + (extend / (n + 1) + extend % (n + 1)) = extend := by
    rw [← add_assoc, ← succ_mul]
    exact div_add_mod extend (n + 1)
  rw [range_succ, flatMap_append, hlow, flatMap_singleton, Nat.add_sub_cancel,
    update_self, if_pos n.lt_succ_self, if_pos n.lt_succ_self,
    range'_append_1, hsum]

/-- **The shuffled extension.**  The new blocks are linked in some order, in front of the
    old list. -/
theorem linkRandomizedSuffix_eq {shuffle : Nat → Nat} {s : PageLists} {extend : Nat}
    (hpos : 0 < extend) (hreserved : s.capacity + extend ≤ area.reserved) {random : Nat} :
    ∃ order : List Nat, order.Perm (range' s.capacity extend) ∧
      area.linkRandomizedSuffix shuffle s extend random = some (.ok (), { s with
        memory := area.linkAll s.memory (order.map area.block) s.free
        free := (order.map area.block).headD s.free }) := by
  obtain ⟨k, hslices, hk, hle⟩ := sliceCount_spec hpos
  have hpow := Nat.two_pow_pos k
  have hcurrent : random % 2 ^ k < 2 ^ k := mod_lt _ hpow
  have hextend : 0 < extend / 2 ^ k := div_pos hle hpow
  have hstart := @slices_start s.capacity extend (2 ^ k) hpow
  rw [linkRandomizedSuffix, hslices]
  -- the slice that is drawn first loses its first block
  have hcount : update (fun slice => if slice < 2 ^ k then extend / 2 ^ k else 0) (2 ^ k - 1)
      ((if 2 ^ k - 1 < 2 ^ k then extend / 2 ^ k else 0) + extend % 2 ^ k) (random % 2 ^ k) ≠ 0 := by
    by_cases hlast : random % 2 ^ k = 2 ^ k - 1
    · rw [hlast, update_self, if_pos (by omega)]
      omega
    · rw [update_of_ne hlast, if_pos hcurrent]
      omega
  generalize update (fun slice => if slice < 2 ^ k then extend / 2 ^ k else 0) (2 ^ k - 1)
    ((if 2 ^ k - 1 < 2 ^ k then extend / 2 ^ k else 0) + extend % 2 ^ k) = counts at *
  generalize hblocks : (fun slice => if slice < 2 ^ k then s.capacity + slice * (extend / 2 ^ k)
    else 0) = blocks
  simp only [congrFun hblocks] at hstart ⊢
  generalize random % 2 ^ k = current at *
  generalize ht : Shuffle.mk blocks (update counts current (counts current - 1)) current
    (shuffle (random ||| 1)) s.memory = t
  have hperm : (range' s.capacity extend).Perm (blocks current :: t.remaining (2 ^ k)) := by
    rw [← hstart, ← ht]
    refine flatMap_perm nodup_range (mem_range.mpr hcurrent) ?_ fun slice _ hne => ?_
    · obtain ⟨count, hcount⟩ := exists_eq_succ_of_ne_zero hcount
      simp only [update_self, hcount, if_true, succ_sub_one]
      rfl
    · simp only [update_of_ne hne, if_neg hne, add_zero]
  have hmem (i : Nat) (hi : i ∈ blocks current :: t.remaining (2 ^ k)) : i < area.reserved := by
    have hrange := mem_range'_1.mp (hperm.mem_iff.mpr hi)
    omega
  have hlength := hperm.length_eq
  rw [length_range', length_cons] at hlength
  have hbc : t.blocks t.current = blocks current := by rw [← ht]
  obtain ⟨t', order, hrun, horder, hlast, hlinked⟩ := @linkShuffled_eq area k hk shuffle s.free
    (extend - 1) 1 t (by rw [← ht]; exact hcurrent) (hbc ▸ hmem _ mem_cons_self) (by omega)
    fun i hi => hmem i (mem_cons_of_mem _ hi)
  refine ⟨blocks current :: order, (horder.cons _).trans hperm.symm, ?_⟩
  rw [blockAt_eq (hmem _ mem_cons_self)]
  rw [hrun]
  dsimp only
  rw [blockAt_eq hlast]
  dsimp only
  rw [hlinked, hbc, ← ht]
  rfl

end PageArea

end Crabc.Mimalloc
