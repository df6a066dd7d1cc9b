/-
  Crabc.Mimalloc.FreeListLaws

  The blocks of a page are partitioned.

  In every reachable state the initialised blocks are those of the free list, those of
  the local list and the allocated ones, each in one of the three.  The range checks on
  the links therefore never fail, and the used count is the number of allocated blocks.
-/

import Crabc.Mimalloc.FreeListExtend

namespace Crabc.Mimalloc

open Crabc.Lib Relation PageRun

/-- The lists go through `free` and `localFree`, which are the blocks that are not allocated. -/
structure PageSound (area : PageArea) (r : PageRun) (free localFree : List Nat) : Prop where
  freeLinked : Linked (area.readNext r.lists.memory) 0 r.lists.free (free.map area.block)
  localLinked : Linked (area.readNext r.lists.memory) 0 r.lists.localFree (localFree.map area.block)
  partition : (free.map area.block ++ (localFree.map area.block ++ r.allocated)).Perm
    (area.blocks r.lists.capacity)
  capacity_le : r.lists.capacity ≤ area.reserved
  used : r.lists.used = r.allocated.length

/-- In a page that starts `zeroed`, and while `free_is_zero` holds, a block that was never allocated has zeros
    behind its link. -/
structure PageZeroed (zeroed : Prop) (area : PageArea) (r : PageRun) (free localFree : List Nat) : Prop
    extends PageSound area r free localFree where
  blank : zeroed → r.lists.freeIsZero = true → ∀ i < area.reserved, i ∈ free ∨ r.lists.capacity ≤ i →
    ∀ a ∈ Span.mk (area.block i) area.blockSize, a ∉ Span.mk (area.block i) 8 → r.lists.memory a = 0

/-- The result is none of the errors that tell of a broken list. -/
inductive Harmless {α : Type} : Except FreeListError α → Prop where
  | ok {value : α} : Harmless (.ok value)
  | error {e : FreeListError}
      (h : e ≠ .corruptFreeList ∧ e ≠ .invalidBlock ∧ e ≠ .invalidUsedCount) : Harmless (.error e)

open PageArea List Nat

section

variable {area : PageArea} {r : PageRun} {free localFree : List Nat}

namespace PageSound

section

variable (h : PageSound area r free localFree)
include h

theorem nodup : (free.map area.block ++ (localFree.map area.block ++ r.allocated)).Nodup :=
  h.partition.nodup_iff.mpr blocks_nodup

theorem count : free.length + (localFree.length + r.allocated.length) = r.lists.capacity := by
  have hlength := h.partition.length_eq
  rw [length_append, length_append, length_map, length_map, blocks, length_map, length_range] at hlength
  exact hlength

/-- A list block is initialised. -/
theorem index_lt {i : Nat} (hi : i ∈ free ++ localFree) : i < r.lists.capacity := by
  have hmem : area.block i ∈ area.blocks r.lists.capacity := by
    refine h.partition.mem_iff.mp ?_
    rcases mem_append.mp hi with hi | hi
    · exact mem_append_left _ (mem_map_of_mem hi)
    · exact mem_append_right _ (mem_append_left _ (mem_map_of_mem hi))
  obtain ⟨j, hj, heq⟩ := mem_blocks.mp hmem
  exact block_inj heq ▸ hj

theorem allocated_block {a : Nat} (ha : a ∈ r.allocated) :
    ∃ i, i < r.lists.capacity ∧ area.block i = a ∧ i ∉ free ++ localFree := by
  obtain ⟨i, hi, rfl⟩ := mem_blocks.mp
    (h.partition.mem_iff.mp (mem_append_right _ (mem_append_right _ ha)))
  refine ⟨i, hi, rfl, fun hmem => ?_⟩
  have hnodup := h.nodup
  rw [← append_assoc, ← map_append] at hnodup
  exact (nodup_append'.mp hnodup).2.2 (mem_map_of_mem hmem) ha

end

end PageSound

variable {zeroed : Prop}

namespace PageZeroed

/-- A link leads to an initialised block, or is null. -/
theorem linkTarget {capacity head : Nat} {m : ByteMemory} {nodes : List Nat}
    (hcapacity : capacity ≤ area.reserved) (hnodes : ∀ i ∈ nodes, i < capacity)
    (hlinked : Linked (area.readNext m) 0 head (nodes.map area.block)) : area.LinkTarget head := by
  rcases hlinked.head_mem with hnull | hmem
  · exact .inl hnull
  · obtain ⟨i, hi, rfl⟩ := mem_map.mp hmem
    exact .inr ⟨i, lt_of_lt_of_le (hnodes i hi) hcapacity, rfl⟩

/-- The blocks from `capacity` on are linked, in any order, in front of a list of blocks below it. -/
theorem linkAll_fresh {capacity extend head : Nat} {m : ByteMemory} {order old : List Nat}
    (hreserved : capacity + extend ≤ area.reserved) (horder : order.Perm (range' capacity extend))
    (hold : Linked (area.readNext m) 0 head (old.map area.block)) (hlt : ∀ i ∈ old, i < capacity) :
    Linked (area.readNext (area.linkAll m (order.map area.block) head)) 0 ((order.map area.block).headD head)
      ((order ++ old).map area.block) := by
  have hbounds : ∀ i ∈ order, capacity ≤ i ∧ i < capacity + extend := fun i hi =>
    mem_range'_1.mp (horder.mem_iff.mp hi)
  rw [map_append]
  exact linkAll_linked (fun i hi => (hbounds i hi).2.trans_le hreserved) (horder.nodup_iff.mpr nodup_range')
    (linkTarget (by omega) hlt hold) hold fun i hi hmem => Nat.not_lt_of_le (hbounds i hi).1 (hlt i hmem)

section

variable (h : PageZeroed zeroed area r free localFree)
include h

/-- Only the blocks of the lists matter, and those that were never linked. -/
theorem memory {m' : ByteMemory} (hsame : ∀ i < area.reserved, i ∈ free ++ localFree ∨ r.lists.capacity ≤ i →
      ∀ a ∈ Span.mk (area.block i) area.blockSize, m' a = r.lists.memory a) :
    PageZeroed zeroed area ⟨{ r.lists with memory := m' }, r.allocated⟩ free localFree := by
  have hnext (i : Nat) (hi : i ∈ free ++ localFree) :
      area.readNext m' (area.block i) = area.readNext r.lists.memory (area.block i) :=
    readNext_congr fun a ha => hsame i ((h.index_lt hi).trans_le h.capacity_le) (.inl hi) a ((word_inside i).mem ha)
  refine ⟨⟨h.freeLinked.congr fun a ha => ?_, h.localLinked.congr fun a ha => ?_, h.partition, h.capacity_le,
    h.used⟩, fun hz hflag i hi hmem a ha hlink => ?_⟩
  · obtain ⟨i, hi, rfl⟩ := mem_map.mp ha
    exact hnext i (mem_append_left _ hi)
  · obtain ⟨i, hi, rfl⟩ := mem_map.mp ha
    exact hnext i (mem_append_right _ hi)
  · exact (hsame i hi (hmem.imp_left (mem_append_left _)) a ha).trans (h.blank hz hflag i hi hmem a ha hlink)

/-- A write to an initialised block that is in no list. -/
theorem frame {m' : ByteMemory} {i : Nat} (hi : i ∉ free ++ localFree) (hlt : i < r.lists.capacity)
    (hframe : ByteMemory.Frame ⟨area.block i, area.blockSize⟩ r.lists.memory m') :
    PageZeroed zeroed area ⟨{ r.lists with memory := m' }, r.allocated⟩ free localFree :=
  h.memory fun j _ hj a ha => hframe a
    (block_apart (fun heq : j = i => (heq ▸ hj).elim hi (Nat.not_le_of_lt hlt)) a ha)

end

end PageZeroed

/-! ## The range checks -/

namespace PageArea

variable {s : PageLists} {i : Nat}

theorem validate_block (hi : i < s.capacity) (hcapacity : s.capacity ≤ area.reserved) :
    area.validateInitializedBlock s (area.block i) = .ok () := by
  have hbounded := area.bounded
  have hpos : 0 < area.blockSize := lt_of_lt_of_le (by decide) area.block_words.1
  have hend := block_lt (hi.trans_le hcapacity)
  have haligned := mod_eq_zero_of_dvd (@block_aligned area i)
  have hlow : i * area.blockSize < s.capacity * area.blockSize := Nat.mul_lt_mul_of_pos_right hi hpos
  rw [block] at hend haligned
  rw [validateInitializedBlock, block, show area.base + i * area.blockSize + (2 ^ 64 - area.base) =
    i * area.blockSize + 2 ^ 64 by omega, add_mod_right, mod_eq_of_lt (by omega)]
  exact if_neg (by omega)

theorem validateRaw_block (hi : i < s.capacity) (hcapacity : s.capacity ≤ area.reserved) :
    area.validateRawInitializedBlock s (area.block i) = .ok () := by
  have hbounded := area.bounded
  have hpos : 0 < area.blockSize := lt_of_lt_of_le (by decide) area.block_words.1
  have haligned := mod_eq_zero_of_dvd (@block_aligned area i)
  have hlow : i * area.blockSize < s.capacity * area.blockSize := Nat.mul_lt_mul_of_pos_right hi hpos
  have hhigh : s.capacity * area.blockSize ≤ area.reserved * area.blockSize :=
    mul_le_mul_right _ hcapacity
  rw [block] at haligned
  rw [validateRawInitializedBlock, Usize.checkedMul_eq_some.mpr ⟨by omega, rfl⟩]
  dsimp only
  rw [Usize.checkedAdd_eq_some.mpr ⟨by omega, rfl⟩, block]
  exact if_neg (by omega)

end PageArea

/-! ## Extension -/

namespace PageZeroed

variable {s' : PageLists}

section

variable (h : PageZeroed zeroed area r free localFree)
include h

/-- New blocks are put in front of the free list, in any order. -/
theorem extended {order : List Nat} {extend : Nat} (hreserved : r.lists.capacity + extend ≤ area.reserved)
    (horder : order.Perm (range' r.lists.capacity extend)) : PageZeroed zeroed area ⟨{ r.lists with
      memory := area.linkAll r.lists.memory (order.map area.block) r.lists.free
      free := (order.map area.block).headD r.lists.free
      capacity := r.lists.capacity + extend }, r.allocated⟩ (order ++ free) localFree := by
  have hbounds : ∀ i ∈ order, r.lists.capacity ≤ i ∧ i < r.lists.capacity + extend := fun i hi =>
    mem_range'_1.mp (horder.mem_iff.mp hi)
  have hnew : ∀ i ∈ order, i ∉ free ++ localFree := fun i hi hmem =>
    Nat.not_lt_of_le (hbounds i hi).1 (h.index_lt hmem)
  refine ⟨⟨linkAll_fresh hreserved horder h.freeLinked fun i hi => h.index_lt (mem_append_left _ hi), ?_, ?_,
    hreserved, h.used⟩, fun hz hflag i hi hmem a ha hlink => ?_⟩
  · refine h.localLinked.congr fun a ha => ?_
    obtain ⟨i, hi, rfl⟩ := mem_map.mp ha
    exact linkAll_readNext fun hmem => hnew i hmem (mem_append_right _ hi)
  · have hrange : range (r.lists.capacity + extend) = range r.lists.capacity ++ range' r.lists.capacity extend := by
      have happend := @range'_append_1 0 r.lists.capacity extend
      rw [zero_add] at happend
      rw [range_eq_range', range_eq_range', happend]
    rw [blocks, hrange, map_append, map_append, append_assoc]
    exact ((horder.map _).append h.partition).trans perm_append_comm
  · -- a link is written in front of the bytes that are zero
    have hold : i ∈ free ∨ r.lists.capacity ≤ i := by
      rcases hmem with hmem | hle
      · exact (mem_append.mp hmem).symm.imp_right fun hnew => (hbounds i hnew).1
      · exact .inr ((le_add_right _ _).trans hle)
    refine (linkAll_frame fun node hnode hword => ?_).trans (h.blank hz hflag i hi hold a ha hlink)
    obtain ⟨j, -, rfl⟩ := mem_map.mp hnode
    by_cases heq : i = j
    · exact hlink (heq ▸ hword)
    · exact block_apart heq a ha ((word_inside j).mem hword)

/-- `extend_count` on a page with empty lists. -/
theorem extendCount (count : Nat) : Harmless (area.extendCount r.lists count).1 ∧
      ∃ free', PageZeroed zeroed area ⟨(area.extendCount r.lists count).2, r.allocated⟩ free' localFree := by
  rw [PageArea.extendCount]
  split
  case isTrue => exact ⟨.error (by decide), free, h⟩
  split
  case isTrue => exact ⟨.ok, free, h⟩
  split
  case isTrue => exact ⟨.error (by decide), free, h⟩
  case isFalse hfit =>
    obtain ⟨n, rfl⟩ : ∃ n, count = n + 1 := ⟨count - 1, by omega⟩
    have hreserved : r.lists.capacity + (n + 1) ≤ area.reserved := by omega
    have hlast : r.lists.capacity + n < area.reserved := by omega
    obtain ⟨hlinked, hmemory⟩ := linkBlocks_eq hlast
    rw [Nat.add_sub_cancel, blockAt_eq (by omega)]
    dsimp only
    rw [blockAt_eq hlast]
    dsimp only
    rw [Nat.add_sub_cancel_left, hlinked, hmemory]
    exact ⟨.ok, _, h.extended hreserved (List.Perm.refl _)⟩

/-- `extend`. -/
theorem extend (secureLevel : Nat) : Harmless (area.extend secureLevel r.lists).1 ∧
      ∃ free', PageZeroed zeroed area ⟨(area.extend secureLevel r.lists).2, r.allocated⟩ free' localFree := by
  rw [PageArea.extend]
  split
  case isTrue => exact ⟨.error (by decide), free, h⟩
  split
  case isTrue => exact ⟨.ok, free, h⟩
  split
  case h_1 => exact ⟨.error (by decide), free, h⟩
  case h_2 => exact ⟨.ok, free, h⟩
  case h_3 count _ _ => exact h.extendCount count

/-- `extend_count_randomized` returns. -/
theorem extendCountRandomized (shuffle : Nat → Nat) (count : Nat) (random : Option Nat) :
    ∃ outcome, area.extendCountRandomized shuffle r.lists count random = some outcome ∧
      Harmless outcome.1 ∧ ∃ free', PageZeroed zeroed area ⟨outcome.2, r.allocated⟩ free' localFree := by
  rw [PageArea.extendCountRandomized]
  split
  case isTrue => exact ⟨_, rfl, .error (by decide), free, h⟩
  case isFalse hfit =>
    have hreserved : r.lists.capacity + count ≤ area.reserved := by omega
    have hpos : 0 < count := by omega
    rw [blockAt_eq (by omega), blockAt_eq (by omega)]
    dsimp only
    split
    case isTrue hone =>
      subst hone
      exact ⟨_, rfl, .ok, _, h.extended hreserved (List.Perm.refl _)⟩
    case isFalse =>
      cases random.filter (· ≠ 0) with
      | none => exact ⟨_, rfl, .error (by decide), free, h⟩
      | some random =>
        obtain ⟨order, horder, heq⟩ :=
          linkRandomizedSuffix_eq hpos hreserved
        dsimp only
        rw [heq]
        exact ⟨_, rfl, .ok, _, h.extended hreserved horder⟩

/-! ## Pop, push and collection -/

/-- The free list is not empty: its first block is initialised, and so is the next one. -/
theorem checkedNext {i : Nat} {rest : List Nat} (hfree : free = i :: rest) :
    area.checkedNext r.lists (area.block i) = .ok (area.readNext r.lists.memory (area.block i)) := by
  subst hfree
  have hlt : ∀ j ∈ i :: rest, j < r.lists.capacity := fun j hj =>
    h.index_lt (mem_append_left _ hj)
  rw [checkedNext, validate_block (hlt i mem_cons_self) h.capacity_le]
  rcases h.freeLinked.2.2.head_mem with hnull | hmem
  · exact if_pos hnull
  · obtain ⟨j, hj, hnext⟩ := mem_map.mp hmem
    rw [← hnext, if_neg (ne_of_gt (block_pos j)), validate_block (hlt j (mem_cons_of_mem _ hj)) h.capacity_le]

end

theorem pop_none (hnull : r.lists.free = 0) (zero : Bool) : area.pop r.lists zero = (.ok none, r.lists) :=
  if_pos hnull

section

variable (h : PageZeroed zeroed area r free localFree)
include h

/-- `pop` takes the first block of the free list. -/
theorem pop_some (hne : r.lists.free ≠ 0) (zero : Bool) :
    ∃ s' free', area.pop r.lists zero = (.ok (some r.lists.free), s') ∧ r.lists.free ∉ r.allocated ∧
      (zeroed → zero = true → ∀ a ∈ Span.mk r.lists.free area.blockSize, s'.memory a = 0) ∧
      PageZeroed zeroed area ⟨s', r.lists.free :: r.allocated⟩ free' localFree := by
  obtain ⟨i, rest, rfl, hhead⟩ : ∃ i rest, free = i :: rest ∧ area.block i = r.lists.free := by
    cases free with
    | nil => exact absurd h.freeLinked hne
    | cons i rest => exact ⟨i, rest, rfl, h.freeLinked.1.symm⟩
  have hcount := h.count
  have hnodup := h.nodup
  rw [map_cons, cons_append, nodup_cons] at hnodup
  have hi : i ∉ rest ++ localFree := fun hmem => by
    refine hnodup.1 ?_
    rw [← append_assoc, ← map_append]
    exact mem_append_left _ (mem_map_of_mem hmem)
  have hchecked := h.checkedNext rfl
  rw [length_cons] at hcount
  rw [pop, if_neg hne, if_neg (by rw [h.used]; omega), ← hhead, hchecked]
  refine ⟨_, rest, rfl, fun hmem => hnodup.1
    (mem_append_right _ (mem_append_right _ hmem)), fun hz hzero a ha => ?_, ?_⟩
  · by_cases hflag : r.lists.freeIsZero = false
    · rw [if_pos ⟨hzero, hflag⟩]
      exact ByteMemory.fill_of_mem ha 0
    · have hlt := (h.index_lt mem_cons_self).trans_le h.capacity_le
      rw [if_neg fun hfill => hflag hfill.2]
      by_cases hlink : a ∈ Span.mk (area.block i) 8
      · exact (if_pos hlink).trans (congrArg UInt8.ofNat (Nat.zero_div _))
      · exact (if_neg hlink).trans
          (h.blank hz (Bool.not_eq_false _ ▸ hflag) i hlt (.inl mem_cons_self) a ha hlink)
  -- the lists without the block, before it is written
  have hpopped : PageZeroed zeroed area ⟨{ r.lists with
      free := area.readNext r.lists.memory (area.block i)
      used := r.lists.used + 1 }, area.block i :: r.allocated⟩ rest localFree := by
    refine ⟨⟨h.freeLinked.2.2, h.localLinked, ?_, h.capacity_le, congrArg (· + 1) h.used⟩,
      fun hz hflag j hj hmem => h.blank hz hflag j hj (hmem.imp_left (mem_cons_of_mem i))⟩
    refine List.Perm.trans ?_ h.partition
    rw [← append_assoc, ← append_assoc, map_cons, cons_append, cons_append]
    exact perm_middle
  refine hpopped.frame hi (h.index_lt mem_cons_self) ?_
  have hword := (ByteMemory.frame_setWord r.lists.memory (area.block i) 0).mono
    (@word_inside area i)
  split
  · exact hword.trans (ByteMemory.frame_fill _ _ _)
  · exact hword

/-- `push_local` of an allocated block. -/
theorem pushLocal {a : Nat} (ha : a ∈ r.allocated) : ∃ s' localFree', area.pushLocal r.lists a = (.ok (), s') ∧
      PageZeroed zeroed area ⟨s', r.allocated.erase a⟩ free localFree' := by
  obtain ⟨i, hi, rfl, hnew⟩ := h.allocated_block ha
  have hused : r.lists.used ≠ 0 := by
    rw [h.used]
    exact ne_of_gt (length_pos_of_mem ha)
  have hlt : ∀ j ∈ localFree, j < r.lists.capacity := fun j hj =>
    h.index_lt (mem_append_right _ hj)
  have hhead : (if r.lists.localFree = 0 then .ok ()
      else area.validateInitializedBlock r.lists r.lists.localFree) = .ok () := by
    rcases h.localLinked.head_mem with hnull | hmem
    · exact if_pos hnull
    · obtain ⟨j, hj, hnext⟩ := mem_map.mp hmem
      rw [← hnext, if_neg (ne_of_gt (block_pos j)), validate_block (hlt j hj) h.capacity_le]
  rw [PageArea.pushLocal, validate_block hi h.capacity_le]
  rw [if_neg hused, hhead]
  have htarget := linkTarget h.capacity_le hlt h.localLinked
  have hwritten := h.frame hnew hi ((area.writeNext_frame r.lists.memory (area.block i)
    r.lists.localFree).mono (word_inside i))
  refine ⟨_, i :: localFree, rfl, ⟨hwritten.freeLinked, ⟨rfl, ne_of_gt (block_pos i), ?_⟩, ?_, h.capacity_le, ?_⟩,
    hwritten.blank⟩
  · rw [readNext_writeNext htarget]
    exact hwritten.localLinked
  · refine List.Perm.trans (List.Perm.append_left _ ?_) h.partition
    exact perm_middle.symm.trans ((perm_cons_erase ha).symm.append_left _)
  · rw [h.used, length_erase_of_mem ha]

/-- The local list becomes the free list. -/
theorem collected (hnull : r.lists.free = 0) : PageZeroed zeroed area ⟨{ r.lists with
      free := r.lists.localFree, localFree := 0, freeIsZero := false }, r.allocated⟩ localFree [] := by
  have hnil : free = [] := by
    have hlinked := h.freeLinked
    rw [hnull] at hlinked
    exact map_eq_nil_iff.mp hlinked.eq_nil
  subst hnil
  exact ⟨⟨h.localLinked, rfl, h.partition, h.capacity_le, h.used⟩, nofun⟩

/-- `quick_collect`. -/
theorem quickCollect : Harmless (area.quickCollect r.lists).1 ∧ ∃ free' localFree',
      PageZeroed zeroed area ⟨(area.quickCollect r.lists).2, r.allocated⟩ free' localFree' := by
  rw [PageArea.quickCollect]
  split
  case isTrue => exact ⟨.ok, free, localFree, h⟩
  case isFalse hfree =>
  split
  case isTrue => exact ⟨.ok, free, localFree, h⟩
  case isFalse hlocal =>
    obtain ⟨i, hi, hhead⟩ := mem_map.mp (h.localLinked.head_mem.resolve_left hlocal)
    rw [← hhead, validate_block (h.index_lt (mem_append_right _ hi)) h.capacity_le, hhead]
    exact ⟨.ok, _, _, h.collected (not_not.mp hfree)⟩

end

/-- The walk of `raw_list_tail` ends at the last block. -/
theorem rawListTailFrom {s : PageLists} (hcapacity : s.capacity ≤ area.reserved) {i : Nat}
    {rest : List Nat} (hlinked : Linked (area.readNext s.memory) 0 (area.block i)
      ((i :: rest).map area.block)) (hlt : ∀ j ∈ i :: rest, j < s.capacity) {rounds : Nat}
    (hrounds : rest.length < rounds) : area.rawListTailFrom s rounds (area.block i) =
      .ok (area.block ((i :: rest).getLast (cons_ne_nil _ _))) := by
  induction rest generalizing i rounds with
  | nil =>
    obtain ⟨rounds, rfl⟩ : ∃ n, rounds = n + 1 := ⟨rounds - 1, by omega⟩
    exact if_pos hlinked.2.2
  | cons j rest ih =>
    obtain ⟨rounds, rfl⟩ : ∃ n, rounds = n + 1 := ⟨rounds - 1, by omega⟩
    have hnext : area.readNext s.memory (area.block i) = area.block j := hlinked.2.2.1
    have hrest := hlinked.2.2
    rw [hnext] at hrest
    have hlt' : ∀ k ∈ j :: rest, k < s.capacity := fun k hk => hlt k (mem_cons_of_mem _ hk)
    rw [PageArea.rawListTailFrom, hnext, if_neg (ne_of_gt (block_pos j)),
      validateRaw_block (hlt' j mem_cons_self) hcapacity]
    exact ih hrest hlt' (by simpa using hrounds)

/-- The result of a call that gives no block is forgotten. -/
theorem forgotten {α : Type} {outcome : Outcome α} (h : PageZeroed zeroed area ⟨outcome.2, r.allocated⟩ free localFree)
    (hharmless : Harmless outcome.1) : Harmless (forget outcome).1 ∧
      (∀ block, (forget outcome).1 = .ok (some block) → block ∉ r.allocated) ∧ ∃ free' localFree',
        PageZeroed zeroed area ⟨(forget outcome).2, r.allocated⟩ free' localFree' := by
  obtain ⟨result, s⟩ := outcome
  cases hharmless with
  | ok => exact ⟨.ok, nofun, free, localFree, h⟩
  | error h' => exact ⟨.error h', nofun, free, localFree, h⟩

section

variable (h : PageZeroed zeroed area r free localFree)
include h

/-- The local list is put in front of the free list. -/
theorem appended {before : List Nat} {last : Nat} (hlocal : localFree = before ++ [last]) :
    PageZeroed zeroed area ⟨{ r.lists with
      memory := area.writeNext r.lists.memory (area.block last) r.lists.free
      free := r.lists.localFree
      localFree := 0
      freeIsZero := false }, r.allocated⟩ (localFree ++ free) [] := by
  subst hlocal
  have hframe := (area.writeNext_frame r.lists.memory (area.block last) r.lists.free).mono
    (word_inside last)
  have hother {i : Nat} (hne : i ≠ last) :=
    readNext_frame hframe (block_apart hne)
  have hnodup := h.nodup
  rw [← append_assoc, ← map_append] at hnodup
  have hindices : (free ++ (before ++ [last])).Nodup :=
    (nodup_append'.mp hnodup).1.of_map _
  have hlast : last ∉ before ∧ last ∉ free := by
    rw [nodup_append', nodup_append'] at hindices
    exact ⟨fun hmem => hindices.2.1.2.2 hmem mem_cons_self,
      fun hmem => hindices.2.2 hmem (mem_append_right _ mem_cons_self)⟩
  have htarget := linkTarget h.capacity_le (fun i hi => h.index_lt (mem_append_left _ hi))
    h.freeLinked
  have hlinked := h.localLinked
  rw [map_append] at hlinked
  refine ⟨⟨?_, rfl, ?_, h.capacity_le, h.used⟩, nofun⟩
  · rw [append_assoc, map_append]
    refine hlinked.append (fun a ha => ?_) ?_
    · obtain ⟨i, hi, rfl⟩ := mem_map.mp ha
      exact hother fun heq => hlast.1 (heq ▸ hi)
    · rw [readNext_writeNext htarget]
      refine h.freeLinked.congr fun a ha => ?_
      obtain ⟨i, hi, rfl⟩ := mem_map.mp ha
      exact hother fun heq => hlast.2 (heq ▸ hi)
  · rw [map_append, append_assoc]
    exact (perm_append_comm_assoc _ _ _).trans h.partition

/-- `collect_local`. -/
theorem collectLocal (force : Bool) : Harmless (area.collectLocal r.lists force).1 ∧ ∃ free' localFree',
      PageZeroed zeroed area ⟨(area.collectLocal r.lists force).2, r.allocated⟩ free' localFree' := by
  have hcount := h.count
  have hused := h.used
  have hcapacity := h.capacity_le
  rw [PageArea.collectLocal, if_neg (by omega)]
  split
  case isTrue => exact ⟨.ok, free, localFree, h⟩
  case isFalse hlocal =>
    obtain ⟨i, rest, rfl, hhead⟩ : ∃ i rest, localFree = i :: rest ∧ r.lists.localFree = area.block i := by
      cases localFree with
      | nil => exact absurd h.localLinked hlocal
      | cons i rest => exact ⟨i, rest, rfl, h.localLinked.1⟩
    have hlt : ∀ j ∈ i :: rest, j < r.lists.capacity := fun j hj =>
      h.index_lt (mem_append_right _ hj)
    have hraw := validateRaw_block (hlt i mem_cons_self) hcapacity
    rw [hhead, hraw]
    dsimp only
    split
    case isTrue hnull => exact ⟨.ok, _, _, hhead ▸ h.collected hnull⟩
    case isFalse hfree =>
    split
    case isTrue => exact ⟨.ok, free, i :: rest, h⟩
    case isFalse =>
      obtain ⟨j, hj, hnext⟩ := mem_map.mp (h.freeLinked.head_mem.resolve_left hfree)
      have hlinked := h.localLinked
      rw [hhead] at hlinked
      rw [length_cons] at hcount
      have htail : area.rawListTailFrom r.lists r.lists.capacity (area.block i) = _ :=
        rawListTailFrom hcapacity hlinked hlt (by omega)
      rw [← hnext, validateRaw_block (h.index_lt (mem_append_left _ hj)) hcapacity]
      rw [rawListTail, if_neg (by omega), hraw]
      rw [htail, hnext, ← hhead]
      exact ⟨.ok, _, _, h.appended (dropLast_concat_getLast (cons_ne_nil i rest)).symm⟩

/-! ## Runs -/

/-- A call that only pushes allocated blocks returns, with none of the errors that tell of
    a broken list; a block that it pops was not allocated. -/
theorem perform (secureLevel : Nat) (shuffle : Nat → Nat) (c : FreeListCall)
    (hpush : ∀ block, c = .pushLocal block → block ∈ r.allocated) :
    ∃ result s', c.perform area secureLevel shuffle r.lists = some (result, s') ∧ Harmless result ∧
      (∀ block, result = .ok (some block) → block ∉ r.allocated) ∧ ∃ free' localFree',
        PageZeroed zeroed area ⟨s', c.allocatedAfter r.allocated result⟩ free' localFree' := by
  cases c with
  | extend =>
    obtain ⟨hharmless, free', hsound⟩ := h.extend secureLevel
    exact ⟨_, _, rfl, hsound.forgotten hharmless⟩
  | extendCount count =>
    obtain ⟨hharmless, free', hsound⟩ := h.extendCount count
    exact ⟨_, _, rfl, hsound.forgotten hharmless⟩
  | extendCountRandomized count random =>
    obtain ⟨outcome, heq, hharmless, free', hsound⟩ := h.extendCountRandomized shuffle count random
    exact ⟨_, _, congrArg (Option.map forget) heq, hsound.forgotten hharmless⟩
  | pop zero =>
    by_cases hnull : r.lists.free = 0
    · exact ⟨_, _, congrArg some (pop_none hnull zero), .ok, nofun, free, localFree, h⟩
    · obtain ⟨s', free', heq, hfresh, -, hsound⟩ := h.pop_some hnull zero
      refine ⟨_, _, congrArg some heq, .ok, fun block heq => ?_, free', localFree, hsound⟩
      cases heq
      exact hfresh
  | pushLocal block =>
    obtain ⟨s', localFree', heq, hsound⟩ := h.pushLocal (hpush block rfl)
    refine ⟨_, _, congrArg (fun outcome => some (forget outcome)) heq, .ok, nofun, free, localFree', hsound⟩
  | quickCollect =>
    obtain ⟨hharmless, free', localFree', hsound⟩ := h.quickCollect
    exact ⟨_, _, rfl, hsound.forgotten hharmless⟩
  | collectLocal force =>
    obtain ⟨hharmless, free', localFree', hsound⟩ := h.collectLocal force
    exact ⟨_, _, rfl, hsound.forgotten hharmless⟩

/-- What the clients write reaches no block of the lists. -/
theorem store {m' : ByteMemory}
    (hwritten : ∀ a, m' a ≠ r.lists.memory a → (∃ block ∈ r.allocated, a ∈ Span.mk block area.blockSize) ∨ a ∉ Span.mk area.base (area.reserved * area.blockSize)) :
    PageZeroed zeroed area ⟨{ r.lists with memory := m' }, r.allocated⟩ free localFree := by
  refine h.memory fun i hlt hi a ha => ?_
  by_contra hne
  rcases hwritten a hne with ⟨block, hblock, hmem⟩ | houtside
  · obtain ⟨j, hj, rfl, hnew⟩ := h.allocated_block hblock
    exact block_apart (fun heq : i = j => (heq ▸ hi).elim hnew (Nat.not_le_of_lt hj)) a ha hmem
  · exact houtside (Span.Inside.mem (block_inside hlt) ha)

end

variable {secureLevel : Nat} {shuffle : Nat → Nat} {r' : PageRun}

theorem fresh (m : ByteMemory) (freeIsZero : Bool) (h : zeroed → freeIsZero = true →
      ∀ a ∈ Span.mk area.base (area.reserved * area.blockSize), m a = 0) :
    PageZeroed zeroed area (fresh m freeIsZero) [] [] := by
  refine ⟨⟨rfl, rfl, List.Perm.refl _, zero_le _, rfl⟩, fun hz hflag i hi _ a ha _ => h hz hflag a ?_⟩
  exact Span.Inside.mem (block_inside hi) ha

section

variable (h : PageZeroed zeroed area r free localFree)
include h

theorem step (hstep : FreeListStep area secureLevel shuffle r r') :
    ∃ free' localFree', PageZeroed zeroed area r' free' localFree' := by
  cases hstep with
  | call c hpush hperform =>
    obtain ⟨result, s', heq, -, -, hsound⟩ := h.perform secureLevel shuffle c hpush
    cases heq.symm.trans hperform
    exact hsound
  | store hwritten => exact ⟨free, localFree, h.store hwritten⟩

theorem run (hrun : ReflTransGen (FreeListStep area secureLevel shuffle) r r') :
    ∃ free' localFree', PageZeroed zeroed area r' free' localFree' := by
  induction hrun with
  | refl => exact ⟨free, localFree, h⟩
  | tail _ hstep ih =>
    obtain ⟨free', localFree', hmiddle⟩ := ih
    exact hmiddle.step hstep

end

end PageZeroed

end

/-- **The free lists of a page.**  In every run from a fresh page the initialised blocks are
    partitioned into the free list, the local list and the allocated blocks.  Both lists end
    and have no block twice, and the used count is the number of allocated blocks.  Every call
    that pushes only an allocated block returns; it never tells of a broken list, and a block
    that it pops was not allocated. -/
theorem pageLists_partitioned (area : PageArea) (secureLevel : Nat) (shuffle : Nat → Nat)
    (m : ByteMemory) (freeIsZero : Bool) (r : PageRun)
    (hrun : ReflTransGen (FreeListStep area secureLevel shuffle) (fresh m freeIsZero) r) :
    (∃ free localFree : List Nat, Linked (area.readNext r.lists.memory) 0 r.lists.free free ∧ free.Nodup ∧
      Linked (area.readNext r.lists.memory) 0 r.lists.localFree localFree ∧ localFree.Nodup ∧
      (free ++ (localFree ++ r.allocated)).Perm (area.blocks r.lists.capacity) ∧
      (free ++ (localFree ++ r.allocated)).Nodup) ∧
    r.lists.capacity ≤ area.reserved ∧ r.lists.used = r.allocated.length ∧
    ∀ c : FreeListCall, (∀ block, c = .pushLocal block → block ∈ r.allocated) →
      ∃ result s', c.perform area secureLevel shuffle r.lists = some (result, s') ∧
        result ≠ .error .corruptFreeList ∧ result ≠ .error .invalidBlock ∧
        result ≠ .error .invalidUsedCount ∧
        ∀ zero block, c = .pop zero → result = .ok (some block) → block ∉ r.allocated := by
  obtain ⟨free, localFree, h⟩ := (PageZeroed.fresh m freeIsZero False.elim).run hrun
  refine ⟨⟨free.map area.block, localFree.map area.block, h.freeLinked, h.freeLinked.nodup,
    h.localLinked, h.localLinked.nodup, h.partition, h.nodup⟩, h.capacity_le, h.used,
    fun c hpush => ?_⟩
  obtain ⟨result, s', heq, hharmless, hfresh, -⟩ := h.perform secureLevel shuffle c hpush
  refine ⟨result, s', heq, ?_, ?_, ?_, fun _ block _ => hfresh block⟩
  all_goals
    rintro rfl
    cases hharmless with
    | error h => simp at h

/-- Four blocks of two words, with plain links. -/
def smallArea : PageArea where
  base := 4096
  blockSize := 16
  reserved := 4
  keys := none
  reserved_pos := by decide
  reserved_lt := by decide
  block_words := by decide
  base_aligned := by decide
  base_pos := by decide
  bounded := by decide
  page_lt := nofun
  page_ne := nofun

/-- Two blocks are linked. -/
def extendedRun : PageRun :=
  ⟨(smallArea.extendCount (fresh (fun _ => 0) true).lists 2).2, []⟩

/-- The first one is popped. -/
def poppedRun : PageRun :=
  ⟨(smallArea.pop extendedRun.lists false).2,
    FreeListCall.allocatedAfter [] (.pop false) (smallArea.pop extendedRun.lists false).1⟩

theorem pageLists_popped : poppedRun.allocated = [4096] ∧ poppedRun.lists.used = 1 := by
  have hextend : FreeListStep smallArea 0 id (fresh (fun _ => 0) true) extendedRun :=
    .call (.extendCount 2) nofun rfl
  have hpop : FreeListStep smallArea 0 id extendedRun poppedRun := .call (.pop false) nofun rfl
  have hallocated : poppedRun.allocated = [4096] := by decide +kernel
  obtain ⟨-, -, hused, -⟩ := pageLists_partitioned smallArea 0 id (fun _ => 0) true poppedRun
    ((ReflTransGen.single hextend).tail hpop)
  exact ⟨hallocated, hused.trans (congrArg List.length hallocated)⟩

/-- **Zeroed blocks.**  In a page that is all zero where `free_is_zero` starts true, a block popped with `zero` is
    zero whatever the clients wrote to the blocks before. -/
theorem pop_zeroed (area : PageArea) (secureLevel : Nat) (shuffle : Nat → Nat) (m : ByteMemory) (freeIsZero : Bool)
    (hzero : freeIsZero = true → ∀ a ∈ Span.mk area.base (area.reserved * area.blockSize), m a = 0) (r : PageRun)
    (hrun : ReflTransGen (FreeListStep area secureLevel shuffle) (fresh m freeIsZero) r) {block : Nat}
    {s' : PageLists} (hpop : area.pop r.lists true = (.ok (some block), s')) :
    ∀ a ∈ Span.mk block area.blockSize, s'.memory a = 0 := by
  have hfresh : PageZeroed True area _ [] [] := .fresh m freeIsZero fun _ => hzero
  obtain ⟨free, localFree, h⟩ := hfresh.run hrun
  by_cases hnull : r.lists.free = 0
  · cases (PageZeroed.pop_none hnull true).symm.trans hpop
  · obtain ⟨s'', free', heq, -, hblank, -⟩ := h.pop_some hnull true
    cases heq.symm.trans hpop
    exact hblank trivial rfl

theorem pop_zeroed_first : (smallArea.pop extendedRun.lists true).2.memory 4096 = 0 :=
  pop_zeroed smallArea 0 id (fun _ => 0) true (fun _ _ _ => rfl) extendedRun
    (.single (.call (.extendCount 2) nofun rfl)) (Prod.ext (by decide +kernel) rfl)
    4096 (by decide : 4096 ∈ Span.mk 4096 16)

/-- **The shuffled extension.**  It ends without an error; the free list goes through each new block once and then
    through the old list, and only the links of the new blocks are written. -/
theorem linkRandomizedSuffix_chain (area : PageArea) (shuffle : Nat → Nat) (s : PageLists) (extend random : Nat)
    (old : List Nat) (hextend : 2 ≤ extend) (hreserved : s.capacity + extend ≤ area.reserved)
    (hold : Linked (area.readNext s.memory) 0 s.free (old.map area.block)) (hlt : ∀ i ∈ old, i < s.capacity) :
    ∃ (order : List Nat) (s' : PageLists), area.linkRandomizedSuffix shuffle s extend random = some (.ok (), s') ∧
      order.Perm (range' s.capacity extend) ∧
      Linked (area.readNext s'.memory) 0 s'.free ((order ++ old).map area.block) ∧
      (∀ a, (∀ i ∈ order, a ∉ Span.mk (area.block i) 8) → s'.memory a = s.memory a) ∧
      s' = { s with memory := s'.memory, free := s'.free } := by
  obtain ⟨order, horder, heq⟩ := linkRandomizedSuffix_eq (by omega : 0 < extend) hreserved
  refine ⟨order, _, heq, horder, PageZeroed.linkAll_fresh hreserved horder hold hlt, fun a ha => ?_, rfl⟩
  refine linkAll_frame fun node hnode => ?_
  obtain ⟨i, hi, rfl⟩ := mem_map.mp hnode
  exact ha i hi

theorem linkRandomizedSuffix_chain_four : ∃ (order : List Nat) (s' : PageLists),
    smallArea.linkRandomizedSuffix id (fresh (fun _ => 0) true).lists 4 5 = some (.ok (), s') ∧
      order.Perm (range' 0 4) ∧ Linked (smallArea.readNext s'.memory) 0 s'.free ((order ++ []).map smallArea.block) := by
  obtain ⟨order, s', heq, horder, hlinked, -⟩ := linkRandomizedSuffix_chain smallArea id
    (fresh (fun _ => 0) true).lists 4 5 [] (by decide) (by decide) rfl nofun
  exact ⟨order, s', heq, horder, hlinked⟩

end Crabc.Mimalloc
