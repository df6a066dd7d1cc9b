/-
  Crabc.Mimalloc.FreeListLinks

  Links in the blocks of a page.

  A link that was written reads back in both profiles: the encoding is a permutation of
  the words, and the page header, where no block stands, is the null pointer.  Writing
  the links of a list of blocks, whatever its order, makes it the front of the list that
  its last block was linked to.
-/

import Crabc.Lib.Linked
import Crabc.Mimalloc.FreeList

namespace Crabc.Mimalloc

open Crabc.Lib Nat ByteMemory

theorem rotateRight_rotateLeft (x : BitVec 64) (n : Nat) : (x.rotateLeft n).rotateRight n = x := by
  ext i hi
  rw [BitVec.getElem_rotateRight]
  split
  case isTrue hlow =>
    rw [BitVec.getElem_rotateLeft, dif_neg (by omega)]
    congr 1
    omega
  case isFalse hhigh =>
    rw [BitVec.getElem_rotateLeft, dif_pos (by omega)]
    congr 1
    omega

variable {next : Nat}

theorem decode_encode {keys : LinkKeys} (hpage : keys.page < 2 ^ 64) (hnext : next < 2 ^ 64)
    (hne : next ≠ 0 → next ≠ keys.page) : decodePageLink keys (encodePageLink keys next) = next := by
  simp only [decodePageLink, encodePageLink, BitVec.ofNat_toNat, BitVec.setWidth_eq,
    BitVec.add_sub_cancel, rotateRight_rotateLeft, BitVec.xor_assoc, BitVec.xor_self, BitVec.xor_zero,
    BitVec.toNat_ofNat]
  split
  case isTrue hzero => rw [mod_eq_of_lt hpage, if_pos rfl, hzero]
  case isFalse hpos => rw [mod_eq_of_lt hnext, if_neg (hne hpos)]

open List

namespace PageArea

variable (area : PageArea)

/-- The start of a block. -/
def block (index : Nat) : Nat := area.base + index * area.blockSize

/-- The blocks below an index. -/
def blocks (count : Nat) : List Nat := (List.range count).map area.block

variable {area} {i : Nat} {m : ByteMemory} {j a last : Nat}

theorem block_inj (h : area.block i = area.block j) : i = j := by
  have hpos : 0 < area.blockSize := lt_of_lt_of_le (by decide) area.block_words.1
  exact eq_of_mul_eq_mul_right hpos (add_left_cancel h)

/-- A block ends where the next one starts. -/
theorem block_succ_le (h : i < j) : area.block i + area.blockSize ≤ area.block j := by
  rw [block, block, Nat.add_assoc, ← Nat.succ_mul]
  exact Nat.add_le_add_left (Nat.mul_le_mul_right _ h) _

/-- Different blocks are apart. -/
theorem block_apart (h : i ≠ j) : Span.Apart ⟨area.block i, area.blockSize⟩ ⟨area.block j, area.blockSize⟩ := by
  rcases lt_or_gt_of_ne h with h | h
  · exact Span.apart_of_le (block_succ_le h)
  · exact (Span.apart_of_le (block_succ_le h)).symm

theorem block_lt (h : i < area.reserved) :
    area.block i + area.blockSize ≤ area.base + area.reserved * area.blockSize := by
  exact block_succ_le h

theorem block_inside (h : i < area.reserved) :
    Span.Inside ⟨area.block i, area.blockSize⟩ ⟨area.base, area.reserved * area.blockSize⟩ :=
  ⟨Nat.le_add_right _ _, block_lt h⟩

theorem block_pos (i : Nat) : 0 < area.block i := Nat.add_pos_left area.base_pos _

theorem block_aligned (i : Nat) : 8 ∣ area.block i :=
  Nat.dvd_add area.base_aligned (Nat.dvd_mul_left_of_dvd area.block_words.2 i)

theorem mem_blocks {count : Nat} : a ∈ area.blocks count ↔ ∃ i, i < count ∧ area.block i = a := by
  rw [blocks, mem_map]
  simp only [mem_range]

theorem blocks_nodup {count : Nat} : (area.blocks count).Nodup :=
  nodup_range.map fun _ _ => block_inj

theorem blockAt_eq {index : Nat} (h : index < area.reserved) : area.blockAt index = .ok (area.block index) := by
  have hbounded := area.bounded
  have hend := block_lt h
  have hpos := area.block_words.1
  rw [block] at hend
  rw [blockAt, if_neg (Nat.not_le_of_lt h), Usize.checkedMul_eq_some.mpr ⟨by omega, rfl⟩]
  exact if_neg (by omega)

theorem word_inside (i : Nat) : Span.Inside ⟨area.block i, 8⟩ ⟨area.block i, area.blockSize⟩ :=
  ⟨Nat.le_refl _, Nat.add_le_add_left area.block_words.1 _⟩

/-! ## Reading and writing -/

/-- What a link can be. -/
def LinkTarget (area : PageArea) (next : Nat) : Prop :=
  next = 0 ∨ ∃ i, i < area.reserved ∧ next = area.block i

theorem LinkTarget.lt (h : area.LinkTarget next) : next < 2 ^ 64 := by
  rcases h with rfl | ⟨i, hi, rfl⟩
  · decide
  · have hbounded := area.bounded
    have hend := block_lt hi
    omega

theorem readNext_writeNext (h : area.LinkTarget next) : area.readNext (area.writeNext m a next) a = next := by
  rw [readNext, writeNext]
  cases hkeys : area.keys with
  | none => exact word_setWord h.lt
  | some keys =>
    have hword : encodePageLink keys next < 2 ^ 64 := BitVec.isLt _
    rw [word_setWord hword]
    refine decode_encode (area.page_lt keys hkeys) h.lt fun hne => ?_
    obtain ⟨i, hi, rfl⟩ := h.resolve_left hne
    exact area.page_ne keys hkeys i hi

theorem writeNext_frame (m : ByteMemory) (a next : Nat) : ByteMemory.Frame ⟨a, 8⟩ m (area.writeNext m a next) := by
  rw [writeNext]
  split <;> exact frame_setWord _ _ _

variable {m' : ByteMemory}

theorem readNext_congr (h : ∀ b ∈ Span.mk a 8, m' b = m b) : area.readNext m' a = area.readNext m a := by
  rw [readNext, readNext, word_congr h]

theorem readNext_frame {s : Span} (hframe : ByteMemory.Frame s m m') (h : Span.Apart ⟨area.block i, area.blockSize⟩ s) :
    area.readNext m' (area.block i) = area.readNext m (area.block i) :=
  readNext_congr fun b hb => hframe b (h b (Span.Inside.mem (word_inside i) hb))

/-! ## Lists of links -/

/-- The links of some blocks, in order; the last one is linked to `last`. -/
def linkAll (area : PageArea) (m : ByteMemory) : List Nat → Nat → ByteMemory
  | [], _ => m
  | node :: nodes, last => area.linkAll (area.writeNext m node (nodes.headD last)) nodes last

variable {order : List Nat}

/-- Only the link words are written. -/
theorem linkAll_frame {nodes : List Nat} (h : ∀ node ∈ nodes, a ∉ Span.mk node 8) : area.linkAll m nodes last a = m a := by
  induction nodes generalizing m with
  | nil => rfl
  | cons node nodes ih =>
    rw [linkAll, ih fun n hn => h n (mem_cons_of_mem _ hn)]
    exact writeNext_frame _ _ _ a (h node mem_cons_self)

theorem linkAll_readNext (hi : i ∉ order) :
    area.readNext (area.linkAll m (order.map area.block) last) (area.block i) = area.readNext m (area.block i) := by
  refine readNext_congr fun b hb => linkAll_frame fun node hnode hmem => ?_
  obtain ⟨j, hj, rfl⟩ := mem_map.mp hnode
  exact block_apart (fun heq : i = j => hi (heq ▸ hj)) b ((word_inside i).mem hb) ((word_inside j).mem hmem)

section

variable (horder : ∀ i ∈ order, i < area.reserved)
include horder

theorem linkTarget_headD (hlast : area.LinkTarget last) : area.LinkTarget ((order.map area.block).headD last) := by
  cases order with
  | nil => exact hlast
  | cons node order => exact .inr ⟨node, horder node mem_cons_self, rfl⟩

/-- **The links.**  The blocks become the front of the list that starts at `last`. -/
theorem linkAll_linked {old : List Nat} (hnodup : order.Nodup) (hlast : area.LinkTarget last)
    (hold : Linked (area.readNext m) 0 last (old.map area.block)) (hdisjoint : ∀ i ∈ order, i ∉ old) :
    Linked (area.readNext (area.linkAll m (order.map area.block) last)) 0
      ((order.map area.block).headD last) (order.map area.block ++ old.map area.block) := by
  induction order generalizing m with
  | nil => exact hold
  | cons node order ih =>
    obtain ⟨hnode, hnodup⟩ := nodup_cons.mp hnodup
    have horder' : ∀ i ∈ order, i < area.reserved := fun i hi => horder i (mem_cons_of_mem _ hi)
    rw [map_cons, linkAll]
    refine ⟨rfl, ne_of_gt (block_pos node), ?_⟩
    rw [linkAll_readNext hnode, readNext_writeNext (linkTarget_headD horder' hlast)]
    refine ih horder' hnodup (hold.congr fun a ha => ?_)
      fun i hi => hdisjoint i (mem_cons_of_mem _ hi)
    -- the first block is no block of the old list
    obtain ⟨i, hi, rfl⟩ := mem_map.mp ha
    have hne : i ≠ node := fun heq => hdisjoint node mem_cons_self (heq ▸ hi)
    exact readNext_frame ((writeNext_frame _ _ _).mono (word_inside node)) (block_apart hne)

end

end PageArea

end Crabc.Mimalloc
