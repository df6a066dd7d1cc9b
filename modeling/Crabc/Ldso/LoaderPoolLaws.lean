/-
  Crabc.Ldso.LoaderPoolLaws

  The pool keeps its blocks apart.

  The memory of the pool is cut into regions: the blocks in use, the free blocks, what is
  left of the chunk and the static chunk before its use.  They are apart in every
  reachable state, and the last two are still as zero as the kernel made them.  A call
  moves a region from one owner to another, or cuts a block off the chunk.
-/

import Crabc.Lib.Linked
import Crabc.Ldso.LoaderPool

namespace Crabc.Ldso

open Crabc.Lib Relation LiveBlock PoolState Option

open List (forall_mem_cons mem_append_right mem_cons mem_cons_of_mem mem_cons_self mem_map_of_mem pairwise_cons perm_middle)

/-! ## Classes -/

/-- The size of the blocks of a class. -/
def classSize (index : Nat) : Nat := smallestClass <<< index

variable {index : Nat}

theorem classSize_eq : classSize index = 2 ^ (index + 4) := by
  rw [classSize, smallestClass, Nat.shiftLeft_eq, Nat.pow_add, Nat.mul_comm]

open Nat

variable {size bytes align : Nat}

theorem poolClass_eq_some (h : poolClass bytes align = some (index, size)) :
    size = classSize index ∧ index < classCount ∧ bytes ≤ size ∧ align ≤ smallestClass := by
  rw [poolClass] at h
  split at h
  case isTrue => cases h
  case isFalse hsmall =>
  push Not at hsmall
  cases h
  have hlog : log2 smallestClass = 4 := by decide
  generalize hrounded : (bytes - 1) ||| (smallestClass - 1) = rounded
  have hlow : smallestClass - 1 ≤ rounded := hrounded ▸ right_le_or
  have hbytes : bytes - 1 ≤ rounded := hrounded ▸ left_le_or
  have hhigh : rounded < 2 ^ 14 := by
    rw [← hrounded]
    rw [largestClass] at hsmall
    exact or_lt_two_pow (by omega) (by decide)
  have hpos : rounded ≠ 0 := by
    rw [smallestClass] at hlow
    omega
  -- the input has four to fourteen binary digits
  have hdigits : 3 ≤ rounded.log2 := (le_log2 hpos).mpr (le_trans (by decide) hlow)
  have hdigits' : rounded.log2 < 14 := (log2_lt hpos).mpr hhigh
  have hself : rounded < 2 ^ (rounded.log2 + 1) := lt_log2_self
  rw [hlog]
  refine ⟨rfl, ?_, ?_, hsmall.1⟩
  · have hcount : classCount = 11 := by decide
    omega
  · change bytes ≤ classSize _
    rw [classSize_eq, Nat.sub_add_cancel (by omega)]
    omega

/-- `release` finds the class that `allocate` has used. -/
theorem poolClass_max : poolClass (max bytes 1) align = poolClass bytes align := by
  rcases Nat.eq_zero_or_pos bytes with rfl | hpos
  · rw [poolClass, poolClass]
    by_cases halign : align > smallestClass
    · rw [if_pos (.inl halign), if_pos (.inl halign)]
    · rw [if_neg (not_or.mpr ⟨halign, by decide⟩), if_neg (not_or.mpr ⟨halign, by decide⟩)]
      rfl
  · rw [max_eq_left hpos]

theorem classSize_dvd : smallestClass ∣ classSize index := by
  rw [classSize, Nat.shiftLeft_eq]
  exact dvd_mul_right _ _

theorem smallest_le_classSize (index : Nat) : smallestClass ≤ classSize index := by
  rw [classSize, Nat.shiftLeft_eq]
  exact Nat.le_mul_of_pos_right _ (Nat.two_pow_pos _)

theorem classSize_le (h : index < classCount) : classSize index ≤ largestClass := by
  have hcount : classCount = 11 := by decide
  rw [classSize_eq]
  exact Nat.pow_le_pow_right (by decide) (by omega : index + 4 ≤ 14)

variable {cursor : Nat}

/-- Where a block is carved: at the first multiple of its size. -/
theorem carveAt_eq (hindex : index < classCount) (hcursor : cursor ≤ 2 ^ 63) :
    ∃ padding, padding < classSize index ∧ classSize index ∣ cursor + padding ∧ carveAt cursor (classSize index) =
        (cursor + padding, cursor + padding + classSize index) := by
  have hpos : 0 < classSize index := lt_of_lt_of_le (by decide) (smallest_le_classSize index)
  have hle := classSize_le hindex
  have hdvd : classSize index ∣ 2 ^ 64 := by
    have hcount : classCount = 11 := by decide
    rw [classSize_eq]
    exact pow_dvd_pow 2 (by omega)
  generalize classSize index = size at *
  refine ⟨(2 ^ 64 - cursor) % 2 ^ 64 % size, mod_lt _ hpos, ?_, ?_⟩
  · rw [mod_mod_of_dvd _ hdvd, ← modEq_zero_iff_dvd]
    -- modulo the size the padding is what is missing to a power of two
    have hsum : cursor + (2 ^ 64 - cursor) = 2 ^ 64 := by omega
    calc cursor + (2 ^ 64 - cursor) % size ≡ cursor + (2 ^ 64 - cursor) [MOD size] :=
          (mod_modEq _ _).add_left _
      _ = 2 ^ 64 := hsum
      _ ≡ 0 [MOD size] := (modEq_zero_iff_dvd).mpr hdvd
  · have hpadding : (2 ^ 64 - cursor) % 2 ^ 64 % size < size := mod_lt _ hpos
    rw [largestClass] at hle
    rw [carveAt]
    generalize (2 ^ 64 - cursor) % 2 ^ 64 % size = padding at *
    rw [mod_eq_of_lt (by omega : cursor + padding < 2 ^ 64), mod_eq_of_lt (by omega)]

/-! ## Regions -/

/-- A free block of a class. -/
abbrev FreeBlock := Nat × Nat

def FreeBlock.span (e : FreeBlock) : Span := ⟨e.2, classSize e.1⟩

/-- The free blocks of one class. -/
def chain (index : Nat) (free : List FreeBlock) : List Nat :=
  (free.filter (·.1 = index)).map Prod.snd

theorem chain_cons {e : FreeBlock} {free : List FreeBlock} :
    chain index (e :: free) = if e.1 = index then e.2 :: chain index free else chain index free := by
  rw [chain, List.filter_cons]
  by_cases h : e.1 = index
  · rw [if_pos h, if_pos (decide_eq_true h)]
    rfl
  · rw [if_neg h, if_neg (by simpa using h)]
    rfl

theorem mem_chain {address : Nat} {free : List FreeBlock} : address ∈ chain index free ↔ (index, address) ∈ free := by
  simp only [chain, List.mem_map, List.mem_filter, decide_eq_true_eq]
  constructor
  · rintro ⟨e, ⟨he, rfl⟩, rfl⟩
    exact he
  · exact fun h => ⟨(index, address), ⟨h, rfl⟩, rfl⟩

/-- The first block of a class is taken out. -/
theorem chain_erase {block : Nat} {free : List FreeBlock} {rest : List Nat}
    (h : chain index free = block :: rest) : chain index (free.erase (index, block)) = rest ∧
      ∀ other, other ≠ index → chain other (free.erase (index, block)) = chain other free := by
  induction free with
  | nil => cases h
  | cons e free ih =>
    rw [chain_cons] at h
    by_cases hfirst : e.1 = index
    · rw [if_pos hfirst, List.cons.injEq] at h
      obtain rfl : e = (index, block) := Prod.ext hfirst h.1
      rw [List.erase_cons_head]
      refine ⟨h.2, fun other hother => ?_⟩
      rw [chain_cons, if_neg hother.symm]
    · rw [if_neg hfirst] at h
      obtain ⟨hindex, hothers⟩ := ih h
      have hne : e ≠ (index, block) := fun heq => hfirst (congrArg Prod.fst heq)
      rw [List.erase_cons_tail (by simpa using hne)]
      refine ⟨by rw [chain_cons, if_neg hfirst, hindex], fun other hother => ?_⟩
      rw [chain_cons, chain_cons, hothers other hother]

/-- What the pool can carve from: the rest of its chunk, and the static chunk before its use. -/
def Pool.reserve (staticChunk : Nat) (pool : Pool) : List Span :=
  ⟨pool.cursor, pool.limit - pool.cursor⟩ ::
    if pool.staticChunkUsed then [] else [⟨staticChunk, chunkBytes⟩]

/-- All regions of the pool's memory. -/
def PoolState.regions (staticChunk : Nat) (s : PoolState) (free : List FreeBlock) : List Span :=
  s.live.map span ++ (free.map FreeBlock.span ++ s.pool.reserve staticChunk)

/-- What is known of a block in use. -/
structure LiveBlock.Placed (b : LiveBlock) : Prop where
  address_ne : b.address ≠ 0
  classed : ∀ index size, poolClass b.bytes b.align = some (index, size) → size ∣ b.address
  mapped : poolClass b.bytes b.align = none → pageBytes ∣ b.address ∧ b.align ≤ pageBytes

/-- The regions are apart, the free lists go through the free blocks, and what was never handed out is zero. -/
structure PoolSound (staticChunk : Nat) (s : PoolState) (free : List FreeBlock) : Prop where
  linked : ∀ index, Linked s.memory.word 0 (s.pool.free index) (chain index free)
  classes : ∀ e ∈ free, e.1 < classCount ∧ classSize e.1 ∣ e.2
  live : ∀ b ∈ s.live, b.Placed
  apart : (s.regions staticChunk free).Pairwise Span.Apart
  bounded : ∀ r ∈ s.regions staticChunk free, r.base + r.length ≤ 2 ^ 63
  owned : ∀ r ∈ s.regions staticChunk free, r.length ≠ 0 →
    ∃ mapping ∈ Span.mk staticChunk chunkBytes :: s.mappings, r.Inside mapping
  zero : ∀ r ∈ s.pool.reserve staticChunk, ∀ a ∈ r, s.memory a = 0
  room : s.pool.cursor ≤ s.pool.limit

open Function ByteMemory

section

variable {staticChunk : Nat} {s : PoolState} {free : List FreeBlock} {b : LiveBlock}

theorem FreeBlock.word_inside (e : FreeBlock) : Span.Inside ⟨e.2, 8⟩ e.span := by
  have hsize := smallest_le_classSize e.1
  rw [smallestClass] at hsize
  exact ⟨le_refl _, by rw [FreeBlock.span]; dsimp only; omega⟩

theorem PoolState.mem_regions {r : Span} : r ∈ s.regions staticChunk free ↔
    (∃ b ∈ s.live, b.span = r) ∨ (∃ e ∈ free, e.span = r) ∨ r ∈ s.pool.reserve staticChunk := by
  simp only [regions, List.mem_append, List.mem_map]

/-- The chunk in use in front of the other regions. -/
theorem PoolState.regions_chunk (s : PoolState) (staticChunk : Nat) (free : List FreeBlock) :
    (s.regions staticChunk free).Perm (⟨s.pool.cursor, s.pool.limit - s.pool.cursor⟩ ::
      (s.live.map span ++ free.map FreeBlock.span ++
        if s.pool.staticChunkUsed then [] else [⟨staticChunk, chunkBytes⟩])) := by
  rw [regions, ← List.append_assoc]
  exact perm_middle

/-- The regions when a block in use goes. -/
theorem PoolState.regions_erase (hb : b ∈ s.live) :
    (s.regions staticChunk free).Perm (b.span :: ((s.live.erase b).map span ++
      (free.map FreeBlock.span ++ s.pool.reserve staticChunk))) :=
  ((List.perm_cons_erase hb).map span).append_right _

/-- A block of a class, for a request of that class. -/
theorem LiveBlock.placed_of_class {address : Nat}
    (hclass : poolClass bytes align = some (index, classSize index)) (hne : address ≠ 0)
    (hdvd : classSize index ∣ address) : LiveBlock.Placed ⟨address, bytes, align⟩ where
  address_ne := hne
  classed := fun index' size' hclass' => by
    rw [hclass, some.injEq, Prod.mk.injEq] at hclass'
    exact hclass'.2 ▸ hdvd
  mapped := fun hnone => absurd (hclass.symm.trans hnone) (some_ne_none _)

theorem LiveBlock.span_of_class (hclass : poolClass bytes align = some (index, size)) (address : Nat) :
    span ⟨address, bytes, align⟩ = ⟨address, size⟩ := by
  rw [span, hclass]
  rfl

/-- A new chunk has room for a block of every class. -/
theorem carveAt_chunk (hindex : index < classCount) (hcursor : cursor + chunkBytes ≤ 2 ^ 63) :
    (carveAt cursor (classSize index)).2 ≤ cursor + chunkBytes := by
  obtain ⟨padding, hpadding, -, hcarve⟩ := carveAt_eq hindex (by omega : cursor ≤ 2 ^ 63)
  have hle := classSize_le hindex
  rw [largestClass] at hle
  rw [hcarve, chunkBytes]
  omega

variable (h : PoolSound staticChunk s free)
include h

variable {m' : ByteMemory}

/-- Only the free blocks and the reserve matter. -/
theorem PoolSound.memory (hfree : ∀ e ∈ free, ∀ a ∈ e.span, m' a = s.memory a)
    (hreserve : ∀ r ∈ s.pool.reserve staticChunk, ∀ a ∈ r, m' a = s.memory a) :
    PoolSound staticChunk { s with memory := m' } free where
  linked := fun index => (h.linked index).congr fun address haddress =>
    word_congr fun a ha =>
      hfree _ (mem_chain.mp haddress) a ((FreeBlock.word_inside (index, address)).mem ha)
  classes := h.classes
  live := h.live
  apart := h.apart
  bounded := h.bounded
  owned := h.owned
  zero := fun r hr a ha => (hreserve r hr a ha).trans (h.zero r hr a ha)
  room := h.room

/-- A write apart from the free blocks and the reserve. -/
theorem PoolSound.frame {t : Span} (hframe : ByteMemory.Frame t s.memory m') (hfree : ∀ e ∈ free, e.span.Apart t)
    (hreserve : ∀ r ∈ s.pool.reserve staticChunk, r.Apart t) : PoolSound staticChunk { s with memory := m' } free :=
  h.memory (fun e he a ha => hframe a (hfree e he a ha)) fun r hr a ha => hframe a (hreserve r hr a ha)

theorem PoolSound.regions_pairwise {spans : List Span} (hperm : (s.regions staticChunk free).Perm spans) :
    spans.Pairwise Span.Apart :=
  hperm.pairwise h.apart fun hapart => hapart.symm

/-- A new mapping meets no region. -/
theorem PoolSound.apart_fresh {span : Span} (hfresh : FreshMapping staticChunk s.mappings span) {r : Span}
    (hr : r ∈ s.regions staticChunk free) : r.Apart span := by
  by_cases hlength : r.length = 0
  · exact Span.apart_of_length_eq_zero hlength
  · obtain ⟨mapping, hmapping, hinside⟩ := h.owned r hr hlength
    rcases mem_cons.mp hmapping with rfl | hmapping
    · exact hfresh.static.inside hinside
    · exact (hfresh.apart mapping hmapping).inside hinside

/-! ## The operations -/

/-- The first block of a free list is taken. -/
theorem PoolSound.recycle (hne : s.pool.free index ≠ 0) (hb : b.Placed)
    (hspan : b.span = FreeBlock.span (index, s.pool.free index)) (hframe : ByteMemory.Frame b.span s.memory m') :
    PoolSound staticChunk
      ⟨m', { s.pool with
          free := update s.pool.free index (s.memory.word (s.pool.free index)) },
        b :: s.live, s.mappings⟩
      (free.erase (index, s.pool.free index)) := by
  obtain ⟨rest, hchain, hrest⟩ := (h.linked index).of_ne hne
  generalize hblock : s.pool.free index = block at *
  have hmem : (index, block) ∈ free := mem_chain.mp (hchain ▸ mem_cons_self)
  have hsublist : (free.erase (index, block)).Sublist free := List.erase_sublist
  -- the block changes its owner, and nothing else
  have hperm : (s.regions staticChunk free).Perm (b.span :: (s.live.map span ++
      ((free.erase (index, block)).map FreeBlock.span ++ s.pool.reserve staticChunk))) := by
    have hfree := ((List.perm_cons_erase hmem).map FreeBlock.span).append_right
      (s.pool.reserve staticChunk)
    rw [hspan]
    exact (hfree.append_left _).trans perm_middle
  have hapart := h.regions_pairwise hperm
  obtain ⟨hothers, -⟩ := pairwise_cons.mp hapart
  obtain ⟨hindex, hother⟩ := chain_erase hchain
  have hsame (m : ByteMemory) (hm : ByteMemory.Frame b.span s.memory m) (index' : Nat) :
      ∀ address ∈ chain index' (free.erase (index, block)), m.word address = s.memory.word address := by
    intro address haddress
    refine hm.word (Span.Apart.inside ?_ (FreeBlock.word_inside (index', address)))
    refine (hothers _ ?_).symm
    exact mem_append_right _ (List.mem_append_left _
      (mem_map_of_mem (mem_chain.mp haddress)))
  exact
    { linked := fun index' => by
        refine Linked.congr ?_ (hsame m' hframe index')
        by_cases heq : index' = index
        · subst heq
          simp only [update_self, hindex]
          exact hrest
        · simp only [update_of_ne heq, hother index' heq]
          exact h.linked index'
      classes := fun e he => h.classes e (hsublist.subset he)
      live := forall_mem_cons.mpr ⟨hb, h.live⟩
      apart := hapart
      bounded := fun r hr => h.bounded r (hperm.mem_iff.mpr hr)
      owned := fun r hr => h.owned r (hperm.mem_iff.mpr hr)
      zero := fun r hr a ha => by
        refine (hframe a fun hmem => ?_).trans (h.zero r hr a ha)
        exact hothers r (mem_append_right _ (mem_append_right _ hr)) a hmem ha
      room := h.room }

/-- A block is cut off the chunk. -/
theorem PoolSound.carve (hindex : index < classCount)
    (hroom : (carveAt s.pool.cursor (classSize index)).2 ≤ s.pool.limit) (hb : b.Placed)
    (hspan : b.span = ⟨(carveAt s.pool.cursor (classSize index)).1, classSize index⟩) :
    PoolSound staticChunk
        ⟨s.memory, { s.pool with cursor := (carveAt s.pool.cursor (classSize index)).2 },
          b :: s.live, s.mappings⟩ free ∧
      ∀ a ∈ b.span, s.memory a = 0 := by
  have hchunk : Span.mk s.pool.cursor (s.pool.limit - s.pool.cursor) ∈ s.regions staticChunk free :=
    mem_append_right _ (mem_append_right _ mem_cons_self)
  have hbounded := h.bounded _ hchunk
  dsimp only at hbounded
  obtain ⟨padding, hpadding, -, hcarve⟩ := carveAt_eq hindex (by omega : s.pool.cursor ≤ 2 ^ 63)
  rw [hcarve] at hroom hspan ⊢
  generalize classSize index = size at *
  -- the chunk goes to the front, is cut, and its rest goes back
  have hperm := s.regions_chunk staticChunk free
  have hperm' := (regions_chunk { s with pool := { s.pool with cursor := s.pool.cursor + padding + size } }
    staticChunk free).cons b.span
  dsimp only at hperm'
  have hinside : b.span.Inside ⟨s.pool.cursor, s.pool.limit - s.pool.cursor⟩ := by
    rw [hspan]
    constructor <;> dsimp only <;> omega
  generalize hcut : Span.mk (s.pool.cursor + padding + size) (s.pool.limit - (s.pool.cursor + padding + size)) = rest at hperm'
  have hrest : rest.Inside ⟨s.pool.cursor, s.pool.limit - s.pool.cursor⟩ := by
    rw [← hcut]
    constructor <;> dsimp only <;> omega
  have hapart : b.span.Apart rest := by
    rw [hspan, ← hcut]
    exact Span.apart_of_le .refl
  -- every region of the new state is in one of the old state
  have hold (r : Span) (hr : r ∈ regions staticChunk
      ⟨s.memory, { s.pool with cursor := s.pool.cursor + padding + size }, b :: s.live, s.mappings⟩
      free) : ∃ r' ∈ s.regions staticChunk free, r.Inside r' := by
    rcases mem_cons.mp (hperm'.mem_iff.mp hr) with rfl | hr
    · exact ⟨_, hchunk, hinside⟩
    · rcases mem_cons.mp hr with rfl | hr
      · exact ⟨_, hchunk, hrest⟩
      · exact ⟨r, hperm.mem_iff.mpr (mem_cons_of_mem _ hr), le_refl _, le_refl _⟩
  refine ⟨⟨h.linked, h.classes, forall_mem_cons.mpr ⟨hb, h.live⟩, ?_, fun r hr => ?_,
    fun r hr hlength => ?_, ?_, hroom⟩, fun a ha => ?_⟩
  · exact hperm'.symm.pairwise (Span.pairwise_split (h.regions_pairwise hperm) hinside hrest hapart)
      fun hapart => hapart.symm
  · obtain ⟨r', hr', hinside⟩ := hold r hr
    exact le_trans hinside.2 (h.bounded r' hr')
  · obtain ⟨r', hr', hlow, hhigh⟩ := hold r hr
    obtain ⟨mapping, hmapping, hlow', hhigh'⟩ := h.owned r' hr' (by omega)
    exact ⟨mapping, hmapping, le_trans hlow' hlow, le_trans hhigh hhigh'⟩
  · refine forall_mem_cons.mpr ⟨fun a ha => ?_, fun r hr => ?_⟩
    · exact h.zero _ mem_cons_self a (hrest.mem (hcut ▸ ha))
    · exact h.zero r (mem_cons_of_mem _ hr)
  · exact h.zero _ mem_cons_self a (hinside.mem ha)

/-- The static chunk is put to use. -/
theorem PoolSound.refill_static (hunused : s.pool.staticChunkUsed = false) : PoolSound staticChunk { s with
      pool := { s.pool with
        cursor := staticChunk, limit := staticChunk + chunkBytes, staticChunkUsed := true } }
      free := by
  have hreserve : s.pool.reserve staticChunk =
      [⟨s.pool.cursor, s.pool.limit - s.pool.cursor⟩, ⟨staticChunk, chunkBytes⟩] := by
    rw [Pool.reserve, hunused]
    rfl
  -- the rest of the old chunk is left out
  have hsublist : (s.live.map span ++ (free.map FreeBlock.span ++
      [Span.mk staticChunk (staticChunk + chunkBytes - staticChunk)])).Sublist
      (s.regions staticChunk free) := by
    rw [Nat.add_sub_cancel_left, regions, hreserve]
    exact ((List.sublist_cons_self _ _).append_left _).append_left _
  refine ⟨h.linked, h.classes, h.live, h.apart.sublist hsublist,
    fun r hr => h.bounded r (hsublist.subset hr), fun r hr => h.owned r (hsublist.subset hr),
    fun r hr a ha => ?_, le_add_right _ _⟩
  obtain rfl : r = ⟨staticChunk, staticChunk + chunkBytes - staticChunk⟩ := List.mem_singleton.mp hr
  rw [Nat.add_sub_cancel_left] at ha
  exact h.zero ⟨staticChunk, chunkBytes⟩ (hreserve ▸ mem_cons_of_mem _ mem_cons_self) a ha

/-- The kernel makes a mapping. -/
theorem PoolSound.map {span : Span} (hfresh : FreshMapping staticChunk s.mappings span) : PoolSound staticChunk
      ⟨s.memory.fill span 0, s.pool, s.live, span :: s.mappings⟩ free := by
  have hframe := frame_fill s.memory span 0
  have hfree (e : FreeBlock) (he : e ∈ free) : e.span.Apart span :=
    h.apart_fresh hfresh (mem_regions.mpr (.inr (.inl ⟨e, he, rfl⟩)))
  have hreserve (r : Span) (hr : r ∈ s.pool.reserve staticChunk) : r.Apart span :=
    h.apart_fresh hfresh (mem_regions.mpr (.inr (.inr hr)))
  have h' := h.frame hframe hfree hreserve
  refine ⟨h'.linked, h'.classes, h'.live, h'.apart, h'.bounded, fun r hr hlength => ?_, h'.zero, h'.room⟩
  obtain ⟨mapping, hmapping, hinside⟩ := h'.owned r hr hlength
  refine ⟨mapping, ?_, hinside⟩
  rcases mem_cons.mp hmapping with rfl | hmapping
  · exact mem_cons_self
  · exact mem_cons_of_mem _ (mem_cons_of_mem _ hmapping)

/-- A mapping is a new chunk. -/
theorem PoolSound.refill_mapped (hused : s.pool.staticChunkUsed = true)
    (hfresh : FreshMapping staticChunk s.mappings ⟨cursor, chunkBytes⟩) : PoolSound staticChunk
      ⟨s.memory.fill ⟨cursor, chunkBytes⟩ 0, { s.pool with cursor := cursor, limit := cursor + chunkBytes }, s.live,
        ⟨cursor, chunkBytes⟩ :: s.mappings⟩ free := by
  have h' := h.map hfresh
  have hlength : cursor + chunkBytes - cursor = chunkBytes := Nat.add_sub_cancel_left _ _
  -- the blocks stay, and the chunk is exchanged
  have hblocks : (s.live.map span ++ free.map FreeBlock.span).Sublist (s.regions staticChunk free) :=
    (List.sublist_append_left _ _).append_left _
  have hperm := regions_chunk ⟨s.memory.fill ⟨cursor, chunkBytes⟩ 0,
    { s.pool with cursor := cursor, limit := cursor + chunkBytes }, s.live, ⟨cursor, chunkBytes⟩ :: s.mappings⟩
    staticChunk free
  rw [if_pos hused, List.append_nil, hlength] at hperm
  refine ⟨h'.linked, h'.classes, h'.live, ?_, fun r hr => ?_, fun r hr hne => ?_, fun r hr a ha => ?_, le_add_right _ _⟩
  · refine hperm.symm.pairwise (pairwise_cons.mpr ⟨fun r hr => ?_, h.apart.sublist hblocks⟩)
      fun hapart => hapart.symm
    exact (h.apart_fresh hfresh (hblocks.subset hr)).symm
  · rcases mem_cons.mp (hperm.mem_iff.mp hr) with rfl | hr
    · exact hfresh.bounded
    · exact h.bounded r (hblocks.subset hr)
  · rcases mem_cons.mp (hperm.mem_iff.mp hr) with rfl | hr
    · exact ⟨_, mem_cons_of_mem _ mem_cons_self, le_refl _, le_refl _⟩
    · exact h'.owned r (hblocks.subset hr) hne
  · rw [Pool.reserve, hused] at hr
    obtain rfl : r = ⟨cursor, cursor + chunkBytes - cursor⟩ := List.mem_singleton.mp hr
    rw [hlength] at ha
    exact fill_of_mem ha 0

/-- A mapping is a block of its own. -/
theorem PoolSound.own (hfresh : FreshMapping staticChunk s.mappings b.span) (hb : b.Placed) : PoolSound staticChunk
      ⟨s.memory.fill b.span 0, s.pool, b :: s.live, b.span :: s.mappings⟩ free := by
  have h' := h.map hfresh
  refine ⟨h'.linked, h'.classes, forall_mem_cons.mpr ⟨hb, h.live⟩, pairwise_cons.mpr ⟨fun r hr => ?_, h'.apart⟩,
    forall_mem_cons.mpr ⟨hfresh.bounded, h'.bounded⟩,
    forall_mem_cons.mpr ⟨fun _ => ?_, h'.owned⟩, h'.zero, h'.room⟩
  · exact (h.apart_fresh hfresh hr).symm
  · exact ⟨_, mem_cons_of_mem _ mem_cons_self, le_refl _, le_refl _⟩

/-- A block of a class is released. -/
theorem PoolSound.recover (hb : b ∈ s.live) (hclass : poolClass b.bytes b.align = some (index, size)) :
    PoolSound staticChunk
      ⟨s.memory.setWord b.address (s.pool.free index),
        { s.pool with free := update s.pool.free index b.address }, s.live.erase b,
        s.mappings⟩ ((index, b.address) :: free) := by
  obtain ⟨rfl, hindex, -, -⟩ := poolClass_eq_some hclass
  have hspan : b.span = FreeBlock.span (index, b.address) := by
    rw [span, hclass]
    rfl
  have hregions := @regions_erase staticChunk s free b hb
  obtain ⟨hothers, -⟩ := pairwise_cons.mp (h.regions_pairwise hregions)
  have hframe : ByteMemory.Frame b.span s.memory
      (s.memory.setWord b.address (s.pool.free index)) := by
    rw [hspan]
    exact (frame_setWord _ _ _).mono (FreeBlock.word_inside (index, b.address))
  have hlink : s.pool.free index < 2 ^ 64 := by
    by_cases hne : s.pool.free index = 0
    · rw [hne]
      decide
    · obtain ⟨rest, hchain, -⟩ := (h.linked index).of_ne hne
      have hmem : (index, s.pool.free index) ∈ free := mem_chain.mp (hchain ▸ mem_cons_self)
      have hbounded := h.bounded _ (mem_regions.mpr (.inr (.inl ⟨_, hmem, rfl⟩)))
      rw [FreeBlock.span] at hbounded
      dsimp only at hbounded
      omega
  have h' := h.frame hframe
    (fun e he => (hothers _ (mem_append_right _ (List.mem_append_left _
      (mem_map_of_mem he)))).symm)
    fun r hr => (hothers r (mem_append_right _ (mem_append_right _ hr))).symm
  -- the block goes from the front of the blocks in use to the front of the free ones
  have hperm : (s.regions staticChunk free).Perm ((s.live.erase b).map span ++
      (((index, b.address) :: free).map FreeBlock.span ++ s.pool.reserve staticChunk)) := by
    refine hregions.trans ?_
    rw [hspan]
    exact perm_middle.symm
  exact
    { linked := fun index' => by
        rw [chain_cons]
        dsimp only
        by_cases heq : index = index'
        · subst heq
          rw [update_self, if_pos rfl]
          refine ⟨rfl, (h.live b hb).address_ne, ?_⟩
          rw [word_setWord hlink]
          exact h'.linked index
        · rw [update_of_ne (Ne.symm heq), if_neg heq]
          exact h'.linked index'
      classes := forall_mem_cons.mpr
        ⟨⟨hindex, (h.live b hb).classed _ _ hclass⟩, h.classes⟩
      live := fun b' hb' => h.live b' (List.mem_of_mem_erase hb')
      apart := h.regions_pairwise hperm
      bounded := fun r hr => h.bounded r (hperm.mem_iff.mpr hr)
      owned := fun r hr => h.owned r (hperm.mem_iff.mpr hr)
      zero := h'.zero
      room := h.room }

/-- A block with a mapping of its own is released, and the kernel may take the mapping back. -/
theorem PoolSound.unmap (hb : b ∈ s.live) {mappings : List Span}
    (hmappings : ∀ mapping ∈ s.mappings, mapping ≠ b.span → mapping ∈ mappings) :
    PoolSound staticChunk ⟨s.memory, s.pool, s.live.erase b, mappings⟩ free := by
  have hregions := @regions_erase staticChunk s free b hb
  obtain ⟨hothers, hapart⟩ := pairwise_cons.mp (h.regions_pairwise hregions)
  refine ⟨h.linked, h.classes, fun b' hb' => h.live b' (List.mem_of_mem_erase hb'), hapart,
    fun r hr => h.bounded r (hregions.mem_iff.mpr (mem_cons_of_mem _ hr)),
    fun r hr hlength => ?_, h.zero, h.room⟩
  obtain ⟨mapping, hmapping, hinside⟩ :=
    h.owned r (hregions.mem_iff.mpr (mem_cons_of_mem _ hr)) hlength
  refine ⟨mapping, ?_, hinside⟩
  rcases mem_cons.mp hmapping with rfl | hmapping
  · exact mem_cons_self
  · -- a region in the mapping of the block would meet the block
    refine mem_cons_of_mem _ (hmappings mapping hmapping ?_)
    rintro rfl
    have hbase : r.base ∈ r := Span.mem_iff.mpr ⟨le_refl _, by omega⟩
    exact hothers r hr r.base (hinside.mem hbase) hbase

/-! ## The calls -/

/-- A block is carved from a chunk with room for it. -/
theorem PoolSound.carveBlock (hclass : poolClass bytes align = some (index, classSize index))
    (hcursor : s.pool.cursor ≠ 0) (hroom : (carveAt s.pool.cursor (classSize index)).2 ≤ s.pool.limit)
    (mapped : Option Span) : PoolSound staticChunk
        ⟨s.memory, (carveBlock s.memory s.pool (classSize index) mapped).pool,
          ⟨(carveAt s.pool.cursor (classSize index)).1, bytes, align⟩ :: s.live, s.mappings⟩ free ∧
      ∀ i, i < classSize index → s.memory ((carveAt s.pool.cursor (classSize index)).1 + i) = 0 := by
  obtain ⟨-, hindex, -, -⟩ := poolClass_eq_some hclass
  have hbounded := h.bounded ⟨s.pool.cursor, s.pool.limit - s.pool.cursor⟩
    (mem_append_right _ (mem_append_right _ mem_cons_self))
  dsimp only at hbounded
  obtain ⟨padding, -, hdvd, hcarve⟩ := carveAt_eq hindex (by omega : s.pool.cursor ≤ 2 ^ 63)
  have hplaced : LiveBlock.Placed ⟨(carveAt s.pool.cursor (classSize index)).1, bytes, align⟩ := by
    rw [hcarve]
    exact placed_of_class hclass (by omega) hdvd
  obtain ⟨hsound, hzero⟩ := h.carve hindex hroom hplaced (span_of_class hclass _)
  refine ⟨hsound, fun i hi => hzero _ ?_⟩
  rw [span_of_class hclass]
  exact Span.add_mem hi

/-- **`release`.** -/
theorem PoolSound.release (hb : b ∈ s.live) (unmapped : Int) :
    ∃ free', PoolSound staticChunk (s.released b unmapped) free' := by
  rw [PoolState.released, releaseBlock]
  cases hclass : poolClass b.bytes b.align with
  | some entry =>
    obtain ⟨index, size⟩ := entry
    exact ⟨_, h.recover hb hclass⟩
  | none =>
    refine ⟨free, h.unmap hb fun mapping hmapping hne => ?_⟩
    split
    · exact (List.mem_erase_of_ne hne).mpr hmapping
    · exact hmapping

variable (hstatic : staticChunk ≠ 0 ∧ staticChunk + chunkBytes ≤ 2 ^ 63)
include hstatic

/-- A block of a class. -/
theorem PoolSound.allocatePooled (zero : Bool) (hclass : poolClass bytes align = some (index, classSize index))
    (answer : Option Nat) (hfresh : ∀ span, (allocatePooled zero staticChunk s.memory s.pool index (classSize index)
      answer).mapped = some span → FreshMapping staticChunk s.mappings span) :
    (∃ free', PoolSound staticChunk (s.allocated bytes align
      (allocatePooled zero staticChunk s.memory s.pool index (classSize index) answer)) free') ∧
    (zero = true → ∀ block, (allocatePooled zero staticChunk s.memory s.pool index (classSize index)
      answer).block = some block → ∀ i, i < classSize index →
        (allocatePooled zero staticChunk s.memory s.pool index (classSize index) answer).memory
          (block + i) = 0) := by
  obtain ⟨-, hindex, -, -⟩ := poolClass_eq_some hclass
  revert hfresh
  rw [Ldso.allocatePooled]
  split
  case isTrue hne =>
    -- the first free block of the class
    intro _
    obtain ⟨rest, hchain, -⟩ := (h.linked index).of_ne hne
    have hmem : (index, s.pool.free index) ∈ free := mem_chain.mp (hchain ▸ mem_cons_self)
    have hplaced := placed_of_class hclass hne (h.classes _ hmem).2
    have hspan := span_of_class hclass (s.pool.free index)
    refine ⟨⟨_, h.recycle hne hplaced hspan ?_⟩, ?_⟩
    · rw [hspan]
      split
      · exact frame_fill _ _ _
      · exact .refl _ _
    · rintro rfl block hblock i hi
      cases hblock
      exact fill_of_mem (Span.add_mem hi) 0
  case isFalse =>
  split
  case isFalse hroom =>
    intro _
    push Not at hroom
    obtain ⟨hsound, hzero⟩ := h.carveBlock hclass hroom.1 hroom.2 none
    refine ⟨⟨free, hsound⟩, fun _ block hblock i hi => ?_⟩
    cases hblock
    exact hzero i hi
  case isTrue =>
  cases hused : s.pool.staticChunkUsed with
  | false =>
    -- the static chunk
    have htake : takeChunk staticChunk s.memory s.pool answer = some (s.memory, { s.pool with
        cursor := staticChunk, limit := staticChunk + chunkBytes, staticChunkUsed := true }, none) := by
      rw [takeChunk, hused, mod_eq_of_lt (by omega)]
      rfl
    rw [htake]
    intro _
    obtain ⟨hsound, hzero⟩ := (h.refill_static hused).carveBlock hclass hstatic.1
      (carveAt_chunk hindex hstatic.2) none
    refine ⟨⟨free, hsound⟩, fun _ block hblock i hi => ?_⟩
    cases hblock
    exact hzero i hi
  | true =>
  cases answer with
  | none =>
    have htake : takeChunk staticChunk s.memory s.pool none = none := by
      rw [takeChunk, hused]
      rfl
    rw [htake]
    exact fun _ => ⟨⟨free, h⟩, nofun⟩
  | some cursor =>
    -- a new mapping
    have htake : takeChunk staticChunk s.memory s.pool (some cursor) = some (s.memory.fill ⟨cursor, chunkBytes⟩ 0,
          { s.pool with cursor := cursor, limit := (cursor + chunkBytes) % 2 ^ 64 },
          some ⟨cursor, chunkBytes⟩) := if_pos hused
    rw [htake]
    intro hfresh
    have hmapped := hfresh ⟨cursor, chunkBytes⟩ rfl
    have hbounded := hmapped.bounded
    dsimp only at hbounded
    rw [mod_eq_of_lt (by omega : cursor + chunkBytes < 2 ^ 64)]
    obtain ⟨hsound, hzero⟩ := (h.refill_mapped hused hmapped).carveBlock hclass hmapped.base_ne
      (carveAt_chunk hindex hbounded) (some ⟨cursor, chunkBytes⟩)
    refine ⟨⟨free, hsound⟩, fun _ block hblock i hi => ?_⟩
    cases hblock
    exact hzero i hi

/-- **`allocate_block`.**  The pool stays sound, and `allocate` returns zeros. -/
theorem PoolSound.allocate (zero : Bool) (bytes align : Nat) (answer : Option Nat)
    (hfresh : ∀ span, (allocateBlock zero staticChunk s.memory s.pool bytes align answer).mapped =
      some span → FreshMapping staticChunk s.mappings span) : (∃ free', PoolSound staticChunk (s.allocated bytes align
      (allocateBlock zero staticChunk s.memory s.pool bytes align answer)) free') ∧
    (zero = true → ∀ block, (allocateBlock zero staticChunk s.memory s.pool bytes align answer).block = some block →
        ∀ i, i < max bytes 1 →
          (allocateBlock zero staticChunk s.memory s.pool bytes align answer).memory (block + i) = 0) := by
  revert hfresh
  unfold allocateBlock
  dsimp only
  split
  case isTrue =>
    exact fun _ => ⟨⟨free, h⟩, nofun⟩
  case isFalse hguard =>
  push Not at hguard
  cases hclass : poolClass (max bytes 1) align with
  | some entry =>
    obtain ⟨index, size⟩ := entry
    obtain ⟨rfl, -, hbytes, -⟩ := poolClass_eq_some hclass
    intro hfresh
    rw [poolClass_max] at hclass
    obtain ⟨hsound, hzero⟩ := h.allocatePooled hstatic zero hclass answer hfresh
    exact ⟨hsound, fun hz block hblock i hi =>
      hzero hz block hblock i (lt_of_lt_of_le hi hbytes)⟩
  | none =>
    cases answer with
    | none =>
      exact fun _ => ⟨⟨free, h⟩, nofun⟩
    | some address =>
      intro hfresh
      rw [poolClass_max] at hclass
      have hspan : span ⟨address, bytes, align⟩ = ⟨address, max bytes 1⟩ := by
        rw [span, hclass]
        rfl
      have hmapped := hfresh ⟨address, max bytes 1⟩ rfl
      have hplaced : LiveBlock.Placed ⟨address, bytes, align⟩ :=
        ⟨hmapped.base_ne, fun index size hsome => absurd (hclass.symm.trans hsome) (by simp),
          fun _ => ⟨hmapped.aligned, hguard.2⟩⟩
      rw [← hspan] at hmapped
      have hsound := h.own hmapped hplaced
      rw [hspan] at hsound
      refine ⟨⟨free, hsound⟩, fun _ block hblock i hi => ?_⟩
      cases hblock
      exact fill_of_mem (Span.add_mem hi) 0

variable {s' : PoolState}

/-- **The step.** -/
theorem PoolSound.step (hstep : PoolStep staticChunk s s') : ∃ free', PoolSound staticChunk s' free' := by
  cases hstep with
  | allocate zero bytes align answer hfresh =>
    exact (h.allocate hstatic zero bytes align answer hfresh).1
  | release hb unmapped => exact h.release hb unmapped
  | store hwritten =>
    -- what the program writes is in a block in use or in no mapping of the pool
    have hkept (r : Span) (hr : r ∈ free.map FreeBlock.span ++ s.pool.reserve staticChunk) (a : Nat)
        (ha : a ∈ r) : ¬ ((∃ b ∈ s.live, a ∈ b.span) ∨
          ∀ mapping ∈ Span.mk staticChunk chunkBytes :: s.mappings, a ∉ mapping) := by
      rintro (⟨b, hb, hmem⟩ | houtside)
      · exact (List.pairwise_append.mp h.apart).2.2 b.span (mem_map_of_mem hb) r hr a hmem ha
      · have hlength : r.length ≠ 0 := by
          rw [Span.mem_iff] at ha
          omega
        obtain ⟨mapping, hmapping, hinside⟩ :=
          h.owned r (mem_append_right _ hr) hlength
        exact houtside mapping hmapping (hinside.mem ha)
    refine ⟨free, h.memory (fun e he a ha => ?_) fun r hr a ha => ?_⟩
    · exact Decidable.not_not.mp fun hne =>
        hkept _ (List.mem_append_left _ (mem_map_of_mem he)) a ha (hwritten a hne)
    · exact Decidable.not_not.mp fun hne =>
        hkept r (mem_append_right _ hr) a ha (hwritten a hne)

omit h in
/-- The pool at the start. -/
theorem poolSound_new {m : ByteMemory} (hzero : ∀ a ∈ Span.mk staticChunk chunkBytes, m a = 0) :
    PoolSound staticChunk ⟨m, .new, [], []⟩ [] where
  linked := fun _ => rfl
  classes := nofun
  live := nofun
  apart := pairwise_cons.mpr ⟨fun _ _ => Span.apart_of_length_eq_zero rfl, List.pairwise_singleton _ _⟩
  bounded := forall_mem_cons.mpr ⟨zero_le _, List.forall_mem_singleton.mpr hstatic.2⟩
  owned := forall_mem_cons.mpr ⟨fun hne => absurd rfl hne,
    List.forall_mem_singleton.mpr fun _ => ⟨_, mem_cons_self, le_refl _, le_refl _⟩⟩
  zero := forall_mem_cons.mpr ⟨fun a ha => absurd ha.2 (not_lt_zero a), List.forall_mem_singleton.mpr hzero⟩
  room := le_refl _

/-- **The run.** -/
theorem PoolSound.run (hrun : ReflTransGen (PoolStep staticChunk) s s') : ∃ free', PoolSound staticChunk s' free' := by
  induction hrun with
  | refl => exact ⟨free, h⟩
  | tail _ hstep ih =>
    obtain ⟨free', h'⟩ := ih
    exact h'.step hstatic hstep

end

/-- A call that fails changes nothing. -/
theorem allocateBlock_none {zero : Bool} {staticChunk : Nat} {m : ByteMemory} {pool : Pool} {answer : Option Nat}
    (h : (allocateBlock zero staticChunk m pool bytes align answer).block = none) :
    allocateBlock zero staticChunk m pool bytes align answer = ⟨none, m, pool, none⟩ := by
  revert h
  unfold allocateBlock
  dsimp only
  split
  case isTrue => exact fun _ => rfl
  case isFalse =>
  cases poolClass (max bytes 1) align with
  | none =>
    cases answer with
    | none => exact fun _ => rfl
    | some address => exact nofun
  | some entry =>
    dsimp only
    rw [allocatePooled]
    split
    case isTrue => exact nofun
    case isFalse =>
    split
    case isFalse => exact nofun
    case isTrue =>
    cases takeChunk staticChunk m pool answer with
    | none => exact fun _ => rfl
    | some entry => exact nofun

/-- **The pool.**  In every run the blocks in use and the free blocks are apart, the
    blocks in use are as large and as aligned as requested, `allocate` returns zeros, and
    a call that fails changes neither the pool nor the memory. -/
theorem loaderPool_sound {staticChunk : Nat} {m₀ : ByteMemory}
    (hstatic : staticChunk ≠ 0 ∧ staticChunk + chunkBytes ≤ 2 ^ 63)
    (hzero : ∀ a ∈ Span.mk staticChunk chunkBytes, m₀ a = 0) {s : PoolState}
    (hrun : ReflTransGen (PoolStep staticChunk) ⟨m₀, .new, [], []⟩ s) : (∃ free : List FreeBlock,
      (∀ index, Linked s.memory.word 0 (s.pool.free index) (chain index free)) ∧
      (s.live.map span ++ free.map FreeBlock.span).Pairwise Span.Apart) ∧
    (∀ b ∈ s.live, b.span.base = b.address ∧ max b.bytes 1 ≤ b.span.length ∧
      (b.align.isPowerOfTwo → b.align ∣ b.address)) ∧
    (∀ bytes align answer, (∀ span, (allocateBlock true staticChunk s.memory s.pool bytes align answer).mapped =
        some span → FreshMapping staticChunk s.mappings span) →
      ∀ block, (allocateBlock true staticChunk s.memory s.pool bytes align answer).block =
        some block → ∀ i, i < max bytes 1 →
          (allocateBlock true staticChunk s.memory s.pool bytes align answer).memory (block + i) = 0) ∧
    ∀ zero bytes align answer, (allocateBlock zero staticChunk s.memory s.pool bytes align answer).block = none →
        s.allocated bytes align
          (allocateBlock zero staticChunk s.memory s.pool bytes align answer) = s := by
  obtain ⟨free, h⟩ := (poolSound_new hstatic hzero).run hstatic hrun
  refine ⟨⟨free, h.linked, ?_⟩, fun b hb => ⟨rfl, ?_, fun hpower => ?_⟩,
    fun bytes align answer hfresh block => (h.allocate hstatic true bytes align answer hfresh).2 rfl
      block, fun zero bytes align answer hnone => ?_⟩
  · have hsublist : (s.live.map span ++ free.map FreeBlock.span).Sublist
        (s.regions staticChunk free) := by
      exact (List.sublist_append_left _ _).append_left _
    exact h.apart.sublist hsublist
  · rw [span]
    cases hclass : poolClass b.bytes b.align with
    | none => exact Nat.le_refl _
    | some entry =>
      rw [← poolClass_max] at hclass
      exact (poolClass_eq_some hclass).2.2.1
  · cases hclass : poolClass b.bytes b.align with
    | none =>
      obtain ⟨hdvd, hle⟩ := (h.live b hb).mapped hclass
      exact (Usize.dvd_of_isPowerOfTwo hpower ⟨12, rfl⟩ hle).trans hdvd
    | some entry =>
      obtain ⟨index, size⟩ := entry
      obtain ⟨rfl, -, -, hle⟩ := poolClass_eq_some hclass
      have hdvd := (h.live b hb).classed _ _ hclass
      exact ((Usize.dvd_of_isPowerOfTwo hpower ⟨4, rfl⟩ hle).trans classSize_dvd).trans hdvd
  · rw [allocateBlock_none hnone]
    rfl

/-- A pool after the first request, of 20 bytes. -/
def oneBlockState : PoolState :=
  PoolState.allocated ⟨fun _ => 0, .new, [], []⟩ 20 8
    (allocateBlock true 0x10000 (fun _ => 0) .new 20 8 none)

/-- The next request, of 5 bytes. -/
def twoBlockState : PoolState :=
  oneBlockState.allocated 5 1
    (allocateBlock false 0x10000 oneBlockState.memory oneBlockState.pool 5 1 none)

theorem loaderPool_twoBlocks : twoBlockState.live = [⟨0x10020, 5, 1⟩, ⟨0x10000, 20, 8⟩] ∧
      (twoBlockState.live.map span).Pairwise Span.Apart := by
  have hrun : ReflTransGen (PoolStep 0x10000) ⟨fun _ => 0, .new, [], []⟩ twoBlockState := by
    refine (ReflTransGen.single (.allocate true 20 8 none fun span hspan => ?_)).tail
      (.allocate false 5 1 none fun span hspan => ?_)
    all_goals exact absurd (isSome_of_mem hspan) (by decide +kernel)
  obtain ⟨⟨free, -, hapart⟩, -⟩ := loaderPool_sound (by decide) (fun _ _ => rfl) hrun
  exact ⟨by decide +kernel, hapart.sublist (List.sublist_append_left _ _)⟩

end Crabc.Ldso
