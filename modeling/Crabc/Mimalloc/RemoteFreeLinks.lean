/-
  Crabc.Mimalloc.RemoteFreeLinks

  What is known of a page while threads free its blocks.

  A block is allocated to a thread, in the chain of `xthread_free`, in a chain that is
  detached, or in one of the two local lists.  The owner of the page has a ghost value
  that says where in a collection it is and what it has read; nobody else changes that.
-/

import Crabc.Mimalloc.RemoteFree

namespace Crabc.Mimalloc

open Crabc.Lib PageArea RemoteMem

/-! ## Words -/

section

variable {area : PageArea} {b : Nat}

/-- A block and the owner bit. -/
theorem block_word (hb : b % 2 = 0) (bit : Bool) :
    threadFreeBlockAddress (b + if bit then 1 else 0) = b ∧ isOwned (b + if bit then 1 else 0) = bit := by
  cases bit with
  | true =>
    rw [threadFreeBlockAddress, isOwned, if_pos rfl]
    refine ⟨by omega, ?_⟩
    rw [beq_iff_eq]
    omega
  | false =>
    rw [threadFreeBlockAddress, isOwned, if_neg Bool.false_ne_true, Nat.add_zero, hb]
    exact ⟨rfl, rfl⟩

/-- The blocks of the page. -/
def IsBlock (area : PageArea) (capacity a : Nat) : Prop := ∃ i, i < capacity ∧ a = area.block i

variable {capacity : Nat}

section

variable (h : IsBlock area capacity b)
include h

theorem IsBlock.even : b % 2 = 0 := by
  obtain ⟨i, -, rfl⟩ := h
  have haligned := Nat.mod_eq_zero_of_dvd (@block_aligned area i)
  omega

theorem IsBlock.ne_zero : b ≠ 0 := by
  obtain ⟨i, -, rfl⟩ := h
  exact Nat.ne_of_gt (block_pos i)

theorem IsBlock.linkTarget (hle : capacity ≤ area.reserved) : area.LinkTarget b := by
  obtain ⟨i, hi, rfl⟩ := h
  exact .inr ⟨i, Nat.lt_of_lt_of_le hi hle, rfl⟩

end

end

/-! ## The page -/

/-- Where the owner is in a collection: the blocks that are detached, and how far they have
    come; `moving` is between the two stores of `move_local_to_free_if_empty`. -/
inductive Stage where
  | idle
  | walking (detached : List Nat)
  | joined (detached : List Nat)
  | hung (detached : List Nat)
  | moving

/-- What the owner of the page knows: a block of the chain and its link, the fields that it
    has read, and that one block is the last one in use. -/
structure OwnerGhost where
  stage : Stage
  kept : Option (Nat × Nat)
  used : Option Nat
  localFree : Option Nat
  free : Option Nat
  last : Option Nat

def OwnerGhost.resting : OwnerGhost := ⟨.idle, none, none, none, none, none⟩

/-- The page at the start: its blocks in use, those in the local lists, and their number. -/
structure PageStart where
  allocated : List Nat
  free : List Nat
  capacity : Nat

/-- The lists at a stage of a collection. -/
def StageFits (area : PageArea) (mem : RemoteMem) (localFree free : List Nat) : Stage → Prop
  | .idle => mem.detached = [] ∧ Linked (mem.next area) 0 mem.page.localFree localFree ∧
      Linked (mem.next area) 0 mem.page.free free
  | .walking d => mem.detached = d ∧ Linked (mem.next area) 0 (d.headD 0) d ∧
      Linked (mem.next area) 0 mem.page.localFree localFree ∧ Linked (mem.next area) 0 mem.page.free free
  | .joined d => mem.detached = d ∧ Linked (mem.next area) 0 (d.headD 0) (d ++ localFree) ∧
      Linked (mem.next area) 0 mem.page.free free
  | .hung d => mem.detached = d ∧ Linked (mem.next area) 0 mem.page.localFree (d ++ localFree) ∧
      Linked (mem.next area) 0 mem.page.free free
  | .moving => mem.detached = [] ∧ free = [] ∧ Linked (mem.next area) 0 mem.page.free localFree

/-- The page, with the blocks that are allocated and those of the local lists. -/
structure PageFits (area : PageArea) (start : PageStart) (mem : RemoteMem)
    (allocated localFree free : List Nat) (o : OwnerGhost) : Prop where
  blocks : (allocated ++ (mem.chain ++ (mem.detached ++ (localFree ++ free)))).Perm
    (area.blocks start.capacity)
  accounted : (allocated ++ mem.published).Perm start.allocated
  history : (mem.chain ++ (mem.detached ++ mem.moved.flatten)).Perm mem.published
  lists : (localFree ++ free).Perm (mem.moved.flatten ++ start.free)
  used : mem.page.used = allocated.length + mem.chain.length + mem.detached.length
  chain : Linked (mem.next area) 0 (threadFreeBlockAddress mem.head) mem.chain
  stage : StageFits area mem localFree free o.stage
  kept : ∀ p ∈ o.kept, p.1 ∈ mem.chain ∧ mem.next area p.1 = p.2
  usedRead : ∀ u ∈ o.used, mem.page.used = u
  localRead : ∀ a ∈ o.localFree, mem.page.localFree = a
  freeRead : ∀ a ∈ o.free, mem.page.free = a
  last : ∀ b ∈ o.last, allocated = [] ∧ mem.chain = [b]

open List

namespace PageFits

variable {area : PageArea} {start : PageStart} {mem mem' : RemoteMem} {allocated localFree free : List Nat}
  {o o' : OwnerGhost}

theorem nodup (h : PageFits area start mem allocated localFree free o) :
    (allocated ++ (mem.chain ++ (mem.detached ++ (localFree ++ free)))).Nodup :=
  h.blocks.nodup_iff.mpr blocks_nodup

variable {a : Nat}

section

variable (h : PageFits area start mem allocated localFree free o)
include h

theorem isBlock (ha : a ∈ allocated ++ (mem.chain ++ (mem.detached ++ (localFree ++ free)))) :
    IsBlock area start.capacity a := by
  obtain ⟨i, hi, rfl⟩ := mem_blocks.mp (h.blocks.mem_iff.mp ha)
  exact ⟨i, hi, rfl⟩

theorem apart_allocated (ha : a ∈ allocated) : a ∉ mem.chain ++ (mem.detached ++ (localFree ++ free)) :=
  fun hother => (nodup_append.mp h.nodup).2.2 a ha a hother rfl

theorem apart_chain (ha : a ∈ mem.chain) : a ∉ mem.detached ++ (localFree ++ free) :=
  fun hother => (nodup_append.mp (nodup_append.mp h.nodup).2.1).2.2 a ha a hother rfl

theorem apart_detached (ha : a ∈ mem.detached) : a ∉ localFree ++ free :=
  fun hother => (nodup_append.mp (nodup_append.mp
    (nodup_append.mp h.nodup).2.1).2.1).2.2 a ha a hother rfl

theorem isBlock_chain (ha : a ∈ mem.chain) : IsBlock area start.capacity a :=
  h.isBlock (mem_append_right _ (mem_append_left _ ha))

theorem isBlock_detached (ha : a ∈ mem.detached) : IsBlock area start.capacity a :=
  h.isBlock (mem_append_right _ (mem_append_right _ (mem_append_left _ ha)))

theorem isBlock_lists (ha : a ∈ localFree ++ free) : IsBlock area start.capacity a :=
  h.isBlock (mem_append_right _ (mem_append_right _ (mem_append_right _ ha)))

/-- What the word names is a block or nothing. -/
theorem head_target (hle : start.capacity ≤ area.reserved) : area.LinkTarget (threadFreeBlockAddress mem.head) := by
  rcases h.chain.head_mem with hzero | hmem
  · exact .inl hzero
  · exact (h.isBlock_chain hmem).linkTarget hle

end

end PageFits

/-! ## Links -/

section

variable {area : PageArea} {mem mem' : RemoteMem} {capacity a b x : Nat}

/-- A link that is written says what was written, and no other link changes. -/
theorem next_setNext_self {mem : RemoteMem} {b : Nat} (hx : area.LinkTarget x) :
    (mem.setNext area b x).next area b = x := readNext_writeNext hx

theorem next_setNext_of_ne (ha : IsBlock area capacity a) (hb : IsBlock area capacity b) (hne : a ≠ b) :
    (mem.setNext area b x).next area a = mem.next area a := by
  obtain ⟨i, -, rfl⟩ := ha
  obtain ⟨j, -, rfl⟩ := hb
  exact readNext_frame ((writeNext_frame _ _ _).mono (word_inside j))
    (block_apart fun heq => hne (heq ▸ rfl))

/-- The history when the link of a block outside of the chain is written. -/
theorem setNext_of_notMem (hb : b ∉ mem.chain) :
    (mem.setNext area b x).chain = mem.chain ∧ (mem.setNext area b x).detached = mem.detached :=
  ⟨if_neg hb, if_neg hb⟩

/-- The chain ends where the link of one of its blocks is written. -/
theorem setNext_cut {before after : List Nat} (hchain : mem.chain = before ++ b :: after) (hb : b ∉ before) :
    (mem.setNext area b x).chain = before ++ [b] ∧ (mem.setNext area b x).detached = after := by
  have hmem : b ∈ mem.chain := hchain ▸ mem_append_right _ mem_cons_self
  have hbefore : ∀ a ∈ before, (decide (a ≠ b)) = true := fun a ha =>
    decide_eq_true fun heq => hb (heq ▸ ha)
  have htake : mem.chain.takeWhile (· ≠ b) = before := by
    rw [hchain, takeWhile_append_of_pos hbefore, takeWhile_cons_of_neg (by simp), append_nil]
  have hdrop : mem.chain.dropWhile (· ≠ b) = b :: after := by
    rw [hchain, dropWhile_append_of_pos hbefore, dropWhile_cons_of_neg (by simp)]
  refine ⟨?_, ?_⟩
  · rw [setNext, if_pos hmem, htake]
  · rw [setNext]
    dsimp only
    rw [if_pos hmem, hdrop, tail_cons]

theorem setHead_publish (mem : RemoteMem) (hb : b % 2 = 0) (hne : b ≠ 0) (bit : Bool) :
    mem.setHead (b + if bit then 1 else 0) = { mem with
        head := b + if bit then 1 else 0
        chain := b :: mem.chain
        published := b :: mem.published } := by
  rw [setHead, (block_word hb bit).1, if_neg hne]

/-- Only the links of the lists and the fields of the page matter at a stage. -/
theorem StageFits.congr {localFree free : List Nat} {stage : Stage}
    (h : StageFits area mem localFree free stage) (hdetached : mem'.detached = mem.detached)
    (hlocal : mem'.page.localFree = mem.page.localFree) (hfree : mem'.page.free = mem.page.free)
    (hnext : ∀ a ∈ mem.detached ++ (localFree ++ free), mem'.next area a = mem.next area a) :
    StageFits area mem' localFree free stage := by
  have hl {a : Nat} {nodes : List Nat} (hlinked : Linked (mem.next area) 0 a nodes)
      (hsub : nodes ⊆ mem.detached ++ (localFree ++ free)) : Linked (mem'.next area) 0 a nodes :=
    hlinked.congr fun n hn => hnext n (hsub hn)
  have hlocals : localFree ⊆ mem.detached ++ (localFree ++ free) :=
    subset_append_of_subset_right _ (subset_append_left _ _)
  have hfrees : free ⊆ mem.detached ++ (localFree ++ free) :=
    subset_append_of_subset_right _ (subset_append_right _ _)
  have hboth : mem.detached ++ localFree ⊆ mem.detached ++ (localFree ++ free) :=
    append_subset.mpr ⟨subset_append_left _ _, hlocals⟩
  cases stage with
  | idle =>
    obtain ⟨hd, h1, h2⟩ := h
    rw [StageFits, hdetached, hlocal, hfree]
    exact ⟨hd, hl h1 hlocals, hl h2 hfrees⟩
  | walking d =>
    obtain ⟨rfl, h0, h1, h2⟩ := h
    rw [StageFits, hdetached, hlocal, hfree]
    exact ⟨rfl, hl h0 (subset_append_left _ _), hl h1 hlocals, hl h2 hfrees⟩
  | joined d | hung d =>
    obtain ⟨rfl, h0, h2⟩ := h
    simp only [StageFits, hdetached, hlocal, hfree]
    exact ⟨trivial, hl h0 hboth, hl h2 hfrees⟩
  | moving =>
    obtain ⟨hd, hempty, h2⟩ := h
    rw [StageFits, hdetached, hfree]
    exact ⟨hd, hempty, hl h2 hlocals⟩

end

namespace PageFits

variable {area : PageArea} {start : PageStart} {mem mem' : RemoteMem} {allocated localFree free : List Nat}
  {o o' : OwnerGhost} {b x : Nat}

section

variable (h : PageFits area start mem allocated localFree free o)
include h

/-- The owner of an allocated block writes its link. -/
theorem relink (hb : b ∈ allocated) : PageFits area start (mem.setNext area b x) allocated localFree free o := by
  have hapart := h.apart_allocated hb
  have hchain : b ∉ mem.chain := fun hmem => hapart (mem_append_left _ hmem)
  obtain ⟨hsame, hsame'⟩ := @setNext_of_notMem area mem b x hchain
  have hblock := h.isBlock (mem_append_left _ hb)
  have hnext : ∀ a ∈ mem.chain ++ (mem.detached ++ (localFree ++ free)),
      (mem.setNext area b x).next area a = mem.next area a := fun a ha =>
    next_setNext_of_ne (h.isBlock (mem_append_right _ ha)) hblock fun heq => hapart (heq ▸ ha)
  refine ⟨?_, h.accounted, ?_, h.lists, ?_, ?_, ?_, fun p hp => ?_, h.usedRead, h.localRead, h.freeRead,
    fun p hp => ?_⟩
  · rw [hsame, hsame']
    exact h.blocks
  · rw [hsame, hsame']
    exact h.history
  · rw [hsame, hsame']
    exact h.used
  · rw [hsame]
    exact h.chain.congr fun a ha => hnext a (mem_append_left _ ha)
  · exact h.stage.congr hsame' rfl rfl fun a ha => hnext a (mem_append_right _ ha)
  · obtain ⟨hmem, hlink⟩ := h.kept p hp
    rw [hsame, hnext p.1 (mem_append_left _ hmem)]
    exact ⟨hmem, hlink⟩
  · rw [hsame]
    exact h.last p hp

/-- An allocated block is published. -/
theorem publish (hb : b ∈ allocated) (hlink : mem.next area b = threadFreeBlockAddress mem.head) (bit : Bool) :
    PageFits area start (mem.setHead (b + if bit then 1 else 0)) (allocated.erase b) localFree free o := by
  have hblock := h.isBlock (mem_append_left _ hb)
  have hperm := perm_cons_erase hb
  rw [setHead_publish mem hblock.even hblock.ne_zero bit]
  refine ⟨?_, ?_, h.history.cons b, h.lists, ?_, ?_, h.stage, fun p hp => ?_, h.usedRead, h.localRead,
    h.freeRead, fun p hp => ?_⟩
  · refine List.Perm.trans ?_ h.blocks
    exact perm_middle.trans (List.Perm.append_right _ hperm.symm)
  · refine List.Perm.trans ?_ h.accounted
    exact perm_middle.trans (List.Perm.append_right _ hperm.symm)
  · have hlength := hperm.length_eq
    have hused := h.used
    rw [length_cons] at hlength
    dsimp only
    rw [length_cons]
    omega
  · refine ⟨(block_word hblock.even bit).1, hblock.ne_zero, ?_⟩
    change Linked (mem.next area) 0 (mem.next area b) mem.chain
    rw [hlink]
    exact h.chain
  · obtain ⟨hmem, hnext⟩ := h.kept p hp
    exact ⟨mem_cons_of_mem _ hmem, hnext⟩
  · rw [(h.last p hp).1] at hb
    exact absurd hb not_mem_nil

/-- The owner takes the whole chain. -/
theorem detach (hstage : o.stage = .idle) : PageFits area start (mem.setHead 1) allocated localFree free
      { OwnerGhost.resting with stage := .walking mem.chain } := by
  have hidle := h.stage
  rw [hstage] at hidle
  obtain ⟨hdetached, hlocal, hfree⟩ := hidle
  have hblocks := h.blocks
  have hhistory := h.history
  have hused := h.used
  rw [hdetached] at hblocks hhistory hused
  have hchain : Linked (mem.next area) 0 (mem.chain.headD 0) mem.chain := by
    have hlinked := h.chain
    cases hnodes : mem.chain with
    | nil => exact rfl
    | cons node rest =>
      rw [hnodes] at hlinked
      exact ⟨rfl, hlinked.2⟩
  refine ⟨hblocks, h.accounted, hhistory, h.lists, hused, rfl, ⟨rfl, hchain, hlocal, hfree⟩, nofun, nofun,
    nofun, nofun, nofun⟩

/-- The owner takes what is behind a block of the chain. -/
theorem cut (hstage : o.stage = .idle) (hkept : o.kept = some (b, x)) (hx : x ≠ 0) :
    ∃ d, d.headD 0 = x ∧ PageFits area start (mem.setNext area b 0) allocated localFree free
      { OwnerGhost.resting with stage := .walking d, kept := some (b, 0) } := by
  have hidle := h.stage
  rw [hstage] at hidle
  obtain ⟨hdetached, hlocal, hfree⟩ := hidle
  obtain ⟨hmem, hlink⟩ := h.kept (b, x) hkept
  obtain ⟨before, d, hchain⟩ := append_of_mem hmem
  have hnodup := h.chain.nodup
  rw [hchain] at hnodup
  have hbefore : b ∉ before := fun hb => (nodup_append.mp hnodup).2.2 b hb b mem_cons_self rfl
  have hafter : b ∉ d := (nodup_cons.mp (nodup_append.mp hnodup).2.1).1
  obtain ⟨hcut, hcut'⟩ := @setNext_cut area mem b 0 before d hchain hbefore
  have hblock := h.isBlock_chain hmem
  have hnext {a : Nat} (ha : a ∈ mem.chain ++ (mem.detached ++ (localFree ++ free))) (hne : a ≠ b) :
      (mem.setNext area b 0).next area a = mem.next area a :=
    next_setNext_of_ne (h.isBlock (mem_append_right _ ha)) hblock hne
  have hzero : (mem.setNext area b 0).next area b = 0 := next_setNext_self (.inl rfl)
  have hlinked := h.chain
  rw [hchain] at hlinked
  obtain ⟨-, -, hrest⟩ := hlinked.suffix
  rw [show mem.next area b = x from hlink] at hrest
  obtain ⟨rest, rfl, -⟩ := hrest.of_ne hx
  refine ⟨x :: rest, rfl, ⟨?_, h.accounted, ?_, h.lists, ?_, ?_, ?_, ?_, nofun, nofun, nofun, nofun⟩⟩
  · have hblocks := h.blocks
    rw [hdetached, hchain] at hblocks
    rw [hcut, hcut']
    simpa using hblocks
  · have hhistory := h.history
    rw [hdetached, hchain] at hhistory
    rw [hcut, hcut']
    simpa [setNext] using hhistory
  · have hused := h.used
    rw [hdetached, hchain] at hused
    rw [hcut, hcut']
    simp only [length_append, length_cons, length_nil] at hused ⊢
    show mem.page.used = _
    omega
  · rw [hcut]
    refine hlinked.append (fun a ha => hnext (mem_append_left _ ?_) fun heq => hbefore (heq ▸ ha)) hzero
    exact hchain ▸ mem_append_left _ ha
  · have hd {a : Nat} (ha : a ∈ x :: rest) : (mem.setNext area b 0).next area a = mem.next area a := by
      refine hnext (mem_append_left _ ?_) fun heq => hafter (heq ▸ ha)
      exact hchain ▸ mem_append_right _ (mem_cons_of_mem _ ha)
    have hl {a : Nat} (ha : a ∈ localFree ++ free) :
        (mem.setNext area b 0).next area a = mem.next area a := by
      refine hnext (mem_append_right _ (mem_append_right _ ha)) fun heq => ?_
      exact h.apart_chain hmem (mem_append_right _ (heq ▸ ha))
    exact ⟨hcut', hrest.congr fun a ha => hd ha, hlocal.congr fun a ha => hl (mem_append_left _ ha),
      hfree.congr fun a ha => hl (mem_append_right _ ha)⟩
  · rintro p hp
    cases hp
    rw [hcut]
    exact ⟨mem_append_right _ mem_cons_self, hzero⟩

/-- The owner knows more, or less, at the same stage. -/
theorem learn (hstage : o'.stage = o.stage) (hkept : ∀ p ∈ o'.kept, p.1 ∈ mem.chain ∧ mem.next area p.1 = p.2)
    (hused : ∀ u ∈ o'.used, mem.page.used = u) (hlocal : ∀ a ∈ o'.localFree, mem.page.localFree = a)
    (hfree : ∀ a ∈ o'.free, mem.page.free = a) (hlast : ∀ b ∈ o'.last, allocated = [] ∧ mem.chain = [b]) :
    PageFits area start mem allocated localFree free o' :=
  ⟨h.blocks, h.accounted, h.history, h.lists, h.used, h.chain, hstage ▸ h.stage, hkept, hused, hlocal, hfree, hlast⟩

variable {d : List Nat}

/-- The last detached block is linked to the local list. -/
theorem join (hle : start.capacity ≤ area.reserved) (hstage : o.stage = .walking (d ++ [b]))
    (hlocal : o.localFree = some x) :
    PageFits area start (mem.setNext area b x) allocated localFree free
      { OwnerGhost.resting with stage := .joined (d ++ [b]), kept := o.kept } := by
  have hwalking := h.stage
  rw [hstage] at hwalking
  obtain ⟨hdetached, hd, hl, hf⟩ := hwalking
  have hmem : b ∈ mem.detached := hdetached ▸ mem_append_right _ mem_cons_self
  have hchain : b ∉ mem.chain := fun hb => h.apart_chain hb (mem_append_left _ hmem)
  have hlists := h.apart_detached hmem
  obtain ⟨hsame, hsame'⟩ := @setNext_of_notMem area mem b x hchain
  have hblock := h.isBlock_detached hmem
  have hnext {a : Nat} (ha : a ∈ mem.chain ++ (mem.detached ++ (localFree ++ free))) (hne : a ≠ b) :
      (mem.setNext area b x).next area a = mem.next area a :=
    next_setNext_of_ne (h.isBlock (mem_append_right _ ha)) hblock hne
  rw [h.localRead x hlocal] at hl
  have htarget : area.LinkTarget x := by
    rcases hl.head_mem with hzero | hmem
    · exact .inl hzero
    · exact (h.isBlock_lists (mem_append_left _ hmem)).linkTarget hle
  have hb : (mem.setNext area b x).next area b = x := next_setNext_self htarget
  have hlist {a : Nat} (ha : a ∈ localFree ++ free) :
      (mem.setNext area b x).next area a = mem.next area a :=
    hnext (mem_append_right _ (mem_append_right _ ha)) fun heq => hlists (heq ▸ ha)
  have hbefore {a : Nat} (ha : a ∈ d) : (mem.setNext area b x).next area a = mem.next area a := by
    refine hnext (mem_append_right _ (mem_append_left _ ?_)) fun heq => ?_
    · exact hdetached ▸ mem_append_left _ ha
    · exact (nodup_append.mp hd.nodup).2.2 a ha b mem_cons_self heq
  refine ⟨?_, h.accounted, ?_, h.lists, ?_, ?_, ⟨?_, ?_, ?_⟩, fun p hp => ?_, nofun, nofun, nofun, nofun⟩
  · rw [hsame, hsame']
    exact h.blocks
  · rw [hsame, hsame']
    exact h.history
  · rw [hsame, hsame']
    exact h.used
  · rw [hsame]
    refine h.chain.congr fun a ha => hnext (mem_append_left _ ha) fun heq => hchain (heq ▸ ha)
  · rw [hsame', hdetached]
  · rw [append_assoc]
    refine hd.append (fun a ha => hbefore ha) ?_
    rw [hb]
    exact hl.congr fun a ha => hlist (mem_append_left _ ha)
  · exact hf.congr fun a ha => hlist (mem_append_right _ ha)
  · obtain ⟨hmem, hlink⟩ := h.kept p hp
    rw [hsame, hnext (mem_append_left _ hmem) fun heq => hchain (heq ▸ hmem)]
    exact ⟨hmem, hlink⟩

/-- The local list starts with the detached blocks. -/
theorem hang (hstage : o.stage = .joined d) :
    PageFits area start { mem with page := { mem.page with localFree := d.headD 0 } } allocated localFree
      free { OwnerGhost.resting with stage := .hung d, kept := o.kept } := by
  have hjoined := h.stage
  rw [hstage] at hjoined
  exact ⟨h.blocks, h.accounted, h.history, h.lists, h.used, h.chain, hjoined, h.kept, nofun, nofun, nofun, nofun⟩

/-- The detached blocks are counted out: they are in the local list. -/
theorem countOut {u : Nat} (hstage : o.stage = .hung d) (hused : o.used = some u) :
    PageFits area start (mem.setUsed (u - d.length)) allocated (d ++ localFree) free
      { OwnerGhost.resting with kept := o.kept } := by
  have hhung := h.stage
  rw [hstage] at hhung
  obtain ⟨hdetached, hl, hf⟩ := hhung
  have hcount := h.used
  rw [h.usedRead u hused, hdetached] at hcount
  refine ⟨?_, h.accounted, ?_, ?_, ?_, h.chain, ⟨rfl, hl, hf⟩, h.kept, nofun, nofun, nofun, nofun⟩
  · have hblocks := h.blocks
    rw [hdetached] at hblocks
    rw [setUsed, nil_append, append_assoc]
    exact hblocks
  · have hhistory := h.history
    rw [hdetached] at hhistory
    rw [setUsed, nil_append, flatten_cons, hdetached]
    exact hhistory
  · rw [setUsed, flatten_cons, hdetached, append_assoc, append_assoc]
    exact h.lists.append_left d
  · rw [setUsed]
    dsimp only
    rw [length_nil]
    omega

/-- The local list becomes the free list as well. -/
theorem startMove (hstage : o.stage = .idle) (hlocal : o.localFree = some x) (hfree : o.free = some 0) :
    PageFits area start { mem with page := { mem.page with free := x } } allocated localFree free
      { OwnerGhost.resting with stage := .moving, kept := o.kept } := by
  have hidle := h.stage
  rw [hstage] at hidle
  obtain ⟨hdetached, hl, hf⟩ := hidle
  rw [h.localRead x hlocal] at hl
  rw [h.freeRead 0 hfree] at hf
  exact ⟨h.blocks, h.accounted, h.history, h.lists, h.used, h.chain, ⟨hdetached, hf.eq_nil, hl⟩, h.kept, nofun,
    nofun, nofun, nofun⟩

/-- The local list is empty. -/
theorem endMove (hstage : o.stage = .moving) :
    PageFits area start { mem with page := { mem.page with localFree := 0 } } allocated [] localFree
      { OwnerGhost.resting with kept := o.kept } := by
  have hmoving := h.stage
  rw [hstage] at hmoving
  obtain ⟨hdetached, rfl, hl⟩ := hmoving
  have hblocks := h.blocks
  have hlists := h.lists
  rw [append_nil] at hblocks hlists
  exact ⟨hblocks, h.accounted, h.history, hlists, h.used, h.chain, ⟨hdetached, rfl, hl⟩, h.kept, nofun, nofun,
    nofun, nofun⟩

theorem length_le : mem.detached.length ≤ start.capacity ∧ mem.detached.length ≤ mem.page.used := by
  have hlength := h.blocks.length_eq
  have hused := h.used
  rw [PageArea.blocks, length_map, length_range] at hlength
  simp only [length_append] at hlength
  omega

end

end PageFits

end Crabc.Mimalloc
