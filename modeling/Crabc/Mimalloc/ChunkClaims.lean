/-
  Crabc.Mimalloc.ChunkClaims

  Threads that claim and give back the runs of one chunk.

  In every interleaving the runs that are held are disjoint, and when no call is in
  progress the set bits are the available ones that nobody holds: a failed claim has put
  back what it cleared, and nothing else.
-/

import Crabc.Mimalloc.ChunkOwnership

namespace Crabc.Mimalloc

open Crabc.Lib Relation Function Set List Safe

/-! ## Calls -/

/-- A call on a chunk. -/
inductive ChunkCall where
  | tryClaimRun (len : Nat)
  | tryClaimAt (index len : Nat)
  | unclaimRun (index len : Nat)

inductive ChunkResult where
  | index (index : Option Nat)
  | claim (claim : Option TryClaim)
  | transition (transition : Option RunTransition)

/-- The runs that a thread holds, by index and length. -/
abbrev HeldRuns := List (Nat × Nat)

def ChunkCall.code (rounds : Nat) : ChunkCall → Chunk.Code Nat ChunkResult
  | tryClaimRun len => do return .index (← Chunk.tryClaimRun id rounds len)
  | tryClaimAt index len => do return .claim (← Chunk.tryClaimAt id rounds index len)
  | unclaimRun index len => do return .transition (← Chunk.unclaimRun id rounds index len)

/-- A thread only gives back runs that it holds. -/
def ChunkCall.Allowed (held : HeldRuns) : ChunkCall → Prop
  | unclaimRun index len => (index, len) ∈ held
  | _ => True

/-- A run is no longer held when its return begins. -/
def ChunkCall.begin (held : HeldRuns) : ChunkCall → HeldRuns
  | unclaimRun index len => held.erase (index, len)
  | _ => held

/-- A claim that succeeds adds its run. -/
def ChunkCall.finish (held : HeldRuns) : ChunkCall → ChunkResult → HeldRuns
  | tryClaimRun len, .index (some index) => (index, len) :: held
  | tryClaimAt index len, .claim (some claim) => if claim.claimed then (index, len) :: held else held
  | _, _ => held

open ChunkCall

def chunkInterface : Interface (WordOp Nat) Word HeldRuns ChunkCall ChunkResult :=
  ⟨code, ChunkCall.Allowed, begin, finish⟩

/-- All threads, and the eight fields. -/
abbrev ChunkSystem (ι : Type) := SystemState ι (Nat → Word) (WordOp Nat) Word HeldRuns ChunkCall ChunkResult

/-- A step of one thread. -/
abbrev ChunkStep (ι : Type) [DecidableEq ι] : ChunkSystem ι → ChunkSystem ι → Prop :=
  chunkInterface.Step (fun _ => WordOp.Does) fun _ _ _ _ => True

/-- No thread has started. -/
def ChunkSystem.start (ι : Type) (fields : Nat → Word) : ChunkSystem ι := ⟨fields, fun _ => ⟨[], none⟩⟩

/-! ## Runs that are held -/

/-- The bits of the runs that a thread holds. -/
def heldBits (held : HeldRuns) : Set Nat := {n | ∃ r ∈ held, n ∈ runBits 0 r.1 r.2}

/-- The runs lie in the chunk and are disjoint. -/
structure TidyRuns (held : HeldRuns) : Prop where
  valid : ∀ r ∈ held, validRun r.1 r.2 = true
  apart : held.Pairwise fun r r' => Disjoint (runBits 0 r.1 r.2) (runBits 0 r'.1 r'.2)

theorem heldBits_cons (r : Nat × Nat) (held : HeldRuns) : heldBits (r :: held) = heldBits held ∪ runBits 0 r.1 r.2 := by
  ext n
  simp only [heldBits, mem_cons, exists_eq_or_imp, mem_ofPred_eq, mem_union]
  exact or_comm

variable {r : Nat × Nat} {held : HeldRuns}

theorem TidyRuns.cons (h : TidyRuns held) (hvalid : validRun r.1 r.2 = true)
    (hapart : Disjoint (heldBits held) (runBits 0 r.1 r.2)) : TidyRuns (r :: held) := by
  refine ⟨?_, pairwise_cons.mpr ⟨fun r' hr' => ?_, h.apart⟩⟩
  · rintro r' hr'
    rcases mem_cons.mp hr' with rfl | hr'
    · exact hvalid
    · exact h.valid r' hr'
  · exact (hapart.mono_left fun n hn => ⟨r', hr', hn⟩).symm

/-- A run that goes takes its bits and no others. -/
theorem TidyRuns.erase (h : TidyRuns held) (hr : r ∈ held) :
    TidyRuns (held.erase r) ∧ heldBits (held.erase r) = heldBits held \ runBits 0 r.1 r.2 := by
  have hperm := perm_cons_erase hr
  have hapart := (hperm.pairwise_iff fun h => h.symm).mp h.apart
  obtain ⟨hfirst, hrest⟩ := pairwise_cons.mp hapart
  refine ⟨⟨fun r' hr' => h.valid r' (mem_of_mem_erase hr'), hrest⟩, ?_⟩
  have hbits : heldBits held = heldBits (r :: held.erase r) := by simp only [heldBits, hperm.mem_iff]
  rw [hbits, heldBits_cons, union_sdiff_cancel_right]
  rintro n ⟨⟨r', hr', hn'⟩, hn⟩
  exact disjoint_left.mp (hfirst r' hr') hn hn'

/-! ## Ownership -/

section

variable {ι : Type} [DecidableEq ι] {available : Set Nat}

/-- The bits that are available have one owner at most. -/
def ChunkOwned (available : Set Nat) (fields : Nat → Word) (ghosts : ι → Set Nat × Unit) : Prop :=
  Owned id available fields fun i => (ghosts i).1

theorem ChunkOwned.update {fields : Nat → Word} {ghosts : ι → Set Nat × Unit} {i : ι} {own : Set Nat}
    (h : Owned id available fields (Function.update (fun i => (ghosts i).1) i own)) :
    ChunkOwned available fields (Function.update ghosts i (own, ())) := by
  have heq : (fun j => (Function.update ghosts i (own, ()) j).1) = Function.update (fun i => (ghosts i).1) i own := by
    funext j
    by_cases hj : j = i
    · subst hj
      rw [Function.update_self, Function.update_self]
    · rw [Function.update_of_ne hj, Function.update_of_ne hj]
  rw [ChunkOwned, heq]
  exact h

/-- Between its calls a thread owns the bits of its runs. -/
def ChunkIdle (_ : ι) (held : HeldRuns) (g : Set Nat × Unit) : Prop :=
  g.1 = heldBits held ∧ TidyRuns held

/-- During a call it owns at least those. -/
def ChunkBusy (_ : ι) (held : HeldRuns) (g : Set Nat × Unit) : Prop :=
  heldBits held ⊆ g.1 ∧ TidyRuns held

/-- The rules hold of a chunk, whatever runs a thread keeps during its call. -/
theorem chunkRules (available : Set Nat) (i : ι) (held : HeldRuns) :
    ChunkRules (fun _ => WordOp.Does) (fun op : WordOp Nat => op.loc < 8) (ChunkOwned available)
      (ChunkBusy i held) i id 0 id (heldBits held) :=
  .ofOwned (fun fields => fields) injective_id (fun f => f.zero_add.symm) (fun _ => rfl)
    (fun f hf op hop => by rw [hop, id, Nat.zero_add]; exact hf) (fun _ => Iff.rfl) (fun _ _ _ _ h => h)
    (fun _ _ h => h) fun _ _ _ _ _ _ _ _ _ _ _ _ _ _ howned _ => ChunkOwned.update howned

/-- Every call is safe. -/
theorem chunkInterface_safe (available : Set Nat) :
    chunkInterface.Safe (ι := ι) (fun _ => WordOp.Does) (fun op : WordOp Nat => op.loc < 8)
      (ChunkOwned available) ChunkIdle ChunkBusy fun _ _ _ _ => True := by
  rintro i rounds held c ⟨own, e⟩ hallowed ⟨hown, htidy⟩
  obtain rfl : own = heldBits held := hown
  cases c with
  | tryClaimRun len =>
    refine ⟨⟨subset_rfl, htidy⟩, ?_⟩
    refine bind (bind ((chunkRules available i held).tryClaimRunDetailed.mono ?_))
    rintro ⟨_ | index, temporarily⟩ g' ⟨h, -⟩ hbusy -
    · exact ⟨congrArg Prod.fst h, htidy⟩
    · obtain ⟨hvalid, hdisjoint, rfl⟩ := h
      refine ⟨(heldBits_cons (index, len) held).symm, htidy.cons hvalid ?_⟩
      exact hdisjoint.mono_left subset_union_left
  | tryClaimAt index len =>
    refine ⟨⟨subset_rfl, htidy⟩, ?_⟩
    refine bind ((chunkRules available i held).tryClaimAt.mono ?_)
    rintro (_ | claim) g' h hbusy -
    · exact ⟨congrArg Prod.fst h.2, htidy⟩
    · obtain ⟨hvalid, ⟨hdisjoint, rfl⟩, -⟩ := h
      change ChunkIdle i (if claim.claimed then (index, len) :: held else held) _
      split
      case isTrue hclaimed =>
        refine ⟨(heldBits_cons (index, len) held).symm, htidy.cons hvalid ?_⟩
        exact (hdisjoint hclaimed).mono_left subset_union_left
      case isFalse => exact ⟨rfl, htidy⟩
  | unclaimRun index len =>
    obtain ⟨htidy', hbits⟩ := htidy.erase hallowed
    have hmem : runBits 0 index len ⊆ heldBits held := fun n hn => ⟨_, hallowed, hn⟩
    have hvalid : validRun index len = true := htidy.valid _ hallowed
    refine ⟨⟨hbits ▸ sdiff_subset, htidy'⟩, ?_⟩
    have hgive : runBits 0 index len ⊆ heldBits held \ heldBits (held.erase (index, len)) := by
      rw [hbits, sdiff_sdiff_right_self]
      exact subset_inter hmem subset_rfl
    refine bind (((chunkRules available i (held.erase (index, len))).setRun hgive).mono ?_)
    rintro transition g' ⟨-, rfl⟩ hbusy -
    rw [if_pos hvalid]
    exact ⟨hbits.symm, htidy'⟩

end

/-- Disjoint runs stand one behind the other. -/
theorem runs_apart {r' : Nat × Nat} (hr : validRun r.1 r.2 = true) (hr' : validRun r'.1 r'.2 = true)
    (h : Disjoint (runBits 0 r.1 r.2) (runBits 0 r'.1 r'.2)) : r.1 + r.2 ≤ r'.1 ∨ r'.1 + r'.2 ≤ r.1 := by
  have hne : r.2 ≠ 0 ∧ r.1 < 512 ∧ r.1 + r.2 ≤ 512 := of_decide_eq_true hr
  have hne' : r'.2 ≠ 0 ∧ r'.1 < 512 ∧ r'.1 + r'.2 ≤ 512 := of_decide_eq_true hr'
  by_contra hmeet
  -- the later start is in both
  have hleft : max r.1 r'.1 ∈ runBits 0 r.1 r.2 := by
    rw [runBits, mem_Ico]
    omega
  have hright : max r.1 r'.1 ∈ runBits 0 r'.1 r'.2 := by
    rw [runBits, mem_Ico]
    omega
  exact disjoint_left.mp h hleft hright

open ChunkSystem

/-- **Claims of runs of a chunk.**  Whatever the threads do, one atomic operation at a time:
    the runs that are held lie in the chunk, are disjoint and were available, and every access
    is to one of the eight fields.  When no call is in progress the set bits are the available
    ones that nobody holds. -/
theorem chunk_claims_exclusive {ι : Type} [DecidableEq ι] (fields : Nat → Word) (s : ChunkSystem ι)
    (hrun : ReflTransGen (ChunkStep ι) (start ι fields) s) :
    (∀ i, ∀ r ∈ (s.threads i).holds, r.1 + r.2 ≤ 512 ∧ ∀ n, r.1 ≤ n → n < r.1 + r.2 → bitAt id fields n = true) ∧
    (∀ i, (s.threads i).holds.Pairwise fun r r' => r.1 + r.2 ≤ r'.1 ∨ r'.1 + r'.2 ≤ r.1) ∧
    (∀ i j, i ≠ j → ∀ r ∈ (s.threads i).holds, ∀ r' ∈ (s.threads j).holds, r.1 + r.2 ≤ r'.1 ∨ r'.1 + r'.2 ≤ r.1) ∧
    (∀ i held c op next, s.threads i = ⟨held, some (c, .act op next)⟩ → op.loc < 8) ∧
    ((∀ i, (s.threads i).call = none) → ∀ n, bitAt id s.memory n = true ↔
      bitAt id fields n = true ∧ ∀ i, ∀ r ∈ (s.threads i).holds, n < r.1 ∨ r.1 + r.2 ≤ n) := by
  have hstart : (start ι fields).Fits chunkInterface (fun _ => WordOp.Does)
      (fun op : WordOp Nat => op.loc < 8) (ChunkOwned {n | bitAt id fields n = true})
      ChunkIdle ChunkBusy fun _ _ _ _ => True := by
    refine ⟨fun _ => (∅, ()), ⟨fun n => ?_, fun _ n hn => absurd hn (notMem_empty n),
      fun _ _ n hn => absurd hn (notMem_empty n)⟩, fun i => ⟨?_, nofun, .nil⟩⟩
    · simp [start]
    · simp [heldBits, start]
  have hfits := hstart.run (chunkInterface_safe _) hrun
  have hvalid : ∀ i held c op next, s.threads i = ⟨held, some (c, .act op next)⟩ → op.loc < 8 :=
    fun _ _ _ _ _ hact => hfits.acts_valid hact
  obtain ⟨ghosts, hinv, hthreads⟩ := hfits
  have hheld (i : ι) : heldBits (s.threads i).holds ⊆ (ghosts i).1 ∧ TidyRuns (s.threads i).holds := by
    have hi := hthreads i
    rw [ThreadState.Fits] at hi
    cases hcall : (s.threads i).call with
    | none =>
      rw [hcall] at hi
      exact ⟨hi.1.ge, hi.2⟩
    | some call =>
      rw [hcall] at hi
      exact hi.1
  have hmem {i : ι} {r : Nat × Nat} (hr : r ∈ (s.threads i).holds) : runBits 0 r.1 r.2 ⊆ (ghosts i).1 :=
    fun n hn => (hheld i).1 ⟨r, hr, hn⟩
  refine ⟨fun i r hr => ⟨?_, fun n hlow hhigh => ?_⟩, fun i => ?_, fun i j hne r hr r' hr' => ?_, hvalid,
    fun hquiet n => ?_⟩
  · have hrun : r.2 ≠ 0 ∧ r.1 < 512 ∧ r.1 + r.2 ≤ 512 := of_decide_eq_true ((hheld i).2.valid r hr)
    exact hrun.2.2
  · refine (hinv.covers n).mpr (.inr ⟨i, hmem hr ?_⟩)
    rw [runBits, mem_Ico]
    omega
  · exact (hheld i).2.apart.imp_of_mem fun hr hr' =>
      runs_apart ((hheld i).2.valid _ hr) ((hheld i).2.valid _ hr')
  · refine runs_apart ((hheld i).2.valid r hr) ((hheld j).2.valid r' hr')
      (disjoint_left.mpr fun n hn hn' => ?_)
    exact hne (hinv.apart i j n (hmem hr hn) (hmem hr' hn'))
  · have howner : (∃ i, n ∈ (ghosts i).1) ↔ ∃ i, ∃ r ∈ (s.threads i).holds, ¬(n < r.1 ∨ r.1 + r.2 ≤ n) := by
      refine exists_congr fun i => ?_
      have hi := hthreads i
      rw [ThreadState.Fits, hquiet i] at hi
      rw [hi.1]
      refine exists_congr fun r => and_congr_right fun _ => ?_
      rw [runBits, mem_Ico]
      omega
    have hcovers : bitAt id fields n = true ↔ bitAt id s.memory n = true ∨ ∃ i, n ∈ (ghosts i).1 :=
      hinv.covers n
    have hclear : bitAt id s.memory n = true → ¬∃ i, n ∈ (ghosts i).1 := by
      rintro hset ⟨i, hi⟩
      rw [hinv.clear i n hi] at hset
      cases hset
    constructor
    · intro hset
      refine ⟨hcovers.mpr (.inl hset), fun i r hr => ?_⟩
      by_contra hin
      exact hclear hset (howner.mpr ⟨i, r, hr, hin⟩)
    · rintro ⟨havailable, hfree⟩
      refine (hcovers.mp havailable).resolve_right fun hown => ?_
      obtain ⟨i, r, hr, hin⟩ := howner.mp hown
      exact hin (hfree i r hr)

/-- A chunk with 128 available bits. -/
def lowFields : Nat → Word := fun f => if f < 2 then BitVec.allOnes 64 else 0

/-- What is left after a claim of eight bits on both sides of the first field boundary. -/
def boundaryFields : Nat → Word :=
  ((code 4 (.tryClaimAt 60 8)).advance WordOp.answer 4 lowFields).2

/-- One of two threads makes that claim. -/
theorem chunk_claims_boundary : ReflTransGen (ChunkStep Bool) (start Bool lowFields)
      ⟨boundaryFields, update (fun _ => ⟨[], none⟩) true ⟨[(60, 8)], none⟩⟩ ∧
      bitAt id boundaryFields 60 = false := by
  have hrun : ReflTransGen (ChunkStep Bool) (start Bool lowFields)
      ⟨boundaryFields, update (fun _ => ⟨[], none⟩) true ⟨[(60, 8)], none⟩⟩ :=
    @Interface.Step.wholeCall Bool _ _ _ _ _ _ _ (tryClaimAt 60 8) chunkInterface (fun _ => WordOp.Does)
      (fun _ _ _ _ => True) WordOp.answer lowFields (fun _ => ⟨[], none⟩) true boundaryFields []
      (fun _ _ => ⟨rfl, rfl⟩) 4 4 (.claim (some ⟨true, false, false⟩)) rfl trivial rfl trivial
  obtain ⟨-, -, -, -, hquiet⟩ := chunk_claims_exclusive lowFields _ hrun
  have hbit := hquiet (fun i => by cases i <;> rfl) 60
  refine ⟨hrun, ?_⟩
  rw [← Bool.not_eq_true]
  intro hset
  have hfree := (hbit.mp hset).2 true (60, 8) (mem_singleton_self _)
  omega

end Crabc.Mimalloc
