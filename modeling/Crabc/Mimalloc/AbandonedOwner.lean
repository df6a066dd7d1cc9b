/-
  Crabc.Mimalloc.AbandonedOwner

  The owner of an abandoned page: `push_abandoned`, `claim_abandoned_owner`,
  `try_unown_abandoned_head` and `try_unown_abandoned_expected_head` of `remote_free.rs`.

  The low bit of `xthread_free` says that the page has an owner.  A thread becomes the
  owner when its swap or its OR sets the bit, and gives the page up when its swap clears
  it.  The memory has a history that no function reads: the blocks that are published and
  not collected, and what every thread has done to the bit.  The links of the blocks are
  not read here; a store to the link of a published block ends the list there.
-/

import Crabc.Mimalloc.RemoteFree

namespace Crabc.Mimalloc

open Crabc.Lib Relation Keeps Function RemoteFree Interface.Step

/-! ## Memory -/

/-- `takeBlock` is what the caller of `push_abandoned` answers for: the block is allocated,
    and nobody else frees it. -/
inductive AbandonedOp where
  | word (op : RemoteOp)
  | orOwned
  | takeBlock (block : Nat)

/-- Whether a thread is the owner, the block it is about to publish, and its releases, each
    with the block that was left in the word and the list that was left. -/
structure AbandonedThread where
  owner : Bool
  pending : Option Nat
  released : List (Nat × List Nat)

/-- The thread has replaced a word by another one, with this list. -/
def AbandonedThread.after (t : AbandonedThread) (previous word : Nat) (chain : List Nat) :
    AbandonedThread where
  owner := if isOwned word = isOwned previous then t.owner else isOwned word
  pending := if t.pending = some (threadFreeBlockAddress word) then none else t.pending
  released :=
    if isOwned previous && !isOwned word then (threadFreeBlockAddress word, chain) :: t.released
    else t.released

/-- A block that is not aligned is refused, and stays with the caller. -/
def AbandonedThread.take (t : AbandonedThread) (block : Nat) : AbandonedThread :=
  if isOwned block then t else { t with pending := some block }

structure AbandonedMem (ι : Type) where
  head : Nat
  chain : List Nat
  threads : ι → AbandonedThread

section

variable {ι : Type} [DecidableEq ι]

namespace AbandonedMem

/-- The list is as it was, taken as a whole, or longer by a block. -/
def chainAfter (mem : AbandonedMem ι) (word : Nat) : List Nat :=
  if threadFreeBlockAddress word = threadFreeBlockAddress mem.head then mem.chain
  else if threadFreeBlockAddress word = 0 then []
  else threadFreeBlockAddress word :: mem.chain

def setHead (mem : AbandonedMem ι) (i : ι) (word : Nat) : AbandonedMem ι :=
  ⟨word, mem.chainAfter word, update mem.threads i ((mem.threads i).after mem.head word (mem.chainAfter word))⟩

def cut (mem : AbandonedMem ι) (block : Nat) : AbandonedMem ι :=
  { mem with
    chain := if block ∈ mem.chain then mem.chain.takeWhile (· ≠ block) ++ [block] else mem.chain }

def take (mem : AbandonedMem ι) (i : ι) (block : Nat) : AbandonedMem ι :=
  { mem with threads := update mem.threads i ((mem.threads i).take block) }

end AbandonedMem

/-- What an access of a thread does. -/
def AbandonedDoes (i : ι) (op : AbandonedOp) (mem : AbandonedMem ι) (reply : Nat × Bool)
    (mem' : AbandonedMem ι) : Prop :=
  match op with
  | .takeBlock block => mem' = mem.take i block ∧
      block ≠ 0 ∧ block ∉ mem.chain ∧ ∀ j, (mem.threads j).pending ≠ some block
  | .orOwned => reply = (mem.head, true) ∧ mem' = mem.setHead i (threadFreeBlockAddress mem.head + 1)
  | .word .loadHead => reply = (mem.head, true) ∧ mem' = mem
  | .word (.casHead expected desired) =>
    (mem.head = expected ∧ reply = (expected, true) ∧ mem' = mem.setHead i desired) ∨
      (reply = (mem.head, false) ∧ mem' = mem)
  | .word (.storeNext block _) => mem' = mem.cut block
  | .word _ => mem' = mem

end

/-! ## Functions -/

inductive AbandonedRemotePush where
  | publishedToExistingOwner
  | claimedUnownedPage

inductive AbandonedOwnerClaim where
  | claimedUnowned
  | alreadyOwned

inductive AbandonedOwnerHeadTransition where
  | released
  | remotePublished (word : Nat)
  | notOwned

inductive AbandonedExpectedHeadTransition where
  | released
  | ownedEmpty
  | remotePublished
  | notOwned

namespace AbandonedOwner

abbrev Code (α : Type) := Program AbandonedOp (Nat × Bool) α

/-- `push_abandoned`. -/
def pushAbandoned (rounds block : Nat) : Code (Except RemoteFreeError AbandonedRemotePush) := do
  match ← (pushSourceBlockMt rounds false block true).embed .word with
  | .error e => return .error e
  | .ok wasOwned => return .ok (if wasOwned then .publishedToExistingOwner else .claimedUnownedPage)

/-- `claim_abandoned_owner`. -/
def claimAbandonedOwner : Code AbandonedOwnerClaim := do
  let previous ← .perform .orOwned
  return if isOwned previous.1 then .alreadyOwned else .claimedUnowned

/-- One round of `try_unown_abandoned_head`. -/
def unownRound (previous : Nat) : Code (Next Nat AbandonedOwnerHeadTransition) :=
  if !isOwned previous then return .done .notOwned
  else if threadFreeBlockAddress previous ≠ 0 then return .done (.remotePublished previous)
  else do
    let swapped ← .perform (.word (.casHead previous 0))
    if swapped.2 then return .done .released else return .again swapped.1

/-- `try_unown_abandoned_head`. -/
def tryUnownAbandonedHead (rounds : Nat) : Code AbandonedOwnerHeadTransition := do
  let previous ← .perform (.word .loadHead)
  .loop unownRound rounds previous.1

/-- `try_unown_abandoned_expected_head`. -/
def tryUnownAbandonedExpectedHead (expectedBlock : Nat) :
    Code (Except RemoteFreeError AbandonedExpectedHeadTransition) :=
  if isOwned expectedBlock then return .error .unalignedBlock
  else do
    let observed ← .perform (.word (.casHead (expectedBlock + 1) expectedBlock))
    if observed.2 then return .ok .released
    else if !isOwned observed.1 then return .ok .notOwned
    else if threadFreeBlockAddress observed.1 = 0 then return .ok .ownedEmpty
    else return .ok .remotePublished

end AbandonedOwner

/-! ## Calls -/

/-- The owner may also collect the list, or what is behind one of its blocks. -/
inductive AbandonedCall where
  | push (block : Nat)
  | claim
  | unown
  | unownExpected (block : Nat)
  | collect
  | collectBehind (block : Nat)

inductive AbandonedResult where
  | pushed (result : Except RemoteFreeError AbandonedRemotePush)
  | claimed (result : AbandonedOwnerClaim)
  | unowned (result : AbandonedOwnerHeadTransition)
  | unownedExpected (result : Except RemoteFreeError AbandonedExpectedHeadTransition)
  | collected

/-- What a thread knows from its answers: whether it is the owner, and the blocks that its
    releases have left in the word. -/
structure AbandonedHold where
  owner : Bool
  released : List Nat

namespace AbandonedCall

open AbandonedOwner

def code (rounds : Nat) : AbandonedCall → Code AbandonedResult
  | push block => do
    let _ ← .perform (.takeBlock block)
    return .pushed (← pushAbandoned rounds block)
  | claim => do return .claimed (← claimAbandonedOwner)
  | unown => do return .unowned (← tryUnownAbandonedHead rounds)
  | unownExpected block => do return .unownedExpected (← tryUnownAbandonedExpectedHead block)
  | collect => do
    let _ ← (detachFromHead rounds).embed .word
    return .collected
  | collectBehind block => do
    let _ ← .perform (.word (.storeNext block 0))
    return .collected

/-- Only the owner gives the page up or collects. -/
def Allowed (held : AbandonedHold) : AbandonedCall → Prop
  | push _ | claim => True
  | _ => held.owner = true

/-- The answers that make a thread the owner, and those that end it. -/
def finish (held : AbandonedHold) : AbandonedCall → AbandonedResult → AbandonedHold
  | push _, .pushed (.ok .claimedUnownedPage) => { held with owner := true }
  | claim, .claimed .claimedUnowned => { held with owner := true }
  | unown, .unowned .released => ⟨false, 0 :: held.released⟩
  | unownExpected block, .unownedExpected (.ok .released) => ⟨false, block :: held.released⟩
  | _, _ => held

end AbandonedCall

def abandonedInterface :
    Interface AbandonedOp (Nat × Bool) AbandonedHold AbandonedCall AbandonedResult :=
  ⟨AbandonedCall.code, AbandonedCall.Allowed, fun held _ => held, AbandonedCall.finish⟩

abbrev AbandonedSystem (ι : Type) :=
  SystemState ι (AbandonedMem ι) AbandonedOp (Nat × Bool) AbandonedHold AbandonedCall AbandonedResult

abbrev AbandonedStep (ι : Type) [DecidableEq ι] : AbandonedSystem ι → AbandonedSystem ι → Prop :=
  abandonedInterface.Step AbandonedDoes fun _ _ _ _ => True

/-! ## The invariant -/

open AbandonedThread

section

variable {ι : Type} [DecidableEq ι] {mem : AbandonedMem ι} {i : ι} {word : Nat}

/-- The bit is the owner's, the word names the first block of the list, and so it did at every release. -/
structure AbandonedMem.Sound (mem : AbandonedMem ι) : Prop where
  one : ∀ i j, (mem.threads i).owner = true → (mem.threads j).owner = true → i = j
  owned : isOwned mem.head = true ↔ ∃ i, (mem.threads i).owner = true
  head : mem.chain.headD 0 = threadFreeBlockAddress mem.head ∧ 0 ∉ mem.chain
  pending : ∀ i b, (mem.threads i).pending = some b → b ≠ 0 ∧ b ∉ mem.chain ∧
    ∀ j, (mem.threads j).pending = some b → i = j
  released : ∀ i, ∀ r ∈ (mem.threads i).released, r.2.headD 0 = r.1 ∧ 0 ∉ r.2

namespace AbandonedMem.Sound

/-- A write of the word by the owner, or one that leaves the bit set. -/
theorem setHead (h : mem.Sound) (hbit : isOwned mem.head = true → isOwned word = false → (mem.threads i).owner = true)
    (hchain : threadFreeBlockAddress word = threadFreeBlockAddress mem.head ∨
      threadFreeBlockAddress word = 0 ∨ (mem.threads i).pending = some (threadFreeBlockAddress word)) :
    (mem.setHead i word).Sound := by
  have hhead : (mem.chainAfter word).headD 0 = threadFreeBlockAddress word ∧ 0 ∉ mem.chainAfter word := by
    have := h.head
    grind [chainAfter]
  have hthread (j : ι) : (mem.setHead i word).threads j =
      if j = i then (mem.threads i).after mem.head word (mem.chainAfter word) else mem.threads j :=
    update_apply ..
  obtain ⟨hone, howned, -, hpending, hreleased⟩ := h
  refine ⟨?_, ?_, hhead, ?_, ?_⟩
  · grind [after]
  · have : isOwned (mem.setHead i word).head = isOwned word := rfl
    grind [after]
  · have : (mem.setHead i word).chain = mem.chainAfter word := rfl
    grind [after, chainAfter]
  · grind [after]

omit [DecidableEq ι] in
theorem cut (h : mem.Sound) (block : Nat) : (mem.cut block).Sound := by
  rw [AbandonedMem.cut]
  split
  case isFalse => exact h
  case isTrue hmem =>
    have hsub {n : Nat} (hn : n ∈ mem.chain.takeWhile (· ≠ block) ++ [block]) : n ∈ mem.chain := by
      rcases List.mem_append.mp hn with hn | hn
      · exact (List.takeWhile_sublist _).subset hn
      · exact List.mem_singleton.mp hn ▸ hmem
    refine { h with head := ⟨?_, fun hzero => h.head.2 (hsub hzero)⟩, pending := fun i b hb => ?_ }
    · rw [← h.head.1]
      cases hchain : mem.chain with
      | nil => simp [hchain] at hmem
      | cons c rest => by_cases hc : c = block <;> simp [hc]
    · obtain ⟨hne, hnot, hothers⟩ := h.pending i b hb
      exact ⟨hne, fun hcut => hnot (hsub hcut), hothers⟩

theorem take (h : mem.Sound) {block : Nat} (hne : block ≠ 0) (hchain : block ∉ mem.chain)
    (hnone : ∀ j, (mem.threads j).pending ≠ some block) : (mem.take i block).Sound := by
  have hthread (j : ι) : (mem.take i block).threads j =
      if j = i then (mem.threads i).take block else mem.threads j := update_apply ..
  obtain ⟨hone, howned, hhead, hpending, hreleased⟩ := h
  refine ⟨?_, ?_, hhead, ?_, ?_⟩
  · grind [AbandonedThread.take]
  · have : (mem.take i block).head = mem.head := rfl
    grind [AbandonedThread.take]
  · have : (mem.take i block).chain = mem.chain := rfl
    grind [AbandonedThread.take]
  · grind [AbandonedThread.take]

end AbandonedMem.Sound

/-! ## Programs -/

variable {block : Nat}

/-- The words of a block that is aligned. -/
theorem block_words (h : isOwned block = false) : isOwned (block + 1) = true ∧
    threadFreeBlockAddress (block + 1) = block ∧ threadFreeBlockAddress block = block := by
  simp only [isOwned, threadFreeBlockAddress, beq_eq_false_iff_ne, beq_iff_eq] at *
  omega

theorem threadFreeBlockAddress_even (word : Nat) : isOwned (threadFreeBlockAddress word) = false := by
  simp only [isOwned, threadFreeBlockAddress, beq_eq_false_iff_ne]
  omega

/-- Every thread knows its own history. -/
def AbandonedInv (mem : AbandonedMem ι) (threads : ι → AbandonedThread) : Prop :=
  mem.threads = threads ∧ mem.Sound

section

variable {t : AbandonedThread} {Q : Nat × Bool → AbandonedThread → Prop}

abbrev AbandonedKeeps (i : ι) (op : AbandonedOp) (t : AbandonedThread)
    (Q : Nat × Bool → AbandonedThread → Prop) : Prop :=
  Keeps AbandonedDoes (fun _ => True) AbandonedInv (fun _ => True) i op t Q

/-- An access that leaves the history as it is. -/
theorem keeps_same {op : AbandonedOp} (hnext : ∀ reply, Q reply t)
    (hop : ∀ mem : AbandonedMem ι, mem.Sound → ∀ reply mem', AbandonedDoes i op mem reply mem' →
      mem'.Sound ∧ mem'.threads = mem.threads) : AbandonedKeeps i op t Q := by
  refine ⟨trivial, ?_⟩
  rintro mem _ ⟨rfl, hsound⟩ ht - reply mem' hdoes
  obtain ⟨hsound', hthreads⟩ := hop mem hsound reply mem' hdoes
  refine ⟨t, ⟨?_, hsound'⟩, trivial, hnext reply⟩
  rw [← ht, update_eq_self, hthreads]

theorem keeps_loadHead (hnext : ∀ reply, Q reply t) : AbandonedKeeps i (.word .loadHead) t Q := by
  refine keeps_same hnext ?_
  rintro mem hsound reply mem' ⟨-, rfl⟩
  exact ⟨hsound, rfl⟩

theorem keeps_storeNext {next : Nat} (hnext : ∀ reply, Q reply t) :
    AbandonedKeeps i (.word (.storeNext block next)) t Q := by
  refine keeps_same hnext ?_
  rintro mem hsound reply mem' rfl
  exact ⟨hsound.cut block, rfl⟩

theorem keeps_takeBlock (hnext : ∀ reply, Q reply (t.take block)) : AbandonedKeeps i (.takeBlock block) t Q := by
  refine ⟨trivial, ?_⟩
  rintro mem _ ⟨rfl, hsound⟩ rfl - reply mem' ⟨rfl, hne, hchain, hnone⟩
  exact ⟨_, ⟨rfl, hsound.take hne hchain hnone⟩, trivial, hnext reply⟩

/-- A swap clears the bit only when the thread is the owner. -/
theorem keeps_casHead {expected desired : Nat}
    (hbit : isOwned expected = true → isOwned desired = false → t.owner = true)
    (hchain : threadFreeBlockAddress desired = threadFreeBlockAddress expected ∨
      threadFreeBlockAddress desired = 0 ∨ t.pending = some (threadFreeBlockAddress desired))
    (hyes : ∀ chain, Q (expected, true) (t.after expected desired chain))
    (hno : ∀ observed, Q (observed, false) t) :
    AbandonedKeeps i (.word (.casHead expected desired)) t Q := by
  refine ⟨trivial, ?_⟩
  rintro mem _ ⟨rfl, hsound⟩ rfl - reply mem' (⟨rfl, rfl, rfl⟩ | ⟨rfl, rfl⟩)
  · exact ⟨_, ⟨rfl, hsound.setHead hbit hchain⟩, trivial, hyes _⟩
  · exact ⟨_, ⟨(update_eq_self ..).symm, hsound⟩, trivial, hno _⟩

/-- The OR never clears the bit, and leaves the list as it is. -/
theorem keeps_orOwned (hnext : ∀ previous chain,
      Q (previous, true) (t.after previous (threadFreeBlockAddress previous + 1) chain)) :
    AbandonedKeeps i .orOwned t Q := by
  refine ⟨trivial, ?_⟩
  rintro mem _ ⟨rfl, hsound⟩ rfl - reply mem' ⟨rfl, rfl⟩
  have hword := block_words (threadFreeBlockAddress_even mem.head)
  refine ⟨_, ⟨rfl, hsound.setHead (fun _ hclear => ?_) (.inl hword.2.1)⟩, trivial, hnext _ _⟩
  exact nomatch hword.1.symm.trans hclear

end

/-- Between its calls a thread knows its history. -/
def AbandonedIdle (_ : ι) (held : AbandonedHold) (t : AbandonedThread) : Prop :=
  t.pending = none ∧ t.owner = held.owner ∧ t.released.map Prod.fst = held.released

attribute [local simp] AbandonedIdle after abandonedInterface AbandonedCall.finish

theorem abandonedInterface_safe :
    abandonedInterface.Safe (ι := ι) AbandonedDoes (fun _ => True) AbandonedInv AbandonedIdle
      (fun _ _ _ => True) (fun _ _ _ _ => True) := by
  intro i rounds held c t hallowed hidle
  have ⟨hpending, howner, hreleased⟩ := hidle
  refine ⟨trivial, ?_⟩
  cases c with
  | push block =>
    refine bind (keeps_takeBlock fun reply => Safe.bind (Safe.bind (Safe.embed ?_)))
    rw [pushSourceBlockMt, AbandonedThread.take]
    cases hblock : isOwned block with
    | true => exact fun _ _ => hidle
    | false =>
      refine bind (keeps_loadHead fun reply => ?_)
      refine Safe.loop (fun _ t' => t' = { t with pending := some block }) ?_ rounds rfl
      rintro previous _ rfl
      rw [publishRound, Bool.true_or, if_pos rfl, if_neg (by simp)]
      obtain ⟨hword, haddress, -⟩ := block_words hblock
      refine bind (keeps_storeNext fun reply => bind (keeps_casHead (fun _ hclear => ?_)
        (.inr (.inr ?_)) (fun chain => fun _ _ => ?_) fun observed => rfl))
      · exact nomatch hword.symm.trans hclear
      · exact congrArg some haddress.symm
      · cases hprevious : isOwned previous <;>
          simp [hprevious, hword, haddress, howner, hreleased]
  | claim =>
    refine Safe.bind (bind (keeps_orOwned fun previous chain => fun _ _ => ?_))
    have hword := (block_words (threadFreeBlockAddress_even previous)).1
    cases hprevious : isOwned previous <;>
      simp [hprevious, hword, hpending, howner, hreleased]
  | unown =>
    refine Safe.bind (bind (keeps_loadHead fun reply => ?_))
    refine Safe.loop (fun _ t' => t' = t) ?_ rounds rfl
    rintro previous _ rfl
    rw [AbandonedOwner.unownRound]
    split
    case isTrue => exact fun _ _ => hidle
    case isFalse howned =>
      split
      case isTrue => exact fun _ _ => hidle
      case isFalse hzero =>
        refine bind (keeps_casHead (fun _ _ => howner.trans hallowed) (.inr (.inl rfl))
          (fun chain => fun _ _ => ?_) fun observed => rfl)
        have hbits : isOwned previous = true ∧ isOwned 0 = false ∧ threadFreeBlockAddress 0 = 0 :=
          ⟨by simpa using howned, rfl, rfl⟩
        simp [hbits, hpending, hreleased]
  | unownExpected block =>
    refine Safe.bind ?_
    rw [AbandonedOwner.tryUnownAbandonedExpectedHead]
    cases hblock : isOwned block with
    | true => exact fun _ _ => hidle
    | false =>
      obtain ⟨hword, haddress, heven⟩ := block_words hblock
      refine bind (keeps_casHead (fun _ _ => howner.trans hallowed)
        (.inl (heven.trans haddress.symm)) (fun chain => fun _ _ => ?_) fun observed => ?_)
      · simp [hblock, hword, heven, hpending, hreleased]
      · rw [if_neg Bool.false_ne_true]
        repeat' split
        all_goals exact fun _ _ => hidle
  | collect =>
    refine Safe.bind (Safe.embed (bind (keeps_loadHead fun reply => ?_)))
    refine Safe.loop (fun _ t' => t' = t) ?_ rounds rfl
    rintro previous _ rfl
    rw [detachRound]
    split
    case isTrue => exact fun _ _ => hidle
    case isFalse howned =>
      split
      case isTrue => exact fun _ _ => hidle
      case isFalse =>
        have hbits : isOwned previous = true ∧ isOwned 1 = true := ⟨by simpa using howned, rfl⟩
        refine bind (keeps_casHead (fun _ hclear => nomatch hbits.2.symm.trans hclear) (.inr (.inl rfl))
          (fun chain => fun _ _ => ?_) fun observed => rfl)
        simp [hbits, hpending, howner, hreleased]
  | collectBehind block =>
    exact bind (keeps_storeNext fun reply => fun _ _ => hidle)

/-! ## Runs -/

/-- Nobody owns the page, and nobody is in a call; blocks may have been left in the word. -/
structure AbandonedStart (s : AbandonedSystem ι) : Prop where
  unowned : isOwned s.memory.head = false
  chain : s.memory.chain.headD 0 = threadFreeBlockAddress s.memory.head ∧ 0 ∉ s.memory.chain
  history : s.memory.threads = fun _ => ⟨false, none, []⟩
  idle : s.threads = fun _ => ⟨⟨false, []⟩, none⟩

end

/-- A page with a block in its word, which nobody owns. -/
def leftPage : AbandonedMem Unit := ⟨16, [16], fun _ => ⟨false, none, []⟩⟩

end Crabc.Mimalloc
