/-
  Crabc.Mimalloc.RemoteFreeLaws

  Remote frees and collections in any interleaving.

  Every function is safe, and those of the owner return without an error: the chain that is
  detached is not longer than the page, its blocks are all counted as used, and the last
  block in use is the one that the caller has published.  So the page is accounted for in
  every state that any run reaches.
-/

import Crabc.Mimalloc.FreeListLaws
import Crabc.Mimalloc.RemoteFreeAccess

namespace Crabc.Mimalloc

open Crabc.Lib PageArea Relation OwnerMay List Safe RemoteHold Function RemoteCall RemoteFree Set Interface.Step

section

variable {ι : Type} [DecidableEq ι] {area : PageArea} {start : PageStart} {i : ι} {g : RemoteGhost}
  {o : OwnerGhost} {α β : Type}

/-- A program that is safe among threads that free and collect. -/
abbrev RemoteSafe (area : PageArea) (start : PageStart) (i : ι) (p : RemoteCode α) (g : RemoteGhost)
    (Q : α → RemoteGhost → Prop) : Prop :=
  Safe (fun _ => RemoteDoes area) (fun _ => True) (RemoteInv area start) (fun _ => True) i p g Q

/-- The thread as the owner of the page, with what it knows. -/
def RemoteGhost.as (g : RemoteGhost) (o : OwnerGhost) : RemoteGhost := { g with role := some o }

/-! ## The owner -/

variable {f : Nat × Bool → RemoteCode β}

/-- The owner does an access and goes on with what it knows then. -/
theorem OwnerMay.bind {op : RemoteOp} {P : Nat × Bool → OwnerGhost → Prop} (h : OwnerMay area start op o P)
    {Q : β → RemoteGhost → Prop}
    (hnext : ∀ reply o', P reply o' → RemoteSafe area start i (f reply) (g.as o') Q) :
    RemoteSafe area start i (.perform op >>= f) (g.as o) Q := by
  refine Keeps.bind ⟨trivial, fun mem ghosts hinv hg _ reply mem' hdoes => ?_⟩
  obtain ⟨o', hinv', hpost⟩ := hinv.ownerStep hg rfl h hdoes
  exact ⟨g.as o', hinv', trivial, hnext reply o' hpost⟩

/-- What the owner knows when it has detached some blocks. -/
def OwnerGhost.detaching (d : List Nat) (kept : Option (Nat × Nat)) : OwnerGhost :=
  { OwnerGhost.resting with stage := .walking d, kept }

namespace RemoteFree

variable {kept : Option (Nat × Nat)} {Q : Except RemoteFreeError Nat → RemoteGhost → Prop}

/-- A collection that returns a number, with nothing left detached. -/
def Collects (g : RemoteGhost) (kept : Option (Nat × Nat)) (result : Except RemoteFreeError Nat)
    (g' : RemoteGhost) : Prop :=
  (∃ n, result = .ok n) ∧ ∃ o, g' = g.as o ∧ o.stage = .idle ∧ ∀ p ∈ kept, o.kept = some p

/-- The word is owned in every round; the chain is empty, or it is taken. -/
theorem safe_detachFromHead {rounds : Nat} (hstage : o.stage = .idle) :
    RemoteSafe area start i (detachFromHead rounds) (g.as o) fun result g' =>
      ∃ word, result = .ok word ∧ ((threadFreeBlockAddress word = 0 ∧ g' = g.as o) ∨
        (∃ d, d.headD 0 = threadFreeBlockAddress word ∧ d ≠ [] ∧ d.length ≤ start.capacity ∧
          threadFreeBlockAddress word ≠ 0 ∧ g' = g.as (.detaching d none))) := by
  refine loadHead.bind fun reply o' hreply => ?_
  obtain ⟨rfl, howned, -⟩ := hreply
  refine loop (fun previous g' => isOwned previous = true ∧ g' = g.as o') ?_ rounds ⟨howned, rfl⟩
  rintro previous _ ⟨howned, rfl⟩
  rw [detachRound, if_neg (by rw [howned]; decide)]
  split
  case isTrue hzero => exact ⟨previous, rfl, .inl ⟨hzero, rfl⟩⟩
  case isFalse hne =>
    refine (detach hstage hne).bind fun reply o1 hreply => ?_
    obtain ⟨hflag, d, hhead, hd, hle, rfl⟩ | ⟨hflag, howned, rfl⟩ := hreply
    · rw [if_pos hflag]
      exact ⟨previous, rfl, .inr ⟨d, hhead, hd, hle, hne, rfl⟩⟩
    · rw [hflag]
      exact ⟨howned, rfl⟩

variable {d : List Nat}

/-- The walk stops at the last block, and counts them all. -/
theorem safe_tail {rounds : Nat} (hd : d ≠ []) (hle : d.length ≤ start.capacity) :
    RemoteSafe area start i (.loop (tailRound start.capacity) rounds (1, d.headD 0))
      (g.as (.detaching d kept)) fun result g' => ∃ before last, d = before ++ [last] ∧
        result = .ok (d.length, last) ∧ g' = g.as (.detaching d kept) := by
  refine loop (fun s g' => (∃ before after, d = before ++ s.2 :: after ∧ s.1 = before.length + 1) ∧
    g' = g.as (.detaching d kept)) ?_ rounds ⟨?_, rfl⟩
  · rintro ⟨count, tail⟩ _ ⟨⟨before, after, hsplit, hcount⟩, rfl⟩
    dsimp only at hsplit hcount
    have hstage : (OwnerGhost.detaching d kept).stage = .walking (before ++ tail :: after) :=
      congrArg Stage.walking hsplit
    refine (loadNext_walking hstage).bind fun reply o' hreply => ?_
    obtain ⟨rfl, hnext, hend⟩ := hreply
    split
    case isTrue hzero =>
      obtain rfl := hend hzero
      refine ⟨before, tail, hsplit, ?_, rfl⟩
      rw [hsplit, length_append, hcount]
      rfl
    case isFalse hne =>
      -- There is another block, so the count has not reached the capacity.
      obtain ⟨next, after, rfl⟩ : ∃ next rest, after = next :: rest := by
        cases after with
        | nil => exact absurd hnext hne
        | cons next rest => exact ⟨next, rest, rfl⟩
      have hlength := congrArg length hsplit
      rw [length_append, length_cons, length_cons] at hlength
      rw [if_neg (by show ¬count ≥ _; omega)]
      refine ⟨⟨before ++ [tail], after, ?_, ?_⟩, rfl⟩
      · rw [hsplit, append_assoc, hnext]
        rfl
      · rw [length_append, hcount]
        rfl
  · obtain ⟨first, rest, rfl⟩ := exists_cons_of_ne_nil hd
    exact ⟨[], rest, rfl, rfl⟩

theorem safe_moveLocalToFreeIfEmpty (hstage : o.stage = .idle) :
    RemoteSafe area start i moveLocalToFreeIfEmpty (g.as o) fun _ g' =>
      ∃ o', g' = g.as o' ∧ o'.stage = .idle ∧ o'.kept = o.kept := by
  refine loadLocalFree.bind fun reply o' hreply => ?_
  subst hreply
  split
  case isTrue => exact ⟨_, rfl, hstage, rfl⟩
  case isFalse =>
    refine loadFree.bind fun reply' o' hreply' => ?_
    subst hreply'
    split
    case isFalse => exact ⟨_, rfl, hstage, rfl⟩
    case isTrue hzero =>
      refine (startMove (by exact hstage) rfl (congrArg some hzero)).bind fun _ o' ho' => ?_
      subst ho'
      refine (endMove rfl).bind fun _ o' ho' => ?_
      subst ho'
      refine storeFreeIsZero.bind fun _ o' ho' => ?_
      subst ho'
      exact ⟨_, rfl, rfl, rfl⟩

/-- The last block in use is the first and last one of the chain. -/
theorem safe_headMatches {head : Nat} (hkept : o.kept = some (head, 0)) (hlast : o.last = some head) :
    RemoteSafe area start i (headMatches head) (g.as o) fun result g' => result = true ∧ g' = g.as o := by
  refine loadHead.bind fun reply o' hreply => ?_
  obtain ⟨rfl, howned, hhead⟩ := hreply
  rw [howned, hhead head hlast, if_neg (by simp)]
  refine (loadNext_kept hkept).bind fun reply o1 hreply => ?_
  obtain ⟨rfl, hzero⟩ := hreply
  rw [hzero]
  exact ⟨rfl, rfl⟩

variable (hreserved : start.capacity ≤ area.reserved)
include hreserved

/-- The detached blocks are put before the local list and counted out. -/
theorem safe_mergeToLocal {last : Nat} :
    RemoteSafe area start i (mergeToLocal ((d ++ [last]).headD 0) (d ++ [last]).length last)
      (g.as (.detaching (d ++ [last]) kept)) (Collects g kept) := by
  refine loadUsed.bind fun reply o' hreply => ?_
  obtain ⟨rfl, hused⟩ := hreply
  rw [if_neg (Nat.not_lt.mpr (hused _ rfl))]
  refine loadLocalFree.bind fun reply' o' hreply' => ?_
  subst hreply'
  refine (join hreserved rfl rfl).bind fun _ o' ho' => ?_
  subst ho'
  refine (hang rfl).bind fun _ o' ho' => ?_
  subst ho'
  refine loadUsed.bind fun reply o' hreply => ?_
  obtain ⟨rfl, -⟩ := hreply
  refine (countOut rfl rfl).bind fun _ o' ho' => ?_
  subst ho'
  exact ⟨⟨_, rfl⟩, _, rfl, rfl, fun p hp => hp⟩

theorem safe_collectDetachedToLocal (rounds : Nat) (hd : d ≠ []) (hle : d.length ≤ start.capacity) :
    RemoteSafe area start i (collectDetachedToLocal rounds start.capacity (d.headD 0))
      (g.as (.detaching d kept)) (Collects g kept) := by
  have hpos := length_pos_of_ne_nil hd
  rw [collectDetachedToLocal, if_neg (by omega)]
  refine bind ((safe_tail hd hle).mono fun result g' hresult => ?_)
  obtain ⟨before, last, rfl, rfl, rfl⟩ := hresult
  exact safe_mergeToLocal hreserved

theorem safe_collectState (rounds : Nat) (hstage : o.stage = .idle) :
    RemoteSafe area start i (collectState rounds start.capacity) (g.as o)
      (Collects g none) := by
  refine bind ((safe_detachFromHead hstage).mono fun result g' hresult => ?_)
  obtain ⟨word, rfl, ⟨hzero, rfl⟩ | ⟨d, hhead, hd, hle, hne, rfl⟩⟩ := hresult
  · dsimp only
    rw [if_pos hzero]
    exact ⟨⟨0, rfl⟩, o, rfl, hstage, nofun⟩
  · dsimp only
    rw [if_neg hne, ← hhead]
    exact safe_collectDetachedToLocal hreserved rounds hd hle

/-- The blocks behind the caller's block are collected; its link is null then. -/
theorem safe_collectPredecessors (rounds : Nat) {head x : Nat} (hstage : o.stage = .idle)
    (hkept : o.kept = some (head, x)) :
    RemoteSafe area start i (collectPredecessors rounds start.capacity head) (g.as o)
      (Collects g (some (head, 0))) := by
  refine (loadNext_kept hkept).bind fun reply o' hreply => ?_
  obtain ⟨rfl, rfl⟩ := hreply
  split
  case isTrue hzero =>
    rw [hzero] at hkept
    exact ⟨⟨0, rfl⟩, o', rfl, hstage, fun p hp => hp ▸ hkept⟩
  case isFalse hne =>
    refine (cut hstage hkept hne).bind fun _ o1 ho1 => ?_
    obtain ⟨d, hhead, hd, hle, rfl⟩ := ho1
    rw [← hhead]
    refine bind ((safe_collectDetachedToLocal hreserved rounds hd hle).mono fun result g' hresult => ?_)
    obtain ⟨⟨n, rfl⟩, o2, rfl, hidle, hkept'⟩ := hresult
    refine bind ((safe_moveLocalToFreeIfEmpty hidle).mono fun _ g' hmoved => ?_)
    obtain ⟨o3, rfl, hidle', hsame⟩ := hmoved
    exact ⟨⟨n, rfl⟩, o3, rfl, hidle', fun p hp => hsame.trans (hkept' p hp)⟩

theorem safe_collectPartlyState (rounds : Nat) {head x : Nat} (hstage : o.stage = .idle)
    (hkept : o.kept = some (head, x)) :
    RemoteSafe area start i (collectPartlyState rounds start.capacity head) (g.as o) (Collects g none) := by
  refine bind ((safe_collectPredecessors hreserved rounds hstage hkept).mono fun result g' hresult => ?_)
  obtain ⟨⟨n, rfl⟩, o', rfl, hidle, hkept'⟩ := hresult
  have hnull := hkept' _ rfl
  refine (loadUsed_last hnull).bind fun reply o1 hreply => ?_
  split
  case isFalse hmore =>
    rw [if_neg hmore] at hreply
    subst hreply
    exact ⟨⟨n, rfl⟩, o1, rfl, hidle, nofun⟩
  case isTrue hone =>
    rw [if_pos hone] at hreply
    subst hreply
    refine bind ((safe_headMatches (by exact hnull) rfl).mono fun result g' hresult => ?_)
    obtain ⟨rfl, rfl⟩ := hresult
    refine bind ((safe_collectState hreserved rounds (by exact hidle)).mono fun result g' hresult => ?_)
    obtain ⟨⟨last, rfl⟩, o2, rfl, hidle', -⟩ := hresult
    refine bind ((safe_moveLocalToFreeIfEmpty hidle').mono fun _ g' hmoved => ?_)
    obtain ⟨o3, rfl, hidle3, -⟩ := hmoved
    exact ⟨⟨n + last, rfl⟩, o3, rfl, hidle3, nofun⟩

/-! ## Producers -/

variable {b x : Nat} {Q : β → RemoteGhost → Prop}

/-- Anybody may read the word. -/
theorem keeps_loadHead
    (hnext : ∀ word, area.LinkTarget (threadFreeBlockAddress word) → RemoteSafe area start i (f (word, true)) g Q) :
    RemoteSafe area start i (.perform .loadHead >>= f) g Q := by
  refine Keeps.bind ⟨trivial, ?_⟩
  rintro mem ghosts hinv hg - reply mem' ⟨rfl, rfl⟩
  obtain ⟨allocated, localFree, free, o, hpage, -⟩ := hinv.page
  refine ⟨g, ?_, trivial, hnext mem'.head (hpage.head_target hreserved)⟩
  rw [← hg, update_eq_self]
  exact hinv

omit hreserved in
/-- A thread writes the link of its block. -/
theorem keeps_storeOwn (hb : b ∈ g.own) (hx : area.LinkTarget x)
    (hnext : ∀ reply, RemoteSafe area start i (f reply) { g with link := some (b, x) } Q) :
    RemoteSafe area start i (.perform (.storeNext b x) >>= f) g Q := by
  refine Keeps.bind ⟨trivial, ?_⟩
  rintro mem ghosts hinv hg - reply mem' rfl
  exact ⟨_, hinv.storeOwn hg hb hx, trivial, hnext reply⟩

/-- It publishes the block, or has to link it again. -/
theorem keeps_publish (hlink : g.link = some (b, threadFreeBlockAddress x))
    (hyes : RemoteSafe area start i (f (x, true)) (RemoteInv.published g b (isOwned x)) Q)
    (hno : ∀ word, area.LinkTarget (threadFreeBlockAddress word) → RemoteSafe area start i (f (word, false)) g Q) :
    RemoteSafe area start i (.perform (.casHead x (b + 1)) >>= f) g Q := by
  refine Keeps.bind ⟨trivial, ?_⟩
  rintro mem ghosts hinv hg - reply mem' (⟨rfl, rfl, rfl⟩ | ⟨rfl, rfl⟩)
  · exact ⟨_, hinv.publish hg hlink, trivial, hyes⟩
  · obtain ⟨allocated, localFree, free, o, hpage, -⟩ := hinv.page
    refine ⟨g, ?_, trivial, hno mem'.head (hpage.head_target hreserved)⟩
    rw [← hg, update_eq_self]
    exact hinv

/-- A push has published the block, or the thread has it as before. -/
def Pushes (g : RemoteGhost) (b : Nat) : Except RemoteFreeError Bool → RemoteGhost → Prop
  | .ok wasOwned, g' => ∃ link, g' = RemoteInv.published { g with link } b wasOwned
  | .error _, g' => ∃ link, g' = { g with link }

theorem safe_pushSourceBlockMt (rounds : Nat) (canonicalAligned allowCollect : Bool) (hb : b ∈ g.own) :
    RemoteSafe area start i (pushSourceBlockMt rounds canonicalAligned b allowCollect) g (Pushes g b) := by
  rw [pushSourceBlockMt]
  split
  case isTrue => exact ⟨g.link, rfl⟩
  case isFalse =>
    refine keeps_loadHead hreserved fun word hword => ?_
    refine loop (fun previous g' => area.LinkTarget (threadFreeBlockAddress previous) ∧
      ∃ link, g' = { g with link }) ?_ rounds ⟨hword, g.link, rfl⟩
    rintro previous _ ⟨hprevious, link, rfl⟩
    rw [publishRound]
    split
    case isTrue => exact ⟨link, rfl⟩
    case isFalse hallowed =>
      -- The word that is published has the owner bit, whoever the owner is.
      have hbit : (allowCollect || isOwned previous) = true := by
        cases hcollect : allowCollect <;> cases howned : isOwned previous
        case false.false => exact absurd (by rw [hcollect, howned]; rfl) hallowed
        all_goals rfl
      rw [hbit, if_pos rfl]
      refine keeps_storeOwn (by exact hb) hprevious fun _ => ?_
      refine keeps_publish hreserved (by rfl) ?_ fun word hword => ?_
      · exact ⟨_, rfl⟩
      · exact ⟨hword, _, rfl⟩

end RemoteFree

/-! ## Calls -/

/-- Between its calls a thread has its blocks, and nothing that it has detached. -/
def RemoteIdle (_ : ι) (held : RemoteHold) (g : RemoteGhost) : Prop :=
  g.own = held.blocks ∧ (held.owner = true → ∃ o, g.role = some o ∧ o.stage = .idle) ∧
    (held.owner = false → g.role = none) ∧ ∀ result ∈ held.collected, ∃ n, result = .ok n

/-- During a call its collections so far have returned numbers. -/
def RemoteBusy (_ : ι) (held : RemoteHold) (_ : RemoteGhost) : Prop :=
  True ∧ ∀ result ∈ held.collected, ∃ n, result = .ok n

variable {held : RemoteHold} {g' : RemoteGhost}

omit [DecidableEq ι] in
/-- A collection of the owner makes the thread idle. -/
theorem RemoteFree.Collects.idle {c : RemoteCall} {result : Except RemoteFreeError Nat} (hown : g.own = held.blocks)
    (howner : held.owner = true) (hclean : ∀ result ∈ held.collected, ∃ n, result = .ok n)
    (h : Collects g none result g')
    (hc : c.finish held (.collected result) = { held with collected := result :: held.collected }) :
    RemoteIdle i (c.finish held (.collected result)) g' := by
  obtain ⟨hok, o, rfl, hstage, -⟩ := h
  rw [hc]
  refine ⟨hown, fun _ => ⟨o, rfl, hstage⟩, fun hother => ?_, fun result' hresult' => ?_⟩
  · rw [howner] at hother
    exact nomatch hother
  · rcases mem_cons.mp hresult' with rfl | hresult'
    · exact hok
    · exact hclean result' hresult'

omit [DecidableEq ι] in
/-- A push makes the thread idle. -/
theorem RemoteFree.Pushes.idle {b : Nat} {canonicalAligned allowCollect : Bool} {result : Except RemoteFreeError Bool}
    (hidle : RemoteIdle i held g) (hb : b ∈ held.blocks) (h : Pushes g b result g') :
    RemoteIdle i (finish { held with blocks := held.blocks \ {b} }
      (.push canonicalAligned b allowCollect) (.pushed result)) g' := by
  obtain ⟨hown, howner, hother, hclean⟩ := hidle
  cases result with
  | error e =>
    obtain ⟨link, rfl⟩ := h
    refine ⟨?_, howner, hother, hclean⟩
    show g.own = insert b (held.blocks \ {b})
    rw [insert_sdiff_singleton, insert_eq_of_mem hb, hown]
  | ok wasOwned =>
    obtain ⟨link, rfl⟩ := h
    refine ⟨congrArg (fun own : Set Nat => own \ {b}) hown, ?_, ?_, hclean⟩
    · cases wasOwned with
      | true =>
        intro hyes
        exact howner ((Bool.or_false held.owner).symm.trans hyes)
      | false => exact fun _ => ⟨.resting, rfl, rfl⟩
    · cases wasOwned with
      | true =>
        intro hno
        exact hother ((Bool.or_false held.owner).symm.trans hno)
      | false =>
        intro hno
        exact nomatch (Bool.or_true held.owner).symm.trans hno

theorem remoteInterface_safe (hreserved : start.capacity ≤ area.reserved) :
    (remoteInterface start.capacity).Safe (fun _ : ι => RemoteDoes area) (fun _ => True)
      (RemoteInv area start) RemoteIdle RemoteBusy (fun _ _ _ _ => True) := by
  rintro i rounds held c g hallowed hidle
  obtain ⟨hown, howner, hother, hclean⟩ := hidle
  cases c with
  | push canonicalAligned block allowCollect =>
    refine ⟨⟨trivial, hclean⟩, busy_and (bind ?_)⟩
    refine (safe_pushSourceBlockMt hreserved rounds canonicalAligned allowCollect
      (hown ▸ hallowed)).mono fun result g' hresult => ?_
    exact fun _ _ => hresult.idle ⟨hown, howner, hother, hclean⟩ hallowed
  | collect =>
    obtain ⟨o, hrole, hstage⟩ := howner hallowed
    refine ⟨⟨trivial, hclean⟩, busy_and (bind ?_)⟩
    have hsafe := safe_collectState (i := i) (g := g) hreserved rounds hstage
    rw [show g.as o = g by rw [RemoteGhost.as, ← hrole]] at hsafe
    refine hsafe.mono fun result g' hresult => ?_
    exact fun _ _ => hresult.idle hown hallowed hclean rfl
  | collectPartly head =>
    obtain ⟨o, hrole, hstage⟩ := howner hallowed
    refine ⟨⟨trivial, hclean⟩, busy_and ?_⟩
    rw [show g = g.as o by rw [RemoteGhost.as, ← hrole]]
    refine (requirePublished hstage).bind fun _ o' ho' => ?_
    obtain ⟨x, rfl⟩ := ho'
    refine bind ((safe_collectPartlyState hreserved rounds rfl rfl).mono
      fun result g' hresult => ?_)
    exact fun _ _ => hresult.idle hown hallowed hclean rfl

/-! ## Runs -/

/-- All threads, and the page. -/
abbrev RemoteSystem (ι : Type) :=
  SystemState ι RemoteMem RemoteOp (Nat × Bool) RemoteHold RemoteCall RemoteResult

/-- A step of one thread. -/
abbrev RemoteStep (ι : Type) [DecidableEq ι] (area : PageArea) (capacity : Nat) :
    RemoteSystem ι → RemoteSystem ι → Prop :=
  (remoteInterface capacity).Step (fun _ => RemoteDoes area) fun _ _ _ _ => True

/-- Nothing has been published, every block in use is allocated to one thread, and the page has an owner or not. -/
structure RemoteStart (area : PageArea) (start : PageStart) (s : RemoteSystem ι) : Prop where
  reserved : start.capacity ≤ area.reserved
  blocks : (start.allocated ++ start.free).Perm (area.blocks start.capacity)
  used : s.memory.page.used = start.allocated.length
  lists : ∃ localFree free, (localFree ++ free).Perm start.free ∧
    Linked (s.memory.next area) 0 s.memory.page.localFree localFree ∧
    Linked (s.memory.next area) 0 s.memory.page.free free
  empty : threadFreeBlockAddress s.memory.head = 0
  history : s.memory.chain = [] ∧ s.memory.detached = [] ∧ s.memory.published = [] ∧ s.memory.moved = []
  idle : ∀ i, (s.threads i).call = none ∧ (s.threads i).holds.collected = []
  allocated : ∀ n, n ∈ start.allocated ↔ ∃ i, n ∈ (s.threads i).holds.blocks
  apart : ∀ i j n, n ∈ (s.threads i).holds.blocks → n ∈ (s.threads j).holds.blocks → i = j
  one : ∀ i j, (s.threads i).holds.owner = true → (s.threads j).holds.owner = true → i = j
  owned : isOwned s.memory.head = true ↔ ∃ i, (s.threads i).holds.owner = true

/-- What a thread has at the start. -/
def RemoteHold.ghost (held : RemoteHold) : RemoteGhost :=
  ⟨held.blocks, none, if held.owner then some .resting else none⟩

theorem RemoteHold.ghost_role : held.ghost.role ≠ none ↔ held.owner = true := by
  rw [ghost]
  cases held.owner with
  | true => exact ⟨fun _ => rfl, fun _ => Option.some_ne_none _⟩
  | false => exact ⟨fun h => absurd rfl h, nofun⟩

theorem RemoteStart.fits {s : RemoteSystem ι} (h : RemoteStart area start s) :
    s.Fits (remoteInterface start.capacity) (fun _ => RemoteDoes area) (fun _ => True) (RemoteInv area start)
      RemoteIdle RemoteBusy (fun _ _ _ _ => True) := by
  obtain ⟨hchain, hdetached, hpublished, hmoved⟩ := h.history
  obtain ⟨localFree, free, hperm, hlocal, hfree⟩ := h.lists
  refine ⟨fun i => (s.threads i).holds.ghost, ⟨fun i j hi hj => ?_, ?_, h.apart, nofun, start.allocated,
    localFree, free, .resting, ?_, h.allocated, fun i o ho => ?_, fun _ => rfl⟩, fun i => ?_⟩
  · exact h.one i j (ghost_role.mp hi) (ghost_role.mp hj)
  · rw [h.owned]
    exact exists_congr fun i => ghost_role.symm
  · refine ⟨?_, ?_, ?_, ?_, ?_, ?_, ⟨hdetached, hlocal, hfree⟩, nofun, nofun, nofun, nofun, nofun⟩
    · rw [hchain, hdetached]
      exact (hperm.append_left start.allocated).trans h.blocks
    · rw [hpublished, append_nil]
    · rw [hchain, hdetached, hpublished, hmoved]
      exact .nil
    · rw [hmoved]
      exact hperm
    · rw [hchain, hdetached]
      exact h.used
    · rw [hchain]
      exact h.empty
  · dsimp only [ghost] at ho
    split at ho
    · exact (Option.some.inj ho).symm
    · exact nomatch ho
  · rw [ThreadState.Fits, (h.idle i).1]
    refine ⟨rfl, fun howner => ⟨.resting, ?_, rfl⟩, fun hother => ?_, fun result hresult => ?_⟩
    · dsimp only [ghost]
      rw [howner, if_pos rfl]
    · dsimp only [ghost]
      rw [hother]
      rfl
    · rw [(h.idle i).2] at hresult
      exact absurd hresult not_mem_nil

/-- **Remote frees.**  In every state that any interleaving reaches, the word names a chain of
    the blocks that are published and not yet taken, each published block is in the chain,
    detached or moved by one collection, the page counts the blocks that are allocated, in the
    chain or detached as used, and no collection has failed.  Between the calls the local lists
    hold exactly the blocks that were moved and those they had at the start. -/
theorem remoteFree_accounted (area : PageArea) (start : PageStart) (s s' : RemoteSystem ι)
    (hstart : RemoteStart area start s) (hrun : ReflTransGen (RemoteStep ι area start.capacity) s s') :
    ∃ allocated : List Nat,
      (allocated ++ s'.memory.published).Perm start.allocated ∧ (allocated ++ s'.memory.published).Nodup ∧
      Linked (s'.memory.next area) 0 (threadFreeBlockAddress s'.memory.head) s'.memory.chain ∧
      (s'.memory.chain ++ (s'.memory.detached ++ s'.memory.moved.flatten)).Perm s'.memory.published ∧
      s'.memory.page.used = allocated.length + s'.memory.chain.length + s'.memory.detached.length ∧
      (∀ i, ∀ result ∈ (s'.threads i).holds.collected, ∃ n, result = .ok n) ∧
      ((∀ i, (s'.threads i).call = none) →
        s'.memory.detached = [] ∧ (∀ n, n ∈ allocated ↔ ∃ i, n ∈ (s'.threads i).holds.blocks) ∧
        ∃ localFree free, Linked (s'.memory.next area) 0 s'.memory.page.localFree localFree ∧
          Linked (s'.memory.next area) 0 s'.memory.page.free free ∧
          (localFree ++ free).Perm (s'.memory.moved.flatten ++ start.free)) := by
  obtain ⟨ghosts, hinv, hfits⟩ := hstart.fits.run (remoteInterface_safe hstart.reserved) hrun
  obtain ⟨allocated, localFree, free, o, hpage, hallocated, hroles, hresting⟩ := hinv.page
  have hnodup : start.allocated.Nodup :=
    (hstart.blocks.nodup_iff.mpr blocks_nodup).of_append_left
  refine ⟨allocated, hpage.accounted, hpage.accounted.nodup_iff.mpr hnodup, hpage.chain, hpage.history, hpage.used,
    fun i => ?_, fun hcalls => ?_⟩
  · have hi := hfits i
    rw [ThreadState.Fits] at hi
    split at hi
    · exact hi.2.2.2
    · exact hi.1.2
  · have hidle (i : ι) : RemoteIdle i (s'.threads i).holds (ghosts i) := by
      have hi := hfits i
      rw [ThreadState.Fits, hcalls i] at hi
      exact hi
    have hstage : o.stage = .idle := by
      by_cases hnone : ∀ i, (ghosts i).role = none
      · rw [hresting hnone]
        rfl
      · obtain ⟨i, hi⟩ := not_forall.mp hnone
        cases howner : (s'.threads i).holds.owner with
        | false => exact absurd ((hidle i).2.2.1 howner) hi
        | true =>
          obtain ⟨o', hrole, hstage⟩ := (hidle i).2.1 howner
          rw [← hroles i o' hrole]
          exact hstage
    have hlists := hpage.stage
    rw [hstage] at hlists
    refine ⟨hlists.1, fun n => ?_, localFree, free, hlists.2.1, hlists.2.2, hpage.lists⟩
    rw [hallocated]
    exact exists_congr fun i => by rw [(hidle i).1]

end

/-- Two blocks that are allocated to one thread; the other one owns the page. -/
def remotePair : RemoteSystem Bool :=
  ⟨⟨⟨fun _ => 0, 2, 0, 0, 2, false⟩, 1, [], [], [], []⟩,
    fun i => ⟨⟨if i then {4096, 4112} else ∅, !i, []⟩, none⟩⟩

theorem remotePair_start : RemoteStart smallArea ⟨[4096, 4112], [], 2⟩ remotePair where
  reserved := by decide
  blocks := by decide
  used := rfl
  lists := ⟨[], [], .nil, rfl, rfl⟩
  empty := rfl
  history := ⟨rfl, rfl, rfl, rfl⟩
  idle := fun _ => ⟨rfl, rfl⟩
  allocated := by
    simp [remotePair]
  apart := by
    rintro (_ | _) (_ | _) n hi hj
    · rfl
    · exact absurd hi (notMem_empty n)
    · exact absurd hj (notMem_empty n)
    · rfl
  one := by decide
  owned := ⟨fun _ => ⟨false, rfl⟩, fun _ => rfl⟩

/-- What the owner of a pair of blocks does when the other thread has published one. -/
def remotePublished : RemoteMem := (remotePair.memory.setNext smallArea 4096 0).setHead 4097

/-- One block is published, and then the owner detaches it. -/
theorem remoteFree_accounted_detached : ∃ s' : RemoteSystem Bool,
    s'.memory.detached = [4096] ∧ ∃ allocated : List Nat, allocated.length = 1 ∧
      (allocated ++ s'.memory.published).Perm [4096, 4112] := by
  have hpush : (code 2 1 (.push true 4096 false)).Trace (RemoteDoes smallArea) remotePair.memory
      (.done (.pushed (.ok true))) remotePublished := by
    have hlink : RemoteDoes smallArea (.storeNext 4096 0) remotePair.memory (0, true) _ := rfl
    exact .act ⟨rfl, rfl⟩ (.act hlink (.act (.inl ⟨rfl, rfl, rfl⟩) .refl))
  have hdetach : ∃ p, (code 2 1 .collect).Trace (RemoteDoes smallArea) remotePublished
      p (remotePublished.setHead 1) := ⟨_, .act ⟨rfl, rfl⟩ (.act (.inl ⟨rfl, rfl, rfl⟩) .refl)⟩
  obtain ⟨p, hdetach⟩ := hdetach
  let call : RemoteCall := .push true 4096 false
  let held : RemoteHold := call.begin ⟨{4096, 4112}, false, []⟩
  let threads := update remotePair.threads true ⟨held, some (call, call.code 2 1)⟩
  let threads' := update threads true ⟨held, some (call, .done (.pushed (.ok true)))⟩
  have hcall : RemoteStep Bool smallArea 2 remotePair ⟨remotePair.memory, threads⟩ :=
    .call true 1 call rfl (mem_insert 4096 {4112})
  have hpublish : ReflTransGen (RemoteStep Bool smallArea 2) ⟨remotePair.memory, threads⟩
      ⟨remotePublished, threads'⟩ := trace (by exact hpush) (update_self true _ _)
  let threads'' := update threads' false ⟨⟨∅, true, []⟩, some (.collect, collect.code 2 1)⟩
  have hcollect : RemoteStep Bool smallArea 2 ⟨remotePublished, threads'⟩ ⟨remotePublished, threads''⟩ :=
    .call false 1 collect rfl rfl
  have htake : ReflTransGen (RemoteStep Bool smallArea 2) ⟨remotePublished, threads''⟩
      ⟨remotePublished.setHead 1, _⟩ :=
    trace (by exact hdetach) (update_self false _ threads')
  obtain ⟨allocated, hperm, -, -, -, hused, -⟩ := remoteFree_accounted smallArea ⟨[4096, 4112], [], 2⟩
    remotePair _ remotePair_start (((ReflTransGen.head hcall hpublish).tail hcollect).trans htake)
  refine ⟨_, rfl, allocated, ?_, hperm⟩
  have htotal : 2 = allocated.length + 0 + 1 := hused
  omega

end Crabc.Mimalloc
