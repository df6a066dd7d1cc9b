/-
  Crabc.Mimalloc.RemoteFreeAccess

  What each access to a page keeps, with all threads at work.

  A block that is being freed belongs to its thread until the swap of the word succeeds;
  until then its link is the thread's to write, again and again if the swap fails.  The
  thread that owns the page is the only one that touches what is detached and the fields
  of the page.
-/

import Crabc.Mimalloc.RemoteFreeLinks

namespace Crabc.Mimalloc

open Crabc.Lib PageArea Relation

/-- What a thread has: the blocks that are allocated to it, the link that it has written to
    one of them, and what it knows as the owner of the page. -/
structure RemoteGhost where
  own : Set Nat
  link : Option (Nat × Nat)
  role : Option OwnerGhost

open List Function Option

section

variable {ι : Type} [DecidableEq ι]

/-- The page has one owner at most, who is told by the low bit of the word, and every
    allocated block belongs to one thread. -/
structure RemoteInv (area : PageArea) (start : PageStart) (mem : RemoteMem) (ghosts : ι → RemoteGhost) :
    Prop where
  one : ∀ i j, (ghosts i).role ≠ none → (ghosts j).role ≠ none → i = j
  owned : isOwned mem.head = true ↔ ∃ i, (ghosts i).role ≠ none
  apart : ∀ i j n, n ∈ (ghosts i).own → n ∈ (ghosts j).own → i = j
  links : ∀ i, ∀ p ∈ (ghosts i).link, p.1 ∈ (ghosts i).own ∧ mem.next area p.1 = p.2
  page : ∃ allocated localFree free o, PageFits area start mem allocated localFree free o ∧
    (∀ n, n ∈ allocated ↔ ∃ i, n ∈ (ghosts i).own) ∧ (∀ i, ∀ o' ∈ (ghosts i).role, o' = o) ∧
      ((∀ i, (ghosts i).role = none) → o = .resting)

variable {area : PageArea} {start : PageStart} {mem mem' : RemoteMem} {ghosts : ι → RemoteGhost} {i : ι}
  {g : RemoteGhost} {o : OwnerGhost}

/-- A part of the ghost values that a thread does not change. -/
theorem update_same {β : Type} (f : RemoteGhost → β) {g' : RemoteGhost} (h : f g' = f (ghosts i)) (j : ι) :
    f (update ghosts i g' j) = f (ghosts j) := by
  by_cases hj : j = i
  · subst hj
    rw [update_self, h]
  · rw [update_of_ne hj]

open RemoteGhost

namespace RemoteInv

section

variable (h : RemoteInv area start mem ghosts)
include h

/-- A thread writes the link of a block that is allocated to it. -/
theorem storeOwn (hg : ghosts i = g) {b x : Nat} (hb : b ∈ g.own) (hx : area.LinkTarget x) :
    RemoteInv area start (mem.setNext area b x)
      (update ghosts i { g with link := some (b, x) }) := by
  subst hg
  obtain ⟨allocated, localFree, free, o, hpage, hallocated, hroles, hresting⟩ := h.page
  have hmem := (hallocated b).mpr ⟨i, hb⟩
  have hown (j : ι) : (update ghosts i { ghosts i with link := some (b, x) } j).own =
      (ghosts j).own := update_same own (by rfl) j
  have hrole (j : ι) : (update ghosts i { ghosts i with link := some (b, x) } j).role =
      (ghosts j).role := update_same role (by rfl) j
  refine ⟨fun j k hj hk => ?_, ?_, fun j k n hj hk => ?_, fun j p hp => ?_,
    allocated, localFree, free, o, hpage.relink hmem, fun n => ?_, fun j o1 ho1 => ?_, fun hnone => ?_⟩
  · rw [hrole] at hj hk
    exact h.one j k hj hk
  · rw [show (mem.setNext area b x).head = mem.head from rfl, h.owned]
    exact exists_congr fun j => by rw [hrole]
  · rw [hown] at hj hk
    exact h.apart j k n hj hk
  · rw [hown]
    by_cases hj : j = i
    · subst hj
      rw [update_self] at hp
      cases hp
      exact ⟨hb, next_setNext_self hx⟩
    · rw [update_of_ne hj] at hp
      obtain ⟨hmem', hp'⟩ := h.links j p hp
      refine ⟨hmem', ?_⟩
      rw [next_setNext_of_ne (hpage.isBlock (mem_append_left _ ((hallocated p.1).mpr ⟨j, hmem'⟩)))
        (hpage.isBlock (mem_append_left _ hmem)) fun heq => hj (h.apart j i b (heq ▸ hmem') hb)]
      exact hp'
  · rw [hallocated]
    exact exists_congr fun j => by rw [hown]
  · rw [hrole] at ho1
    exact hroles j o1 ho1
  · exact hresting fun j => hrole j ▸ hnone j

/-- What a thread has after it has published a block: if the page had no owner, it is the owner. -/
def published (g : RemoteGhost) (b : Nat) (wasOwned : Bool) : RemoteGhost :=
  ⟨g.own \ {b}, none, if wasOwned then g.role else some .resting⟩

/-- After a block has been published, the page has an owner. -/
theorem published_role (b : Nat) (hroles : ∀ j, ∀ o' ∈ (ghosts j).role, o' = o)
    (hresting : (∀ j, (ghosts j).role = none) → o = .resting) :
    ∃ k, ∀ j, (update ghosts i (published (ghosts i) b (isOwned mem.head)) j).role =
      if j = k then some o else none := by
  cases hword : isOwned mem.head with
  | true =>
    obtain ⟨k, hk⟩ := h.owned.mp hword
    refine ⟨k, fun j => ?_⟩
    rw [update_same role (by rfl)]
    split
    case isTrue hj =>
      subst hj
      obtain ⟨o', ho'⟩ := ne_none_iff_exists'.mp hk
      rw [ho', hroles j o' ho']
    case isFalse hj =>
      by_contra hsome
      exact hj (h.one j k hsome hk)
  | false =>
    have hnone (j : ι) : (ghosts j).role = none := by
      by_contra hsome
      rw [h.owned.mpr ⟨j, hsome⟩] at hword
      exact nomatch hword
    refine ⟨i, fun j => ?_⟩
    split
    case isTrue hj =>
      subst hj
      rw [update_self, hresting hnone]
      rfl
    case isFalse hj => rw [update_of_ne hj, hnone]

/-- A thread publishes a block. -/
theorem publish (hg : ghosts i = g) {b : Nat} (hlink : g.link = some (b, threadFreeBlockAddress mem.head)) :
    RemoteInv area start (mem.setHead (b + 1))
      (update ghosts i (published g b (isOwned mem.head))) := by
  subst hg
  obtain ⟨allocated, localFree, free, o, hpage, hallocated, hroles, hresting⟩ := h.page
  obtain ⟨hb, hnext⟩ := h.links i (b, _) hlink
  have hmem := (hallocated b).mpr ⟨i, hb⟩
  have hblock := hpage.isBlock (mem_append_left _ hmem)
  have hpage' : PageFits area start (mem.setHead (b + 1)) (allocated.erase b) localFree free o :=
    hpage.publish hmem hnext true
  have hset := setHead_publish mem hblock.even hblock.ne_zero true
  rw [if_pos rfl] at hset
  have hhead : isOwned (mem.setHead (b + 1)).head = true := by
    rw [hset]
    exact (block_word hblock.even true).2
  have hnext' (a : Nat) : (mem.setHead (b + 1)).next area a = mem.next area a := by
    rw [hset]
    rfl
  have hself : update ghosts i (published (ghosts i) b (isOwned mem.head)) i =
      published (ghosts i) b (isOwned mem.head) := update_self i _ ghosts
  have hother {j : ι} (hj : j ≠ i) :
      update ghosts i (published (ghosts i) b (isOwned mem.head)) j = ghosts j :=
    update_of_ne hj _ ghosts
  have hown (j : ι) (n : Nat) :
      n ∈ (update ghosts i (published (ghosts i) b (isOwned mem.head)) j).own ↔ n ∈ (ghosts j).own ∧ n ≠ b := by
    by_cases hj : j = i
    · subst hj
      rw [hself]
      exact Iff.rfl
    · rw [hother hj]
      exact ⟨fun hn => ⟨hn, fun heq => hj (h.apart j i b (heq ▸ hn) hb)⟩, And.left⟩
  obtain ⟨k, hk⟩ := published_role (i := i) h b hroles hresting
  have howner {j : ι} (hj : (update ghosts i (published (ghosts i) b (isOwned mem.head)) j).role ≠ none) : j = k := by
    by_contra hne
    exact hj (by rw [hk, if_neg hne])
  refine ⟨fun j j' hj hj' => (howner hj).trans (howner hj').symm, ?_, fun j j' n hj hj' => ?_,
    fun j p hp => ?_, allocated.erase b, localFree, free, o, hpage', fun n => ?_, fun j o' ho' => ?_,
    fun hnone => ?_⟩
  · rw [hhead]
    refine ⟨fun _ => ⟨k, ?_⟩, fun _ => rfl⟩
    rw [hk, if_pos rfl]
    exact some_ne_none o
  · exact h.apart j j' n ((hown j n).mp hj).1 ((hown j' n).mp hj').1
  · by_cases hj : j = i
    · subst hj
      rw [hself] at hp
      exact nomatch hp
    · rw [hother hj] at hp ⊢
      rw [hnext']
      exact h.links j p hp
  · rw [(hpage.nodup.of_append_left).mem_erase_iff, hallocated]
    constructor
    · rintro ⟨hne, j, hj⟩
      exact ⟨j, (hown j n).mpr ⟨hj, hne⟩⟩
    · rintro ⟨j, hj⟩
      exact ⟨((hown j n).mp hj).2, j, ((hown j n).mp hj).1⟩
  · rw [hk] at ho'
    split at ho'
    case isTrue => exact (some.inj ho').symm
    case isFalse => exact nomatch ho'
  · have hsome := hnone k
    rw [hk, if_pos rfl] at hsome
    exact nomatch hsome

end

end RemoteInv

/-! ## What the owner may do -/

/-- An access by the owner, who knows `o` and afterwards something that satisfies `P`.  The
    page still has its owner, and the allocated blocks are as they were. -/
def OwnerMay (area : PageArea) (start : PageStart) (op : RemoteOp) (o : OwnerGhost)
    (P : Nat × Bool → OwnerGhost → Prop) : Prop :=
  ∀ mem allocated localFree free, PageFits area start mem allocated localFree free o →
    isOwned mem.head = true → ∀ reply mem', RemoteDoes area op mem reply mem' →
      ∃ o' localFree' free', PageFits area start mem' allocated localFree' free' o' ∧
        (∀ a ∈ allocated, mem'.next area a = mem.next area a) ∧ isOwned mem'.head = true ∧ P reply o'

/-- What the owner may do keeps the invariant. -/
theorem RemoteInv.ownerStep (h : RemoteInv area start mem ghosts) (hg : ghosts i = g) (hrole : g.role = some o)
    {op : RemoteOp} {P : Nat × Bool → OwnerGhost → Prop} (hmay : OwnerMay area start op o P)
    {reply : Nat × Bool} (hdoes : RemoteDoes area op mem reply mem') :
    ∃ o', RemoteInv area start mem' (update ghosts i { g with role := some o' }) ∧ P reply o' := by
  subst hg
  have hi : (ghosts i).role ≠ none := by
    rw [hrole]
    exact some_ne_none o
  obtain ⟨allocated, localFree, free, o1, hpage, hallocated, hroles, -⟩ := h.page
  obtain rfl := hroles i o hrole
  have howned := h.owned.mpr ⟨i, hi⟩
  obtain ⟨o', localFree', free', hpage', hnext, howned', hpost⟩ :=
    hmay mem allocated localFree free hpage howned reply mem' hdoes
  have hsome (j : ι) : (update ghosts i { ghosts i with role := some o' } j).role ≠ none ↔ (ghosts j).role ≠ none := by
    have hsame := update_same (fun g => g.role.isSome)
      (show _ = (ghosts i).role.isSome by rw [hrole]; rfl : (⟨(ghosts i).own, (ghosts i).link,
        some o'⟩ : RemoteGhost).role.isSome = (ghosts i).role.isSome) j
    rw [← isSome_iff_ne_none, ← isSome_iff_ne_none, ← hsame]
  have hown (j : ι) : (update ghosts i { ghosts i with role := some o' } j).own = (ghosts j).own :=
    update_same own (by rfl) j
  have hlink (j : ι) : (update ghosts i { ghosts i with role := some o' } j).link =
      (ghosts j).link := update_same link (by rfl) j
  refine ⟨o', ⟨fun j k hj hk => ?_, ?_, fun j k n hj hk => ?_, fun j p hp => ?_,
    allocated, localFree', free', o', hpage', fun n => ?_, fun j o1 ho1 => ?_, fun hnone => ?_⟩, hpost⟩
  · exact h.one j k ((hsome j).mp hj) ((hsome k).mp hk)
  · exact ⟨fun _ => ⟨i, (hsome i).mpr hi⟩, fun _ => howned'⟩
  · rw [hown] at hj hk
    exact h.apart j k n hj hk
  · rw [hlink] at hp
    obtain ⟨hmem, hp'⟩ := h.links j p hp
    rw [hown, hnext p.1 ((hallocated p.1).mpr ⟨j, hmem⟩)]
    exact ⟨hmem, hp'⟩
  · rw [hallocated]
    exact exists_congr fun j => by rw [hown]
  · obtain rfl : j = i := h.one j i ((hsome j).mp fun hnone => nomatch (hnone ▸ ho1)) hi
    rw [update_self] at ho1
    exact (some.inj ho1).symm
  · exact absurd (hnone i) ((hsome i).mpr hi)

namespace OwnerMay

variable {b x : Nat} {d : List Nat}

theorem loadHead : OwnerMay area start .loadHead o fun reply o' =>
    o' = o ∧ isOwned reply.1 = true ∧ ∀ b ∈ o.last, threadFreeBlockAddress reply.1 = b := by
  rintro _ _ localFree free h howned reply _ ⟨rfl, rfl⟩
  refine ⟨o, localFree, free, h, fun _ _ => rfl, howned, rfl, howned, fun b hb => ?_⟩
  have hchain := h.chain
  rw [(h.last b hb).2] at hchain
  exact hchain.1

/-- The chain is taken as a whole, or the word is read again. -/
theorem detach (hstage : o.stage = .idle) (hx : threadFreeBlockAddress x ≠ 0) :
    OwnerMay area start (.casHead x 1) o fun reply o' =>
      (reply.2 = true ∧ ∃ d, d.headD 0 = threadFreeBlockAddress x ∧ d ≠ [] ∧ d.length ≤ start.capacity ∧
        o' = { OwnerGhost.resting with stage := .walking d }) ∨
      (reply.2 = false ∧ isOwned reply.1 = true ∧ o' = o) := by
  rintro mem _ localFree free h howned reply _ (⟨rfl, rfl, rfl⟩ | ⟨rfl, rfl⟩)
  · have hdetach := h.detach hstage
    have hle := hdetach.length_le.1
    obtain ⟨rest, hchain, -⟩ := h.chain.of_ne hx
    refine ⟨_, localFree, free, hdetach, fun _ _ => rfl, rfl, .inl ⟨rfl, mem.chain, ?_, ?_, hle, rfl⟩⟩
    · rw [hchain]
      rfl
    · rw [hchain]
      exact cons_ne_nil _ _
  · exact ⟨o, localFree, free, h, fun _ _ => rfl, howned, .inr ⟨rfl, howned, rfl⟩⟩

/-- The caller answers for its block. -/
theorem requirePublished (hstage : o.stage = .idle) : OwnerMay area start (.requirePublished b) o fun _ o' =>
    ∃ x, o' = { OwnerGhost.resting with kept := some (b, x) } := by
  rintro _ _ localFree free h howned _ mem' ⟨rfl, nodes, hnodes, hb⟩
  obtain rfl := hnodes.unique h.chain
  refine ⟨{ OwnerGhost.resting with kept := some (b, mem'.next area b) }, localFree, free, ?_, fun _ _ => rfl, howned, _, rfl⟩
  refine h.learn hstage.symm ?_ nofun nofun nofun nofun
  rintro p hp
  cases hp
  exact ⟨hb, rfl⟩

theorem loadNext_kept (hkept : o.kept = some (b, x)) :
    OwnerMay area start (.loadNext b) o fun reply o' => o' = o ∧ reply.1 = x := by
  rintro _ _ localFree free h howned reply _ ⟨rfl, rfl⟩
  exact ⟨o, localFree, free, h, fun _ _ => rfl, howned, rfl, (h.kept _ hkept).2⟩

/-- A link of a detached chain. -/
theorem loadNext_walking {before after : List Nat} (hstage : o.stage = .walking (before ++ b :: after)) :
    OwnerMay area start (.loadNext b) o fun reply o' =>
      o' = o ∧ reply.1 = after.headD 0 ∧ (reply.1 = 0 → after = []) := by
  rintro _ _ localFree free h howned reply mem' ⟨rfl, rfl⟩
  have hwalking := h.stage
  rw [hstage] at hwalking
  obtain ⟨-, -, hrest⟩ := hwalking.2.1.suffix
  refine ⟨o, localFree, free, h, fun _ _ => rfl, howned, rfl, ?_, fun hzero => ?_⟩
  · cases after with
    | nil => exact hrest
    | cons node after => exact hrest.1
  · rw [show mem'.next area b = 0 from hzero] at hrest
    exact hrest.eq_nil

/-- What is behind a block of the chain is taken. -/
theorem cut (hstage : o.stage = .idle) (hkept : o.kept = some (b, x)) (hx : x ≠ 0) :
    OwnerMay area start (.storeNext b 0) o fun _ o' =>
      ∃ d, d.headD 0 = x ∧ d ≠ [] ∧ d.length ≤ start.capacity ∧
        o' = { OwnerGhost.resting with stage := .walking d, kept := some (b, 0) } := by
  rintro _ _ localFree free h howned _ _ rfl
  obtain ⟨d, hd, hcut⟩ := h.cut hstage hkept hx
  have hblock := h.isBlock_chain (h.kept _ hkept).1
  have hle := hcut.length_le.1
  rw [hcut.stage.1] at hle
  refine ⟨_, localFree, free, hcut, fun a ha => ?_, howned, d, hd, ?_, hle, rfl⟩
  · refine next_setNext_of_ne (h.isBlock (mem_append_left _ ha)) hblock fun heq => ?_
    exact h.apart_allocated ha (mem_append_left _ (heq ▸ (h.kept _ hkept).1))
  · rintro rfl
    exact hx hd.symm

/-- The number in use counts what is detached. -/
theorem loadUsed : OwnerMay area start .loadUsed o fun reply o' =>
    o' = { o with used := some reply.1 } ∧ ∀ d, o.stage = .walking d → d.length ≤ reply.1 := by
  rintro _ _ localFree free h howned reply _ ⟨rfl, rfl⟩
  refine ⟨_, localFree, free, ?_, fun _ _ => rfl, howned, rfl, fun d hd => ?_⟩
  · exact h.learn rfl h.kept (by rintro u ⟨⟩; rfl) h.localRead h.freeRead h.last
  · have hwalking := h.stage
    rw [hd] at hwalking
    have hle := h.length_le.2
    rw [hwalking.1] at hle
    exact hle

/-- If one block is in use, it is the one that the owner knows to be in the chain. -/
theorem loadUsed_last (hkept : o.kept = some (b, x)) : OwnerMay area start .loadUsed o fun reply o' =>
      o' = if reply.1 = 1 then { o with last := some b } else o := by
  rintro _ _ localFree free h howned reply _ ⟨rfl, rfl⟩
  refine ⟨_, localFree, free, ?_, fun _ _ => rfl, howned, rfl⟩
  dsimp only
  split
  case isFalse => exact h
  case isTrue hone =>
    refine h.learn rfl h.kept h.usedRead h.localRead h.freeRead ?_
    rintro _ ⟨⟩
    have hmem := (h.kept _ hkept).1
    obtain ⟨before, after, hchain⟩ := append_of_mem hmem
    have hused := h.used
    rw [hone, hchain, length_append, length_cons] at hused
    have hbefore : before = [] := eq_nil_of_length_eq_zero (by omega)
    have hafter : after = [] := eq_nil_of_length_eq_zero (by omega)
    refine ⟨eq_nil_of_length_eq_zero (by omega), ?_⟩
    rw [hchain, hbefore, hafter]
    rfl

theorem loadLocalFree : OwnerMay area start .loadLocalFree o fun reply o' =>
    o' = { o with localFree := some reply.1 } := by
  rintro _ _ localFree free h howned reply _ ⟨rfl, rfl⟩
  refine ⟨_, localFree, free, ?_, fun _ _ => rfl, howned, rfl⟩
  exact h.learn rfl h.kept h.usedRead (by rintro u ⟨⟩; rfl) h.freeRead h.last

theorem loadFree : OwnerMay area start .loadFree o fun reply o' =>
    o' = { o with free := some reply.1 } := by
  rintro _ _ localFree free h howned reply _ ⟨rfl, rfl⟩
  refine ⟨_, localFree, free, ?_, fun _ _ => rfl, howned, rfl⟩
  exact h.learn rfl h.kept h.usedRead h.localRead (by rintro u ⟨⟩; rfl) h.last

/-- The last detached block is linked to the local list. -/
theorem join (hle : start.capacity ≤ area.reserved) (hstage : o.stage = .walking (d ++ [b]))
    (hlocal : o.localFree = some x) : OwnerMay area start (.storeNext b x) o fun _ o' =>
      o' = { OwnerGhost.resting with stage := .joined (d ++ [b]), kept := o.kept } := by
  rintro mem _ localFree free h howned _ _ rfl
  have hwalking := h.stage
  rw [hstage] at hwalking
  have hmem : b ∈ mem.detached := hwalking.1 ▸ mem_append_right _ mem_cons_self
  refine ⟨_, localFree, free, h.join hle hstage hlocal, fun a ha => ?_, howned, rfl⟩
  refine next_setNext_of_ne (h.isBlock (mem_append_left _ ha)) (h.isBlock_detached hmem) fun heq => ?_
  exact h.apart_allocated ha (mem_append_right _ (mem_append_left _ (heq ▸ hmem)))

theorem hang (hstage : o.stage = .joined d) : OwnerMay area start (.storeLocalFree (d.headD 0)) o fun _ o' =>
      o' = { OwnerGhost.resting with stage := .hung d, kept := o.kept } := by
  rintro _ _ localFree free h howned _ _ rfl
  exact ⟨_, localFree, free, h.hang hstage, fun _ _ => rfl, howned, rfl⟩

theorem countOut (hstage : o.stage = .hung d) (hused : o.used = some x) :
    OwnerMay area start (.storeUsed (x - d.length)) o fun _ o' =>
      o' = { OwnerGhost.resting with kept := o.kept } := by
  rintro _ _ localFree free h howned _ _ rfl
  exact ⟨_, d ++ localFree, free, h.countOut hstage hused, fun _ _ => rfl, howned, rfl⟩

theorem startMove (hstage : o.stage = .idle) (hlocal : o.localFree = some x) (hfree : o.free = some 0) :
    OwnerMay area start (.storeFree x) o fun _ o' =>
      o' = { OwnerGhost.resting with stage := .moving, kept := o.kept } := by
  rintro _ _ localFree free h howned _ _ rfl
  exact ⟨_, localFree, free, h.startMove hstage hlocal hfree, fun _ _ => rfl, howned, rfl⟩

theorem endMove (hstage : o.stage = .moving) : OwnerMay area start (.storeLocalFree 0) o fun _ o' =>
      o' = { OwnerGhost.resting with kept := o.kept } := by
  rintro _ _ localFree free h howned _ _ rfl
  exact ⟨_, [], localFree, h.endMove hstage, fun _ _ => rfl, howned, rfl⟩

theorem storeFreeIsZero {value : Bool} : OwnerMay area start (.storeFreeIsZero value) o fun _ o' => o' = o := by
  rintro _ _ localFree free h howned _ _ rfl
  exact ⟨o, localFree, free, ⟨h.blocks, h.accounted, h.history, h.lists, h.used, h.chain,
    h.stage.congr rfl rfl rfl fun _ _ => rfl, h.kept, h.usedRead, h.localRead, h.freeRead, h.last⟩,
    fun _ _ => rfl, howned, rfl⟩

end OwnerMay

end

end Crabc.Mimalloc
