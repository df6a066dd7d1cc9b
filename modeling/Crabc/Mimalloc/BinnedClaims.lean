/-
  Crabc.Mimalloc.BinnedClaims

  Threads that search, claim and give back the slices of a binned bitmap.

  A search that has put bits back owes the chunk map a bit.  If every search that returns
  has paid, the map shows every chunk with a set bit whenever no call is in progress.  Only
  two kinds of return can leave a debt: a search for whole chunks, which repairs the chunks
  it had claimed but not the one that stopped it, and a search for more than one bit that
  succeeds.  A run with three threads shows what a debt costs.
-/

import Crabc.Mimalloc.BinnedMap

namespace Crabc.Mimalloc

open Crabc.Lib BinnedBitmap BinnedRules Relation Function BinnedLoc Set Interface.Step BitVec

/-! ## Calls -/

/-- A call on a bitmap. -/
inductive BinnedCall where
  | setRange (index len : Nat)
  | tryClearWithinChunk (index len : Nat)
  | tryFindAndClaim (threadSequence len : Nat)

inductive BinnedResult where
  | flag (flag : Option Bool)
  | start (start : Option Nat)
deriving DecidableEq

namespace BinnedCall

def code (count rounds : Nat) : BinnedCall → BinnedCode BinnedResult
  | setRange index len => do return .flag (← BinnedBitmap.setRange count rounds index len)
  | tryClearWithinChunk index len => do
    return .flag (← BinnedBitmap.tryClearWithinChunk count rounds index len)
  | tryFindAndClaim threadSequence len => do
    return .start (← BinnedBitmap.tryFindAndClaim count rounds threadSequence len)

/-- A thread only gives back bits that it holds. -/
def Allowed (held : Set Nat) : BinnedCall → Prop
  | setRange index len => Set.Ico index (index + len) ⊆ held
  | _ => True

/-- The bits are no longer held when their return begins; a range outside of the bitmap is refused. -/
def begin (count : Nat) (held : Set Nat) : BinnedCall → Set Nat
  | setRange index len =>
    if validRange count index len then held \ Set.Ico index (index + len) else held
  | _ => held

/-- A claim that succeeds adds its bits. -/
def finish (held : Set Nat) : BinnedCall → BinnedResult → Set Nat
  | tryClearWithinChunk index len, .flag (some true) => held ∪ Set.Ico index (index + len)
  | tryFindAndClaim _ len, .start (some start) => held ∪ Set.Ico start (start + len)
  | _, _ => held

end BinnedCall

open BinnedCall

def binnedInterface (count : Nat) :
    Interface (WordOp BinnedLoc) Word (Set Nat) BinnedCall BinnedResult :=
  ⟨code count, BinnedCall.Allowed, begin count, finish⟩

/-- All threads, and the words of the bitmap. -/
abbrev BinnedSystem (ι : Type) :=
  SystemState ι (BinnedMem ι) (WordOp BinnedLoc) Word (Set Nat) BinnedCall BinnedResult

/-- A search that may owe the chunk map a bit has set it before it returns: of every chunk,
    after it has last set bits there. -/
def Repaired {ι : Type} (i : ι) (c : BinnedCall) (value : BinnedResult) (mem : BinnedMem ι) : Prop :=
  match c, value with
  | .tryFindAndClaim _ len, .start answer => MayOwe len answer → mem.returned i = ∅
  | _, _ => True

/-- A step of one thread; any call may return. -/
abbrev BinnedStep (ι : Type) [DecidableEq ι] (count : Nat) : BinnedSystem ι → BinnedSystem ι → Prop :=
  (binnedInterface count).Step BinnedDoes fun _ _ _ _ => True

/-- A step of one thread that returns repaired. -/
abbrev RepairedStep (ι : Type) [DecidableEq ι] (count : Nat) : BinnedSystem ι → BinnedSystem ι → Prop :=
  (binnedInterface count).Step BinnedDoes Repaired

/-- No call has been made; some bits are held. -/
def BinnedSystem.start {ι : Type} (words : BinnedLoc → Word) (held : ι → Set Nat) : BinnedSystem ι :=
  ⟨⟨words, fun _ => ∅⟩, fun i => ⟨held i, none⟩⟩

/-- The chunk map shows every chunk with a set bit. -/
def Conservative (words : BinnedLoc → Word) : Prop :=
  ∀ n, bitAt data words n = true → bitAt chunkmap words (n / 512) = true

/-! ## Every call is safe -/

section

variable {ι : Type} [DecidableEq ι] {available : Set Nat} {count : Nat}

/-- Between its calls a thread owns what it holds and owes nothing. -/
def MapIdle (_ : ι) (held : Set Nat) (g : Set Nat × MapGhost) : Prop := g = (held, .settled)

omit [DecidableEq ι] in
/-- A search that returns repaired owes nothing. -/
theorem settled_of_mayEnd {i : ι} {threadSequence len : Nat} {answer : Option Nat} {g : Set Nat × MapGhost}
    (hclean : g.2.Clean) (hsettled : ¬MayOwe len answer → g.2 = .settled)
    (hend : MayEnd (MapInv available) Repaired i (.tryFindAndClaim threadSequence len) (.start answer) g) :
    g.2 = .settled := by
  by_cases howe : MayOwe len answer
  · obtain ⟨mem, ghosts, hinv, rfl, hrepaired⟩ := hend
    have hnone : (ghosts i).2.owes = ∅ := (hinv.history i).symm.trans (hrepaired howe)
    exact congr (congrArg MapGhost.mk hnone) hclean
  · exact hsettled howe

theorem binnedInterface_safe (available : Set Nat) (hcount : count ≤ 512) :
    (binnedInterface count).Safe (ι := ι) BinnedDoes (BinnedValid count) (MapInv available) MapIdle
      (fun _ _ _ => True) Repaired := by
  rintro i rounds held c _ hallowed rfl
  have rules := mapRules available hcount i
  refine ⟨trivial, ?_⟩
  cases c with
  | setRange index len =>
    refine Safe.bind ((rules.setRange (sdiff_empty.symm ▸ hallowed)).mono ?_)
    rintro _ _ rfl - -
    change MapIdle i (if validRange count index len then held \ Set.Ico index (index + len) else held) _
    split <;> exact rfl
  | tryClearWithinChunk index len =>
    refine Safe.bind (rules.tryClearWithinChunk.mono ?_)
    rintro (_ | _ | _) g' h - -
    · exact h
    · exact h
    · exact h.2.2
  | tryFindAndClaim threadSequence len =>
    refine Safe.bind (rules.tryFindAndClaim.mono ?_)
    rintro (_ | start) g' ⟨h, hsettled⟩ - hend
    · exact Prod.ext h.1 (settled_of_mayEnd h.2 hsettled hend)
    · obtain ⟨-, -, howned, hclean⟩ := h
      exact Prod.ext howned (settled_of_mayEnd hclean hsettled hend)

end

/-! ## Runs -/

section

variable {ι : Type} [DecidableEq ι]

/-- The answer to an operation of one thread. -/
def binnedAnswer (i : ι) (op : WordOp BinnedLoc) (mem : BinnedMem ι) : Word × BinnedMem ι :=
  (mem.words op.loc, ⟨op.apply mem.words, update mem.returned i (noteReturned op (mem.returned i))⟩)

theorem binnedDoes_answer {i : ι} (op : WordOp BinnedLoc) {mem : BinnedMem ι} :
    BinnedDoes i op mem (binnedAnswer i op mem).1 (binnedAnswer i op mem).2 := ⟨⟨rfl, rfl⟩, rfl⟩

/-- A thread makes a whole call. -/
theorem call_returns {count rounds n : Nat} {ends : ι → BinnedCall → BinnedResult → BinnedMem ι → Prop}
    {i : ι} {call : BinnedCall} {mem : BinnedMem ι} {next : BinnedCode BinnedResult × BinnedMem ι}
    (hnext : next = (call.code count rounds).advance (binnedAnswer i) n mem) {held : Set Nat}
    (hallowed : call.Allowed held) {value : BinnedResult} (hdone : next.1.result = some value)
    (hends : ends i call value next.2)
    {threads : ι → ThreadState (WordOp BinnedLoc) Word (Set Nat) BinnedCall BinnedResult}
    (hidle : threads i = ⟨held, none⟩) :
    ReflTransGen ((binnedInterface count).Step BinnedDoes ends) ⟨mem, threads⟩
      ⟨next.2, update threads i ⟨call.finish (call.begin count held) value, none⟩⟩ :=
  wholeCall binnedDoes_answer n rounds hidle hallowed
    (hnext.symm.trans (Prod.ext (Program.eq_done hdone) rfl)) hends

end

/-- Two chunks with all bits set. -/
def twoChunks : BinnedLoc → Word
  | .data word => if word < 16 then allOnes 64 else 0
  | .chunkmap field => if field = 0 then 3 else 0
  | .bin _ _ => 0
  | .maxAccessed => 1

theorem conservative_twoChunks : Conservative twoChunks := by
  intro n hn
  have hword : n / 64 < 16 := by
    by_contra hout
    rw [bitAt, twoChunks, if_neg hout, ofNat_eq_ofNat, getLsbD_zero] at hn
    cases hn
  obtain hc | hc : n / 512 = 0 ∨ n / 512 = 1 := by omega
  · rw [hc]
    rfl
  · rw [hc]
    rfl

/-- One of two threads claims two bits. -/
def pairClaimed : BinnedCode BinnedResult × BinnedMem Bool :=
  (code 2 9 (.tryFindAndClaim 0 2)).advance (binnedAnswer true) 20 ⟨twoChunks, fun _ => ∅⟩

/-! ## A debt -/

/-- The search of thread 0 for two chunks: it has seen that both are full. -/
def searching : BinnedCode BinnedResult × BinnedMem (Fin 3) :=
  (code 2 4 (.tryFindAndClaim 0 1024)).advance (binnedAnswer 0) 16 ⟨twoChunks, fun _ => ∅⟩

/-- Thread 1 claims all of the first chunk but its first field. -/
def taken : BinnedCode BinnedResult × BinnedMem (Fin 3) :=
  (code 2 9 (.tryClearWithinChunk 64 448)).advance (binnedAnswer 1) 15 searching.2

/-- Thread 0 has cleared that field. -/
def clearing : BinnedCode BinnedResult × BinnedMem (Fin 3) :=
  searching.1.advance (binnedAnswer 0) 2 taken.2

/-- Thread 2 searches for one bit: the first chunk looks empty and leaves the map. -/
def passed : BinnedCode BinnedResult × BinnedMem (Fin 3) :=
  (code 2 9 (.tryFindAndClaim 0 1)).advance (binnedAnswer 2) 40 clearing.2

/-- Thread 0 puts the field back and returns. -/
def givenUp : BinnedCode BinnedResult × BinnedMem (Fin 3) :=
  clearing.1.advance (binnedAnswer 0) 2 passed.2

abbrev BinnedThread := ThreadState (WordOp BinnedLoc) Word (Set Nat) BinnedCall BinnedResult

/-- Three threads. -/
def trio (a b c : BinnedThread) : Fin 3 → BinnedThread
  | 0 => a
  | 1 => b
  | 2 => c

theorem update_trio (a b c t : BinnedThread) :
    update (trio a b c) 0 t = trio t b c ∧ update (trio a b c) 1 t = trio a t c ∧
      update (trio a b c) 2 t = trio a b t := by
  refine ⟨?_, ?_, ?_⟩ <;>
    · funext i
      match i with
      | 0 => rfl
      | 1 => rfl
      | 2 => rfl

/-- A thread that holds nothing and makes no call. -/
def resting : BinnedThread := ⟨∅, none⟩

/-- Thread 0 in its search. -/
def inSearch (p : BinnedCode BinnedResult) : BinnedThread := ⟨∅, some (.tryFindAndClaim 0 1024, p)⟩

section

variable {mem : BinnedMem (Fin 3)}
  {next : BinnedCode BinnedResult × BinnedMem (Fin 3)} {p : BinnedCode BinnedResult}

/-- Thread 0 goes on with its search. -/
theorem search_advances {n : Nat} (hnext : next = p.advance (binnedAnswer 0) n mem) (b c : BinnedThread) :
    ReflTransGen (BinnedStep (Fin 3) 2) ⟨mem, trio (inSearch p) b c⟩
      ⟨next.2, trio (inSearch next.1) b c⟩ := by
  have hcall : trio (inSearch p) b c 0 = ⟨∅, some (.tryFindAndClaim 0 1024, p)⟩ := rfl
  have hrun : ReflTransGen (BinnedStep (Fin 3) 2) ⟨mem, trio (inSearch p) b c⟩ _ :=
    advance binnedDoes_answer n hcall
  rw [(update_trio (inSearch p) b c _).1, ← hnext] at hrun
  exact hrun

/-- Thread 0 returns without a start. -/
theorem search_fails (hdone : p.result = some (.start none)) (b c : BinnedThread) :
    BinnedStep (Fin 3) 2 ⟨mem, trio (inSearch p) b c⟩ ⟨mem, trio resting b c⟩ := by
  obtain rfl := Program.eq_done hdone
  have hcall : trio (inSearch (.done (.start none))) b c 0 =
      ⟨∅, some (.tryFindAndClaim 0 1024, .done (.start none))⟩ := rfl
  have hstep : BinnedStep (Fin 3) 2 ⟨mem, trio (inSearch (.done (.start none))) b c⟩ _ :=
    .finish 0 hcall trivial
  rw [(update_trio _ b c _).1] at hstep
  exact hstep

end

end Crabc.Mimalloc
