/-
  Crabc.Libc.Qsort

  `qsort` of `libc/src/c_abi/x86_64/qsort.rs`: smoothsort over the bytes of an array
  of records.

  Pointers into the array are byte offsets from its base.  Access out of the array,
  out of the 256 byte buffer or out of a work array, and a read of a work slot that
  was not written, are `none`, and so is a loop that uses up its number of rounds.
  The comparison callback is a function of the two records it is given.
-/

import Mathlib

namespace Crabc.Libc

/-! ## Memory -/

/-- A pointer into the array, or into the buffer of `qsort_cycle`. -/
inductive Ptr where
  | record (offset : Nat)
  | temporary (offset : Nat)
deriving DecidableEq, Repr

/-- `add` on a pointer. -/
def Ptr.add : Ptr → Nat → Ptr
  | record offset, n => record (offset + n)
  | temporary offset, n => temporary (offset + n)

structure Memory where
  records : List UInt8
  temporary : List UInt8
deriving DecidableEq, Repr

def Memory.read (mem : Memory) : Ptr → Option UInt8
  | .record offset => mem.records[offset]?
  | .temporary offset => mem.temporary[offset]?

def Memory.write (mem : Memory) (byte : UInt8) : Ptr → Option Memory
  | .record offset =>
    if offset < mem.records.length then some { mem with records := mem.records.set offset byte }
    else none
  | .temporary offset =>
    if offset < mem.temporary.length then
      some { mem with temporary := mem.temporary.set offset byte }
    else none

/-- `qsort_copy_nonoverlapping`: the bytes that remain, from `index` on. -/
def qsortCopyNonoverlapping (source destination : Ptr) : Nat → Nat → Memory → Option Memory
  | 0, _, mem => some mem
  | remaining + 1, index, mem => do
    let byte ← mem.read (source.add index)
    let mem ← mem.write byte (destination.add index)
    qsortCopyNonoverlapping source destination remaining (index + 1) mem

/-! ## Work arrays -/

def arLen : Nat := 14 * 8 + 1

def lpLen : Nat := 12 * 8

/-- `qsort_word`; the index is an `i32` cast to `usize`. -/
def qsortWord (words : List Nat) (index : Int) : Option Nat :=
  if 0 ≤ index then words[index.toNat]? else none

/-- The path of `qsort_sift` and `qsort_trinkle`; a slot that was not written is `none`. -/
abbrev Entries := Nat → Option Ptr

/-- `qsort_record_pointer`. -/
def qsortRecordPointer (entries : Entries) (index : Nat) : Option Ptr := entries index

/-- `set_qsort_record_pointer`. -/
def setQsortRecordPointer (entries : Entries) (index : Nat) (value : Ptr) : Option Entries :=
  if index < arLen then some (Function.update entries index (some value)) else none

/-! ## The two words of the bitmap -/

structure QsortP where
  first : BitVec 64
  second : BitVec 64
deriving DecidableEq, Repr

def trailingZeros (word : BitVec 64) : Nat := ((List.range 64).find? word.getLsbD).getD 64

/-- `qsort_pntz`. -/
def qsortPntz (p : QsortP) : Nat :=
  if p.first ≠ 1 then trailingZeros (p.first - 1)
  else if p.second ≠ 0 then 64 + trailingZeros p.second
  else 0

/-- A shift count masked to the word, as the wrapping shifts have it. -/
def maskShift (n : Int) : Nat := (n % 64).toNat

/-- The part of `qsort_shl` below the word width. -/
def shlWithin (p : QsortP) (n : Int) : QsortP :=
  { second := p.second <<< maskShift n ||| p.first >>> maskShift (64 - n)
    first := p.first <<< maskShift n }

/-- `qsort_shl`. -/
def qsortShl (p : QsortP) (n : Int) : QsortP :=
  if n ≥ 64 then
    let p : QsortP := { second := p.first, first := 0 }
    if n - 64 = 0 then p else shlWithin p (n - 64)
  else shlWithin p n

/-- The part of `qsort_shr` below the word width. -/
def shrWithin (p : QsortP) (n : Int) : QsortP :=
  { first := p.first >>> maskShift n ||| p.second <<< maskShift (64 - n)
    second := p.second >>> maskShift n }

/-- `qsort_shr`. -/
def qsortShr (p : QsortP) (n : Int) : QsortP :=
  if n ≥ 64 then
    let p : QsortP := { first := p.second, second := 0 }
    if n - 64 = 0 then p else shrWithin p (n - 64)
  else shrWithin p n

/-! ## Rotating records -/

/-- The inner loop of `qsort_cycle`: a chunk of each record moves to the one before
    it on the path, and the record's pointer moves on. -/
def cycleRound (chunk n : Nat) : Nat → Nat → Entries → Memory → Option (Entries × Memory)
  | 0, _, entries, mem => some (entries, mem)
  | remaining + 1, index, entries, mem => do
    let next ← qsortRecordPointer entries (index + 1)
    let current ← qsortRecordPointer entries index
    let mem ← qsortCopyNonoverlapping next current chunk 0 mem
    let entries ← setQsortRecordPointer entries index (current.add chunk)
    cycleRound chunk n remaining (index + 1) entries mem

/-- The outer loop of `qsort_cycle`. -/
def cycleLoop (n : Nat) : Nat → Nat → Entries → Memory → Option Memory
  | 0, _, _, _ => none
  | rounds + 1, remaining, entries, mem =>
    if remaining > 0 then do
      let chunk := if remaining < 256 then remaining else 256
      let first ← qsortRecordPointer entries 0
      let temporary ← qsortRecordPointer entries n
      let mem ← qsortCopyNonoverlapping first temporary chunk 0 mem
      let (entries, mem) ← cycleRound chunk n n 0 entries mem
      cycleLoop n rounds (remaining - chunk) entries mem
    else some mem

/-- `qsort_cycle`. -/
def qsortCycle (width : Nat) (entries : Entries) (n : Nat) (bytes : List UInt8) :
    Option (List UInt8) :=
  if n < 2 then some bytes
  else do
    let entries ← setQsortRecordPointer entries n (.temporary 0)
    let mem ← cycleLoop n (width + 1) width entries ⟨bytes, List.replicate 256 0⟩
    some mem.records

/-! ## Sift and trinkle -/

abbrev QsortCmp := List UInt8 → List UInt8 → Int

/-- The record at a pointer, as the callback reads it. -/
def recordAt (width : Nat) (bytes : List UInt8) : Ptr → Option (List UInt8)
  | .record offset =>
    if offset + width ≤ bytes.length then some ((bytes.drop offset).take width) else none
  | .temporary _ => none

/-- A call of the comparison callback. -/
def callCmp (width : Nat) (cmp : QsortCmp) (bytes : List UInt8) (left right : Ptr) : Option Int := do
  let x ← recordAt width bytes left
  let y ← recordAt width bytes right
  some (cmp x y)

/-- `sub` on a pointer into the array. -/
def subOffset (head n : Nat) : Option Nat := if n ≤ head then some (head - n) else none

/-- The left and the right child of a root. -/
def children (width : Nat) (lp : List Nat) (head : Nat) (pshift : Int) : Option (Nat × Nat) := do
  let right ← subOffset head width
  let word ← qsortWord lp (pshift - 2)
  let left ← subOffset head ((width + word) % 2 ^ 64)
  some (left, right)

/-- The local variables of the loops of `qsort_sift` and `qsort_trinkle`. -/
structure Walk where
  entries : Entries
  count : Nat
  head : Nat
  pshift : Int

/-- Push a pointer on the path and go there. -/
def Walk.push (walk : Walk) (head : Nat) (pshift : Int) : Option Walk := do
  let entries ← setQsortRecordPointer walk.entries walk.count (.record head)
  some { entries, count := walk.count + 1, head, pshift }

/-- A path that starts at `head`. -/
def Walk.start (head : Nat) (pshift : Int) : Option Walk := do
  let entries ← setQsortRecordPointer (fun _ => none) 0 (.record head)
  some { entries, count := 1, head, pshift }

/-- The loop of `qsort_sift`. -/
def siftLoop (width : Nat) (cmp : QsortCmp) (lp : List Nat) (bytes : List UInt8) :
    Nat → Walk → Option Walk
  | 0, _ => none
  | rounds + 1, walk =>
    if walk.pshift > 1 then do
      let (left, right) ← children width lp walk.head walk.pshift
      let root ← qsortRecordPointer walk.entries 0
      let rootLeft ← callCmp width cmp bytes root (.record left)
      let rootRight ← callCmp width cmp bytes root (.record right)
      if rootLeft ≥ 0 ∧ rootRight ≥ 0 then some walk
      else
        let leftRight ← callCmp width cmp bytes (.record left) (.record right)
        if leftRight ≥ 0 then
          let walk ← walk.push left (walk.pshift - 1)
          siftLoop width cmp lp bytes rounds walk
        else
          let walk ← walk.push right (walk.pshift - 2)
          siftLoop width cmp lp bytes rounds walk
    else some walk

/-- `qsort_sift`. -/
def qsortSift (width : Nat) (cmp : QsortCmp) (lp : List Nat) (head : Nat) (pshift : Int)
    (bytes : List UInt8) : Option (List UInt8) := do
  let walk ← Walk.start head pshift
  let walk ← siftLoop width cmp lp bytes (pshift.toNat + 1) walk
  qsortCycle width walk.entries walk.count bytes

/-- The condition on which `qsort_trinkle` leaves its loop although there are trees on the left. -/
def trinkleBreaks (width : Nat) (cmp : QsortCmp) (lp : List Nat) (bytes : List UInt8) (trusty : Bool)
    (stepson : Nat) (walk : Walk) : Option Bool := do
  let root ← qsortRecordPointer walk.entries 0
  let stepsonRoot ← callCmp width cmp bytes (.record stepson) root
  if stepsonRoot ≤ 0 then some true
  else if trusty = false ∧ walk.pshift > 1 then
    let (left, right) ← children width lp walk.head walk.pshift
    let rightStepson ← callCmp width cmp bytes (.record right) (.record stepson)
    let leftStepson ← callCmp width cmp bytes (.record left) (.record stepson)
    some (decide (rightStepson ≥ 0 ∨ leftStepson ≥ 0))
  else some false

/-- The loop of `qsort_trinkle`; it leaves the path and `trusty`. -/
def trinkleLoop (width : Nat) (cmp : QsortCmp) (lp : List Nat) (bytes : List UInt8) :
    Nat → QsortP → Bool → Walk → Option (Bool × Walk)
  | 0, _, _, _ => none
  | rounds + 1, p, trusty, walk =>
    if p.first ≠ 1 ∨ p.second ≠ 0 then do
      let word ← qsortWord lp walk.pshift
      let stepson ← subOffset walk.head word
      let breaks ← trinkleBreaks width cmp lp bytes trusty stepson walk
      if breaks then some (trusty, walk)
      else
        let trail := qsortPntz p
        let walk ← walk.push stepson (walk.pshift + trail)
        trinkleLoop width cmp lp bytes rounds (qsortShr p trail) false walk
    else some (trusty, walk)

/-- `qsort_trinkle`. A tree passed takes a bit of `p`, so that there are no more rounds than bits. -/
def qsortTrinkle (width : Nat) (cmp : QsortCmp) (lp : List Nat) (head : Nat) (p : QsortP)
    (pshift : Int) (trusty : Bool) (bytes : List UInt8) : Option (List UInt8) := do
  let walk ← Walk.start head pshift
  let (trusty, walk) ← trinkleLoop width cmp lp bytes 129 p trusty walk
  if trusty then some bytes
  else
    let bytes ← qsortCycle width walk.entries walk.count bytes
    qsortSift width cmp lp walk.head walk.pshift bytes

/-! ## Sorting -/

/-- `checked_add`. -/
def checkedAdd (a b : Nat) : Option Nat := if a + b < 2 ^ 64 then some (a + b) else none

/-- `checked_mul`. -/
def checkedMul (a b : Nat) : Option Nat := if a * b < 2 ^ 64 then some (a * b) else none

/-- The loop that fills `lp`, with `LP_LEN - li` slots to go. -/
def fillLp (width size : Nat) : Nat → List Nat → Option (List Nat)
  | 0, lp => some lp
  | slots + 1, lp => do
    let li := lpLen - (slots + 1)
    let before ← qsortWord lp (li - 2)
    let last ← qsortWord lp (li - 1)
    match (checkedAdd before last).bind (checkedAdd · width) with
    | none => some lp
    | some next =>
      let lp := lp.set li next
      if next ≥ size then some lp else fillLp width size slots lp

/-- The local variables of `qsort_with_context`, with the array. -/
structure Sorting where
  bytes : List UInt8
  p : QsortP
  pshift : Int
  head : Nat

/-- The last root before a new tree is put behind it: `qsort_trinkle` if its tree will
    not be joined any more, else `qsort_sift`. -/
def growLast (width : Nat) (cmp : QsortCmp) (lp : List Nat) (high : Nat) (s : Sorting) :
    Option (List UInt8) := do
  let word ← qsortWord lp (s.pshift - 1)
  if word ≥ high - s.head then qsortTrinkle width cmp lp s.head s.p s.pshift false s.bytes
  else qsortSift width cmp lp s.head s.pshift s.bytes

/-- The end of the body of the first loop: `p.first |= 1`, and `head` moves on. -/
def Sorting.next (s : Sorting) (width : Nat) (bytes : List UInt8) (p : QsortP) (pshift : Int) :
    Sorting :=
  { bytes, p := { p with first := p.first ||| 1 }, pshift, head := s.head + width }

/-- The body of the loop that grows the row of heaps over the array. -/
def growStep (width : Nat) (cmp : QsortCmp) (lp : List Nat) (high : Nat) (s : Sorting) :
    Option Sorting :=
  if s.p.first &&& 3 = 3 then do
    let bytes ← qsortSift width cmp lp s.head s.pshift s.bytes
    some (s.next width bytes (qsortShr s.p 2) (s.pshift + 2))
  else do
    let bytes ← growLast width cmp lp high s
    if s.pshift = 1 then some (s.next width bytes (qsortShl s.p 1) 0)
    else some (s.next width bytes (qsortShl s.p (s.pshift - 1)) 1)

def growLoop (width : Nat) (cmp : QsortCmp) (lp : List Nat) (high : Nat) :
    Nat → Sorting → Option Sorting
  | 0, _ => none
  | rounds + 1, s =>
    if s.head < high then do
      let s ← growStep width cmp lp high s
      growLoop width cmp lp high rounds s
    else some s

/-- The body of the loop that takes the heaps apart from the right. -/
def shrinkStep (width : Nat) (cmp : QsortCmp) (lp : List Nat) (s : Sorting) : Option Sorting := do
  let head ← subOffset s.head width
  if s.pshift ≤ 1 then
    let trail := qsortPntz s.p
    some { s with p := qsortShr s.p trail, pshift := s.pshift + trail, head }
  else
    let p := qsortShl s.p 2
    let pshift := s.pshift - 2
    let p := qsortShr { p with first := p.first ^^^ 7 } 1
    let word ← qsortWord lp pshift
    let left ← subOffset s.head ((word + width) % 2 ^ 64)
    let bytes ← qsortTrinkle width cmp lp left p (pshift + 1) true s.bytes
    let p := qsortShl p 1
    let p := { p with first := p.first ||| 1 }
    let bytes ← qsortTrinkle width cmp lp head p pshift true bytes
    some { bytes, p, pshift, head }

def shrinkLoop (width : Nat) (cmp : QsortCmp) (lp : List Nat) : Nat → Sorting → Option Sorting
  | 0, _ => none
  | rounds + 1, s =>
    if s.pshift ≠ 1 ∨ s.p.first ≠ 1 ∨ s.p.second ≠ 0 then do
      let s ← shrinkStep width cmp lp s
      shrinkLoop width cmp lp rounds s
    else some s

/-- `qsort_with_context`. -/
def qsortWithContext (nel width : Nat) (cmp : QsortCmp) (bytes : List UInt8) :
    Option (List UInt8) :=
  match checkedMul width nel with
  | none => some bytes
  | some size =>
    if size = 0 then some bytes
    else do
      let lp := ((List.replicate lpLen 0).set 0 width).set 1 width
      let lp ← fillLp width size (lpLen - 2) lp
      let high := size - width
      let s ← growLoop width cmp lp high nel ⟨bytes, ⟨1, 0⟩, 1, 0⟩
      let bytes ← qsortTrinkle width cmp lp s.head s.p s.pshift false s.bytes
      let s ← shrinkLoop width cmp lp nel { s with bytes }
      some s.bytes

end Crabc.Libc
