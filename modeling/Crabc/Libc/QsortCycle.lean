/-
  Crabc.Libc.QsortCycle

  What `qsort_cycle` does to the records of the array.  Memory is seen through what
  a read gives at each pointer.  A copy between separate ranges moves the bytes and
  touches nothing else; a round moves one chunk of every record of the path to the
  record before it; and after all chunks the records of the path are rotated,
  however wide they are.
-/

import Crabc.Libc.Qsort
import Crabc.Lib.Rotation

namespace Crabc.Libc

open Crabc.Lib List Ptr Memory

/-! ## Reading and writing -/

variable {n chunk width done : Nat} {mem : Memory} {destination : Ptr} {path : List Nat} {bytes : List UInt8}
    {q source : Ptr}

variable {m p k nel : Nat}

theorem Ptr.add_left_cancel (h : q.add m = q.add n) : m = n := by
  cases q with
  | record offset => exact Nat.add_left_cancel (record.inj h)
  | temporary offset => exact Nat.add_left_cancel (temporary.inj h)

open Function

/-- A write to a byte that can be read changes that byte only. -/
theorem Memory.write_ok (byte : UInt8) (h : (mem.read q).isSome) :
    ∃ mem', mem.write byte q = some mem' ∧ mem'.read = update mem.read q (some byte) := by
  cases q with
  | record offset | temporary offset =>
    refine ⟨_, if_pos (by simpa [read] using h), ?_⟩
    funext q
    cases q with
    | record o | temporary o =>
      first
        | exact (update_of_ne Ptr.noConfusion _ _).symm
        | by_cases ho : o = offset
          · subst ho
            rw [update_self]
            exact getElem?_set_self (by simpa [read] using h)
          · rw [update_of_ne (by simpa using ho)]
            exact getElem?_set_ne (Ne.symm ho)

/-- The bytes of `n` places from `q` on. -/
def Readable (mem : Memory) (q : Ptr) (n : Nat) : Prop := ∀ t < n, (mem.read (q.add t)).isSome

/-- Two ranges of `n` bytes that have no byte in common. -/
def Apart (q q' : Ptr) (n : Nat) : Prop := ∀ t < n, ∀ u < n, q.add t ≠ q'.add u

/-- `mem'` is `mem` after a copy of `n` bytes. -/
structure Copied (mem mem' : Memory) (source destination : Ptr) (n : Nat) : Prop where
  moved : ∀ t < n, mem'.read (destination.add t) = mem.read (source.add t)
  frame : ∀ q, (∀ t < n, q ≠ destination.add t) → mem'.read q = mem.read q

open Option

/-- The bytes from `index` on are still to be copied. -/
theorem qsortCopyNonoverlapping_from (n remaining index : Nat)
    (hn : index + remaining = n) (hsource : Readable mem source n) (hdestination : Readable mem destination n)
    (hapart : Apart source destination n) :
    ∃ mem', qsortCopyNonoverlapping source destination remaining index mem = some mem' ∧
      (∀ t, index ≤ t → t < n → mem'.read (destination.add t) = mem.read (source.add t)) ∧
      ∀ q, (∀ t, index ≤ t → t < n → q ≠ destination.add t) → mem'.read q = mem.read q := by
  induction remaining generalizing index mem with
  | zero => exact ⟨mem, rfl, fun t h1 h2 => by omega, fun _ _ => rfl⟩
  | succ remaining ih =>
    obtain ⟨byte, hbyte⟩ := isSome_iff_exists.mp (hsource index (by omega))
    obtain ⟨mem₁, hwrite, hread⟩ := write_ok byte (hdestination index (by omega))
    -- the byte just written is in neither what is read later nor what is written later
    have hkeep (q : Ptr) (hq : q ≠ destination.add index) : mem₁.read q = mem.read q := by
      rw [hread, update_of_ne hq]
    have hsource₁ : Readable mem₁ source n := by
      intro t ht
      rw [hkeep _ (hapart t ht index (by omega))]
      exact hsource t ht
    have hdestination₁ : Readable mem₁ destination n := by
      intro t ht
      rw [hread]
      by_cases heq : destination.add t = destination.add index
      · rw [heq, update_self]
        rfl
      · rw [update_of_ne heq]
        exact hdestination t ht
    obtain ⟨mem₂, hrun, hmoved, hframe⟩ := ih (index + 1) (by omega) hsource₁ hdestination₁
    refine ⟨mem₂, ?_, ?_, ?_⟩
    · simp only [qsortCopyNonoverlapping, hbyte, hwrite, bind_eq_bind, bind_some]
      exact hrun
    · intro t h1 h2
      by_cases ht : t = index
      · subst ht
        rw [hframe, hread, update_self, hbyte]
        intro u h3 _ heq
        have := add_left_cancel heq
        omega
      · rw [hmoved t (by omega) h2, hkeep _ (hapart t h2 index (by omega))]
    · intro q hq
      rw [hframe q fun t h1 h2 => hq t (by omega) h2, hkeep q (hq index (by omega) (by omega))]

theorem qsortCopyNonoverlapping_ok (hsource : Readable mem source n)
    (hdestination : Readable mem destination n) (hapart : Apart source destination n) :
    ∃ mem', qsortCopyNonoverlapping source destination n 0 mem = some mem' ∧ Copied mem mem' source destination n := by
  obtain ⟨mem', hrun, hmoved, hframe⟩ :=
    qsortCopyNonoverlapping_from n n 0 n.zero_add hsource hdestination hapart
  exact ⟨mem', hrun, fun t ht => hmoved t t.zero_le ht,
    fun q hq => hframe q fun t _ ht => hq t ht⟩

/-- What could be read still can. -/
theorem Copied.readable {mem' : Memory} (h : Copied mem mem' source destination n)
    (hsource : Readable mem source n) (hq : Readable mem q m) : Readable mem' q m := by
  intro t ht
  by_cases hin : ∃ u < n, q.add t = destination.add u
  · obtain ⟨u, hu, heq⟩ := hin
    rw [heq, h.moved u hu]
    exact hsource u hu
  · rw [h.frame _ fun u hu heq => hin ⟨u, hu, heq⟩]
    exact hq t ht

/-! ## A round -/

/-- The chunks of `n + 1` pointers move to the pointers before them, from `index` on. -/
theorem cycleRound_from {e : Nat → Ptr} (hn : n < arLen)
    (hapart : ∀ j ≤ n, ∀ k ≤ n, j ≠ k → Apart (e j) (e k) chunk) (remaining index : Nat) (entries : Entries)
    (mem : Memory) (hindex : index + remaining = n) (hentries : ∀ k, index ≤ k → k ≤ n → entries k = some (e k))
    (hread : ∀ k ≤ n, Readable mem (e k) chunk) :
    ∃ entries' mem', cycleRound chunk n remaining index entries mem = some (entries', mem') ∧
      (∀ k, index ≤ k → k < n → entries' k = some ((e k).add chunk)) ∧
      (∀ k, k < index ∨ n ≤ k → entries' k = entries k) ∧
      (∀ k, index ≤ k → k < n → ∀ t < chunk, mem'.read ((e k).add t) = mem.read ((e (k + 1)).add t)) ∧
      ∀ q, (∀ k, index ≤ k → k < n → ∀ t < chunk, q ≠ (e k).add t) → mem'.read q = mem.read q := by
  induction remaining generalizing index entries mem with
  | zero =>
    exact ⟨entries, mem, rfl, fun k h1 h2 => by omega, fun _ _ => rfl,
      fun k h1 h2 => by omega, fun _ _ => rfl⟩
  | succ remaining ih =>
    have hlt : index < n := by omega
    obtain ⟨mem₁, hcopy, hcopied⟩ := qsortCopyNonoverlapping_ok (hread (index + 1) hlt)
      (hread index (by omega)) (hapart (index + 1) hlt index (by omega) (by omega))
    -- the pointers from the next one on are as they were
    have hentries₁ (k : Nat) (h1 : index + 1 ≤ k) (h2 : k ≤ n) :
        update entries index (some ((e index).add chunk)) k = some (e k) := by
      rw [update_of_ne (by omega), hentries k (by omega) h2]
    have hread₁ (k : Nat) (hk : k ≤ n) : Readable mem₁ (e k) chunk :=
      hcopied.readable (hread (index + 1) hlt) (hread k hk)
    obtain ⟨entries₂, mem₂, hrun, hmoved, hkept, hshifted, hframe⟩ :=
      ih (index + 1) _ mem₁ (by omega) hentries₁ hread₁
    refine ⟨entries₂, mem₂, ?_, ?_, ?_, ?_, ?_⟩
    · simp only [cycleRound, qsortRecordPointer, hentries (index + 1) (by omega) hlt,
        hentries index .refl (by omega), hcopy, setQsortRecordPointer,
        if_pos (Nat.lt_trans hlt hn), bind_eq_bind, bind_some]
      exact hrun
    · intro k h1 h2
      by_cases hk : k = index
      · subst hk
        rw [hkept k (Or.inl k.lt_succ_self), update_self]
      · exact hmoved k (by omega) h2
    · intro k hk
      rw [hkept k (by omega), update_of_ne (by omega)]
    · intro k h1 h2 t ht
      by_cases hk : k = index
      · subst hk
        rw [hframe, hcopied.moved t ht]
        intro j h3 h4 u hu
        exact hapart k (by omega) j (by omega) (by omega) t ht u hu
      · rw [hshifted k (by omega) h2 t ht, hcopied.frame]
        intro u hu
        exact hapart (k + 1) (by omega) index (by omega) (by omega) t ht u hu
    · intro q hq
      rw [hframe q fun k h1 h2 => hq k (by omega) h2, hcopied.frame q (hq index .refl hlt)]

/-! ## A path of records -/

/-- The record at an index of the array. -/
def recordOf (width : Nat) (bytes : List UInt8) (i : Nat) : List UInt8 :=
  (bytes.drop (i * width)).take width

theorem offset_inj {q t u : Nat} (ht : t < width) (hu : u < width) (h : p * width + t = q * width + u) :
    p = q ∧ t = u := by
  have hpos : 0 < width := by omega
  have hdiv := congrArg (· / width) h
  have hmod := congrArg (· % width) h
  simp only [Nat.mul_add_mod_self_right, Nat.mod_eq_of_lt ht, Nat.mod_eq_of_lt hu] at hmod
  simp only [Nat.mul_comm _ width, Nat.mul_add_div hpos, Nat.div_eq_of_lt ht, Nat.div_eq_of_lt hu] at hdiv
  omega

/-- Entry `k` of a path when `done` bytes of every record have moved; behind the path is the buffer. -/
def pathPtr (width : Nat) (path : List Nat) (done k : Nat) : Ptr :=
  match path[k]? with
  | some p => .record (p * width + done)
  | none => .temporary 0

theorem pathPtr_some (h : path[k]? = some p) : pathPtr width path done k = .record (p * width + done) := by
  rw [pathPtr, h]

theorem pathPtr_length : pathPtr width path done path.length = .temporary 0 := by
  rw [pathPtr, getElem?_eq_none .refl]

theorem pathPtr_add (h : path[k]? = some p) {t : Nat} :
    (pathPtr width path done k).add t = .record (p * width + (done + t)) := by
  rw [pathPtr_some h, add, Nat.add_assoc]

theorem pathPtr_apart (hnodup : path.Nodup) (hdone : done + chunk ≤ width) :
    ∀ j ≤ path.length, ∀ k ≤ path.length, j ≠ k →
      Apart (pathPtr width path done j) (pathPtr width path done k) chunk := by
  intro j hj k hk hjk t ht u hu heq
  rcases Nat.lt_or_eq_of_le hj with hj | rfl
  · have hj' := getElem?_eq_getElem hj
    rcases Nat.lt_or_eq_of_le hk with hk | rfl
    · have hk' := getElem?_eq_getElem hk
      rw [pathPtr_add hj', pathPtr_add hk'] at heq
      have hpq := (offset_inj (by omega) (by omega) (record.inj heq)).1
      exact hjk ((getElem?_inj hj hnodup).mp (by rw [hj', hk', hpq]))
    · rw [pathPtr_add hj', pathPtr_length] at heq
      cases heq
  · have hk : k < path.length := by omega
    rw [pathPtr_length, pathPtr_add (getElem?_eq_getElem hk)] at heq
    cases heq

/-! ## All rounds -/

/-- Where the bytes of a record come from in a rotation of a path. -/
def rotated (p₀ : Nat) (path : List Nat) : Nat → Nat := place id (p₀ :: path) p₀

/-- The bytes below `done` of every record are those of the rotated one. -/
structure Rotating (width p₀ : Nat) (path : List Nat) (mem₀ mem : Memory) (done : Nat) : Prop where
  column : ∀ i t, t < width → mem.read (.record (i * width + t)) =
    mem₀.read (.record ((if t < done then rotated p₀ path i else i) * width + t))
  buffer : Readable mem (.temporary 0) 256

section Rounds

variable {width p₀ : Nat} {path : List Nat} {mem₀ : Memory} (hnodup : (p₀ :: path).Nodup)
include hnodup

theorem rotated_mem {i : Nat} (hi : i ∈ p₀ :: path) : rotated p₀ path i ∈ p₀ :: path := by
  obtain ⟨k, hk⟩ := mem_iff_getElem?.mp hi
  rw [rotated, place_getElem hnodup hk]
  cases hnext : (p₀ :: path)[k + 1]? with
  | none => exact mem_cons_self
  | some p => exact mem_of_getElem? hnext

variable (hpath : ∀ p ∈ p₀ :: path, Readable mem₀ (.record (p * width)) width)
include hpath

/-- The records of the path can be read between the rounds. -/
theorem Rotating.readable (h : Rotating width p₀ path mem₀ mem done) (hchunk : chunk ≤ 256)
    (hdone : done + chunk ≤ width) (k : Nat) : Readable mem (pathPtr width (p₀ :: path) done k) chunk := by
  intro t ht
  cases hk : (p₀ :: path)[k]? with
  | none =>
    have hbuffer := h.buffer t (by omega)
    rw [pathPtr, hk]
    exact hbuffer
  | some p =>
    have hp := mem_of_getElem? hk
    rw [pathPtr_add hk, h.column p _ (by omega)]
    split
    · exact hpath _ (rotated_mem hnodup hp) _ (by omega)
    · exact hpath p hp _ (by omega)

/-- One chunk of every record of the path. -/
theorem Rotating.step {entries : Entries} (h : Rotating width p₀ path mem₀ mem done) (hn : n = (p₀ :: path).length)
    (hlen : n < arLen) (hchunk : chunk ≤ 256) (hdone : done + chunk ≤ width)
    (hentries : ∀ k ≤ n, entries k = some (pathPtr width (p₀ :: path) done k)) :
    ∃ mem₁ entries' mem', qsortCopyNonoverlapping (pathPtr width (p₀ :: path) done 0)
        (pathPtr width (p₀ :: path) done n) chunk 0 mem = some mem₁ ∧
      cycleRound chunk n n 0 entries mem₁ = some (entries', mem') ∧
      (∀ k ≤ n, entries' k = some (pathPtr width (p₀ :: path) (done + chunk) k)) ∧
      Rotating width p₀ path mem₀ mem' (done + chunk) := by
  have hpos : 0 < n := by rw [hn]; exact Nat.succ_pos _
  have hapart := pathPtr_apart hnodup hdone
  rw [← hn] at hapart
  have hread := h.readable hnodup hpath hchunk hdone
  have hlast : pathPtr width (p₀ :: path) done n = .temporary 0 := by rw [hn, pathPtr_length]
  obtain ⟨mem₁, hcopy, hcopied⟩ := qsortCopyNonoverlapping_ok (hread 0) (hread n)
    (hapart 0 n.zero_le n n.le_refl (Nat.ne_of_lt hpos))
  have hread₁ (k : Nat) : Readable mem₁ (pathPtr width (p₀ :: path) done k) chunk :=
    hcopied.readable (hread 0) (hread k)
  obtain ⟨entries', mem', hrun, hmoved, hkept, hshifted, hframe⟩ :=
    cycleRound_from hlen hapart n 0 entries mem₁ n.zero_add (fun k _ hk => hentries k hk)
      fun k _ => hread₁ k
  -- the first copy only touches the buffer
  have hrecord (o : Nat) : mem₁.read (.record o) = mem.read (.record o) := by
    apply hcopied.frame
    intro t _
    rw [hlast]
    exact Ptr.noConfusion
  have hoff (i t : Nat) (ht : t < width) (hout : i ∈ p₀ :: path → ¬ (done ≤ t ∧ t < done + chunk)) :
      mem'.read (.record (i * width + t)) = mem.read (.record (i * width + t)) := by
    rw [hframe, hrecord]
    intro k _ hk s hs heq
    have hk' := List.getElem?_eq_getElem (hn ▸ hk)
    rw [pathPtr_add hk'] at heq
    obtain ⟨hi, hts⟩ := offset_inj ht (by omega) (Ptr.record.inj heq)
    exact hout (hi ▸ mem_of_getElem? hk') (by omega)
  refine ⟨mem₁, entries', mem', hcopy, hrun, ?_, ?_, ?_⟩
  · intro k hk
    rcases Nat.lt_or_eq_of_le hk with hlt | rfl
    · have hk' := List.getElem?_eq_getElem (hn ▸ hlt)
      rw [hmoved k k.zero_le hlt, pathPtr_add hk', pathPtr_some hk']
    · rw [hkept k (Or.inr k.le_refl), hentries k k.le_refl, hn, pathPtr_length, pathPtr_length]
  · intro i t ht
    by_cases hin : i ∈ p₀ :: path ∧ done ≤ t ∧ t < done + chunk
    · obtain ⟨hi, h1, h2⟩ := hin
      obtain ⟨k, hk⟩ := mem_iff_getElem?.mp hi
      have hkn : k < n := hn ▸ (List.getElem?_eq_some_iff.mp hk).1
      have hts : done + (t - done) = t := by omega
      have hcolumn := hshifted k k.zero_le hkn (t - done) (by omega)
      rw [pathPtr_add hk, hts] at hcolumn
      rw [hcolumn, if_pos h2, rotated, place_getElem hnodup hk]
      cases hnext : (p₀ :: path)[k + 1]? with
      | some q =>
        -- from the next record of the path
        have hq := h.column q t ht
        rw [if_neg (by omega)] at hq
        rw [pathPtr_add hnext, hts, hrecord, hq]
        rfl
      | none =>
        -- from the buffer, which has the bytes of the first
        have hp₀ := h.column p₀ t ht
        rw [if_neg (by omega)] at hp₀
        have hkn' : k + 1 = n := by
          have := List.getElem?_eq_none_iff.mp hnext
          omega
        rw [hkn', hcopied.moved _ (by omega), pathPtr_add List.getElem?_cons_zero, hts, hp₀]
        rfl
    · have hout (hi : i ∈ p₀ :: path) : ¬ (done ≤ t ∧ t < done + chunk) := fun ht => hin ⟨hi, ht⟩
      rw [hoff i t ht hout, h.column i t ht]
      by_cases hi : i ∈ p₀ :: path
      · have hiff : t < done + chunk ↔ t < done := by
          have := hout hi
          omega
        simp only [hiff]
      · have hfix : rotated p₀ path i = i := place_of_notMem hi
        rw [hfix, ite_self, ite_self]
  · intro t ht
    rw [hframe]
    · exact hcopied.readable (hread 0) h.buffer t ht
    · intro k _ hk s _
      rw [pathPtr_add (List.getElem?_eq_getElem (hn ▸ hk))]
      exact Ptr.noConfusion

/-- The chunks that remain. -/
theorem cycleLoop_rotates (hn : n = (p₀ :: path).length) (hlen : n < arLen) (rounds remaining done : Nat)
    (entries : Entries) (mem : Memory) (hremaining : done + remaining = width) (hrounds : remaining < rounds)
    (h : Rotating width p₀ path mem₀ mem done)
    (hentries : ∀ k ≤ n, entries k = some (pathPtr width (p₀ :: path) done k)) :
    ∃ mem', cycleLoop n rounds remaining entries mem = some mem' ∧ Rotating width p₀ path mem₀ mem' width := by
  induction rounds generalizing remaining done entries mem with
  | zero => omega
  | succ rounds ih =>
    rw [cycleLoop]
    by_cases hzero : remaining > 0
    · rw [if_pos hzero]
      set chunk := if remaining < 256 then remaining else 256 with hchunk
      have hbounds : 0 < chunk ∧ chunk ≤ 256 ∧ chunk ≤ remaining := by
        rw [hchunk]
        split <;> omega
      obtain ⟨mem₁, entries', mem', hcopy, hrun, hentries', hstep⟩ :=
        h.step hnodup hpath hn hlen hbounds.2.1 (by omega) hentries
      simp only [qsortRecordPointer, hentries 0 n.zero_le, hentries n n.le_refl, hcopy,
        hrun, bind_eq_bind, bind_some]
      exact ih (remaining - chunk) (done + chunk) entries' mem' (by omega) (by omega) hstep hentries'
    · have hdone : done = width := by omega
      rw [if_neg hzero]
      exact ⟨mem, rfl, hdone ▸ h⟩

end Rounds

/-! ## The cycle -/

theorem recordOf_getElem? (width : Nat) (bytes : List UInt8) {i t : Nat} :
    (recordOf width bytes i)[t]? = if t < width then bytes[i * width + t]? else none := by
  rw [recordOf, getElem?_take, getElem?_drop]

theorem readable_record (temporary : List UInt8) (hlen : bytes.length = nel * width)
    (hp : p < nel) : Readable ⟨bytes, temporary⟩ (.record (p * width)) width := by
  intro t ht
  have hle : (p + 1) * width ≤ nel * width := Nat.mul_le_mul_right width hp
  rw [Nat.add_mul, Nat.one_mul] at hle
  have hlt : p * width + t < bytes.length := by omega
  show (bytes[p * width + t]?).isSome = true
  rw [getElem?_eq_getElem hlt]
  rfl

theorem length_eq_of_isSome {l l' : List UInt8} (h : ∀ o : Nat, (l[o]?).isSome = (l'[o]?).isSome) :
    l.length = l'.length := by
  have hlt (o : Nat) : o < l.length ↔ o < l'.length := by
    have := h o
    rw [Bool.eq_iff_iff] at this
    simpa using this
  have h1 := hlt l.length
  have h2 := hlt l'.length
  omega

/-- A complete rotation, seen record by record. -/
theorem Rotating.records {p₀ : Nat} {buffer : List UInt8}
    (h : Rotating width p₀ path ⟨bytes, buffer⟩ mem width) (hpos : 0 < width)
    (hlen : bytes.length = nel * width) (hnodup : (p₀ :: path).Nodup) (hlt : ∀ p ∈ p₀ :: path, p < nel) :
    mem.records.length = bytes.length ∧ recordOf width mem.records =
      place (recordOf width bytes) (p₀ :: path) (recordOf width bytes p₀) := by
  have hcolumn (i t : Nat) (ht : t < width) :
      mem.records[i * width + t]? = bytes[rotated p₀ path i * width + t]? := by
    have := h.column i t ht
    rwa [if_pos ht] at this
  constructor
  · apply length_eq_of_isSome
    intro o
    have ho := Nat.div_add_mod' o width
    have hmod := Nat.mod_lt o hpos
    rw [← ho, hcolumn _ _ hmod]
    by_cases hi : o / width ∈ p₀ :: path
    · -- both are bytes of records of the path
      have hread (p : Nat) (hp : p ∈ p₀ :: path) : (bytes[p * width + o % width]?).isSome = true :=
        readable_record buffer hlen (hlt p hp) _ hmod
      rw [hread _ (rotated_mem hnodup hi), hread _ hi]
    · have hfix : rotated p₀ path (o / width) = o / width := place_of_notMem hi
      rw [hfix]
  · have hcomp := place_comp (recordOf width bytes) id (p₀ :: path) p₀
    rw [comp_id] at hcomp
    rw [hcomp]
    funext i
    apply ext_getElem?
    intro t
    rw [comp_apply, recordOf_getElem?, recordOf_getElem?]
    split
    · exact hcolumn i t ‹_›
    · rfl

/-- **Cycle.**  The records of a path are rotated: each takes the one behind it, and
    the last takes the first. -/
theorem qsortCycle_rotates {p₀ : Nat} {entries : Entries} (hpos : 0 < width)
    (hlen : bytes.length = nel * width) (hnodup : (p₀ :: path).Nodup) (hlt : ∀ p ∈ p₀ :: path, p < nel)
    (hn : (p₀ :: path).length < arLen)
    (hentries : ∀ k p, (p₀ :: path)[k]? = some p → entries k = some (.record (p * width))) :
    ∃ bytes', qsortCycle width entries (p₀ :: path).length bytes = some bytes' ∧
      bytes'.length = bytes.length ∧ recordOf width bytes' =
        place (recordOf width bytes) (p₀ :: path) (recordOf width bytes p₀) := by
  rw [qsortCycle]
  by_cases hshort : (p₀ :: path).length < 2
  · have hnil : path = [] := by
      rw [length_cons] at hshort
      exact eq_nil_of_length_eq_zero (by omega)
    rw [if_pos hshort, hnil, place, update_eq_self]
    exact ⟨bytes, rfl, rfl, rfl⟩
  rw [if_neg hshort]
  have hstart : Rotating width p₀ path ⟨bytes, replicate 256 0⟩ ⟨bytes, replicate 256 0⟩ 0 := by
    refine ⟨fun i t _ => by rw [if_neg t.not_lt_zero], fun t ht => ?_⟩
    show ((replicate 256 (0 : UInt8))[0 + t]?).isSome = true
    rw [Nat.zero_add, getElem?_replicate, if_pos ht]
    rfl
  have hslots (k : Nat) (hk : k ≤ (p₀ :: path).length) :
      update entries (p₀ :: path).length (some (.temporary 0)) k = some (pathPtr width (p₀ :: path) 0 k) := by
    rcases Nat.lt_or_eq_of_le hk with hk | rfl
    · have hk' := getElem?_eq_getElem hk
      rw [update_of_ne (by omega), pathPtr_some hk', hentries k _ hk', Nat.add_zero]
    · rw [update_self, pathPtr_length]
  obtain ⟨mem', hrun, hrotated⟩ := cycleLoop_rotates hnodup
    (fun p hp => readable_record _ hlen (hlt p hp)) rfl hn (width + 1) width 0 _ _
    width.zero_add width.lt_succ_self hstart hslots
  refine ⟨mem'.records, ?_, hrotated.records hpos hlen hnodup hlt⟩
  simp only [setQsortRecordPointer, if_pos hn, bind_eq_bind, bind_some, hrun]

end Crabc.Libc
