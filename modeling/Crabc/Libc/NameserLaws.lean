/-
  Crabc.Libc.NameserLaws

  `ns_parserr` as random access.  Where `dn_expand` consumes what `dn_skipname` skips, the
  cursor of the handle is always at the start of the record that the handle counts, so the
  order of the calls does not show.  The two differ on length octets from 64 to 191, which
  `dn_skipname` takes for a label and `dn_expand` for a pointer.
-/

import Crabc.Libc.Nameser

namespace Crabc.Libc

open NsMsg Prod

/-! ## The two name walkers -/

/-- No length octet from 64 to 191 is met from `cursor` on, up to the root or the first pointer. -/
def plainNameFrom (message : List UInt8) : Nat → Nat → Bool
  | 0, _ => true
  | fuel + 1, cursor =>
    if cursor < message.length then
      let label := octetAt message cursor
      if label = 0 ∨ 192 ≤ label then true
      else if 64 ≤ label then false
      else plainNameFrom message fuel (cursor + (label + 1))
    else true

/-- The name at `source` has no length octet from 64 to 191. -/
def plainName (message : List UInt8) (source : Nat) : Bool :=
  plainNameFrom message (message.length + 1 - source) source

variable {message name : List UInt8}

open Option

variable {source cursor k n s : Nat} {handle : NsMsg} {output : List UInt8}

/-- Behind the first pointer the count of consumed bytes stands. -/
theorem dnExpandLoop_consumed {fuel : Nat}
    (h : dnExpandLoop message source fuel cursor output (some k) = some (n, name)) : n = k := by
  induction fuel generalizing cursor output with
  | zero => cases h
  | succ fuel ih =>
    rw [dnExpandLoop] at h
    dsimp only [getD_some] at h
    split_ifs at h
    · exact ih h
    · exact ih h
    · exact ih h
    · exact (mk.inj (some.inj h)).1.symm

/-- Where no octet from 64 to 191 is met, `dn_expand` consumes what `dn_skipname` skips. -/
theorem dnExpandLoop_skips {fuel fuel' m : Nat} (hplain : plainNameFrom message fuel cursor = true)
    (hskip : dnSkipnameLoop message source fuel cursor = some n)
    (hexpand : dnExpandLoop message source fuel' cursor output none = some (m, name)) (hle : source ≤ cursor) :
    m = n := by
  induction fuel' generalizing fuel cursor output with
  | zero => cases hexpand
  | succ fuel' ih =>
    cases fuel with
    | zero => cases hskip
    | succ fuel =>
      rw [plainNameFrom] at hplain
      rw [dnSkipnameLoop] at hskip
      rw [dnExpandLoop] at hexpand
      by_cases hin : cursor < message.length
      swap
      · rw [if_neg hin] at hskip
        cases hskip
      rw [if_pos hin] at hplain hskip
      dsimp only at hplain hskip hexpand
      rcases (by omega : octetAt message cursor = 0 ∨ 192 ≤ octetAt message cursor ∨
        (64 ≤ octetAt message cursor ∧ octetAt message cursor < 192) ∨
        (0 < octetAt message cursor ∧ octetAt message cursor < 64)) with
        hlabel | hlabel | hlabel | hlabel
      · rw [if_pos hlabel] at hskip
        rw [if_neg (by omega), if_neg (by omega)] at hexpand
        obtain ⟨rfl, -⟩ := mk.inj (some.inj hexpand)
        obtain rfl := some.inj hskip
        rw [getD_none]
        omega
      · -- both read a pointer here
        rw [if_neg (by omega), if_pos hlabel] at hskip
        rw [if_pos (by omega)] at hexpand
        split_ifs at hexpand hskip
        obtain rfl := some.inj hskip
        rw [dnExpandLoop_consumed hexpand, getD_none]
        omega
      · rw [if_neg (by omega), if_pos hlabel.1] at hplain
        cases hplain
      · -- both read a label here
        rw [if_neg (by omega), if_neg (by omega)] at hplain
        rw [if_neg (by omega), if_neg (by omega)] at hskip
        rw [if_neg (by omega), if_pos (by omega)] at hexpand
        split_ifs at hexpand hskip
        all_goals
          rw [show cursor + 1 + octetAt message cursor = cursor + (octetAt message cursor + 1) by
            omega] at hexpand
          exact ih hplain hskip hexpand (by omega)

/-- The two walkers agree on plain names. -/
theorem dnExpand_skips {m : Nat} (hplain : plainName message source = true)
    (hskip : dnSkipname message source = some n) (hexpand : dnExpand message source = some (m, name)) :
    m = n := by
  unfold dnExpand at hexpand
  split_ifs at hexpand
  exact dnExpandLoop_skips hplain hskip hexpand .refl

/-! ## Records by position -/

/-- The position behind the record at `position`. -/
def skipRecord (message : List UInt8) (section_ position : Nat) : Option Nat := do
  let nameBytes ← dnSkipname message position
  if nameBytes + 4 > message.length - position then none
  else
    let position := position + (nameBytes + 4)
    if section_ ≠ 0 then
      if 6 > message.length - position then none
      else
        let rdataBytes := nsGet16 message (position + 4)
        if rdataBytes > message.length - (position + 4 + 2) then none
        else some (position + 4 + 2 + rdataBytes)
    else some position

/-- The position behind `count` records. -/
def skipRecords (message : List UInt8) (section_ : Nat) : Nat → Nat → Option Nat
  | 0, position => some position
  | count + 1, position => (skipRecord message section_ position).bind (skipRecords message section_ count)

variable {section_ position p : Nat}

theorem skipRecord_le (h : skipRecord message section_ position = some p) : position ≤ p := by
  unfold skipRecord at h
  cases hname : dnSkipname message position with
  | none => rw [hname] at h; cases h
  | some nameBytes =>
    rw [hname, bind_eq_bind, bind_some] at h
    dsimp only at h
    split_ifs at h
    all_goals
      obtain rfl := some.inj h
      omega

theorem nsSkiprrLoop_eq {count : Nat} (ptr consumed : Nat) : nsSkiprrLoop message ptr section_ consumed count =
      (skipRecords message section_ count (ptr + consumed)).map (· - ptr) := by
  induction count generalizing consumed with
  | zero =>
    rw [nsSkiprrLoop, skipRecords, map_some, Nat.add_sub_cancel_left]
  | succ count ih =>
    rw [nsSkiprrLoop, skipRecords, skipRecord]
    cases hname : dnSkipname message (ptr + consumed) with
    | none => rfl
    | some nameBytes =>
      simp only [bind_eq_bind, bind_some, Nat.sub_sub, ih, ← Nat.add_assoc]
      split_ifs <;> rfl

theorem skipRecords_le {count : Nat} (h : skipRecords message section_ count position = some p) : position ≤ p := by
  induction count generalizing position with
  | zero => exact Nat.le_of_eq (some.inj h)
  | succ count ih =>
    obtain ⟨q, hq, hrest⟩ := bind_eq_some_iff.mp h
    exact Nat.le_trans (skipRecord_le hq) (ih hrest)

theorem nsSkiprr_of_skipRecords {count : Nat} (h : skipRecords message section_ count position = some p) :
    nsSkiprr message position section_ count = some (p - position) := by
  rw [nsSkiprr, nsSkiprrLoop_eq, Nat.add_zero, h, map_some]

theorem skipRecords_of_nsSkiprr {count skipped : Nat} (h : nsSkiprr message position section_ count = some skipped) :
    skipRecords message section_ count position = some (position + skipped) := by
  rw [nsSkiprr, nsSkiprrLoop_eq, Nat.add_zero] at h
  obtain ⟨p, hp, rfl⟩ := map_eq_some_iff.mp h
  have := skipRecords_le hp
  rw [hp]
  congr 1
  omega

theorem skipRecords_add {j : Nat} (position : Nat) : skipRecords message section_ (j + k) position =
      (skipRecords message section_ j position).bind (skipRecords message section_ k) := by
  induction j generalizing position with
  | zero => rw [Nat.zero_add]; rfl
  | succ j ih =>
    rw [Nat.succ_add, skipRecords, skipRecords, bind_assoc]
    congr 1
    funext p
    exact ih p

/-- The records before one that is skipped are skipped. -/
theorem skipRecords_some_of_le {count : Nat} (h : skipRecords message section_ count position = some p)
    (hk : k ≤ count) : ∃ q, skipRecords message section_ k position = some q := by
  obtain ⟨d, rfl⟩ := Nat.exists_eq_add_of_le hk
  rw [skipRecords_add] at h
  obtain ⟨q, hq, -⟩ := bind_eq_some_iff.mp h
  exact ⟨q, hq⟩

/-! ## Reading a record -/

/-- The record at `position` is named plainly, or by a name that `dn_expand` rejects. -/
def plainRecord (message : List UInt8) (position : Nat) : Bool :=
  plainName message position || (dnExpand message position).isNone

/-- Reading a plain record moves the cursor behind it or, if the name is rejected, not at all. -/
theorem readRecord_plain (hplain : plainRecord message position = true)
    (hskip : skipRecord message section_ position = some p) :
    (∃ errno, readRecord message section_ position = (.error errno, position)) ∨
      ∃ record, readRecord message section_ position = (.ok record, p) := by
  unfold readRecord
  cases hexpand : dnExpand message position with
  | none => exact .inl ⟨_, rfl⟩
  | some expanded =>
    rw [plainRecord, hexpand, isNone_some, Bool.or_false] at hplain
    unfold skipRecord at hskip
    cases hname : dnSkipname message position with
    | none => rw [hname] at hskip; cases hskip
    | some skipped =>
      obtain rfl := dnExpand_skips hplain hname hexpand
      rw [hname, bind_eq_bind, bind_some] at hskip
      dsimp only at hskip ⊢
      right
      split_ifs at hskip with h4 hquestion h6 hrdata
      · rw [if_neg (by omega), if_pos hquestion, if_neg (by omega)]
        obtain rfl := some.inj hskip
        rw [if_neg (by omega)]
        exact ⟨_, rfl⟩
      · rw [if_neg (by omega), if_neg hquestion]
        obtain rfl := some.inj hskip
        exact ⟨_, rfl⟩

/-! ## The handle -/

/-- Where the record `number` of a section starts. -/
def NsMsg.recordStart (handle : NsMsg) (section_ number : Nat) : Option Nat :=
  (handle.sections.getD section_ none).bind (skipRecords handle.message section_ number)

/-- The count of a section. -/
def NsMsg.count (handle : NsMsg) (section_ : Nat) : Nat := handle.counts.getD section_ 0

/-- What `ns_initparse` leaves: every section that has records starts somewhere and its
    records lie one behind the other. -/
structure NsMsg.Fresh (handle : NsMsg) : Prop where
  section_eq : handle.section_ = 4
  walks : ∀ section_ < 4, handle.count section_ ≠ 0 → ∃ p, handle.recordStart section_ (handle.count section_) = some p

theorem initSections_walks {counts indices : List Nat} {end_ : Nat}
    {starts : List (Option Nat)} (h : initSections message counts indices cursor = some (starts, end_)) :
    ∀ i < indices.length, ∀ index, indices[i]? = some index → counts.getD index 0 ≠ 0 →
      ∃ p, (starts.getD i none).bind (skipRecords message index (counts.getD index 0)) = some p := by
  induction indices generalizing cursor starts with
  | nil => exact nofun
  | cons index rest ih =>
    rw [initSections] at h
    intro i hi k hk hcount
    split_ifs at h with hempty
    · cases hskip : nsSkiprr message cursor index (counts.getD index 0) with
      | none => rw [hskip] at h; cases h
      | some skipped =>
        rw [hskip, bind_eq_bind, bind_some] at h
        obtain ⟨⟨starts', end'⟩, hrest, hsome⟩ := bind_eq_some_iff.mp h
        obtain ⟨rfl, rfl⟩ := mk.inj (some.inj hsome)
        cases i with
        | zero =>
          obtain rfl : index = k := some.inj hk
          exact ⟨_, skipRecords_of_nsSkiprr hskip⟩
        | succ i =>
          exact ih hrest i (Nat.lt_of_succ_lt_succ hi) k hk hcount
    · obtain ⟨⟨starts', end'⟩, hrest, hsome⟩ := bind_eq_some_iff.mp h
      obtain ⟨rfl, rfl⟩ := mk.inj (some.inj hsome)
      cases i with
      | zero =>
        obtain rfl : index = k := some.inj hk
        exact absurd hcount hempty
      | succ i =>
        exact ih hrest i (Nat.lt_of_succ_lt_succ hi) k hk hcount

theorem nsInitparse_fresh (h : nsInitparse message = some handle) : handle.Fresh := by
  unfold nsInitparse at h
  dsimp only at h
  split_ifs at h
  split at h
  · cases h
  · rename_i sections cursor hsections
    split_ifs at h
    obtain rfl := some.inj h
    have hindex : ∀ section_ < 4, [0, 1, 2, 3][section_]? = some section_ := by decide
    exact ⟨rfl, fun section_ hlt hcount =>
      initSections_walks hsections section_ hlt section_ (hindex section_ hlt) hcount⟩

variable {fresh : NsMsg}

theorem NsMsg.Fresh.recordStart (h : fresh.Fresh) {number : Nat} (hsection : section_ < 4)
    (hcount : fresh.count section_ ≠ 0) (hnumber : number ≤ fresh.count section_) :
    ∃ p, fresh.recordStart section_ number = some p := by
  obtain ⟨p, hp⟩ := h.walks section_ hsection hcount
  obtain ⟨start, hstart, hall⟩ := bind_eq_some_iff.mp hp
  obtain ⟨q, hq⟩ := skipRecords_some_of_le hall hnumber
  exact ⟨q, by rw [NsMsg.recordStart, hstart, bind_some, hq]⟩

/-- The handle is on the message that the fresh one is on. -/
structure NsMsg.Shares (fresh handle : NsMsg) : Prop where
  message : handle.message = fresh.message
  counts : handle.counts = fresh.counts
  sections : handle.sections = fresh.sections

/-- The handle stands in a section before the record `number`. -/
structure NsMsg.Stands (fresh handle : NsMsg) (section_ number : Nat) : Prop
    extends fresh.Shares handle where
  section_lt : section_ < 4
  section_eq : handle.section_ = section_
  recordNumber : handle.recordNumber = number
  number_le : number ≤ fresh.count section_
  cursor : handle.messageCursor = fresh.recordStart section_ number

/-- The first record starts where its section does. -/
theorem NsMsg.recordStart_zero (handle : NsMsg) :
    handle.recordStart section_ 0 = handle.sections.getD section_ none := by
  unfold recordStart
  cases handle.sections.getD section_ none <;> rfl

theorem NsMsg.recordStart_add {j : Nat} (h : handle.recordStart section_ j = some p) (k : Nat) :
    handle.recordStart section_ (j + k) = skipRecords handle.message section_ k p := by
  unfold recordStart at h ⊢
  obtain ⟨start, hstart, hp⟩ := bind_eq_some_iff.mp h
  rw [hstart, bind_some, skipRecords_add, hp, bind_some]

theorem NsMsg.Shares.restart {handle : NsMsg} (h : fresh.Shares handle) {s : Nat} (hs : s < 4)
    (hsection : handle.section_ = s) :
    fresh.Stands { handle with recordNumber := 0, messageCursor := handle.sections.getD s none }
      s 0 := by
  refine ⟨⟨h.message, h.counts, h.sections⟩, hs, hsection, rfl, Nat.zero_le _, ?_⟩
  rw [recordStart_zero, ← h.sections]

/-- The handle is fresh, or stands before the next record of the place. -/
def NsMsg.At (fresh handle : NsMsg) (section_ next : Int) : Prop :=
  (handle = fresh ∧ section_ = 4) ∨ ∃ s n : Nat, section_ = s ∧ next = n ∧ fresh.Stands handle s n

/-- Going back if need be. -/
theorem NsMsg.Stands.rewind (h : fresh.Stands handle s n) (k : Nat) :
    ∃ n', n' ≤ k ∧ fresh.Stands (handle.rewind s k) s n' := by
  unfold NsMsg.rewind
  rw [h.recordNumber]
  by_cases hback : k < n
  · rw [if_pos (by omega)]
    exact ⟨0, Nat.zero_le _, h.toShares.restart h.section_lt h.section_eq⟩
  · rw [if_neg (by omega)]
    exact ⟨n, Nat.le_of_not_lt hback, h⟩

section

variable (hfresh : fresh.Fresh)
include hfresh

/-- Making a section the active one. -/
theorem NsMsg.At.activate {section_ next : Int} (h : fresh.At handle section_ next) (hs : s < 4) :
    ∃ n : Nat, (if (s : Int) = section_ then next else 0) = n ∧ fresh.Stands (handle.activate s) s n := by
  -- another section starts at its first record
  have other : ∀ {handle : NsMsg}, fresh.Shares handle → (s : Int) ≠ handle.section_ →
      fresh.Stands (handle.activate s) s 0 := by
    intro handle hshares hne
    unfold NsMsg.activate
    rw [if_pos hne]
    have hstart := @NsMsg.Shares.restart fresh { handle with section_ := s }
      ⟨hshares.message, hshares.counts, hshares.sections⟩ s hs rfl
    exact hstart
  rcases h with ⟨rfl, rfl⟩ | ⟨s', n, rfl, rfl, hstands⟩
  · exact ⟨0, if_neg (by omega), other ⟨rfl, rfl, rfl⟩ (by rw [hfresh.section_eq]; omega)⟩
  · by_cases hsame : s = s'
    · subst hsame
      refine ⟨n, if_pos rfl, ?_⟩
      unfold NsMsg.activate
      rwa [if_neg (by rw [hstands.section_eq]; exact not_not.mpr rfl)]
    · refine ⟨0, if_neg (by omega), other hstands.toShares ?_⟩
      rw [hstands.section_eq]
      omega

/-- Going forward to a record of the section. -/
theorem NsMsg.Stands.forward (h : fresh.Stands handle s n) (hk : k < fresh.count s) (hle : n ≤ k) :
    ∃ handle', handle.forward s k = (handle', true) ∧ fresh.Stands handle' s k := by
  obtain ⟨p, hp⟩ := hfresh.recordStart h.section_lt (by omega) h.number_le
  obtain ⟨q, hq⟩ := hfresh.recordStart h.section_lt (by omega) (Nat.le_of_lt hk)
  unfold NsMsg.forward
  dsimp only
  rw [h.recordNumber]
  by_cases hgt : n < k
  · have hskip : skipRecords fresh.message s (k - n) p = some q := by
      rw [← NsMsg.recordStart_add hp, ← hq]
      congr 1
      omega
    have hpq := skipRecords_le hskip
    rw [if_pos (by omega), h.cursor, hp, getD_some, h.message, Int.toNat_natCast,
      show ((k : Int) - n).toNat = k - n by omega, nsSkiprr_of_skipRecords hskip]
    refine ⟨_, rfl, ⟨rfl, h.counts, h.sections⟩, h.section_lt, h.section_eq, rfl, Nat.le_of_lt hk, ?_⟩
    rw [hq]
    show some (p + (q - p)) = some q
    congr 1
    omega
  · obtain rfl : n = k := by omega
    rw [if_neg (by omega)]
    exact ⟨handle, rfl, h⟩

/-! ## Calls -/

/-- What a call reads, by the message alone. -/
def NsMsg.answer (fresh : NsMsg) (section_ number : Int) : Except Nat NsRr :=
  if section_ < 0 ∨ 4 ≤ section_ ∨ number < 0 ∨ fresh.count section_.toNat ≤ number then
    .error enodev
  else
    (readRecord fresh.message section_.toNat
      ((fresh.recordStart section_.toNat number.toNat).getD 0)).1

/-- The active section and the next record, as the caller can keep track of them. -/
structure Place where
  section_ : Int
  next : Int
deriving DecidableEq, Repr

/-- The record that a call asks for: -1 is the next one, which is the first one in another section. -/
def Place.index (place : Place) (section_ number : Int) : Int :=
  if number = -1 then if section_ = place.section_ then place.next else 0 else number

/-- The place behind a call: the record behind the one it got, or the one it did not get. -/
def Place.after (fresh : NsMsg) (place : Place) (section_ number : Int) : Place :=
  if section_ < 0 ∨ 4 ≤ section_ then place
  else
    let index := place.index section_ number
    if index < 0 ∨ fresh.count section_.toNat ≤ index then
      ⟨section_, if section_ = place.section_ then place.next else 0⟩
    else
      match fresh.answer section_ index with
      | .ok _ => ⟨section_, index + 1⟩
      | .error _ => ⟨section_, index⟩

/-- The call reads no record, or one that is named plainly. -/
def plainCall (fresh : NsMsg) (place : Place) (section_ number : Int) : Bool :=
  let index := place.index section_ number
  if section_ < 0 ∨ 4 ≤ section_ ∨ index < 0 ∨ fresh.count section_.toNat ≤ index then true
  else
    plainRecord fresh.message ((fresh.recordStart section_.toNat index.toNat).getD 0)

/-- Reading the record that the handle stands before. -/
theorem NsMsg.Stands.read (h : fresh.Stands handle s k) (hk : k < fresh.count s)
    (hplain : plainRecord fresh.message ((fresh.recordStart s k).getD 0) = true) :
    (∃ errno cursor, readRecord fresh.message s ((fresh.recordStart s k).getD 0) = (.error errno, cursor) ∧
      fresh.Stands { handle with messageCursor := some cursor } s k) ∨
    (∃ record cursor, readRecord fresh.message s ((fresh.recordStart s k).getD 0) = (.ok record, cursor) ∧
      fresh.Stands ({ handle with messageCursor := some cursor }.advance s (fresh.count s))
        s (k + 1)) := by
  obtain ⟨p, hp⟩ := hfresh.recordStart h.section_lt (by omega) (Nat.le_of_lt hk)
  obtain ⟨q, hq⟩ := hfresh.recordStart h.section_lt (by omega) (Nat.succ_le_of_lt hk)
  have hskip : skipRecord fresh.message s p = some q := by
    have hone := recordStart_add hp 1
    rw [hq] at hone
    obtain ⟨q', hq', hsame⟩ := bind_eq_some_iff.mp hone.symm
    rw [hq']
    exact hsame
  rw [hp, getD_some] at hplain ⊢
  rcases readRecord_plain hplain hskip with ⟨errno, hread⟩ | ⟨record, hread⟩
  · exact .inl ⟨errno, p, hread, ⟨h.message, h.counts, h.sections⟩, h.section_lt, h.section_eq,
      h.recordNumber, h.number_le, hp.symm⟩
  · refine .inr ⟨record, q, hread, ?_⟩
    have hnumber : handle.recordNumber + 1 = (k + 1 : Nat) := by
      rw [h.recordNumber]
      rfl
    unfold advance
    dsimp only
    rw [if_neg (by omega)]
    exact ⟨⟨h.message, h.counts, h.sections⟩, h.section_lt, h.section_eq, hnumber, Nat.succ_le_of_lt hk, hq.symm⟩

/-- One call: it answers from the message, and if it reads no record that is named in the
    odd way, the handle stands where the caller thinks it does. -/
theorem nsParserr_at {handle : NsMsg} {place : Place} (h : fresh.At handle place.section_ place.next)
    (section_ number : Int) :
    (nsParserr handle section_ number).1 = fresh.answer section_ (place.index section_ number) ∧
      (plainCall fresh place section_ number = true → fresh.At (nsParserr handle section_ number).2
          (place.after fresh section_ number).section_
          (place.after fresh section_ number).next) := by
  unfold nsParserr plainCall Place.after answer
  by_cases hrange : section_ < 0 ∨ 4 ≤ section_
  · rw [if_pos hrange, if_pos (by omega), if_pos hrange]
    exact ⟨rfl, fun _ => h⟩
  obtain ⟨s, rfl⟩ : ∃ s : Nat, section_ = s := ⟨section_.toNat, by omega⟩
  obtain ⟨n, hn, hstands⟩ := h.activate hfresh (show s < 4 by omega)
  have hindex : (if number = -1 then (handle.activate s).recordNumber else number) = place.index s number := by
    unfold Place.index
    rw [hstands.recordNumber, hn]
  have hcount : (handle.activate s).counts.getD s 0 = fresh.count s := by
    rw [hstands.counts]
    rfl
  rw [if_neg hrange, if_neg hrange]
  dsimp only
  rw [hindex, Int.toNat_natCast, hcount, hn]
  by_cases hout : place.index s number < 0 ∨ (fresh.count s : Int) ≤ place.index s number
  · rw [if_pos hout, if_pos (by omega), if_pos hout]
    exact ⟨rfl, fun _ => .inr ⟨s, n, rfl, rfl, hstands⟩⟩
  obtain ⟨k, hk⟩ : ∃ k : Nat, place.index s number = k :=
    ⟨(place.index s number).toNat, by omega⟩
  rw [hk] at hout ⊢
  have hlt : k < fresh.count s := by omega
  obtain ⟨n', hle, hback⟩ := hstands.rewind k
  obtain ⟨handle', hforward, hthere⟩ := hback.forward hfresh hlt hle
  rw [if_neg hout, if_neg (by omega), if_neg hout, hforward, Int.toNat_natCast]
  dsimp only
  rw [hthere.message, hthere.cursor]
  constructor
  · rcases readRecord fresh.message s ((fresh.recordStart s k).getD 0) with ⟨record | errno, cursor⟩ <;> rfl
  · intro hplain
    rw [if_neg (by omega)] at hplain
    rcases hthere.read hfresh hlt hplain with
      ⟨errno, cursor, hread, hstays⟩ | ⟨record, cursor, hread, hstays⟩
    all_goals
      rw [hthere.message] at hstays
      rw [hread]
    · exact .inr ⟨s, k, rfl, rfl, hstays⟩
    · exact .inr ⟨s, k + 1, rfl, rfl, hstays⟩

/-! ## Sequences of calls -/

/-- The handle behind a sequence of calls. -/
def nsRun (handle : NsMsg) (calls : List (Int × Int)) : NsMsg :=
  calls.foldl (fun handle call => (nsParserr handle call.1 call.2).2) handle

/-- The place behind a sequence of calls. -/
def placeAfter (fresh : NsMsg) (calls : List (Int × Int)) : Place :=
  calls.foldl (fun place call => place.after fresh call.1 call.2) ⟨4, -1⟩

/-- Every call reads no record, or one that is named plainly. -/
def plainCalls (fresh : NsMsg) : Place → List (Int × Int) → Bool
  | _, [] => true
  | place, call :: calls =>
    plainCall fresh place call.1 call.2 && plainCalls fresh (place.after fresh call.1 call.2) calls

theorem nsRun_at {calls : List (Int × Int)} {place : Place} (h : fresh.At handle place.section_ place.next)
    (hplain : plainCalls fresh place calls = true) :
    let place' := calls.foldl (fun place call => place.after fresh call.1 call.2) place
    fresh.At (nsRun handle calls) place'.section_ place'.next := by
  induction calls generalizing place handle with
  | nil => exact h
  | cons call calls ih =>
    rw [plainCalls, Bool.and_eq_true] at hplain
    exact ih ((nsParserr_at hfresh h call.1 call.2).2 hplain.1) hplain.2

/-- A call with a number that is not -1 asks a fresh handle for that record. -/
theorem answer_eq {section_ number : Int} (hnumber : number ≠ -1) :
    (nsParserr fresh section_ number).1 = fresh.answer section_ number := by
  have hcall := (@nsParserr_at fresh hfresh fresh ⟨4, -1⟩ (.inl ⟨rfl, rfl⟩) section_ number).1
  rwa [Place.index, if_neg hnumber] at hcall

end

/-- While the calls before it read no record whose owner name has a length octet from 64 to 191 that `dn_expand`
    takes for a pointer, a call gives what a fresh handle gives for the record it asks for, -1 being the next one. -/
theorem nsParserr_orderIndependent {message : List UInt8} {fresh : NsMsg}
    (hinit : nsInitparse message = some fresh) {calls : List (Int × Int)}
    (hplain : plainCalls fresh ⟨4, -1⟩ calls = true) (section_ number : Int) :
    (nsParserr (nsRun fresh calls) section_ number).1 =
      (nsParserr fresh section_ ((placeAfter fresh calls).index section_ number)).1 := by
  have hfresh := nsInitparse_fresh hinit
  have hat := nsRun_at hfresh (.inl ⟨rfl, rfl⟩) hplain
  rw [(nsParserr_at hfresh hat section_ number).1]
  show fresh.answer section_ ((placeAfter fresh calls).index section_ number) = _
  by_cases hrange : section_ < 0 ∨ 4 ≤ section_
  · rw [answer, if_pos (by omega), nsParserr, if_pos hrange]
  -- in range, the record asked for is never -1
  have hindex : (placeAfter fresh calls).index section_ number ≠ -1 := by
    unfold Place.index
    split_ifs with hnext hsame
    · rcases hat with ⟨-, hfour⟩ | ⟨s, n, -, hn, -⟩
      · rw [show (placeAfter fresh calls).section_ = 4 from hfour] at hsame
        omega
      · rw [show (placeAfter fresh calls).next = n from hn]
        omega
    · decide
    · exact hnext
  exact (answer_eq hfresh hindex).symm

/-- An answer section with two records at the root. -/
def plainMessage : List UInt8 :=
  [0, 0, 0x80, 0, 0, 0, 0, 2, 0, 0, 0, 0, 0, 0, 1, 0, 1, 0, 0, 0, 60, 0, 0, 0, 0, 2, 0, 1, 0, 0, 0, 60, 0, 0]

def plainHandle : NsMsg :=
  ⟨plainMessage, 0, 0x8000, [0, 2, 0, 0], [none, some 12, none, none], 4, -1, none⟩

theorem nsParserr_backAndForth : (nsParserr (nsRun plainHandle [(1, 1), (1, 0)]) 1 (-1)).1 = (nsParserr plainHandle 1
        ((placeAfter plainHandle [(1, 1), (1, 0)]).index 1 (-1))).1 :=
  nsParserr_orderIndependent (show nsInitparse plainMessage = some plainHandle by decide)
    (by decide) 1 (-1)

/-- An answer section with two records, the first of which is named by the octet 64: a label
    of 64 octets and the root to `dn_skipname`, a pointer to `dn_expand`. -/
def oddMessage : List UInt8 :=
  [0, 0, 0x80, 0, 0, 0, 0, 2, 0, 0, 0, 0] ++ (64 :: 0 :: List.replicate 63 0 ++ [0, 0, 1, 0, 1, 0, 0, 0, 60, 0, 0]) ++
    [0, 0, 1, 0, 1, 0, 0, 0, 60, 0, 0]

def oddHandle : NsMsg :=
  ⟨oddMessage, 0, 0x8000, [0, 2, 0, 0], [none, some 12, none, none], 4, -1, none⟩

/-- Behind the first record the second one is read from the wrong place, by its number and as the next one. -/
theorem nsParserr_oddName : nsInitparse oddMessage = some oddHandle ∧
      (nsParserr (nsRun oddHandle [(1, 0)]) 1 1).1 ≠ (nsParserr oddHandle 1 1).1 ∧
      (nsParserr (nsRun oddHandle [(1, 0)]) 1 (-1)).1 ≠ (nsParserr oddHandle 1 1).1 := by
  decide +kernel

end Crabc.Libc
