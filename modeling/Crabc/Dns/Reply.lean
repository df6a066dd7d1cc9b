/-
  Crabc.Dns.Reply

  The tests that a received packet passes before it is an answer:
  `one_question_end`, `matching_question_end` and `has_complete_records` of
  `crabc-core/src/resolver.rs`, and the shape of the packets that pass them.
-/

import Crabc.Dns.Name

namespace Crabc.Dns

open Crabc.Lib Checked Decidable

/-! ## The tests -/

/-- `one_question_end`. -/
def oneQuestionEnd (packet : List UInt8) : Checked Errno Nat :=
  if packet.length < 12 then .error malformed
  else do
    let questions ← wordAt packet 4
    if questions ≠ 1 then .error malformed
    else
      let nameEnd ← skipName packet 12
      if nameEnd + 4 > packet.length then .error malformed else pure (nameEnd + 4)

/-- The last test of `matching_question_end`. -/
def sameQuestion (packet query : List UInt8) (packetEnd queryEnd : Nat) :
    Checked Errno (Option Nat) := do
  let question ← .slice packet 12 packetEnd
  let asked ← .slice query 12 queryEnd
  if question ≠ asked then pure none else pure (some packetEnd)

/-- `matching_question_end`. -/
def matchingQuestionEnd (packet query : List UInt8) (queryId : UInt16) :
    Checked Errno (Option Nat) :=
  if packet.length < 12 then pure none
  else do
    let id ← wordAt packet 0
    let flags ← .index packet 2
    if id ≠ queryId ∨ flags &&& 0x80 = 0 ∨ flags &&& 0x78 ≠ 0 then pure none
    else
      match ← (oneQuestionEnd query).result with
      | none => pure none
      | some queryEnd =>
        match ← (oneQuestionEnd packet).result with
        | none => pure none
        | some packetEnd => sameQuestion packet query packetEnd queryEnd

/-- The end of the record at `offset`; an error is the `false` of `has_complete_records`. -/
def recordEnd (packet : List UInt8) (offset : Nat) : Checked Errno Nat := do
  let nameEnd ← skipName packet offset
  if nameEnd + 10 > packet.length then .error malformed
  else
    let rdataLength ← wordAt packet (nameEnd + 8)
    let stop := nameEnd + 10 + rdataLength.toNat
    if stop > packet.length then .error malformed else pure stop

/-- The inner loop of `has_complete_records`. -/
def recordsEnd (packet : List UInt8) : Nat → Nat → Checked Errno Nat
  | 0, offset => pure offset
  | count + 1, offset => do
    let stop ← recordEnd packet offset
    recordsEnd packet count stop

/-- The outer loop of `has_complete_records`, over the offsets of the counts. -/
def sectionsEnd (packet : List UInt8) : List Nat → Nat → Checked Errno Nat
  | [], offset => pure offset
  | countOffset :: rest, offset => do
    let count ← wordAt packet countOffset
    let stop ← recordsEnd packet count.toNat offset
    sectionsEnd packet rest stop

/-- `has_complete_records`. -/
def hasCompleteRecords (packet : List UInt8) (offset : Nat) : Checked Errno Bool := do
  let stop ← (sectionsEnd packet [6, 8, 10] offset).result
  pure (stop = some packet.length)

/-! ## The shape of packets -/

/-- An encoded name lies between the two offsets: labels up to the root, or up to a
    pointer to a name that starts before the pointer and behind the header. -/
inductive WireName (packet : List UInt8) : Nat → Nat → Prop
  | root {offset : Nat} (hbyte : packet[offset]? = some 0) : WireName packet offset (offset + 1)
  | label {offset stop : Nat} {length : UInt8} (hbyte : packet[offset]? = some length)
      (hpos : 0 < length.toNat) (hle : length.toNat ≤ 63)
      (hroom : offset + 1 + length.toNat ≤ packet.length)
      (hrest : WireName packet (offset + 1 + length.toNat) stop) : WireName packet offset stop
  | pointer {offset target stop : Nat} {high low : UInt8} (hhigh : packet[offset]? = some high)
      (hlow : packet[offset + 1]? = some low) (htag : high &&& 0xc0 = 0xc0)
      (htarget : target = (high &&& 0x3f).toNat * 256 + low.toNat) (hheader : 12 ≤ target)
      (hback : target < offset) (hrest : WireName packet target stop) :
      WireName packet offset (offset + 2)

/-- The packet has one question, which ends at `stop`. -/
structure Question (packet : List UInt8) (stop : Nat) : Prop where
  one : wordAt packet 4 = .ok 1
  name : ∃ nameEnd, WireName packet 12 nameEnd ∧ stop = nameEnd + 4
  inside : stop ≤ packet.length

/-- One resource record lies between the two offsets, inside the packet. -/
structure Record (packet : List UInt8) (start stop : Nat) : Prop where
  framed : ∃ nameEnd rdataLength, WireName packet start nameEnd ∧
    wordAt packet (nameEnd + 8) = .ok rdataLength ∧ stop = nameEnd + 10 + rdataLength.toNat
  inside : stop ≤ packet.length

/-- So many records follow each other between the two offsets. -/
inductive Records (packet : List UInt8) : Nat → Nat → Nat → Prop
  | nil (offset : Nat) : Records packet 0 offset offset
  | cons {count start next stop : Nat} (hrecord : Record packet start next)
      (hrest : Records packet count next stop) : Records packet (count + 1) start stop

/-- The records that the three counts of the header declare fill the packet from `start` to its end. -/
def CompleteRecords (packet : List UInt8) (start : Nat) : Prop :=
  ∃ answers authorities additionals, wordAt packet 6 = .ok answers ∧
    wordAt packet 8 = .ok authorities ∧ wordAt packet 10 = .ok additionals ∧
    Records packet (answers.toNat + authorities.toNat + additionals.toNat) start packet.length

/-- A reply to the query whose question ends at `stop`. -/
structure Correlated (packet query : List UInt8) (queryId : UInt16) (stop : Nat) : Prop where
  id : wordAt packet 0 = .ok queryId
  flags : ∃ flags, packet[2]? = some flags ∧ flags &&& 0x80 ≠ 0 ∧ flags &&& 0x78 = 0
  question : Question packet stop
  asked : ∃ queryEnd, Question query queryEnd ∧ (packet.drop 12).take (stop - 12) = (query.drop 12).take (queryEnd - 12)

/-! ## The tests mean the shape -/

variable {packet : List UInt8} {stop offset start : Nat}

theorem meets_wordAt (h : offset + 1 < packet.length) :
    (wordAt packet offset).Meets fun word => wordAt packet offset = .ok word := by
  have hhigh := List.getElem?_eq_getElem (Nat.lt_of_succ_lt h)
  have hlow := List.getElem?_eq_getElem h
  have hword : ∃ word, wordAt packet offset = .ok word :=
    ⟨_, by rw [wordAt, index_ok hhigh, ok_bind, index_ok hlow]; rfl⟩
  obtain ⟨word, hword⟩ := hword
  rw [hword]
  exact meets_ok rfl

theorem WireName.lt (h : WireName packet start stop) : start < stop := by
  induction h with
  | root => omega
  | label hbyte hpos hle hroom hrest ih => omega
  | pointer => omega

theorem Question.header_lt (h : Question packet stop) : 12 < stop := by
  obtain ⟨nameEnd, hname, rfl⟩ := h.name
  have := hname.lt
  omega

theorem meets_compressionTarget {high : UInt8} (hhigh : packet[offset]? = some high) :
    (compressionTarget packet offset).Meets fun target => ∃ low, packet[offset + 1]? = some low ∧
      target = (high &&& 0x3f).toNat * 256 + low.toNat ∧ 12 ≤ target ∧ target < offset := by
  apply meets_guard
  intro hroom
  rw [index_ok hhigh, ok_bind]
  apply (meets_index (by omega)).bind
  intro low hlow
  apply meets_guard
  intro hrange
  exact meets_ok ⟨low, hlow, rfl, by omega, by omega⟩

/-- The rounds and the counted steps add up, so the loop ends by its own count; the
    first pointer fixes where the name ends. -/
theorem skipNameLoop_meets (packet : List UInt8) (rounds offset : Nat) (encodedEnd : Option Nat)
    (steps : Nat) (hrounds : rounds + steps = 129) (hsteps : steps ≤ 128) :
    (skipNameLoop packet rounds offset encodedEnd steps).Meets fun stop =>
      ∃ here, WireName packet offset here ∧ stop = encodedEnd.getD here := by
  induction rounds generalizing offset encodedEnd steps with
  | zero => omega
  | succ rounds ih =>
    apply meets_guard
    intro hoffset
    apply (meets_index (by omega)).bind
    intro length hbyte
    apply meets_ite
    · intro htag
      apply (meets_compressionTarget hbyte).bind
      rintro target ⟨low, hlow, htarget, hheader, hback⟩
      apply meets_guard
      intro hmore
      apply (ih target _ (steps + 1) (by omega) (by omega)).mono
      rintro stop ⟨there, hname, rfl⟩
      refine ⟨offset + 2, .pointer hbyte hlow htag htarget hheader hback hname, ?_⟩
      cases encodedEnd <;> rfl
    · intro htag
      apply meets_guard
      intro hle
      have hle' : length.toNat ≤ 63 := UInt8.le_iff_toNat_le.mp (UInt8.not_lt.mp hle)
      apply meets_ite
      · intro hzero
        exact meets_ok ⟨offset + 1, .root (hzero ▸ hbyte), rfl⟩
      · intro hzero
        have hpos : 0 < length.toNat :=
          Nat.pos_of_ne_zero fun h => hzero (UInt8.toNat_inj.mp h)
        apply meets_guard
        intro hroom
        apply meets_guard
        intro hmore
        apply (ih _ encodedEnd (steps + 1) (by omega) (by omega)).mono
        rintro stop ⟨here, hname, rfl⟩
        exact ⟨here, .label hbyte hpos hle' (by omega) hname, rfl⟩

theorem skipName_meets : (skipName packet offset).Meets (WireName packet offset) := by
  apply (skipNameLoop_meets packet 129 offset none 0 rfl (by omega)).mono
  rintro stop ⟨here, hname, rfl⟩
  exact hname

theorem oneQuestionEnd_meets : (oneQuestionEnd packet).Meets (Question packet) := by
  apply meets_guard
  intro hheader
  apply (meets_wordAt (by omega)).bind
  intro questions hquestions
  apply meets_guard
  intro hone
  apply skipName_meets.bind
  intro nameEnd hname
  apply meets_guard
  intro hroom
  rw [not_not] at hone
  exact meets_ok ⟨hone ▸ hquestions, ⟨nameEnd, hname, rfl⟩, by omega⟩

theorem meets_slice_question (h : Question packet stop) : (slice packet 12 stop : Checked Errno (List UInt8)).Meets
      fun question => question = (packet.drop 12).take (stop - 12) := by
  rw [slice_ok (Nat.le_of_lt h.header_lt) h.inside]
  exact meets_ok rfl

theorem matchingQuestionEnd_meets (packet query : List UInt8) (queryId : UInt16) :
    (matchingQuestionEnd packet query queryId).Meets fun o =>
      ∀ stop, o = some stop → Correlated packet query queryId stop := by
  apply meets_ite
  · exact fun _ => meets_ok nofun
  intro hheader
  apply (meets_wordAt (by omega)).bind
  intro id hid
  apply (meets_index (by omega)).bind
  intro flags hflags
  apply meets_ite
  · exact fun _ => meets_ok nofun
  intro htests
  simp only [not_or, not_not] at htests
  apply oneQuestionEnd_meets.result.bind
  intro asked hasked
  cases asked with
  | none => exact meets_ok nofun
  | some queryEnd =>
    apply oneQuestionEnd_meets.result.bind
    intro found hfound
    cases found with
    | none => exact meets_ok nofun
    | some packetEnd =>
      have hquery := hasked queryEnd rfl
      have hpacket := hfound packetEnd rfl
      apply (meets_slice_question hpacket).bind
      intro question hquestion
      apply (meets_slice_question hquery).bind
      intro question' hquestion'
      apply meets_ite
      · exact fun _ => meets_ok nofun
      intro hsame
      rw [not_not, hquestion, hquestion'] at hsame
      apply meets_ok
      rintro stop ⟨⟩
      exact ⟨htests.1 ▸ hid, ⟨flags, hflags, htests.2.1, htests.2.2⟩, hpacket, queryEnd, hquery, hsame⟩

theorem recordEnd_meets : (recordEnd packet offset).Meets (Record packet offset) := by
  apply skipName_meets.bind
  intro nameEnd hname
  apply meets_guard
  intro hroom
  apply (meets_wordAt (by omega)).bind
  intro rdataLength hlength
  apply meets_guard
  intro hinside
  exact meets_ok ⟨⟨nameEnd, rdataLength, hname, hlength, rfl⟩, by omega⟩

theorem recordsEnd_meets (packet : List UInt8) (count offset : Nat) :
    (recordsEnd packet count offset).Meets (Records packet count offset) := by
  induction count generalizing offset with
  | zero => exact meets_ok (.nil offset)
  | succ count ih =>
    apply recordEnd_meets.bind
    intro next hrecord
    exact (ih next).mono fun stop hrest => .cons hrecord hrest

theorem Records.append {count count' next : Nat} (h : Records packet count start next)
    (h' : Records packet count' next stop) : Records packet (count + count') start stop := by
  induction h with
  | nil offset => rwa [Nat.zero_add]
  | cons hrecord hrest ih =>
    rw [Nat.add_right_comm]
    exact .cons hrecord (ih h')

theorem sectionsEnd_meets (hheader : 12 ≤ packet.length) : (sectionsEnd packet [6, 8, 10] offset).Meets fun stop =>
      ∃ answers authorities additionals, wordAt packet 6 = .ok answers ∧
        wordAt packet 8 = .ok authorities ∧ wordAt packet 10 = .ok additionals ∧
        Records packet (answers.toNat + authorities.toNat + additionals.toNat) offset stop := by
  apply (meets_wordAt (by omega)).bind
  intro answers hanswers
  apply (recordsEnd_meets packet answers.toNat offset).bind
  intro stop hrecords
  apply (meets_wordAt (by omega)).bind
  intro authorities hauthorities
  apply (recordsEnd_meets packet authorities.toNat stop).bind
  intro stop' hrecords'
  apply (meets_wordAt (by omega)).bind
  intro additionals hadditionals
  apply (recordsEnd_meets packet additionals.toNat stop').bind
  intro stop'' hrecords''
  exact meets_ok ⟨answers, authorities, additionals, hanswers, hauthorities, hadditionals,
    (hrecords.append hrecords').append hrecords''⟩

theorem hasCompleteRecords_meets (hheader : 12 ≤ packet.length) :
    (hasCompleteRecords packet offset).Meets fun b => b = true → CompleteRecords packet offset := by
  apply (sectionsEnd_meets hheader).result.bind
  intro stop hstop
  apply meets_ok
  intro hend
  exact hstop _ (of_decide_eq_true hend)

end Crabc.Dns
