/-
  Crabc.Dns.Answers

  `DnsResponse::rdata_at` of `crabc-core/src/resolver.rs`, and that every reader of
  names and records ends inside the packet, whatever its bytes are.
-/

import Crabc.Dns.Reply
import Crabc.Lib.Loop

namespace Crabc.Dns

open Crabc.Lib Checked List

def typeCname : UInt16 := 5

def typePtr : UInt16 := 12

variable {packet : List UInt8} (r : DnsResponse) (recordType : UInt16) (ordinal : Nat) (output : List UInt8)

/-- A round of `rdata_at`, at an offset and with so many records found. -/
def DnsResponse.rdataRound (s : Nat × Nat) : Checked Errno (Next (Nat × Nat) (Nat × List UInt8)) := do
  let nameEnd ← skipName r.packet s.1
  if nameEnd + 10 > r.packet.length then .error malformed
  else
    let kind ← wordAt r.packet nameEnd
    let dnsClass ← wordAt r.packet (nameEnd + 2)
    let length ← wordAt r.packet (nameEnd + 8)
    let data := nameEnd + 10
    if data + length.toNat > r.packet.length then .error malformed
    else if kind = recordType ∧ dnsClass = classIn then
      if s.2 = ordinal then
        if recordType = typeCname ∨ recordType = typePtr then do
          let expanded ← expandName r.packet data output
          pure (.done expanded)
        else if length.toNat > output.length then .error msgSize
        else do
          let rdata ← .slice r.packet data (data + length.toNat)
          let output ← .blit output 0 rdata
          pure (.done (length.toNat, output))
      else pure (.again (data + length.toNat, s.2 + 1))
    else pure (.again (data + length.toNat, s.2))

/-- The loop of `rdata_at` over the records that are left. -/
def DnsResponse.rdataLoop : Nat → Nat × Nat → Checked Errno (Option Nat × List UInt8)
  | 0, _ => pure (none, output)
  | count + 1, s => do
    match ← r.rdataRound recordType ordinal output s with
    | .done (length, output) => pure (some length, output)
    | .again s => DnsResponse.rdataLoop count s

/-- `rdata_at`: the length of what it copied, if it found the record, and the buffer. -/
def DnsResponse.rdataAt : Checked Errno (Option Nat × List UInt8) :=
  r.rdataLoop recordType ordinal output r.answerCount.toNat (r.answerOffset, 0)

theorem WireName.le_length {start stop : Nat} (h : WireName packet start stop) : stop ≤ packet.length := by
  induction h with
  | root hbyte => exact (List.getElem?_eq_some_iff.mp hbyte).1
  | label hbyte hpos hle hroom hrest ih => exact ih
  | pointer hhigh hlow => exact (List.getElem?_eq_some_iff.mp hlow).1

theorem Record.lt {start stop : Nat} (h : Record packet start stop) : start < stop := by
  obtain ⟨nameEnd, rdataLength, hname, -, rfl⟩ := h.framed
  have := hname.lt
  omega

theorem meets_blit {buffer bytes : List UInt8} {i : Nat} (h : i + bytes.length ≤ buffer.length) :
    (blit buffer i bytes : Checked Errno (List UInt8)).Meets fun buffer' => buffer'.length = buffer.length := by
  rw [blit, inRange_ok h]
  refine meets_ok ?_
  simp only [length_append, length_take, length_drop]
  omega

theorem meets_dot {r : NameReader} : r.dot.Meets fun r' => r'.jumps = r.jumps := by
  refine meets_ite (fun _ => meets_guard fun hroom => ?_) fun _ => meets_ok rfl
  exact (meets_blit (by rw [length_singleton]; omega)).bind fun output _ => meets_ok rfl

theorem meets_label (length : Nat) (r : NameReader) : (r.label packet length).Meets fun r' =>
    r'.offset = r.offset + 1 + length ∧ r'.offset ≤ packet.length ∧ r'.jumps = r.jumps := by
  refine meets_guard fun hinside => meets_dot.bind fun r' hr => meets_guard fun hroom => ?_
  rw [slice_ok (by omega) (by omega), ok_bind]
  refine (meets_blit ?_).bind fun output _ => meets_ok ⟨rfl, by dsimp only; omega, hr⟩
  rw [length_take]
  omega

/-- The rounds left are more than the jumps left, each with a walk over the whole packet, and the rest of
    this walk: a pointer uses up a jump, and a label moves on. -/
theorem expandNameLoop_meets (rounds : Nat) (r : NameReader) (hjumps : r.jumps ≤ 128)
    (hrounds : (128 - r.jumps) * (packet.length + 1) + (packet.length - r.offset) < rounds) :
    (expandNameLoop packet rounds r).Meets fun _ => True := by
  induction rounds generalizing r with
  | zero => omega
  | succ rounds ih =>
    refine meets_guard fun hoffset => (meets_index (by omega)).bind fun length hbyte => ?_
    refine meets_ite (fun _ => ?_) fun _ => meets_guard fun hle => ?_
    · refine (meets_compressionTarget hbyte).bind fun target htarget => meets_guard fun hmore => ?_
      obtain ⟨jumps, hj⟩ : ∃ jumps, 128 - r.jumps = jumps + 1 := ⟨127 - r.jumps, by omega⟩
      rw [hj, Nat.succ_mul] at hrounds
      refine ih _ (by dsimp only; omega) ?_
      rw [show 128 - (r.jumps + 1) = jumps by omega]
      omega
    · refine meets_ite (fun _ => ?_) fun _ => ?_
      · refine meets_ite (fun _ => meets_guard fun hne => ?_) fun _ => meets_ok trivial
        exact (meets_blit (length_pos_iff.mpr hne)).bind fun output _ => meets_ok trivial
      · refine (meets_label length.toNat r).bind fun r' ⟨hoffset', hinside, hjumps'⟩ => ?_
        exact ih r' (by omega) (by rw [hjumps']; omega)

theorem expandName_meets (start : Nat) : (expandName packet start output).Meets fun _ => True :=
  expandNameLoop_meets _ _ (Nat.zero_le _) (by dsimp only; omega)

/-- A round of `rdata_at` that goes on is behind a record. -/
theorem rdataRound_meets (s : Nat × Nat) : (r.rdataRound recordType ordinal output s).Meets fun next =>
    ∀ s', next = .again s' → Record r.packet s.1 s'.1 := by
  refine skipName_meets.bind fun nameEnd hname => meets_guard fun hroom => ?_
  refine (meets_wordAt (by omega)).bind fun kind _ => (meets_wordAt (by omega)).bind fun dnsClass _ => ?_
  refine (meets_wordAt (by omega)).bind fun length hlength => meets_guard fun hinside => ?_
  have hrecord : Record r.packet s.1 (nameEnd + 10 + length.toNat) := ⟨⟨nameEnd, length, hname, hlength, rfl⟩, by omega⟩
  refine meets_ite (fun _ => meets_ite (fun _ => meets_ite (fun _ => ?_) fun _ => ?_) fun _ => ?_) fun _ => ?_
  · exact (expandName_meets output _).bind fun _ _ => meets_ok nofun
  · refine meets_guard fun hfits => ?_
    rw [slice_ok (by omega) (by omega), ok_bind]
    exact (meets_blit (by rw [length_take]; omega)).bind fun _ _ => meets_ok nofun
  all_goals exact meets_ok fun s' hs => by cases hs; exact hrecord

theorem rdataLoop_meets (count : Nat) (s : Nat × Nat) :
    (r.rdataLoop recordType ordinal output count s).Meets fun _ => True := by
  induction count generalizing s with
  | zero => exact meets_ok trivial
  | succ count ih =>
    refine (rdataRound_meets r recordType ordinal output s).bind fun next _ => ?_
    cases next with
    | done found => exact meets_ok trivial
    | again s' => exact ih s'

/-- **Hostile packets.**  The readers return a value or an error on every packet, without a read outside it,
    and a name that is skipped ends behind its start and inside the packet.  The records that `rdata_at` and
    `has_complete_records` visit start at larger and larger offsets.  `has_complete_records` reads the counts
    of the header, which must be there. -/
theorem readers_bounded (packet : List UInt8) :
    (∀ offset, (skipName packet offset).Meets fun stop => offset < stop ∧ stop ≤ packet.length) ∧
    (∀ start output, (expandName packet start output).Meets fun _ => True) ∧
    (∀ (r : DnsResponse) (recordType : UInt16) (ordinal : Nat) (output : List UInt8), r.packet = packet →
      (r.rdataAt recordType ordinal output).Meets (fun _ => True) ∧
      ∀ s, (r.rdataRound recordType ordinal output s).Meets fun next =>
        ∀ s', next = .again s' → s.1 < s'.1 ∧ s'.1 ≤ packet.length) ∧
    (∀ offset, (recordEnd packet offset).Meets fun stop => offset < stop ∧ stop ≤ packet.length) ∧
    (12 ≤ packet.length → ∀ offset, (hasCompleteRecords packet offset).Meets fun _ => True) := by
  refine ⟨fun offset => ?_, fun start output => expandName_meets output start, ?_, fun offset => ?_, fun hheader offset => ?_⟩
  · exact skipName_meets.mono fun stop hname => ⟨hname.lt, hname.le_length⟩
  · rintro r recordType ordinal output rfl
    refine ⟨rdataLoop_meets .., fun s => (rdataRound_meets r recordType ordinal output s).mono ?_⟩
    exact fun next hnext s' hs => ⟨(hnext s' hs).lt, (hnext s' hs).inside⟩
  · exact recordEnd_meets.mono fun stop hrecord => ⟨hrecord.lt, hrecord.inside⟩
  · exact (hasCompleteRecords_meets hheader).mono fun _ _ => trivial

theorem readers_bounded_header : (hasCompleteRecords (replicate 12 0) 12).Meets fun _ => True :=
  (readers_bounded (replicate 12 0)).2.2.2.2 (by decide) 12

/-- Without a header `has_complete_records` reads outside the packet. -/
theorem hasCompleteRecords_empty : hasCompleteRecords [] 0 = .panic := rfl

end Crabc.Dns
