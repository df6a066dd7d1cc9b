/-
  Crabc.Iconv.Convert

  `Converter::convert_with` of `crabc-core/src/iconv.rs` over a caller's buffer,
  and the run it performs: the scalars of the input that fit, one after the
  other, with nothing written behind them.
-/

import Crabc.Lib.Loop
import Crabc.Lib.Transducer
import Crabc.Iconv.CodecLaws

namespace Crabc.Iconv

open Crabc.Lib Encoding List

/-- `iconv.rs::Unrepresentable`. -/
inductive Unrepresentable where
  | error
  | byte (replacement : UInt8)
deriving DecidableEq, Repr

/-- `iconv.rs::Conversion`. -/
structure Conversion where
  consumed : Nat
  produced : Nat
  substitutions : Nat
deriving DecidableEq, Repr

/-- `iconv.rs::ConvertError`. -/
inductive ConvertError where
  | unsupported (src dst : Encoding)
  | incomplete (consumed produced : Nat)
  | invalid (consumed produced : Nat)
  | outputFull (consumed produced : Nat)
  | unrepresentable (consumed produced codepoint : Nat)
deriving DecidableEq, Repr

/-- `ConvertError::consumed`. -/
def ConvertError.consumed : ConvertError → Nat
  | .unsupported .. => 0
  | .incomplete c _ | .invalid c _ | .outputFull c _ | .unrepresentable c _ _ => c

/-- `ConvertError::produced`. -/
def ConvertError.produced : ConvertError → Nat
  | .unsupported .. => 0
  | .incomplete _ p | .invalid _ p | .outputFull _ p | .unrepresentable _ p _ => p

/-- `iconv.rs::Converter`; the fields are `from` and `to`. -/
structure Converter where
  src : Encoding
  dst : Encoding
deriving DecidableEq, Repr

/-- The local variables of `convert_with`, with the caller's buffer. -/
structure ConvertState where
  consumed : Nat
  produced : Nat
  substitutions : Nat
  output : List UInt8
deriving DecidableEq, Repr

/-- What a call leaves behind: its result, the buffer, and the value of the
    local counter `substitutions`, which an error does not carry. -/
structure Outcome where
  result : Except ConvertError Conversion
  output : List UInt8
  substitutions : Nat
deriving DecidableEq

/-- Overwrite `output[i..i + bytes.len()]`. -/
def writeAt (output : List UInt8) (i : Nat) (bytes : List UInt8) : List UInt8 :=
  output.take i ++ bytes ++ output.drop (i + bytes.length)

/-- One round of the `while` loop of `convert_with`. -/
def convertBody (conv : Converter) (policy : Unrepresentable) (input : List UInt8)
    (st : ConvertState) : Next ConvertState Outcome :=
  let stop (e : ConvertError) : Next ConvertState Outcome :=
    .done ⟨.error e, st.output, st.substitutions⟩
  if st.consumed < input.length then
    match decodeScalar conv.src (input.drop st.consumed) with
    | .error .incomplete => stop (.incomplete st.consumed st.produced)
    | .error .invalid => stop (.invalid st.consumed st.produced)
    | .ok (codepoint, sourceLen) =>
      match encodeScalar conv.dst codepoint with
      | none =>
        match policy with
        | .error => stop (.unrepresentable st.consumed st.produced codepoint)
        | .byte replacement =>
          if st.output.length - st.produced < 1 then stop (.outputFull st.consumed st.produced)
          else
            .again
              { output := writeAt st.output st.produced [replacement]
                produced := st.produced + 1
                consumed := st.consumed + sourceLen
                substitutions := st.substitutions + 1 }
      | some encoded =>
        if st.output.length - st.produced < encoded.length then
          stop (.outputFull st.consumed st.produced)
        else
          .again
            { output := writeAt st.output st.produced encoded
              consumed := st.consumed + sourceLen
              produced := st.produced + encoded.length
              substitutions := st.substitutions }
  else .done ⟨.ok ⟨st.consumed, st.produced, st.substitutions⟩, st.output, st.substitutions⟩

/-- `Converter::convert_with`.  A round consumes at least one byte, so one more
    round than there are bytes is enough. -/
def Converter.convertWith (conv : Converter) (input output : List UInt8)
    (policy : Unrepresentable) : Option Outcome :=
  if !conv.src.isSupported || !conv.dst.isSupported then
    some ⟨.error (.unsupported conv.src conv.dst), output, 0⟩
  else loop (convertBody conv policy input) (input.length + 1) ⟨0, 0, 0, output⟩

/-- `Converter::convert`. -/
def Converter.convert (conv : Converter) (input output : List UInt8) : Option Outcome :=
  conv.convertWith input output .error

/-! ## The converter as a transducer -/

/-- Why the converter gives up at a scalar. -/
inductive Fault where
  | invalid
  | unrepresentable (codepoint : Nat)
deriving DecidableEq, Repr

/-- One scalar of the conversion, without a buffer. -/
def scalarStep (conv : Converter) (policy : Unrepresentable) (s : List UInt8) : Act UInt8 Fault :=
  match decodeScalar conv.src s with
  | .error .incomplete => .need
  | .error .invalid => .fail .invalid
  | .ok (codepoint, sourceLen) =>
    match encodeScalar conv.dst codepoint with
    | some encoded => .emit sourceLen encoded false
    | none =>
      match policy with
      | .error => .fail (.unrepresentable codepoint)
      | .byte replacement => .emit sourceLen [replacement] true

variable {conv : Converter} {out s : List UInt8} {st : ConvertState} {policy : Unrepresentable} {m : Bool} {n : Nat}

/-- `scalarStep` emits only after decoding a scalar. -/
theorem scalarStep_emit (h : scalarStep conv policy s = .emit n out m) : ∃ c, decodeScalar conv.src s = .ok (c, n) ∧
      ((encodeScalar conv.dst c = some out ∧ m = false) ∨
        (encodeScalar conv.dst c = none ∧ m = true ∧ ∃ b, policy = .byte b ∧ out = [b])) := by
  unfold scalarStep at h
  split at h
  · cases h
  · cases h
  · rename_i c len hd
    split at h
    · rename_i encoded he
      cases h
      exact ⟨c, hd, Or.inl ⟨he, rfl⟩⟩
    · rename_i he
      split at h
      · cases h
      · cases h
        exact ⟨c, hd, Or.inr ⟨he, rfl, _, rfl, rfl⟩⟩

/-- A decoded scalar is treated the same whatever follows it. -/
theorem scalarStep_congr {s' : List UInt8} (h : decodeScalar conv.src s = decodeScalar conv.src s') :
    scalarStep conv policy s = scalarStep conv policy s' := by
  unfold scalarStep
  rw [h]

/-- A converter between supported encodings. -/
structure Supported (conv : Converter) : Prop where
  src : conv.src.isSupported = true
  dst : conv.dst.isSupported = true

theorem scalarStep_fail {e : Fault} (h : scalarStep conv policy s = .fail e) :
    decodeScalar conv.src s = .error .invalid ∨ ∃ r, decodeScalar conv.src s = .ok r := by
  unfold scalarStep at h
  split at h
  · cases h
  · exact Or.inl ‹_›
  · exact Or.inr ⟨_, ‹_›⟩

/-- The conversion of a supported pair is a prefix-stable transducer. -/
def transducer (conv : Converter) (policy : Unrepresentable) (hs : Supported conv) :
    Transducer UInt8 UInt8 Fault where
  step := scalarStep conv policy
  width := 4
  emit_pos h := by
    obtain ⟨c, hd, -⟩ := scalarStep_emit h
    exact ((lawful hs.src).decode_ok hd).2.2.1
  emit_le h := by
    obtain ⟨c, hd, -⟩ := scalarStep_emit h
    exact ((lawful hs.src).decode_ok hd).2.2.2
  emit_width h := by
    obtain ⟨c, -, ⟨he, -⟩ | ⟨-, -, b, -, rfl⟩⟩ := scalarStep_emit h
    · exact ((lawful hs.dst).encode_length he).2
    · simp
  emit_append t h := by
    obtain ⟨c, hd, -⟩ := scalarStep_emit h
    rw [← h]
    exact scalarStep_congr (((lawful hs.src).decode_append hd t).trans hd.symm)
  fail_append t h := by
    rw [← h]
    refine scalarStep_congr ?_
    rcases scalarStep_fail h with hd | ⟨r, hd⟩
    · exact ((lawful hs.src).invalid_append hd t).trans hd.symm
    · exact ((lawful hs.src).decode_append hd t).trans hd.symm

/-- The result a stop is reported as. -/
def exitResult (consumed produced substitutions : Nat) :
    Exit Fault → Except ConvertError Conversion
  | .done => .ok ⟨consumed, produced, substitutions⟩
  | .need => .error (.incomplete consumed produced)
  | .full => .error (.outputFull consumed produced)
  | .fail .invalid => .error (.invalid consumed produced)
  | .fail (.unrepresentable c) => .error (.unrepresentable consumed produced c)

/-! ## The loop follows the transducer -/

/-- The loop has written `out` in front of the untouched rest of the buffer. -/
structure Written (T : Transducer UInt8 UInt8 Fault) (input output : List UInt8)
    (st : ConvertState) (out : List UInt8) : Prop where
  reaches : Reaches T input st.consumed out st.substitutions
  produced : st.produced = out.length
  fits : out.length ≤ output.length
  buffer : st.output = out ++ output.drop out.length

variable {T : Transducer UInt8 UInt8 Fault} {input output : List UInt8}

theorem Written.room (h : Written T input output st out) :
    st.output.length - st.produced = output.length - out.length := by
  rw [h.buffer, h.produced, length_append, length_drop]
  omega

theorem writeAt_append {rest bytes : List UInt8} :
    writeAt (out ++ rest) out.length bytes = out ++ bytes ++ rest.drop bytes.length := by
  rw [writeAt, take_left, drop_length_add_append]

/-- Writing one more unit behind what is written. -/
theorem Written.emit (h : Written T input output st out) {o : List UInt8}
    (hstep : T.step (input.drop st.consumed) = .emit n o m) (hroom : ¬ st.output.length - st.produced < o.length) :
    Written T input output
      ⟨st.consumed + n, st.produced + o.length, st.substitutions + m.toNat,
        writeAt st.output st.produced o⟩ (out ++ o) where
  reaches := h.reaches.snoc hstep
  produced := by rw [length_append, h.produced]
  fits := by
    have hfits := h.fits
    rw [h.room] at hroom
    rw [length_append]
    omega
  buffer := by
    rw [h.buffer, h.produced, writeAt_append, drop_drop, length_append]

/-- One round is one step of the transducer, checked against the room left. -/
theorem convertBody_eq (conv : Converter) (st : ConvertState) : convertBody conv policy input st =
      let stop (e : Exit Fault) : Next ConvertState Outcome :=
        .done ⟨exitResult st.consumed st.produced st.substitutions e, st.output, st.substitutions⟩
      if st.consumed < input.length then
        match scalarStep conv policy (input.drop st.consumed) with
        | .need => stop .need
        | .fail e => stop (.fail e)
        | .emit n o m =>
          if st.output.length - st.produced < o.length then stop .full
          else
            .again ⟨st.consumed + n, st.produced + o.length, st.substitutions + m.toNat,
              writeAt st.output st.produced o⟩
      else stop .done := by
  unfold convertBody scalarStep
  cases decodeScalar conv.src (input.drop st.consumed) with
  | error e => cases e <;> rfl
  | ok r =>
    obtain ⟨c, n⟩ := r
    cases he : encodeScalar conv.dst c with
    | some encoded => simp only [he]; rfl
    | none => cases policy <;> simp only [he] <;> rfl

variable {conv : Converter} (hs : Supported conv)

section

variable (h : Written (transducer conv policy hs) input output st out)
include h

/-- A round that goes on has written one more unit. -/
theorem convertBody_again {st' : ConvertState} (hb : convertBody conv policy input st = .again st') :
    (∃ out', Written (transducer conv policy hs) input output st' out') ∧ st.consumed < st'.consumed := by
  rw [convertBody_eq] at hb
  split_ifs at hb with hlt
  split at hb
  · cases hb
  · cases hb
  · rename_i n o m hstep
    split_ifs at hb with hroom
    cases hb
    have hpos := (transducer conv policy hs).emit_pos hstep
    exact ⟨⟨out ++ o, h.emit hstep hroom⟩, Nat.lt_add_of_pos_right hpos⟩

/-- A round that returns reports the stop of a call. -/
theorem convertBody_done {r : Outcome} (hb : convertBody conv policy input st = .done r) :
    ∃ e, r = ⟨exitResult st.consumed out.length st.substitutions e, out ++ output.drop out.length, st.substitutions⟩ ∧
      Call (transducer conv policy hs) output.length input st.consumed out st.substitutions e := by
  have hle := h.reaches.le_length
  rw [convertBody_eq, h.room, h.produced, h.buffer] at hb
  split_ifs at hb with hlt
  · split at hb
    · cases hb
      exact ⟨.need, rfl, h.reaches, h.fits, Nat.ne_of_lt hlt, ‹_›⟩
    · cases hb
      exact ⟨.fail _, rfl, h.reaches, h.fits, Nat.ne_of_lt hlt, ‹_›⟩
    · rename_i n o m hstep
      split_ifs at hb with hroom
      cases hb
      exact ⟨.full, rfl, h.reaches, h.fits, n, o, m, hstep, by omega⟩
  · cases hb
    exact ⟨.done, rfl, h.reaches, h.fits, by show st.consumed = _; omega⟩

end

/-- **A call returns**, having performed one bounded call of the transducer and
    written its output in front of the untouched rest of the buffer. -/
theorem convertWith_call (policy : Unrepresentable) (input output : List UInt8) : ∃ k out c e,
      conv.convertWith input output policy = some ⟨exitResult k out.length c e, out ++ output.drop out.length, c⟩ ∧
      Call (transducer conv policy hs) output.length input k out c e := by
  have hloop := loop_correct (convertBody conv policy input)
    (fun st => ∃ out, Written (transducer conv policy hs) input output st out)
    (fun st => input.length - st.consumed)
    (fun r => ∃ k out c e, r = ⟨exitResult k out.length c e, out ++ output.drop out.length, c⟩ ∧
      Call (transducer conv policy hs) output.length input k out c e)
    (fun st ⟨out, hw⟩ => by
      cases hb : convertBody conv policy input st with
      | again st' =>
        obtain ⟨⟨out', hw'⟩, hlt⟩ := convertBody_again hs hw hb
        have hle := hw'.reaches.le_length
        exact ⟨⟨out', hw'⟩, by omega⟩
      | done r =>
        obtain ⟨e, hr, hcall⟩ := convertBody_done hs hw hb
        exact ⟨_, _, _, e, hr, hcall⟩)
    (input.length + 1) ⟨0, 0, 0, output⟩
    ⟨[], .nil, rfl, Nat.zero_le _, rfl⟩ (by simp)
  obtain ⟨r, hr, k, out, c, e, rfl, hcall⟩ := hloop
  refine ⟨k, out, c, e, ?_, hcall⟩
  rw [Converter.convertWith, hs.src, hs.dst]
  exact hr

end Crabc.Iconv
