/-
  Crabc.Iconv.Resume

  Driving `convert_with` resumably: after `OutputFull` or `Incomplete` the
  caller restarts at `input[consumed..]`, with the next chunk appended, and at
  `output[produced..]`.  However the input is cut and the capacity bounded, the
  calls together do what one call on the whole input does.  An error carries no
  substitution count, so only the calls that return `Ok` report theirs.
-/

import Crabc.Iconv.Convert

namespace Crabc.Iconv

open Crabc.Lib Outcome Option

/-! ## The driver -/

def Outcome.consumed (r : Outcome) : Nat :=
  match r.result with
  | .ok c => c.consumed
  | .error e => e.consumed

def Outcome.produced (r : Outcome) : Nat :=
  match r.result with
  | .ok c => c.produced
  | .error e => e.produced

/-- The substitution count a call hands to its caller. -/
def Outcome.reported (r : Outcome) : Nat :=
  match r.result with
  | .ok c => c.substitutions
  | .error _ => 0

/-- The substitutions a call made without reporting them. -/
def Outcome.unreported (r : Outcome) : Nat :=
  match r.result with
  | .ok _ => 0
  | .error _ => r.substitutions

/-- The kind of a result; `none` stands for `Unsupported`. -/
def verdict : Except ConvertError Conversion → Option (Exit Fault)
  | .ok _ => some .done
  | .error (.incomplete ..) => some .need
  | .error (.outputFull ..) => some .full
  | .error (.invalid ..) => some (.fail .invalid)
  | .error (.unrepresentable _ _ c) => some (.fail (.unrepresentable c))
  | .error (.unsupported ..) => none

/-- The results after which the driver calls again. -/
def resumable (result : Except ConvertError Conversion) : Bool :=
  verdict result = some .done || verdict result = some .need || verdict result = some .full

/-- The totals of a drive, and the result of its last call. -/
structure Driven where
  consumed : Nat
  produced : Nat
  reported : Nat
  unreported : Nat
  output : List UInt8
  last : Except ConvertError Conversion
deriving DecidableEq

/-- A drive that ends with the call `r`, `rest` being the output behind the room the call was given. -/
def Outcome.driven (r : Outcome) (rest : List UInt8) : Driven :=
  ⟨r.consumed, r.produced, r.reported, r.unreported, r.output ++ rest, r.result⟩

/-- The call `r`, then the drive `d` on what it left. -/
def Outcome.andThen (r : Outcome) (rest : List UInt8) (d : Driven) : Driven :=
  ⟨r.consumed + d.consumed, r.produced + d.produced, r.reported + d.reported,
    r.unreported + d.unreported, (r.output ++ rest).take r.produced ++ d.output, d.last⟩

/-- Rounds of a next chunk and a bound on the room of the call. -/
def drive (conv : Converter) (policy : Unrepresentable) (pending output : List UInt8) :
    List (List UInt8 × Nat) → Option Driven
  | [] => none
  | (chunk, cap) :: rounds =>
    (conv.convertWith (pending ++ chunk) (output.take cap) policy).bind fun r =>
      if resumable r.result && !rounds.isEmpty then
        (drive conv policy ((pending ++ chunk).drop r.consumed)
          ((r.output ++ output.drop cap).drop r.produced) rounds).map
            (r.andThen (output.drop cap))
      else some (r.driven (output.drop cap))

/-! ## What a call returns -/

section call

variable (k p c : Nat) (out : List UInt8)

/-- The outcome of a call that stopped at `e`. -/
def callOutcome (e : Exit Fault) : Outcome := ⟨exitResult k p c e, out, c⟩

section

variable (e : Exit Fault)

theorem callOutcome_consumed : (callOutcome k p c out e).consumed = k := by
  rcases e with _ | _ | _ | ⟨_ | _⟩ <;> rfl

theorem callOutcome_produced : (callOutcome k p c out e).produced = p := by
  rcases e with _ | _ | _ | ⟨_ | _⟩ <;> rfl

theorem callOutcome_output : (callOutcome k p c out e).output = out := rfl

theorem callOutcome_reported : (callOutcome k p c out e).reported + (callOutcome k p c out e).unreported = c := by
  rcases e with _ | _ | _ | ⟨_ | _⟩ <;> simp [callOutcome, reported, unreported, exitResult]

theorem verdict_exitResult : verdict (exitResult k p c e) = some e := by
  rcases e with _ | _ | _ | ⟨_ | _⟩ <;> rfl

theorem resumable_exitResult : resumable (exitResult k p c e) = true ∨ ∃ f, e = .fail f := by
  rcases e with _ | _ | _ | ⟨_ | _⟩ <;> simp [resumable, exitResult, verdict]

end

end call

/-! ## The drive as a run of the transducer -/

/-- The rounds as the calls saw them: the same chunks, and room for a scalar
    wherever the round offered it, provided the output is long enough. -/
def SameRounds (roomy : Prop) (rounds sched : List (List UInt8 × Nat)) : Prop :=
  List.Forall₂ (fun a b => b.1 = a.1 ∧ (roomy → 4 ≤ a.2 → 4 ≤ b.2)) rounds sched

open List

theorem SameRounds.refl (roomy : Prop) (rounds : List (List UInt8 × Nat)) : SameRounds roomy rounds rounds :=
  forall₂_same.mpr fun _ _ => ⟨rfl, fun _ h => h⟩

variable {rounds : List (List UInt8 × Nat)} {output : List UInt8}

section

variable {roomy : Prop} {sched : List (List UInt8 × Nat)} (h : SameRounds roomy rounds sched)
include h

theorem SameRounds.delivered : delivered sched = delivered rounds := by
  induction h with
  | nil => rfl
  | @cons a b _ _ hab _ ih =>
    obtain ⟨chunk, cap⟩ := a
    obtain ⟨chunk', cap'⟩ := b
    obtain rfl : chunk' = chunk := hab.1
    rw [delivered_cons, delivered_cons, ih]

/-- Rounds that only offer room reach the calls as such. -/
theorem SameRounds.onlyRoom (hr : roomy) (hall : ∀ a ∈ rounds, a.1 = [] ∧ 4 ≤ a.2) :
    ∀ b ∈ sched, b.1 = [] ∧ 4 ≤ b.2 := by
  induction h with
  | nil => simp
  | cons hab _ ih =>
    rw [forall_mem_cons] at hall ⊢
    exact ⟨⟨hab.1.trans hall.1.1, hab.2 hr hall.1.2⟩, ih hall.2⟩

end

/-- The state a drive ends in, read off the run `k`, `out`, `c`, `e`. -/
structure Driven.Follows (d : Driven) (output : List UInt8) (k : Nat) (out : List UInt8) (c : Nat)
    (e : Exit Fault) : Prop where
  consumed : d.consumed = k
  produced : d.produced = out.length
  substitutions : d.reported + d.unreported = c
  buffer : d.output = out ++ output.drop out.length
  fits : out.length ≤ output.length
  last : verdict d.last = some e

/-- The buffer after a call into the first `cap` places of `output`. -/
theorem buffer_after {out : List UInt8} {cap : Nat} (h : out.length ≤ (output.take cap).length) :
    out ++ (output.take cap).drop out.length ++ output.drop cap = out ++ output.drop out.length := by
  rw [append_assoc]
  rw [← drop_append_of_le_length h, take_append_drop]

/-- One call is the last of a drive. -/
theorem driven_follows {out : List UInt8} {cap k c : Nat} {e : Exit Fault}
    (hfits : out.length ≤ (output.take cap).length) :
    ((callOutcome k out.length c (out ++ (output.take cap).drop out.length) e).driven
      (output.drop cap)).Follows output k out c e where
  consumed := callOutcome_consumed ..
  produced := callOutcome_produced ..
  substitutions := callOutcome_reported ..
  buffer := buffer_after hfits
  fits := by rw [length_take] at hfits; omega
  last := verdict_exitResult ..

/-- A call in front of a drive. -/
theorem andThen_follows {out out' : List UInt8} {cap k c k' c' : Nat} {e e' : Exit Fault} {d : Driven}
    (hfits : out.length ≤ (output.take cap).length) (hd : d.Follows (output.drop out.length) k' out' c' e') :
    ((callOutcome k out.length c (out ++ (output.take cap).drop out.length) e).andThen
      (output.drop cap) d).Follows output (k + k') (out ++ out') (c + c') e' where
  consumed := by rw [andThen, callOutcome_consumed, hd.consumed]
  produced := by rw [andThen, callOutcome_produced, hd.produced, length_append]
  substitutions := by
    have hcall := callOutcome_reported k out.length c (out ++ (output.take cap).drop out.length) e
    have hrest := hd.substitutions
    simp only [andThen]
    omega
  buffer := by
    rw [andThen, callOutcome_produced, callOutcome_output, hd.buffer, buffer_after hfits,
      take_left, drop_drop, length_append, append_assoc]
  fits := by
    have h := hd.fits
    rw [length_drop] at h
    rw [length_take] at hfits
    rw [length_append]
    omega
  last := hd.last

variable {conv : Converter}

/-- **Every drive returns** and follows the transducer, call by call. -/
theorem drive_follows (hs : Supported conv) (policy : Unrepresentable) (hne : rounds ≠ []) (pending output : List UInt8) :
    ∃ d k out c e sched, drive conv policy pending output rounds = some d ∧
      d.Follows output k out c e ∧ Drive (transducer conv policy hs) pending sched k out c e ∧
      SameRounds (4 * ((pending ++ delivered rounds).length + 1) ≤ output.length) rounds sched := by
  -- the induction is on the rounds; the pending input and the output move along
  induction rounds generalizing pending output with
  | nil => exact absurd rfl hne
  | cons round rounds ih =>
    obtain ⟨chunk, cap⟩ := round
    obtain ⟨k, out, c, e, hrun, hcall⟩ :=
      convertWith_call hs policy (pending ++ chunk) (output.take cap)
    have hfits := hcall.fits
    have hroom (roomy : Prop) (h : roomy → 4 ≤ output.length) :
        roomy → 4 ≤ cap → 4 ≤ (output.take cap).length := by
      intro hr hcap
      have h4 := h hr
      rw [length_take]
      omega
    rw [drive, hrun, bind_some, ← callOutcome]
    by_cases hgo : resumable (exitResult k out.length c e) = true ∧ rounds ≠ []
    · obtain ⟨hres, hrounds⟩ := hgo
      obtain ⟨d, k', out', c', e', sched, hd, hfollows, hdrive, hsame⟩ :=
        ih hrounds ((pending ++ chunk).drop k) (output.drop out.length)
      refine ⟨_, k + k', out ++ out', c + c', e', (chunk, (output.take cap).length) :: sched, ?_,
        andThen_follows (e := e) hfits hfollows, .again hcall hdrive, ?_⟩
      · rw [show (callOutcome k out.length c _ e).result = exitResult k out.length c e from rfl,
          hres, callOutcome_consumed, callOutcome_produced, callOutcome_output,
          buffer_after hfits, drop_left]
        cases rounds with
        | nil => exact absurd rfl hrounds
        | cons => simp [hd]
      · refine List.Forall₂.cons ⟨rfl, hroom _ (by omega)⟩ ?_
        refine hsame.imp fun a b hab => ⟨hab.1, fun hlong => hab.2 ?_⟩
        -- what is written is at most four bytes for each byte consumed
        have hwidth : out.length ≤ 4 * k := hcall.reaches.length_le
        have hk := hcall.reaches.le_length
        simp only [delivered_cons, length_append, length_drop] at hlong hk ⊢
        omega
    · have hstop : (resumable (callOutcome k out.length c
          (out ++ (output.take cap).drop out.length) e).result && !rounds.isEmpty) = false := by
        rw [Bool.and_eq_false_iff]
        rcases rounds with _ | ⟨r, rest⟩
        · exact Or.inr rfl
        · exact Or.inl (by simpa [callOutcome] using hgo)
      rw [hstop]
      refine ⟨_, k, out, c, e, (chunk, (output.take cap).length) :: rounds, rfl,
        driven_follows hfits, ?_, .cons ⟨rfl, hroom _ (by omega)⟩ (SameRounds.refl _ _)⟩
      rcases resumable_exitResult k out.length c e with hres | ⟨f, rfl⟩
      · obtain rfl : rounds = [] := by
          by_contra hrounds
          exact hgo ⟨hres, hrounds⟩
        exact .last hcall
      · exact .halt hcall

/-! ## Resuming is invisible -/

variable {policy : Unrepresentable}

/-- A drive that is not out of room agrees with one call that has room. -/
theorem drive_eq_call (hs : Supported conv) (hne : rounds ≠ []) {big : List UInt8}
    (hbig : 4 * (delivered rounds).length ≤ big.length) :
    ∃ d one, drive conv policy [] output rounds = some d ∧ conv.convertWith (delivered rounds) big policy = some one ∧
      d.output.drop d.produced = output.drop d.produced ∧
      (verdict d.last ≠ some .full →
        d.output.take d.produced = one.output.take one.produced ∧ d.produced = one.produced ∧
          d.consumed = one.consumed ∧ verdict d.last = verdict one.result ∧
          d.reported + d.unreported = one.substitutions) := by
  obtain ⟨d, k, out, c, e, sched, hd, hf, hdrive, hsame⟩ := drive_follows hs policy hne [] output
  obtain ⟨k', out', c', e', hone, hcall⟩ := convertWith_call hs policy (delivered rounds) big
  refine ⟨d, _, hd, hone, ?_, fun hlast => ?_⟩
  · rw [hf.buffer, hf.produced, drop_left]
  · have hnf : e ≠ .full := by
      rintro rfl
      exact hlast hf.last
    rw [← hsame.delivered] at hcall hbig
    obtain ⟨rfl, rfl, rfl, rfl⟩ := hdrive.eq_call hnf hcall hbig
    rw [← callOutcome, callOutcome_produced, callOutcome_consumed, callOutcome_output, hf.buffer,
      hf.produced, take_left, take_left, hf.consumed, hf.last, hf.substitutions]
    exact ⟨rfl, rfl, rfl, (verdict_exitResult ..).symm, rfl⟩

/-- Enough rounds that only offer room for a scalar end every drive. -/
theorem drive_drains (hs : Supported conv) {cap n : Nat} (hcap : 4 ≤ cap) (hn : (delivered rounds).length < n)
    (hout : 4 * ((delivered rounds).length + 1) ≤ output.length) :
    ∃ d, drive conv policy [] output (rounds ++ replicate n ([], cap)) = some d ∧ verdict d.last ≠ some .full := by
  have hempty : delivered (replicate n (([] : List UInt8), cap)) = [] := by simp [delivered]
  have hne : rounds ++ replicate n ([], cap) ≠ [] := by
    intro h
    have hlen := congrArg length h
    simp at hlen
    omega
  obtain ⟨d, k, out, c, e, sched, hd, hf, hdrive, hsame⟩ := drive_follows hs policy hne [] output
  refine ⟨d, hd, fun hlast => ?_⟩
  obtain rfl : e = .full := some.inj (hf.last.symm.trans hlast)
  -- cut the calls where the rounds without input begin
  have hfront := forall₂_take rounds.length hsame
  have hback := forall₂_drop rounds.length hsame
  rw [take_left] at hfront
  rw [drop_left] at hback
  rw [← take_append_drop rounds.length sched] at hdrive
  have hbackLen : (sched.drop rounds.length).length = n := by rw [← hback.length_eq, length_replicate]
  obtain ⟨p', k', out', c', hdrive', hlen⟩ := hdrive.full_suffix (by
    intro h
    rw [h, length_nil] at hbackLen
    omega)
  have hroom : ∀ r ∈ sched.drop rounds.length, r.1 = [] ∧ 4 ≤ r.2 := by
    apply SameRounds.onlyRoom hback
    · rwa [nil_append, delivered_append, hempty, append_nil]
    · intro a ha
      rw [eq_of_mem_replicate ha]
      exact ⟨rfl, hcap⟩
  -- each of them consumes a byte, but there are more of them than bytes
  have hmany := hdrive'.full_length_le hroom
  obtain ⟨cap', hcall'⟩ := hdrive'.call
  have hk' := hcall'.reaches.le_length
  have hnone : delivered (sched.drop rounds.length) = [] := by rw [SameRounds.delivered hback, hempty]
  rw [hnone, append_nil] at hk'
  rw [SameRounds.delivered hfront, length_nil] at hlen
  omega

section

variable (hs : Supported conv) {input : List UInt8} {r : Outcome}
include hs

section

variable (h : conv.convertWith input output policy = some r)
include h

/-- A verdict on the input stands when more input is appended. -/
theorem convertWith_fail_append {f : Fault} (hf : verdict r.result = some (.fail f)) (t : List UInt8) :
    conv.convertWith (input ++ t) output policy = some r := by
  obtain ⟨k, out, c, e, hrun, hcall⟩ := convertWith_call hs policy input output
  obtain ⟨k', out', c', e', hrun', hcall'⟩ := convertWith_call hs policy (input ++ t) output
  rw [hrun, some.injEq] at h
  subst h
  obtain rfl : e = .fail f := some.inj ((verdict_exitResult ..).symm.trans hf)
  have hlong := hcall.fail_append t
  have hne' := hcall'.ne_full_of_reaches hlong.reaches (hlong.exit.stuck (by simp)) hlong.fits
  obtain ⟨rfl, rfl, rfl, rfl⟩ := hlong.unique hcall' (by simp) hne'
  exact hrun'

/-- A call only writes what it reports as produced, and an `Ok` reports every substitution. -/
theorem convertWith_frame : r.output.length = output.length ∧ r.output.drop r.produced = output.drop r.produced ∧
      r.reported + r.unreported = r.substitutions := by
  obtain ⟨k, out, c, e, hrun, hcall⟩ := convertWith_call hs policy input output
  rw [hrun, some.injEq, ← callOutcome] at h
  subst h
  have hfits := hcall.fits
  rw [callOutcome_output, callOutcome_produced, drop_left, length_append, length_drop]
  exact ⟨by omega, rfl, callOutcome_reported ..⟩

end

end

/-- **Resuming is invisible.**  For a supported pair and any policy, cutting the
    input into chunks and bounding the room of each call changes neither the
    bytes produced, nor the final outcome, nor the substitutions made; nothing
    is written behind `produced`; a verdict on the input is final; and rounds
    with room for a scalar bring every drive to its end.  Of the substitutions
    only those of calls that return `Ok` are reported. -/
theorem drive_resumes (conv : Converter) (hs : Supported conv) (policy : Unrepresentable) :
    (∀ rounds : List (List UInt8 × Nat), rounds ≠ [] → ∀ output big : List UInt8,
      4 * (delivered rounds).length ≤ big.length →
      ∃ d one, drive conv policy [] output rounds = some d ∧ conv.convertWith (delivered rounds) big policy = some one ∧
        d.output.drop d.produced = output.drop d.produced ∧
        (verdict d.last ≠ some .full →
          d.output.take d.produced = one.output.take one.produced ∧ d.produced = one.produced ∧
            d.consumed = one.consumed ∧ verdict d.last = verdict one.result ∧
            d.reported + d.unreported = one.substitutions)) ∧
      (∀ (rounds : List (List UInt8 × Nat)) (output : List UInt8) (cap n : Nat), 4 ≤ cap →
        (delivered rounds).length < n → 4 * ((delivered rounds).length + 1) ≤ output.length →
        ∃ d, drive conv policy [] output (rounds ++ List.replicate n ([], cap)) = some d ∧
          verdict d.last ≠ some .full) ∧
      (∀ (input output : List UInt8) (r : Outcome), conv.convertWith input output policy = some r →
        r.output.length = output.length ∧ r.output.drop r.produced = output.drop r.produced ∧
          r.reported + r.unreported = r.substitutions) ∧
      ∀ (input output t : List UInt8) (r : Outcome) (f : Fault),
        conv.convertWith input output policy = some r → verdict r.result = some (.fail f) →
        conv.convertWith (input ++ t) output policy = some r :=
  ⟨fun _ hne _ _ hbig => drive_eq_call hs hne hbig,
    fun _ _ _ _ hcap hn hout => drive_drains hs hcap hn hout,
    fun _ _ _ h => convertWith_frame hs h,
    fun _ _ t _ _ h hf => convertWith_fail_append hs h hf t⟩

/-- Two bytes of room for `éé` into ASCII with `*`: one call reports two
    substitutions, two calls with one byte of room each report one. -/
theorem drive_loses_substitution :
    (Converter.mk .utf8 .ascii).convertWith [0xc3, 0xa9, 0xc3, 0xa9] [0, 0] (.byte 0x2a) =
        some ⟨.ok ⟨4, 2, 2⟩, [0x2a, 0x2a], 2⟩ ∧
      drive ⟨.utf8, .ascii⟩ (.byte 0x2a) [] [0, 0] [([0xc3, 0xa9, 0xc3, 0xa9], 1), ([], 1)] =
        some ⟨4, 2, 1, 1, [0x2a, 0x2a], .ok ⟨2, 1, 1⟩⟩ := by
  decide +kernel

/-- The euro sign to UTF-16, its bytes arriving one at a time. -/
theorem drive_resumes_euro : ∃ one, (Converter.mk .utf8 .utf16Be).convertWith [0xe2, 0x82, 0xac]
        [0, 0, 0, 0, 0, 0, 0, 0, 0, 0, 0, 0] .error = some one ∧
      [0x20, 0xac] = one.output.take one.produced := by
  obtain ⟨d, one, hd, hone, -, heq⟩ := (drive_resumes ⟨.utf8, .utf16Be⟩ ⟨rfl, rfl⟩ .error).1
    [([0xe2], 1), ([0x82], 2), ([0xac], 2)] (by decide) [0, 0]
    [0, 0, 0, 0, 0, 0, 0, 0, 0, 0, 0, 0] (by decide)
  have hrun : drive ⟨.utf8, .utf16Be⟩ .error [] [0, 0]
      [([0xe2], 1), ([0x82], 2), ([0xac], 2)] = some ⟨3, 2, 0, 0, [0x20, 0xac], .ok ⟨3, 2, 0⟩⟩ := by decide +kernel
  obtain rfl := some.inj (hd.symm.trans hrun)
  exact ⟨one, hone, (heq (by decide)).1⟩

end Crabc.Iconv
