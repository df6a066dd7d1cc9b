/-
  Crabc.Iconv.RoundTrip

  Converting and converting back.  Every unit the forward conversion emits is
  the encoding of the scalar it decoded, so the backward conversion decodes the
  same scalars and restores each unit in canonical form.  The only byte that is
  not its own canonical form is 0xD7 of ISO-8859-8, whose table holds U+00D7 a
  second time at 0xAA.
-/

import Crabc.Iconv.Convert

namespace Crabc.Iconv

open Crabc.Lib Converter List Encoding

/-- The converter the other way round. -/
def Converter.back (conv : Converter) : Converter := ⟨conv.dst, conv.src⟩

variable {conv : Converter} {s : List UInt8}

theorem Supported.back (hs : Supported conv) : Supported conv.back :=
  ⟨hs.dst, hs.src⟩

variable {out rest : List UInt8}

/-- What one step emits, the step back turns into the canonical bytes. -/
theorem scalarStep_back (hs : Supported conv) {n : Nat} {m : Bool} (h : scalarStep conv .error s = .emit n out m) :
    m = false ∧ scalarStep conv.back .error (out ++ rest) = .emit out.length (conv.src.canonical (s.take n)) false := by
  obtain ⟨c, hd, ⟨he, rfl⟩ | ⟨-, -, b, hb, -⟩⟩ := scalarStep_emit h
  · obtain ⟨hc, hback, -, -⟩ := (lawful hs.src).decode_ok hd
    refine ⟨rfl, ?_⟩
    rw [scalarStep, back, (lawful hs.dst).decode_encode hc he rest]
    simp only [hback]
  · cases hb

/-- A run forward is answered by a run back over what it produced. -/
theorem reaches_back (hs : Supported conv) {k c : Nat} (h : Reaches (transducer conv .error hs) s k out c) :
    c = 0 ∧ Reaches (transducer conv.back .error hs.back) (out ++ rest) out.length
      (conv.src.canonical (s.take k)) 0 := by
  induction h with
  | nil =>
    refine ⟨rfl, ?_⟩
    rw [take_zero, canonical_nil]
    exact .nil
  | @cons s n o m k out c hstep _ ih =>
    obtain ⟨rfl, hback⟩ := scalarStep_back hs hstep
    obtain ⟨rfl, ih⟩ := ih
    refine ⟨rfl, ?_⟩
    rw [append_assoc, length_append, take_add, canonical_append]
    refine Reaches.cons (m := false) (c := 0) hback ?_
    rwa [drop_left]

/-- The strings that are their own canonical form. -/
theorem Encoding.canonical_eq_iff (e : Encoding) (s : List UInt8) :
    e.canonical s = s ↔ ¬ (e = .iso8859_8 ∧ 0xd7 ∈ s) := by
  have hmap (t : Iso8859) (ht : t ≠ .iso8859_8) : s.map t.canonical = s := by
    rw [show t.canonical = id from funext fun b => if_neg fun h => ht h.1, map_id]
  have h8 : s.map Iso8859.iso8859_8.canonical = s ↔ 0xd7 ∉ s := by
    have hiff : s.map Iso8859.iso8859_8.canonical = s.map id ↔ _ := map_inj_left
    rw [map_id] at hiff
    rw [hiff]
    refine ⟨fun h hmem => absurd (h _ hmem) (by decide), fun h b hb => if_neg fun heq => ?_⟩
    exact h (heq.2 ▸ hb)
  cases e
  case iso8859_8 => simpa [canonical, Iso8859.fromEncoding] using h8
  all_goals simp [canonical, Iso8859.fromEncoding, hmap]

/-! ## The trip over buffers -/

/-- A call whose whole run fits returns that run. -/
theorem convertWith_of_reaches {policy : Unrepresentable} (hs : Supported conv) {c : Nat}
    (h : Reaches (transducer conv policy hs) s s.length out c) (buffer : List UInt8)
    (hfits : out.length ≤ buffer.length) : conv.convertWith s buffer policy =
      some ⟨.ok ⟨s.length, out.length, c⟩, out ++ buffer.drop out.length, c⟩ := by
  obtain ⟨k, out', c', e, hrun, hcall⟩ := convertWith_call hs policy s buffer
  have hstuck := stuck_of_length (transducer conv policy hs) s
  have hfull := hcall.ne_full_of_reaches h hstuck hfits
  have hdone : Call (transducer conv policy hs) buffer.length s s.length out c .done :=
    ⟨h, hfits, rfl⟩
  obtain ⟨rfl, rfl, rfl, rfl⟩ := hcall.unique hdone hfull (by simp)
  exact hrun

/-- A call that consumed everything was such a run. -/
theorem reaches_of_convert (hs : Supported conv) {buffer : List UInt8} {there : Outcome} {p c : Nat}
    (h : conv.convert s buffer = some there) (hok : there.result = .ok ⟨s.length, p, c⟩) :
    Reaches (transducer conv .error hs) s s.length (there.output.take p) c ∧ (there.output.take p).length = p := by
  obtain ⟨k, out, c', e, hrun, hcall⟩ := convertWith_call hs .error s buffer
  rw [convert, hrun, Option.some.injEq] at h
  subst h
  cases e with
  | done =>
    obtain ⟨rfl, rfl, rfl⟩ := Conversion.mk.inj (Except.ok.inj hok)
    rw [take_left]
    exact ⟨hcall.reaches, rfl⟩
  | need | full => cases hok
  | fail e => cases e <;> cases hok

/-- Table bytes all have an UTF-8 encoding, so the trip there always ends. -/
theorem reaches_table_utf8 {t : Iso8859} (hs : Supported ⟨t.encoding, .utf8⟩) :
    ∃ out, Reaches (transducer ⟨t.encoding, .utf8⟩ .error hs) s s.length out 0 := by
  induction s with
  | nil => exact ⟨[], .nil⟩
  | cons b s ih =>
    obtain ⟨out, ih⟩ := ih
    have hstep : scalarStep ⟨t.encoding, .utf8⟩ .error (b :: s) = .emit 1 (encodeUtf8 (t.decode b)) false := by
      cases t <;> rfl
    have hcons := Reaches.cons (T := transducer ⟨t.encoding, .utf8⟩ .error hs) hstep ih
    rw [length_cons, Nat.add_comm]
    exact ⟨_, hcons⟩

/-- **Round trip.**  What a conversion between supported encodings consumed
    completely is restored by converting back, except that 0xD7 of ISO-8859-8
    comes back as 0xAA; and a table encoding always converts to UTF-8. -/
theorem convert_roundTrip_iff (s buffer : List UInt8) :
    (∀ conv : Converter, Supported conv → ∀ (there : Outcome) (p : Nat),
      conv.convert s buffer = some there → there.result = .ok ⟨s.length, p, 0⟩ →
      ∀ buffer' : List UInt8, s.length ≤ buffer'.length → (conv.back.convert (there.output.take p) buffer' =
            some ⟨.ok ⟨p, s.length, 0⟩, s ++ buffer'.drop s.length, 0⟩ ↔
          ¬ (conv.src = .iso8859_8 ∧ 0xd7 ∈ s))) ∧
      ∀ t : Iso8859, 4 * s.length ≤ buffer.length → ∃ there p, (mk t.encoding .utf8).convert s buffer = some there ∧
          there.result = .ok ⟨s.length, p, 0⟩ := by
  constructor
  · intro conv hs there p hthere hok buffer' hroom
    obtain ⟨hreach, hlen⟩ := reaches_of_convert hs hthere hok
    obtain ⟨-, hback⟩ := reaches_back hs hreach
    rw [append_nil, take_length] at hback
    have hcanon := conv.src.canonical_length s
    have hcall := convertWith_of_reaches hs.back hback buffer' (by omega)
    rw [hlen, hcanon] at hcall
    rw [convert, hcall, ← canonical_eq_iff]
    simp
  · intro t hroom
    have hs : Supported ⟨t.encoding, .utf8⟩ := ⟨by cases t <;> rfl, rfl⟩
    obtain ⟨out, hreach⟩ := reaches_table_utf8 hs
    have hlen : out.length ≤ 4 * s.length := hreach.length_le
    exact ⟨_, _, convertWith_of_reaches hs hreach buffer (by omega), rfl⟩

/-- U+00D7 comes back from UTF-8 at its first slot of the ISO-8859-8 table. -/
theorem convert_roundTrip_iso8859_8 : (mk .iso8859_8 .utf8).convert [0xd7] [0, 0] =
        some ⟨.ok ⟨1, 2, 0⟩, [0xc3, 0x97], 0⟩ ∧
      (mk .utf8 .iso8859_8).convert [0xc3, 0x97] [0] = some ⟨.ok ⟨2, 1, 0⟩, [0xaa], 0⟩ := by
  decide +kernel

/-- The euro sign of ISO-8859-15 through UTF-8 and back. -/
theorem convert_roundTrip_euro : (mk .utf8 .iso8859_15).convert [0xe2, 0x82, 0xac] [0] =
      some ⟨.ok ⟨3, 1, 0⟩, [0xa4], 0⟩ := by
  have hthere : (mk .iso8859_15 .utf8).convert [0xa4] [0, 0, 0] =
      some ⟨.ok ⟨1, 3, 0⟩, [0xe2, 0x82, 0xac], 0⟩ := by decide +kernel
  exact ((convert_roundTrip_iff [0xa4] [0, 0, 0]).1 ⟨.iso8859_15, .utf8⟩ ⟨rfl, rfl⟩ _ 3 hthere rfl
    [0] (by decide)).mpr (by decide)

end Crabc.Iconv
