/-
  Crabc.Libc.StringConversions

  `mbsrtowcs` and `wcsrtombs`: counting and converting agree, the output capacities do not
  show, and the two are inverse on what `mbsrtowcs` accepts.
-/

import Crabc.Libc.MultibyteLaws
import Crabc.Libc.StringChunks

namespace Crabc.Libc

open Crabc.Lib Crabc.Iconv Text

open UInt32 (not_lt ofNat toNat_inj)

/-! ## The next character of a terminated string -/

/-- What the loops of `mbsrtowcs` find at the cursor. -/
inductive Character where
  | terminator
  | illegal
  | wide (w : UInt32) (rest : List UInt8)

def nextCharacter (utf8 : Bool) (pending : UInt32) (cursor : List UInt8) : Option Character :=
  if pending = 0 ∧ cursor = [] then none
  else if pending = 0 ∧ cursor.head? = some 0 then some .terminator
  else if pending = 0 ∧ !utf8 then some (.wide (codeunit (cursor.headD 0)) cursor.tail)
  else
    (decodeMbrtowc pending (some cursor) 4 true).map fun outcome =>
      if outcome.error ∨ outcome.result = mbRetIncomplete then .illegal
      else .wide outcome.wide (cursor.drop outcome.result)

open Option

variable {utf8 : Bool} {fuel : Nat}

theorem countCharacters_succ {pending : UInt32} {cursor : List UInt8} : countCharacters utf8 (fuel + 1) pending cursor =
      match nextCharacter utf8 pending cursor with
      | none => none
      | some .terminator => some (some 0)
      | some .illegal => some none
      | some (.wide _ rest) => (countCharacters utf8 fuel 0 rest).map (·.map (· + 1)) := by
  rw [countCharacters]
  unfold nextCharacter
  split
  · rfl
  split
  · rfl
  split
  · rfl
  cases decodeMbrtowc pending (some cursor) 4 true with
  | none => rfl
  | some outcome =>
    rw [bind_eq_bind, bind_some, map_some]
    split <;> rfl

theorem convertCharacters_succ {count : Nat} {written : List UInt32} {remaining : Nat} {pending : UInt32}
    {cursor : List UInt8} : convertCharacters utf8 count written (remaining + 1) pending cursor =
      match nextCharacter utf8 pending cursor with
      | none => none
      | some .terminator => some ⟨count - (remaining + 1), written ++ [0], .null, false⟩
      | some .illegal =>
        some ⟨mbRetIlseq, written, if pending != 0 then .before cursor else .at cursor, true⟩
      | some (.wide w rest) => convertCharacters utf8 count (written ++ [w]) remaining 0 rest := by
  rw [convertCharacters]
  unfold nextCharacter
  split
  · rfl
  split
  · rfl
  split
  · rfl
  cases decodeMbrtowc pending (some cursor) 4 true with
  | none => rfl
  | some outcome =>
    rw [bind_eq_bind, bind_some, map_some]
    split <;> rfl

theorem mbOob_nul {state : UInt32} : (mbOob state 0 == 0) = false := by
  cases h : mbOob state 0 == 0 with
  | false => rfl
  | true => exact absurd (mbOob_high 0 h) (by decide)

open List

variable {accept : UInt8 → Bool}

/-- The continuation bytes end before the terminator. -/
theorem decodeContinuation_terminated (haccept : accept 0 = false) {state : UInt32} {consumed remaining count : Nat}
    (hcount : count = consumed + remaining) {bytes : List UInt8} (h : (0 : UInt8) ∈ bytes) :
    ∃ outcome, decodeContinuation count accept state remaining bytes = some outcome ∧
      (outcome.error = false → outcome.result ≠ mbRetIncomplete →
        ∃ front rest, bytes = front ++ rest ∧ (0 : UInt8) ∉ front ∧ front ≠ [] ∧
          outcome.result = consumed + front.length) := by
  induction remaining generalizing accept state consumed bytes with
  | zero =>
    refine ⟨_, by rw [decodeContinuation], fun _ hresult => absurd rfl hresult⟩
  | succ remaining ih =>
    obtain ⟨byte, rest, rfl⟩ := exists_cons_of_ne_nil (ne_nil_of_mem h)
    rw [decodeContinuation]
    cases hbyte : accept byte with
    | false =>
      refine ⟨_, rfl, fun herror => ?_⟩
      cases herror
    | true =>
      have hne : byte ≠ 0 := by
        rintro rfl
        rw [haccept] at hbyte
        cases hbyte
      have hrest : (0 : UInt8) ∈ rest :=
        (mem_cons.mp h).resolve_left fun h0 => hne h0.symm
      rw [if_pos rfl]
      dsimp only
      split
      · refine ⟨_, rfl, fun _ _ => ⟨[byte], rest, rfl, ?_, cons_ne_nil _ _, ?_⟩⟩
        · rw [mem_singleton]
          exact fun h0 => hne h0.symm
        · show count - remaining = consumed + 1
          omega
      · obtain ⟨outcome, hrun, hfront⟩ := @ih (· - 0x80 < 0x40) (by decide)
          (mbPush state byte) (consumed + 1) (by omega) rest hrest
        refine ⟨outcome, hrun, fun herror hresult => ?_⟩
        obtain ⟨front, rest', hsplit, hnul, -, hlength⟩ := hfront herror hresult
        refine ⟨byte :: front, rest', by rw [hsplit]; rfl, ?_, cons_ne_nil _ _, ?_⟩
        · rw [mem_cons, not_or]
          exact ⟨fun h0 => hne h0.symm, hnul⟩
        · rw [hlength, length_cons]
          omega

variable {outcome : DecodeOutcome} {state : UInt32} {bytes : List UInt8}

/-- A read that stays inside the object does not depend on what follows it. -/
theorem decodeContinuation_append {count remaining : Nat}
    (h : decodeContinuation count accept state remaining bytes = some outcome) {more : List UInt8} :
    decodeContinuation count accept state remaining (bytes ++ more) = some outcome := by
  induction remaining generalizing accept state bytes with
  | zero => exact h
  | succ remaining ih =>
    cases bytes with
    | nil => cases h
    | cons byte rest =>
      rw [cons_append, decodeContinuation]
      rw [decodeContinuation] at h
      dsimp only at h ⊢
      split_ifs at h ⊢ with hbyte hsign
      · exact h
      · exact ih h
      · exact h

theorem decodeMbrtowc_append {count : Nat}
    (h : decodeMbrtowc state (some bytes) count utf8 = some outcome) (more : List UInt8) :
    decodeMbrtowc state (some (bytes ++ more)) count utf8 = some outcome := by
  match count with
  | 0 => exact h
  | remaining + 1 =>
    by_cases hstate : state = 0
    · subst hstate
      cases bytes with
      | nil => cases h
      | cons first rest =>
        rw [cons_append, decodeMbrtowc_start]
        rw [decodeMbrtowc_start] at h
        split_ifs at h ⊢
        all_goals first | exact h | exact decodeContinuation_append h
    · rw [decodeMbrtowc_resume hstate] at h ⊢
      exact decodeContinuation_append h

variable {cursor : List UInt8}

open Nat

/-- A call at a terminated string stays before the terminator. -/
theorem decodeMbrtowc_terminated {pending : UInt32} (h : (0 : UInt8) ∈ cursor)
    (hfirst : pending = 0 → cursor.head? ≠ some 0) :
    ∃ outcome, decodeMbrtowc pending (some cursor) 4 true = some outcome ∧
      (outcome.error = false → outcome.result ≠ mbRetIncomplete →
        ∃ front rest, cursor = front ++ rest ∧ (0 : UInt8) ∉ front ∧ front ≠ [] ∧ outcome.result = front.length) := by
  by_cases hpending : pending = 0
  · subst hpending
    match cursor, h with
    | first :: rest, h =>
    have hne : first ≠ 0 := fun h0 => hfirst rfl (by rw [h0]; rfl)
    have hrest : (0 : UInt8) ∈ rest := (mem_cons.mp h).resolve_left fun h0 => hne h0.symm
    rw [decodeMbrtowc_start]
    by_cases hascii : first < 0x80
    · rw [if_pos hascii, if_pos (bne_iff_ne.mpr hne)]
      refine ⟨_, rfl, fun _ _ => ⟨[first], rest, rfl, ?_, cons_ne_nil _ _, rfl⟩⟩
      rw [mem_singleton]
      exact fun h0 => hne h0.symm
    rw [if_neg hascii, if_neg (by decide)]
    split
    · exact ⟨_, rfl, nofun⟩
    · obtain ⟨outcome, hrun, hfront⟩ := @decodeContinuation_terminated
        (mbOob (pendingState [first]) · == 0) mbOob_nul (pendingState [first]) 1 3 4 rfl rest hrest
      refine ⟨outcome, hrun, fun herror hresult => ?_⟩
      obtain ⟨front, rest', hsplit, hnul, -, hlength⟩ := hfront herror hresult
      refine ⟨first :: front, rest', by rw [hsplit]; rfl, ?_, cons_ne_nil _ _, ?_⟩
      · rw [mem_cons, not_or]
        exact ⟨fun h0 => hne h0.symm, hnul⟩
      · rw [hlength, length_cons, add_comm]
  · rw [decodeMbrtowc_resume hpending]
    obtain ⟨outcome, hrun, hfront⟩ := @decodeContinuation_terminated
      (mbOob pending · == 0) mbOob_nul pending 0 4 4 rfl cursor h
    refine ⟨outcome, hrun, fun herror hresult => ?_⟩
    obtain ⟨front, rest, hsplit, hnul, hne, hlength⟩ := hfront herror hresult
    exact ⟨front, rest, hsplit, hnul, hne, by rw [hlength, zero_add]⟩

theorem codeunit_back (b : UInt8) (h : b ≠ 0) : encodeForLocale (codeunit b) false = some [b] ∧ codeunit b ≠ 0 := by
  revert b
  exact forall_byte (by decide +kernel)

variable {front rest : List UInt8} {text : Text UInt32 UInt8}

/-- In the initial state a character is written back as the bytes it was read from. -/
theorem decodeMbrtowc_back
    (h : decodeMbrtowc 0 (some (front ++ rest)) 4 true = some outcome) (hnul : (0 : UInt8) ∉ front)
    (hne : front ≠ []) (herror : outcome.error = false) (hresult : outcome.result = front.length)
    (hcomplete : outcome.result ≠ mbRetIncomplete) :
    encodeForLocale outcome.wide true = some front ∧ outcome.wide ≠ 0 := by
  -- four bytes behind the string make room for the window
  have hpad := decodeMbrtowc_append h [0, 0, 0, 0]
  have hcall := @decodeMbrtowc_reported 4 [] ((front ++ rest) ++ [0, 0, 0, 0]) rfl
    (by rw [length_append]; exact le_add_left _ _)
  rw [show pendingState [] = 0 from rfl, hpad, nil_append, length_nil, some.injEq] at hcall
  subst hcall
  cases hd : decodeUtf8 ((front ++ rest ++ [0, 0, 0, 0]).take 4) with
  | error e =>
    cases e with
    | incomplete => rw [reported_incomplete hd] at hcomplete; exact absurd rfl hcomplete
    | invalid => rw [reported_invalid hd] at herror; cases herror
  | ok r =>
    obtain ⟨c, n⟩ := r
    obtain ⟨hscalar, hencode, hpos, hle⟩ := decodeUtf8_ok hd
    match front, hne with
    | first :: front, _ =>
    have hfirst : first ≠ 0 := fun h0 => hnul (by rw [h0]; exact mem_cons_self)
    have hc : c ≠ 0 := decodeUtf8_ne_zero hfirst hd
    rw [reported_ok hd] at hresult ⊢
    have hn : n = (first :: front).length := by
      have : (if c = 0 then 0 else n - 0) = (first :: front).length := hresult
      rwa [if_neg hc] at this
    constructor
    · show encodeForLocale (ofNat c) true = _
      rw [length_take] at hle
      rw [encodeForLocale_scalar hscalar, hencode, take_take,
        min_eq_left (le_trans hle (min_le_left _ _)), hn, append_assoc,
        take_left]
    · intro hzero
      have : ofNat c = 0 := hzero
      rw [← toNat_inj, toNat_ofNat_scalar hscalar] at this
      exact hc this

/-- At a terminated string the loops find something, and a character ends before the
    terminator; read in the initial state it is written back as it was. -/
theorem nextCharacter_terminated (utf8 : Bool) (pending : UInt32) (h : (0 : UInt8) ∈ cursor) :
    ∃ character, nextCharacter utf8 pending cursor = some character ∧ ∀ w rest, character = .wide w rest →
        ∃ front, cursor = front ++ rest ∧ (0 : UInt8) ∉ front ∧ front ≠ [] ∧
          (pending = 0 → encodeForLocale w utf8 = some front ∧ w ≠ 0) := by
  have hne : cursor ≠ [] := ne_nil_of_mem h
  unfold nextCharacter
  rw [if_neg (fun hnil => hne hnil.2)]
  by_cases hterminator : pending = 0 ∧ cursor.head? = some 0
  · rw [if_pos hterminator]
    exact ⟨_, rfl, nofun⟩
  rw [if_neg hterminator]
  by_cases hbyte : pending = 0 ∧ !utf8
  · -- one byte of the C locale
    obtain ⟨hpending, hmode⟩ := hbyte
    match cursor, h with
    | first :: rest, _ =>
    have hfirst : first ≠ 0 := fun h0 => hterminator ⟨hpending, by rw [h0]; rfl⟩
    rw [if_pos ⟨hpending, hmode⟩]
    refine ⟨_, rfl, fun w rest' hwide => ?_⟩
    cases hwide
    refine ⟨[first], rfl, ?_, cons_ne_nil _ _, fun _ => ?_⟩
    · rw [mem_singleton]
      exact fun h0 => hfirst h0.symm
    · rw [Bool.not_eq_true'] at hmode
      rw [hmode]
      exact codeunit_back first hfirst
  · rw [if_neg hbyte]
    obtain ⟨outcome, hcall, hfront⟩ := decodeMbrtowc_terminated h
      (fun hpending hhead => hterminator ⟨hpending, hhead⟩)
    rw [hcall]
    refine ⟨_, rfl, fun w rest hwide => ?_⟩
    dsimp only at hwide
    split_ifs at hwide with hfailed
    rw [not_or, Bool.not_eq_true] at hfailed
    obtain ⟨front, rest', hsplit, hnul, hnonempty, hlength⟩ := hfront hfailed.1 hfailed.2
    cases hwide
    have hdrop : cursor.drop outcome.result = rest' := by rw [hlength, hsplit, drop_left]
    refine ⟨front, by rw [hdrop]; exact hsplit, hnul, hnonempty, fun hpending => ?_⟩
    have hmode : utf8 = true := by
      rw [hpending] at hbyte
      simpa using hbyte
    rw [hpending, hsplit] at hcall
    rw [hmode]
    exact decodeMbrtowc_back hcall hnul hnonempty hfailed.1 hlength hfailed.2

/-! ## All characters of a terminated string -/

/-- The characters that the loops of `mbsrtowcs` find one after the other, and the end. -/
inductive Reads (utf8 : Bool) : UInt32 → List UInt8 → List UInt32 → Ending UInt8 → Prop
  | terminator {pending cursor} : nextCharacter utf8 pending cursor = some .terminator →
      Reads utf8 pending cursor [] .terminator
  | illegal {pending cursor} : nextCharacter utf8 pending cursor = some .illegal →
      Reads utf8 pending cursor []
        (.illegal (if pending != 0 then .before cursor else .at cursor))
  | wide {pending cursor w rest wides ending} :
      nextCharacter utf8 pending cursor = some (.wide w rest) →
      Reads utf8 0 rest wides ending → Reads utf8 pending cursor (w :: wides) ending

theorem mem_rest {α : Type} {x : α} {cursor front rest : List α} (h : x ∈ cursor)
    (hsplit : cursor = front ++ rest) (hfront : x ∉ front) : x ∈ rest := by
  rw [hsplit, mem_append] at h
  exact h.resolve_left hfront

theorem exists_reads (pending : UInt32) (h : (0 : UInt8) ∈ cursor) :
    ∃ wides ending, Reads utf8 pending cursor wides ending := by
  induction hn : cursor.length using Nat.strong_induction_on generalizing cursor pending with
  | _ n ih =>
    obtain ⟨character, hnext, hfront⟩ := nextCharacter_terminated utf8 pending h
    match character with
    | .terminator => exact ⟨[], _, .terminator hnext⟩
    | .illegal => exact ⟨[], _, .illegal hnext⟩
    | .wide w rest =>
      obtain ⟨front, hsplit, hnul, hnonempty, -⟩ := hfront w rest rfl
      have hpos := length_pos_of_ne_nil hnonempty
      have hlength : cursor.length = front.length + rest.length := by rw [hsplit, length_append]
      obtain ⟨wides, ending, hreads⟩ :=
        ih rest.length (by omega) 0 (mem_rest h hsplit hnul) rfl
      exact ⟨w :: wides, ending, .wide hnext hreads⟩

variable {pending : UInt32}

theorem nextCharacter_rest {w : UInt32}
    (h : nextCharacter utf8 pending cursor = some (.wide w rest)) (hnul : (0 : UInt8) ∈ cursor) :
    (0 : UInt8) ∈ rest ∧ rest.length < cursor.length := by
  obtain ⟨character, hnext, hfront⟩ := nextCharacter_terminated utf8 pending hnul
  rw [h, some.injEq] at hnext
  obtain ⟨front, hsplit, hnot, hnonempty, -⟩ := hfront w rest hnext.symm
  have hpos := length_pos_of_ne_nil hnonempty
  refine ⟨mem_rest hnul hsplit hnot, ?_⟩
  rw [hsplit, length_append]
  omega

variable {wides : List UInt32} {ending : Ending UInt8}

section

variable (h : Reads utf8 pending cursor wides ending)
include h

theorem Reads.length_le (hnul : (0 : UInt8) ∈ cursor) : wides.length ≤ cursor.length := by
  induction h with
  | terminator => exact zero_le _
  | illegal => exact zero_le _
  | wide hnext hreads ih =>
    obtain ⟨hrest, hlt⟩ := nextCharacter_rest hnext hnul
    exact lt_of_le_of_lt (ih hrest) hlt

/-- Counting the characters. -/
theorem Reads.count (hfuel : wides.length < fuel) : countCharacters utf8 fuel pending cursor =
      some (ending.counted wides.length) := by
  induction h generalizing fuel with
  | terminator hnext | illegal hnext =>
    obtain ⟨fuel, rfl⟩ := exists_eq_succ_of_ne_zero hfuel.ne'
    rw [countCharacters_succ, hnext]
    rfl
  | @wide pending cursor w rest wides ending hnext hreads ih =>
    rw [length_cons] at hfuel
    obtain ⟨fuel, rfl⟩ := exists_eq_succ_of_ne_zero (show fuel ≠ 0 by omega)
    rw [countCharacters_succ, hnext]
    dsimp only
    rw [ih (by omega)]
    cases ending <;> rfl

/-- Converting the characters where there is room for all. -/
theorem Reads.convert_whole {remaining : Nat} (hroom : wides.length < remaining) (count : Nat)
    (written : List UInt32) : convertCharacters utf8 count written remaining pending cursor =
      some (ending.close (count - (remaining - wides.length)) (written ++ wides)) := by
  induction h generalizing remaining written with
  | terminator hnext | illegal hnext =>
    obtain ⟨remaining, rfl⟩ := exists_eq_succ_of_ne_zero hroom.ne'
    rw [convertCharacters_succ, hnext, append_nil]
    rfl
  | @wide pending cursor w rest wides ending hnext hreads ih =>
    rw [length_cons] at hroom
    obtain ⟨remaining, rfl⟩ := exists_eq_succ_of_ne_zero (show remaining ≠ 0 by omega)
    rw [convertCharacters_succ, hnext]
    dsimp only
    rw [ih (by omega), length_cons,
      show remaining.succ - (wides.length + 1) = remaining - wides.length by omega,
      show written ++ w :: wides = written ++ [w] ++ wides by simp]

/-- Converting as many as there is room for. -/
theorem Reads.convert_front {remaining : Nat} (hroom : remaining ≤ wides.length)
    (hpos : pending = 0 ∨ 0 < remaining) (hnul : (0 : UInt8) ∈ cursor) (count : Nat) (written : List UInt32) :
    ∃ rest, convertCharacters utf8 count written remaining pending cursor =
        some ⟨count, written ++ wides.take remaining, .at rest, false⟩ ∧
      Reads utf8 0 rest (wides.drop remaining) ending ∧ (0 : UInt8) ∈ rest := by
  induction remaining generalizing pending cursor wides written with
  | zero =>
    have hpending : pending = 0 := hpos.resolve_right (lt_irrefl 0)
    refine ⟨cursor, ?_, hpending ▸ h, hnul⟩
    rw [convertCharacters, take_zero, append_nil]
  | succ remaining ih =>
    cases h with
    | terminator => simp at hroom
    | illegal => simp at hroom
    | @wide _ _ w rest wides _ hnext hreads =>
      rw [length_cons] at hroom
      obtain ⟨rest', hrun, hleft⟩ := ih hreads (by omega) (.inl rfl)
        (nextCharacter_rest hnext hnul).1 (written ++ [w])
      refine ⟨rest', ?_, hleft⟩
      rw [convertCharacters_succ, hnext]
      dsimp only
      rw [hrun, take_succ_cons, append_assoc]
      rfl

end

/-! ## From bytes to wide characters -/

/-- `mbsrtowcs` with a destination. -/
def mbsrtowcsCall (utf8Now : Bool) : StringCall UInt8 UInt32 :=
  fun source count state => mbsrtowcs utf8Now true source count state

/-- The text at a string in a state.  In the C locale the state is the initial one. -/
structure ReadsText (utf8Now : Bool) (rest : List UInt8) (state : UInt32)
    (text : Text UInt8 UInt32) : Prop where
  terminated : (0 : UInt8) ∈ rest
  mode : utf8Now = true ∨ state = 0
  reads : ∃ wides, text.pieces = wides.map ([·]) ∧ Reads utf8Now state rest wides text.ending

variable {utf8Now : Bool}

theorem mbsrtowcs_convert {source : List UInt8} {count : Nat} (hcount : count ≠ 0) {state : UInt32} :
    mbsrtowcs utf8Now true source count state =
      (convertCharacters (utf8Now || state != 0) count [] count state source).map (·, 0) := by
  have hzero : (count == 0) = false := beq_false_of_ne hcount
  unfold mbsrtowcs
  rw [hzero]
  rfl

theorem mode_eq (h : utf8Now = true ∨ state = 0) : (utf8Now || state != 0) = utf8Now := by
  rcases h with rfl | rfl
  · rfl
  · simp

theorem flatten_singletons {α : Type} (l : List α) : (l.map ([·])).flatten = l := by
  induction l with
  | nil => rfl
  | cons x l ih => rw [map_cons, flatten_cons, ih]; rfl

theorem piecewise_mbsrtowcs : Piecewise 1 (mbsrtowcsCall utf8Now) (ReadsText utf8Now) := by
  constructor
  · intro rest state text h
    obtain ⟨wides, hpieces, hreads⟩ := h.reads
    rw [hpieces, length_map]
    exact hreads.length_le h.terminated
  all_goals
    intro rest state text capacity h hroom
    obtain ⟨wides, hpieces, hreads⟩ := h.reads
    rw [hpieces, flatten_singletons] at hroom
  · refine ⟨0, ?_⟩
    rw [mbsrtowcsCall, mbsrtowcs_convert (by omega), mode_eq h.mode,
      hreads.convert_whole hroom, whole, hpieces, flatten_singletons,
      show capacity - (capacity - wides.length) = wides.length by omega]
    rfl
  · by_cases hzero : capacity = 0
    · refine ⟨0, rest, state, ?_, h, zero_le _, fun hone => by omega⟩
      rw [hzero]
      rfl
    · obtain ⟨rest', hrun, hleft, hnul⟩ := hreads.convert_front hroom
        (.inr (Nat.pos_of_ne_zero hzero)) h.terminated capacity []
      refine ⟨capacity, rest', 0, ?_, ⟨hnul, .inr rfl, wides.drop capacity, ?_, hleft⟩, ?_,
        fun hone => hone⟩
      · rw [mbsrtowcsCall, mbsrtowcs_convert hzero, mode_eq h.mode, hrun, front, hpieces,
          ← map_take, flatten_singletons, length_take, min_eq_left hroom]
        rfl
      · rw [behind, hpieces, map_drop]
      · rw [hpieces, length_map]
        exact hroom

/-- In the C locale every byte is a character. -/
theorem nextCharacter_c (first : UInt8) (rest : List UInt8) : nextCharacter false 0 (first :: rest) =
      some (if first = 0 then .terminator else .wide (codeunit first) rest) := by
  unfold nextCharacter
  by_cases hfirst : first = 0
  · rw [if_pos hfirst, if_neg (by simp), if_pos ⟨rfl, by rw [hfirst]; rfl⟩]
  · rw [if_neg hfirst, if_neg (by simp), if_neg, if_pos ⟨rfl, rfl⟩]
    · rfl
    · rintro ⟨-, hhead⟩
      exact hfirst (some.inj hhead)

/-- In the C locale the length of the string is the count. -/
theorem Reads.cStringLen (h : Reads false 0 cursor wides ending) :
    Libc.cStringLen cursor = some wides.length ∧ ending = .terminator := by
  induction cursor generalizing wides with
  | nil =>
    cases h with
    | terminator hnext => cases hnext
    | illegal hnext => cases hnext
    | wide hnext hreads => cases hnext
  | cons first rest ih =>
    rw [Libc.cStringLen]
    by_cases hfirst : first = 0
    · subst hfirst
      cases h with
      | terminator hnext => exact ⟨rfl, rfl⟩
      | illegal hnext => cases hnext
      | wide hnext hreads => cases hnext
    · rw [if_pos (bne_iff_ne.mpr hfirst)]
      cases h with
      | terminator hnext | illegal hnext => rw [nextCharacter_c, if_neg hfirst] at hnext; cases hnext
      | wide hnext hreads =>
        rw [nextCharacter_c, if_neg hfirst] at hnext
        cases hnext
        obtain ⟨hlen, hend⟩ := ih hreads
        rw [hlen]
        exact ⟨rfl, hend⟩

/-- Without a destination the characters are counted. -/
theorem mbsrtowcs_count {source : List UInt8} (hnul : (0 : UInt8) ∈ source)
    (h : Reads (utf8Now || state != 0) state source wides ending) {count : Nat} :
    ∃ counted, mbsrtowcs utf8Now false source count state = some (counted, state) ∧
      counted.result = (ending.close wides.length wides).result ∧
      counted.error = (ending.close wides.length wides).error := by
  have hfuel := lt_succ_of_le (h.length_le hnul)
  unfold mbsrtowcs
  rw [if_neg (by simp)]
  rw [if_pos (show (!false) = true from rfl)]
  by_cases hplain : state = 0 ∧ (!utf8Now) = true
  · obtain ⟨rfl, hmode⟩ := hplain
    rw [Bool.not_eq_true'] at hmode
    subst hmode
    obtain ⟨hlen, rfl⟩ := Reads.cStringLen h
    rw [if_pos ⟨rfl, rfl⟩, hlen]
    exact ⟨_, rfl, rfl, rfl⟩
  · rw [if_neg hplain, h.count hfuel]
    cases ending with
    | terminator | illegal at_ => exact ⟨_, rfl, rfl, rfl⟩

/-! ## From wide characters to bytes -/

/-- `wcsrtombs` with a destination; it has no state. -/
def wcsrtombsCall (utf8 : Bool) : StringCall UInt32 UInt8 :=
  fun source count state => (wcsrtombs utf8 true source count).map (·, state)

/-- The bytes of the characters of a wide string, and the end. -/
inductive Writes (utf8 : Bool) : List UInt32 → List (List UInt8) → Ending UInt32 → Prop
  | terminator {after} : Writes utf8 (0 :: after) [] .terminator
  | illegal {wide rest} : encodeForLocale wide utf8 = none →
      Writes utf8 (wide :: rest) [] (.illegal (.at (wide :: rest)))
  | wide {wide rest bytes pieces ending} : wide ≠ 0 → encodeForLocale wide utf8 = some bytes →
      Writes utf8 rest pieces ending → Writes utf8 (wide :: rest) (bytes :: pieces) ending

variable {wide : UInt32}

theorem encodeForLocale_ascii (h : wide < 0x80) : encodeForLocale wide utf8 = some [wide.toUInt8] := by
  rw [encodeForLocale, if_pos h]

theorem encodeForLocale_length (h : encodeForLocale wide utf8 = some bytes) : 0 < bytes.length ∧ bytes.length ≤ 4 := by
  unfold encodeForLocale at h
  split_ifs at h
  all_goals (obtain rfl := some.inj h; simp)

theorem exists_writes {cursor : List UInt32} (h : (0 : UInt32) ∈ cursor) :
    ∃ pieces ending, Writes utf8 cursor pieces ending := by
  induction cursor with
  | nil => cases h
  | cons wide rest ih =>
    by_cases hwide : wide = 0
    · subst hwide
      exact ⟨[], _, .terminator⟩
    · obtain ⟨pieces, ending, hrest⟩ :=
        ih ((mem_cons.mp h).resolve_left fun h0 => hwide h0.symm)
      cases hencode : encodeForLocale wide utf8 with
      | none => exact ⟨[], _, .illegal hencode⟩
      | some bytes => exact ⟨bytes :: pieces, ending, .wide hwide hencode hrest⟩

/-- The range test of the loops of `wcsrtombs`. -/
theorem sub_one_ge : wide - 1 ≥ 0x7f ↔ wide = 0 ∨ 0x80 ≤ wide := by
  have hlt : wide.toNat < 2 ^ 32 := wide.toNat_lt
  rw [ge_iff_le, UInt32.le_iff_toNat_le, UInt32.le_iff_toNat_le, ← toNat_inj, UInt32.toNat_sub]
  show 0x7f ≤ (2 ^ 32 - 1 + wide.toNat) % 2 ^ 32 ↔ wide.toNat = 0 ∨ 0x80 ≤ wide.toNat
  omega

/-- One round of the second loop, for a character. -/
theorem convertTail_cons (utf8 : Bool) (count : Nat) (written : List UInt8) {remaining : Nat}
    (hremaining : remaining ≠ 0) (hwide : wide ≠ 0) (rest : List UInt32) :
    convertTail utf8 count written remaining (wide :: rest) =
      match encodeForLocale wide utf8 with
      | none => some ⟨mbRetIlseq, written, .at (wide :: rest), true⟩
      | some bytes =>
        if bytes.length > remaining then
          some ⟨count - remaining, written, .at (wide :: rest), false⟩
        else convertTail utf8 count (written ++ bytes) (remaining - bytes.length) rest := by
  rw [convertTail, if_neg hremaining]
  by_cases hascii : wide < 0x80
  · rw [if_neg, encodeForLocale_ascii hascii]
    · dsimp only
      rw [if_neg (by simp; omega)]
      rfl
    · rw [sub_one_ge, not_or]
      exact ⟨hwide, fun hge => absurd hascii (not_lt.mpr hge)⟩
  · rewrite [if_pos (sub_one_ge.mpr (.inr (not_lt.mp hascii))), if_neg hwide]
    cases encodeForLocale wide utf8 <;> rfl

/-- The first loop does what the second would do. -/
theorem convertBulk_eq {count : Nat} {written : List UInt8} {remaining : Nat} {cursor : List UInt32} :
    convertBulk utf8 count written remaining cursor =
      convertTail utf8 count written remaining cursor := by
  induction cursor generalizing written remaining with
  | nil =>
    rw [convertBulk, convertTail]
    split_ifs <;> first | rfl | omega
  | cons wide rest ih =>
    rw [convertBulk]
    by_cases hfour : remaining ≥ 4
    · rw [if_pos hfour]
      by_cases hwide : wide = 0
      · rw [hwide, convertTail, if_neg (show ¬ remaining = 0 by omega)]
        rfl
      · rw [convertTail_cons _ _ _ (by omega) hwide]
        by_cases hascii : wide < 0x80
        · rw [if_neg, encodeForLocale_ascii hascii]
          · dsimp only
            rw [if_neg (show ¬ [wide.toUInt8].length > remaining by
              rw [length_singleton]; omega), ih]
            rfl
          · rw [sub_one_ge, not_or]
            exact ⟨hwide, fun hge => absurd hascii (not_lt.mpr hge)⟩
        · rw [if_pos (sub_one_ge.mpr (.inr (not_lt.mp hascii))), if_neg hwide]
          cases hencode : encodeForLocale wide utf8 with
          | none => rfl
          | some bytes =>
            have hlength := encodeForLocale_length hencode
            dsimp only
            rw [if_neg (show ¬ bytes.length > remaining by omega), ih]
    · rw [if_neg hfour]

variable {pieces : List (List UInt8)}

section

variable {cursor : List UInt32} {ending : Ending UInt32} (h : Writes utf8 cursor pieces ending)
include h

theorem Writes.length_le : pieces.length ≤ cursor.length := by
  induction h with
  | terminator => exact zero_le _
  | illegal => exact zero_le _
  | wide _ _ _ ih => exact succ_le_succ ih

/-- The pieces are the bytes of the wide characters one by one. -/
theorem Writes.pieces_eq :
    pieces = (cursor.take pieces.length).map fun wide => (encodeForLocale wide utf8).getD [] := by
  induction h with
  | terminator => rfl
  | illegal => rfl
  | wide _ hencode _ ih =>
    rw [length_cons, take_succ_cons, map_cons, hencode, ← ih]
    rfl

/-- Counting the bytes. -/
theorem Writes.count : countBytes utf8 cursor = some (ending.counted pieces.flatten.length) := by
  induction h with
  | terminator => rfl
  | @illegal wide rest hencode =>
    have hascii : 0x80 ≤ wide := by
      apply not_lt.mp
      intro hlt
      rw [encodeForLocale_ascii hlt] at hencode
      cases hencode
    rw [countBytes, if_neg, if_pos hascii, hencode]
    · rfl
    · rintro rfl
      exact absurd hascii (by decide)
  | @wide wide rest bytes pieces ending hwide hencode _ ih =>
    rw [countBytes, if_neg hwide, ih, flatten_cons, length_append]
    by_cases hascii : wide < 0x80
    · rw [encodeForLocale_ascii hascii] at hencode
      obtain rfl := some.inj hencode
      rw [if_neg (fun hge => absurd hascii (not_lt.mpr hge))]
      cases ending <;> rfl
    · rw [if_pos (not_lt.mp hascii), hencode]
      cases ending <;> rfl

/-- Converting the characters where there is room for all. -/
theorem Writes.convert_whole {remaining : Nat} (hroom : pieces.flatten.length < remaining) (count : Nat)
    (written : List UInt8) : convertTail utf8 count written remaining cursor =
      some (ending.close (count - (remaining - pieces.flatten.length))
        (written ++ pieces.flatten)) := by
  induction h generalizing remaining written with
  | terminator =>
    have hne : remaining ≠ 0 := ne_of_gt hroom
    rw [convertTail, if_neg hne, flatten_nil, append_nil]
    rfl
  | @illegal wide rest hencode =>
    have hne : remaining ≠ 0 := ne_of_gt hroom
    have hwide : wide ≠ 0 := by
      rintro rfl
      cases hencode
    rw [convertTail_cons _ _ _ hne hwide, hencode, flatten_nil, append_nil]
    rfl
  | @wide wide rest bytes pieces ending hwide hencode _ ih =>
    rw [flatten_cons, length_append] at hroom
    rw [convertTail_cons _ _ _ (by omega) hwide, hencode]
    dsimp only
    rw [if_neg (by omega), ih (by omega), flatten_cons, length_append, append_assoc, Nat.sub_sub]

/-- The first characters are converted, and there is no room for one more. -/
def ConvertsFront (utf8 : Bool) (count remaining : Nat) (written : List UInt8) (cursor : List UInt32)
    (pieces : List (List UInt8)) (ending : Ending UInt32) : Prop :=
  ∃ n rest, convertTail utf8 count written remaining cursor =
      some ⟨count - (remaining - (pieces.take n).flatten.length),
        written ++ (pieces.take n).flatten, .at rest, false⟩ ∧
    Writes utf8 rest (pieces.drop n) ending ∧ n ≤ pieces.length ∧
    (pieces.take n).flatten.length ≤ remaining ∧ (4 ≤ remaining → 0 < n)

/-- A call that converts nothing more. -/
theorem Writes.stay {count remaining : Nat} {written : List UInt8} (hrun : convertTail utf8 count written remaining
      cursor = some ⟨count - remaining, written, .at cursor, false⟩) (hsmall : remaining < 4) :
    ConvertsFront utf8 count remaining written cursor pieces ending := by
  refine ⟨0, cursor, ?_, h, zero_le _, zero_le _, fun h4 => by omega⟩
  rw [hrun, take_zero, flatten_nil, append_nil]
  rfl

/-- Converting as many as there is room for. -/
theorem Writes.convert_front {remaining : Nat} (hroom : remaining ≤ pieces.flatten.length) (count : Nat)
    (written : List UInt8) : ConvertsFront utf8 count remaining written cursor pieces ending := by
  induction h generalizing remaining written with
  | @terminator after =>
    obtain rfl : remaining = 0 := le_zero.mp hroom
    exact Writes.stay .terminator rfl (by decide)
  | @illegal wide rest hencode =>
    obtain rfl : remaining = 0 := le_zero.mp hroom
    exact Writes.stay (.illegal hencode) rfl (by decide)
  | @wide wide rest bytes pieces ending hwide hencode hwrites ih =>
    rw [flatten_cons, length_append] at hroom
    have hlength := encodeForLocale_length hencode
    by_cases hzero : remaining = 0
    · subst hzero
      exact Writes.stay (.wide hwide hencode hwrites) rfl (by decide)
    have hround := convertTail_cons utf8 count written hzero hwide rest
    rw [hencode] at hround
    dsimp only at hround
    by_cases hfits : bytes.length > remaining
    · rw [if_pos hfits] at hround
      exact Writes.stay (.wide hwide hencode hwrites) hround (by omega)
    · rw [if_neg hfits] at hround
      obtain ⟨n, rest', hrun, hleft, hle, hlen, -⟩ :=
        @ih (remaining - bytes.length) (by omega) (written ++ bytes)
      refine ⟨n + 1, rest', ?_, hleft, succ_le_succ hle, ?_, fun _ => succ_pos n⟩
      · rw [hround, hrun, take_succ_cons, flatten_cons, length_append, append_assoc, Nat.sub_sub]
      · rw [take_succ_cons, flatten_cons, length_append]
        omega

end

/-- The text at a wide string. -/
def WritesText (utf8 : Bool) (rest : List UInt32) (_state : UInt32) (text : Text UInt32 UInt8) :
    Prop := Writes utf8 rest text.pieces text.ending

theorem wcsrtombs_convert (source : List UInt32) {count : Nat} :
    wcsrtombs utf8 true source count = convertTail utf8 count [] count source :=
  convertBulk_eq

theorem piecewise_wcsrtombs : Piecewise 4 (wcsrtombsCall utf8) (WritesText utf8) := by
  constructor
  · intro rest state text h
    exact Writes.length_le h
  · intro rest state text capacity h hroom
    refine ⟨state, ?_⟩
    rw [wcsrtombsCall, wcsrtombs_convert, Writes.convert_whole h hroom, whole,
      nil_append, show capacity - (capacity - text.pieces.flatten.length) = text.pieces.flatten.length by omega]
    rfl
  · intro rest state text capacity h hroom
    obtain ⟨n, rest', hrun, hleft, hle, hlen, hpos⟩ := Writes.convert_front h hroom capacity []
    refine ⟨n, rest', state, ?_, hleft, hle, hpos⟩
    rw [wcsrtombsCall, wcsrtombs_convert, hrun, front, nil_append,
      show capacity - (capacity - (text.pieces.take n).flatten.length) = (text.pieces.take n).flatten.length by omega]
    rfl

variable {source : List UInt32}

/-- Without a destination the bytes are counted. -/
theorem wcsrtombs_count (h : Writes utf8 source text.pieces text.ending)
    (count : Nat) : ∃ counted, wcsrtombs utf8 false source count = some counted ∧
      counted.result = text.whole.result ∧ counted.error = text.whole.error := by
  unfold wcsrtombs whole
  rw [if_pos (show (!false) = true from rfl), h.count]
  cases text.ending with
  | terminator | illegal source => exact ⟨_, rfl, rfl, rfl⟩

/-- The bytes of the first `n` wide characters. -/
def encodedFront (utf8 : Bool) (source : List UInt32) (n : Nat) : List UInt8 :=
  ((source.take n).map fun wide => (encodeForLocale wide utf8).getD []).flatten

theorem Writes.encodedFront {ending : Ending UInt32} (h : Writes utf8 source pieces ending) {n : Nat}
    (hn : n ≤ pieces.length) : (pieces.take n).flatten = Libc.encodedFront utf8 source n := by
  congr 1
  conv_lhs => rw [h.pieces_eq, ← map_take, take_take, min_eq_left hn]

/-- A call writes whole characters only, and at the end the terminator. -/
theorem wcsrtombs_characters (h : Writes utf8 source text.pieces text.ending)
    (count : Nat) : ∃ converted n, wcsrtombs utf8 true source count = some converted ∧
      converted.written.length ≤ count ∧
      (converted.written = encodedFront utf8 source n ∨
        converted.source = .null ∧ converted.written = encodedFront utf8 source n ++ [0]) := by
  rw [wcsrtombs_convert]
  by_cases hroom : text.pieces.flatten.length < count
  · have hall := h.encodedFront le_rfl
    rw [take_length] at hall
    rw [h.convert_whole hroom, nil_append]
    refine ⟨_, text.pieces.length, rfl, ?_⟩
    rw [← hall]
    cases text.ending with
    | terminator =>
      refine ⟨?_, .inr ⟨rfl, rfl⟩⟩
      show (text.pieces.flatten ++ [0]).length ≤ count
      rw [length_append]
      exact hroom
    | illegal source => exact ⟨le_of_lt hroom, .inl rfl⟩
  · obtain ⟨n, rest, hrun, -, hle, hlen, -⟩ := h.convert_front (Nat.le_of_not_lt hroom) count []
    exact ⟨_, n, hrun, hlen, .inl (h.encodedFront hle)⟩

/-! ## Back again -/

theorem nextCharacter_terminator (h : nextCharacter utf8 pending cursor = some .terminator) :
    cursor.head? = some 0 := by
  unfold nextCharacter at h
  split_ifs at h with hnil hhead hbyte
  · exact hhead.2
  · cases h
  · cases hcall : decodeMbrtowc pending (some cursor) 4 true with
    | none => rw [hcall] at h; cases h
    | some outcome =>
      rw [hcall, map_some, some.injEq] at h
      split_ifs at h

/-- The wide characters of a string are written back as the string. -/
theorem Reads.back (h : Reads utf8 pending cursor wides ending) (hpending : pending = 0)
    (hending : ending = .terminator) (hnul : (0 : UInt8) ∈ cursor) :
    ∃ pieces after, Writes utf8 (wides ++ [0]) pieces .terminator ∧
      cursor = pieces.flatten ++ 0 :: after ∧ (0 : UInt8) ∉ pieces.flatten := by
  induction h with
  | @terminator pending cursor hnext =>
    obtain ⟨after, hcursor⟩ : ∃ after, cursor = 0 :: after := by
      cases cursor with
      | nil => cases hnul
      | cons first after =>
        rw [some.inj (nextCharacter_terminator hnext)]
        exact ⟨after, rfl⟩
    exact ⟨[], after, .terminator, hcursor, not_mem_nil⟩
  | illegal => cases hending
  | @wide pending cursor w rest wides ending hnext hreads ih =>
    obtain ⟨character, hnext', hfront⟩ := nextCharacter_terminated utf8 pending hnul
    rw [hnext, some.injEq] at hnext'
    obtain ⟨front, hsplit, hnot, -, hback⟩ := hfront w rest hnext'.symm
    obtain ⟨hencode, hw⟩ := hback hpending
    obtain ⟨pieces, after, hwrites, hrest, hnone⟩ := ih rfl hending (mem_rest hnul hsplit hnot)
    refine ⟨front :: pieces, after, .wide hw hencode hwrites, ?_, ?_⟩
    · rw [hsplit, hrest, flatten_cons, append_assoc]
    · rw [flatten_cons, mem_append, not_or]
      exact ⟨hnot, hnone⟩

/-- A string is cut at its first terminator in one way. -/
theorem terminated_inj {front' after after' : List UInt8}
    (h : front ++ 0 :: after = front' ++ 0 :: after') (hfront : (0 : UInt8) ∉ front)
    (hfront' : (0 : UInt8) ∉ front') : front = front' := by
  have hcut {front after : List UInt8} (hfront : (0 : UInt8) ∉ front) :
      (front ++ 0 :: after).takeWhile (· != 0) = front := by
    rw [takeWhile_append_of_pos fun b hb => bne_iff_ne.mpr (ne_of_mem_of_not_mem hb hfront),
      takeWhile_cons_of_neg (by decide), append_nil]
  rw [← @hcut front after hfront, h, hcut hfront']

/-! ## The string conversions -/

/-- In both locales `mbsrtowcs` counts without a destination what it converts with one, and
    in pieces it converts what it converts in one call; so does `wcsrtombs`, in whole
    characters; and what `mbsrtowcs` has converted `wcsrtombs` converts back. -/
theorem stringConversions (utf8 : Bool) : (∀ (source : List UInt8) (state : UInt32), 0 ∈ source →
      ∃ whole : Converted UInt8 UInt32, (∃ size, ∀ capacity, size ≤ capacity →
          mbsrtowcs utf8 true source capacity state = some (whole, 0)) ∧
        (∀ count, ∃ counted, mbsrtowcs utf8 false source count state = some (counted, state) ∧
          counted.result = whole.result ∧ counted.error = whole.error) ∧
        (utf8 = true ∨ state = 0 → Chunkwise 1 (mbsrtowcsCall utf8) source state whole)) ∧
    (∀ source : List UInt32, 0 ∈ source → ∃ whole : Converted UInt32 UInt8,
        (∀ count, ∃ counted, wcsrtombs utf8 false source count = some counted ∧
          counted.result = whole.result ∧ counted.error = whole.error) ∧
        Chunkwise 4 (wcsrtombsCall utf8) source 0 whole ∧
        ∀ count, ∃ converted n, wcsrtombs utf8 true source count = some converted ∧ converted.written.length ≤ count ∧
          (converted.written = encodedFront utf8 source n ∨ converted.source = .null ∧
              converted.written = encodedFront utf8 source n ++ [0])) ∧
    (∀ text after : List UInt8, 0 ∉ text → ∀ whole : Converted UInt8 UInt32, (∃ size, ∀ capacity, size ≤ capacity →
        mbsrtowcs utf8 true (text ++ 0 :: after) capacity 0 = some (whole, 0)) →
      whole.error = false →
      ∃ size, ∀ capacity, size ≤ capacity → wcsrtombs utf8 true whole.written capacity =
          some ⟨text.length, text ++ [0], .null, false⟩) := by
  refine ⟨?_, ?_, ?_⟩
  · intro source state hnul
    obtain ⟨wides, ending, hreads⟩ := exists_reads state hnul
    refine ⟨ending.close wides.length wides, ⟨wides.length + 1, ?_⟩,
      fun count => mbsrtowcs_count hnul hreads, ?_⟩
    · intro capacity hroom
      rw [mbsrtowcs_convert (by omega), hreads.convert_whole hroom,
        show capacity - (capacity - wides.length) = wides.length by omega]
      rfl
    · intro hmode
      rw [mode_eq hmode] at hreads
      have htext : ReadsText utf8 source state ⟨wides.map ([·]), ending⟩ :=
        ⟨hnul, hmode, wides, rfl, hreads⟩
      have hchunks := piecewise_mbsrtowcs.chunkwise htext
      rwa [whole, flatten_singletons] at hchunks
  · intro source hnul
    obtain ⟨pieces, ending, hwrites⟩ := exists_writes hnul
    have htext : WritesText utf8 source 0 ⟨pieces, ending⟩ := hwrites
    exact ⟨_, wcsrtombs_count htext, piecewise_wcsrtombs.chunkwise htext, wcsrtombs_characters htext⟩
  · intro text after htext whole hlarge herror
    have hnul : (0 : UInt8) ∈ text ++ 0 :: after := by simp
    obtain ⟨wides, ending, hreads⟩ := exists_reads 0 hnul
    have hwhole : whole = ending.close wides.length wides := by
      obtain ⟨size, hlarge⟩ := hlarge
      have hcall := hlarge (size + wides.length + 1) (by omega)
      rw [mbsrtowcs_convert (by omega), mode_eq (.inr rfl), hreads.convert_whole (by omega),
        show size + wides.length + 1 - (size + wides.length + 1 - wides.length) = wides.length by
          omega] at hcall
      exact (Prod.mk.inj (Option.some.inj hcall)).1.symm
    obtain rfl : ending = .terminator := by
      cases ending with
      | terminator => rfl
      | illegal source => rw [hwhole] at herror; cases herror
    obtain ⟨pieces, after', hwrites, hcursor, hnone⟩ := hreads.back rfl rfl hnul
    obtain rfl := terminated_inj hcursor htext hnone
    refine ⟨pieces.flatten.length + 1, fun capacity hroom => ?_⟩
    rw [hwhole]
    show wcsrtombs utf8 true (wides ++ [0]) capacity = _
    rw [wcsrtombs_convert, hwrites.convert_whole hroom,
      show capacity - (capacity - pieces.flatten.length) = pieces.flatten.length by omega]
    rfl

end Crabc.Libc
