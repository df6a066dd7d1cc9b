/-
  Crabc.Libc.StringChunks

  A string conversion that is called again and again with what is left of its source.  If
  every call converts whole characters and goes to the end where there is room, then the
  sizes of the calls do not show in the result.
-/

import Crabc.Libc.Multibyte

namespace Crabc.Libc

variable {α β : Type}

/-- A string conversion as its caller sees it: the string, the capacity and the state word
    before; the effects and the state word behind. -/
abbrev StringCall (α β : Type) :=
  List α → Nat → UInt32 → Option (Converted α β × UInt32)

/-- What a caller that converts in pieces has: all that was written, `*source`, the state
    word, whether the last call failed, and the sum of the results. -/
structure Chunked (α β : Type) where
  written : List β
  source : SourcePointer α
  state : UInt32
  error : Bool
  total : Nat
deriving DecidableEq, Repr

/-- The next piece; nothing is left to convert behind the terminator or a failure. -/
def Chunked.next (call : StringCall α β) (run : Chunked α β) (capacity : Nat) :
    Option (Chunked α β) :=
  match run.source, run.error with
  | .at rest, false =>
    (call rest capacity run.state).map fun effects =>
      ⟨run.written ++ effects.1.written, effects.1.source, effects.2, effects.1.error, run.total + effects.1.result⟩
  | _, _ => some run

open Chunked

/-- The string converted in pieces of the given capacities. -/
def convertChunks (call : StringCall α β) (source : List α) (state : UInt32)
    (capacities : List Nat) : Option (Chunked α β) :=
  capacities.foldlM (next call) ⟨[], .at source, state, false, 0⟩

/-- What ends a string: the terminator, or an element that cannot be converted with what `*source` then is. -/
inductive Ending (α : Type) where
  | terminator
  | illegal (source : SourcePointer α)

/-- The effects of a conversion that reaches the end, with `written` before it. -/
def Ending.close [OfNat β 0] (ending : Ending α) (result : Nat) (written : List β) :
    Converted α β :=
  match ending with
  | .terminator => ⟨result, written ++ [0], .null, false⟩
  | .illegal source => ⟨mbRetIlseq, written, source, true⟩

/-- What a count that reaches the end gives. -/
def Ending.counted (ending : Ending α) (total : Nat) : Option Nat :=
  match ending with
  | .terminator => some total
  | .illegal _ => none

/-- What a string is converted to: its characters one by one, and what ends it. -/
structure Text (α β : Type) where
  pieces : List (List β)
  ending : Ending α

/-- The conversion of all of the text in one call. -/
def Text.whole [OfNat β 0] (text : Text α β) : Converted α β :=
  text.ending.close text.pieces.flatten.length text.pieces.flatten

/-- The first `n` characters in one call, which leaves `rest`. -/
def Text.front (text : Text α β) (n : Nat) (rest : List α) : Converted α β :=
  ⟨(text.pieces.take n).flatten.length, (text.pieces.take n).flatten, .at rest, false⟩

/-- The text behind the first `n` characters. -/
def Text.behind (text : Text α β) (n : Nat) : Text α β := ⟨text.pieces.drop n, text.ending⟩

/-- A call converts whole characters: all of the text where there is room for more than its
    characters, and else some of them; at least one where there is room for `widest`. -/
structure Piecewise [OfNat β 0] (widest : Nat) (call : StringCall α β)
    (Left : List α → UInt32 → Text α β → Prop) : Prop where
  length_le : ∀ {rest state text}, Left rest state text → text.pieces.length ≤ rest.length
  whole : ∀ {rest state text capacity}, Left rest state text →
    text.pieces.flatten.length < capacity → ∃ state', call rest capacity state = some (text.whole, state')
  front : ∀ {rest state text capacity}, Left rest state text → capacity ≤ text.pieces.flatten.length → ∃ n rest' state',
      call rest capacity state = some (text.front n rest', state') ∧
        Left rest' state' (text.behind n) ∧ n ≤ text.pieces.length ∧ (widest ≤ capacity → 0 < n)

/-- The conversion in pieces against the one in one call. -/
structure Chunkwise (widest : Nat) (call : StringCall α β) (source : List α) (state : UInt32)
    (whole : Converted α β) : Prop where
  /-- A large buffer takes it all. -/
  large : ∃ size, ∀ capacity, size ≤ capacity → ∃ state', call source capacity state = some (whole, state')
  /-- A run that is over has made the same of it. -/
  same : ∀ capacities, ∃ run, convertChunks call source state capacities = some run ∧
    ((run.written = whole.written ∧ run.source = whole.source ∧ run.error = whole.error ∧
        (whole.error = false → run.total = whole.result)) ∨
      (∃ rest, run.source = .at rest ∧ run.error = false ∧ run.total = run.written.length ∧
        ∃ size, ∀ capacity, size ≤ capacity → ∃ more state', call rest capacity run.state = some (more, state') ∧
            run.written ++ more.written = whole.written ∧ more.source = whole.source ∧
            more.error = whole.error))
  /-- A run of enough pieces that can take a character is over. -/
  stops : ∀ capacities, (∀ capacity ∈ capacities, widest ≤ capacity) →
    source.length < capacities.length → ∃ run, convertChunks call source state capacities = some run ∧
      (run.source = .null ∨ run.error = true)

variable [OfNat β 0] {widest : Nat} {call : StringCall α β}
  {Left : List α → UInt32 → Text α β → Prop}

/-- The run is over with the effects of the conversion in one call. -/
structure Chunked.Over (text : Text α β) (run : Chunked α β) : Prop where
  written : run.written = text.whole.written
  source : run.source = text.whole.source
  error : run.error = text.whole.error
  total : text.whole.error = false → run.total = text.whole.result

/-- The run stands behind the first `n` characters. -/
structure Chunked.Behind (Left : List α → UInt32 → Text α β → Prop) (text : Text α β)
    (run : Chunked α β) (n : Nat) (rest : List α) : Prop where
  written : run.written = (text.pieces.take n).flatten
  source : run.source = .at rest
  error : run.error = false
  total : run.total = run.written.length
  left : Left rest run.state (text.behind n)
  le : n ≤ text.pieces.length

open List Text

section

variable (text : Text α β) (n : Nat)

theorem Text.whole_behind_written :
    (text.pieces.take n).flatten ++ (text.behind n).whole.written = text.whole.written := by
  have hsplit : (text.pieces.take n).flatten ++ (text.pieces.drop n).flatten = text.pieces.flatten := by
    rw [← flatten_append, take_append_drop]
  unfold whole Ending.close behind
  cases text.ending with
  | terminator => rw [← append_assoc, hsplit]
  | illegal source => exact hsplit

theorem Text.whole_behind : (text.behind n).whole.source = text.whole.source ∧
      (text.behind n).whole.error = text.whole.error := by
  unfold whole Ending.close behind
  cases text.ending <;> exact ⟨rfl, rfl⟩

theorem Text.whole_behind_result (h : text.whole.error = false) :
    (text.pieces.take n).flatten.length + (text.behind n).whole.result = text.whole.result := by
  unfold whole Ending.close behind at *
  cases hend : text.ending with
  | terminator =>
    rw [← length_append, ← flatten_append, take_append_drop]
  | illegal source => rw [hend] at h; cases h

end

variable {text : Text α β} {run : Chunked α β}

theorem Chunked.Over.stopped (h : run.Over text) : run.source = .null ∨ run.error = true := by
  rw [h.source, h.error]
  unfold whole Ending.close
  cases text.ending
  · exact .inl rfl
  · exact .inr rfl

theorem Chunked.next_over (h : run.Over text) {capacity : Nat} : run.next call capacity = some run := by
  unfold next
  rcases h.stopped with hnull | herror
  · rw [hnull]
  · rw [herror]
    split
    · cases ‹true = false›
    · rfl

section

variable (spec : Piecewise widest call Left)
include spec

/-- One piece more. -/
theorem Chunked.Behind.next {n : Nat} {rest : List α} (h : run.Behind Left text n rest) (capacity : Nat) :
    ∃ run', run.next call capacity = some run' ∧ (run'.Over text ∨
        ∃ n' rest', run'.Behind Left text n' rest' ∧ n ≤ n' ∧ (widest ≤ capacity → n < n')) := by
  unfold Chunked.next
  rw [h.source, h.error]
  dsimp only
  by_cases hroom : (text.behind n).pieces.flatten.length < capacity
  · obtain ⟨state', hcall⟩ := spec.whole h.left hroom
    refine ⟨_, by rw [hcall]; rfl, .inl ?_⟩
    constructor
    · rw [h.written]
      exact text.whole_behind_written n
    · exact (text.whole_behind n).1
    · exact (text.whole_behind n).2
    · intro herror
      rw [h.total, h.written]
      exact text.whole_behind_result n herror
  · obtain ⟨n', rest', state', hcall, hleft, hle, hsome⟩ := spec.front h.left (Nat.le_of_not_lt hroom)
    refine ⟨_, by rw [hcall]; rfl, .inr ⟨n + n', rest', ?_, by omega, fun hw => ?_⟩⟩
    · have hwritten : run.written ++ ((text.behind n).pieces.take n').flatten =
          (text.pieces.take (n + n')).flatten := by
        rw [h.written, ← flatten_append, take_add]
        rfl
      refine ⟨hwritten, rfl, rfl, ?_, ?_, ?_⟩
      · show run.total + _ = (run.written ++ _).length
        rw [length_append, h.total]
        rfl
      · have hbehind : (text.behind n).behind n' = text.behind (n + n') := by
          unfold behind
          rw [drop_drop]
        exact hbehind ▸ hleft
      · have hpieces : (text.behind n).pieces.length = text.pieces.length - n := length_drop
        have := h.le
        omega
    · omega

/-- A run in pieces. -/
theorem foldlM_chunked (capacities : List Nat) (h : run.Over text ∨ ∃ n rest, run.Behind Left text n rest) :
    ∃ run', capacities.foldlM (next call) run = some run' ∧
      (run'.Over text ∨ ∃ n rest, run'.Behind Left text n rest) := by
  induction capacities generalizing run with
  | nil => exact ⟨run, rfl, h⟩
  | cons capacity capacities ih =>
    rw [foldlM_cons]
    rcases h with hover | ⟨n, rest, hbehind⟩
    · rw [next_over hover]
      exact ih (.inl hover)
    · obtain ⟨run', hnext, hstands⟩ := hbehind.next spec capacity
      rw [hnext]
      apply ih
      rcases hstands with hover | ⟨n', rest', hbehind', -⟩
      · exact .inl hover
      · exact .inr ⟨n', rest', hbehind'⟩

/-- A run in pieces that each take a character gets through the text. -/
theorem foldlM_chunked_over {capacities : List Nat} (hwide : ∀ capacity ∈ capacities, widest ≤ capacity)
    (h : run.Over text ∨ ∃ n rest, run.Behind Left text n rest ∧ text.pieces.length < n + capacities.length) :
    ∃ run', capacities.foldlM (next call) run = some run' ∧ run'.Over text := by
  induction capacities generalizing run with
  | nil =>
    refine ⟨run, rfl, ?_⟩
    rcases h with hover | ⟨n, rest, hbehind, hlong⟩
    · exact hover
    · exact absurd hlong (Nat.not_lt.mpr hbehind.le)
  | cons capacity capacities ih =>
    rw [foldlM_cons]
    rcases h with hover | ⟨n, rest, hbehind, hlong⟩
    · rw [next_over hover]
      exact ih (fun c hc => hwide c (mem_cons_of_mem _ hc)) (.inl hover)
    · obtain ⟨run', hnext, hstands⟩ := hbehind.next spec capacity
      rw [hnext]
      apply ih (fun c hc => hwide c (mem_cons_of_mem _ hc))
      rcases hstands with hover | ⟨n', rest', hbehind', -, hlt⟩
      · exact .inl hover
      · have := hlt (hwide capacity mem_cons_self)
        rw [length_cons] at hlong
        exact .inr ⟨n', rest', hbehind', by omega⟩

/-- A conversion that goes piece by piece does not show the pieces. -/
theorem Piecewise.chunkwise {source : List α} {state : UInt32}
    (h : Left source state text) : Chunkwise widest call source state text.whole := by
  have hstart : Chunked.Behind Left text ⟨[], .at source, state, false, 0⟩ 0 source :=
    ⟨rfl, rfl, rfl, rfl, h, Nat.zero_le _⟩
  constructor
  · exact ⟨text.pieces.flatten.length + 1, fun capacity hroom => spec.whole h hroom⟩
  · intro capacities
    obtain ⟨run, hrun, hstands⟩ := foldlM_chunked spec capacities (.inr ⟨0, source, hstart⟩)
    refine ⟨run, hrun, ?_⟩
    rcases hstands with hover | ⟨n, rest, hbehind⟩
    · exact .inl ⟨hover.written, hover.source, hover.error, hover.total⟩
    · refine .inr ⟨rest, hbehind.source, hbehind.error, hbehind.total,
        (text.behind n).pieces.flatten.length + 1, fun capacity hroom => ?_⟩
      obtain ⟨state', hcall⟩ := spec.whole hbehind.left hroom
      refine ⟨_, state', hcall, ?_, (text.whole_behind n).1, (text.whole_behind n).2⟩
      rw [hbehind.written]
      exact text.whole_behind_written n
  · intro capacities hwide hlong
    have hle := spec.length_le h
    obtain ⟨run, hrun, hover⟩ := foldlM_chunked_over spec hwide
      (.inr ⟨0, source, hstart, by omega⟩)
    exact ⟨run, hrun, hover.stopped⟩

end

end Crabc.Libc
