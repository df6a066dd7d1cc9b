/-
  Crabc.Pattern.Tokens

  The token sequence of a pattern, and that cutting a pattern between two tokens
  does not change them: an escape cannot be cut from its byte, a bracket
  expression ends inside the slice or was never closed.
-/

import Crabc.Pattern.Fnmatch

namespace Crabc.Pattern

open Option Token Or

/-! ## Scanning a prefix -/

variable {mode : Option UInt8} {u : List UInt8}

theorem bracketScan_bounds {n : Nat} (h : bracketScan mode u = some n) : 0 < n ∧ n ≤ u.length := by
  fun_induction bracketScan mode u generalizing n <;> grind [map_eq_some_iff]

variable {n : Nat} {rest : List UInt8}

/-- Only a closing bracket outside a nested element ends the scan at once. -/
theorem two_le_of_bracketScan (h : bracketScan mode u = some n)
    (hmode : mode = none → u.head? ≠ some close) : 2 ≤ n := by
  have hb := @bracketScan_bounds
  fun_induction bracketScan mode u <;> grind [map_eq_some_iff]

theorem bracketScan_close {rest : List UInt8} : bracketScan none (close :: rest) = some 1 := by
  cases rest <;> rfl

variable {byte : UInt8}

theorem bracketScan_plain (hc : byte ≠ close) (ho : byte ≠ open_) {rest : List UInt8} :
    bracketScan none (byte :: rest) = (bracketScan none rest).map (· + 1) := by
  cases rest <;> simp [bracketScan, hc, ho]

/-- Passing `k` more bytes keeps two scans in step. -/
theorem map_add_eq_some_iff {o o' : Option Nat} {len : Nat} (h : ∀ {m}, o = some m ↔ o' = some m ∧ m ≤ len) {k : Nat} :
    o.map (· + k) = some n ↔ o'.map (· + k) = some n ∧ n ≤ len + k := by
  simp only [map_eq_some_iff, h]
  constructor
  · rintro ⟨m, ⟨ho, hle⟩, rfl⟩
    exact ⟨⟨m, ho, rfl⟩, by omega⟩
  · rintro ⟨⟨m, ho, rfl⟩, hle⟩
    exact ⟨m, ⟨ho, by omega⟩, rfl⟩

open List

/-- A scan of a prefix ends as the scan of the whole does, if that ends in it. -/
theorem bracketScan_append_iff (v : List UInt8) {n : Nat} :
    bracketScan mode u = some n ↔ bracketScan mode (u ++ v) = some n ∧ n ≤ u.length := by
  fun_induction bracketScan mode u generalizing n with
  | case1 mode =>
    refine ⟨nofun, fun ⟨h, hle⟩ => ?_⟩
    have hb := bracketScan_bounds h
    rw [length_nil] at hle
    omega
  | case2 rest =>
    rw [cons_append, bracketScan_close, length_cons]
    refine ⟨fun h => ⟨h, ?_⟩, And.left⟩
    cases h
    omega
  | case3 hne =>
    refine ⟨nofun, fun ⟨h, hle⟩ => ?_⟩
    have hb := two_le_of_bracketScan h (fun _ h => hne (some.inj h))
    rw [length_singleton] at hle
    omega
  | case4 delimiter rest hd hne ih =>
    simp only [cons_append, bracketScan, if_neg hne, if_true, hd]
    exact map_add_eq_some_iff ih
  | case5 delimiter rest hd hne ih =>
    rw [cons_append, cons_append, bracketScan, if_neg hne, if_pos rfl]
    simp only [hd]
    exact map_add_eq_some_iff ih
  | case6 byte rest hc ho ih =>
    rw [cons_append, bracketScan_plain hc ho]
    exact map_add_eq_some_iff ih
  | case7 delimiter byte =>
    refine ⟨nofun, fun ⟨h, hle⟩ => ?_⟩
    have hb := two_le_of_bracketScan h nofun
    rw [length_singleton] at hle
    omega
  | case8 delimiter byte following rest heq ih =>
    simp only [cons_append, bracketScan, if_pos heq]
    exact map_add_eq_some_iff ih
  | case9 delimiter byte following rest heq ih =>
    simp only [cons_append, bracketScan, if_neg heq]
    exact map_add_eq_some_iff ih

theorem bracketIntro_append (hu : 2 ≤ u.length) (v : List UInt8) : bracketIntro (u ++ v) = bracketIntro u := by
  match u, hu with
  | _ :: _ :: _, _ => rfl

theorem bracketIntro_le (u : List UInt8) : bracketIntro u ≤ u.length := by
  fun_cases bracketIntro u <;> simp

/-- Something stands between the brackets: a first `]` does not close them. -/
theorem bracketEnd_bounds (h : bracketEnd u = some n) : 2 ≤ n ∧ n ≤ u.length := by
  obtain ⟨m, hm, rfl⟩ := map_eq_some_iff.mp h
  have hb := bracketScan_bounds hm
  rw [length_drop] at hb
  refine ⟨?_, by omega⟩
  by_cases h0 : bracketIntro u = 0
  · rw [h0, drop_zero] at hm
    have h2 : 2 ≤ m := by
      refine two_le_of_bracketScan hm fun _ hhead => ?_
      -- an expression that starts with `]` has it in its introduction
      match u, hhead with
      | _ :: _, hhead =>
        cases hhead
        simp [bracketIntro, close] at h0
    omega
  · omega

theorem bracketEnd_append_iff (v : List UInt8) {n : Nat} :
    bracketEnd u = some n ↔ bracketEnd (u ++ v) = some n ∧ n ≤ u.length := by
  by_cases hu : 2 ≤ u.length
  · have hle := bracketIntro_le u
    rw [bracketEnd, bracketEnd, bracketIntro_append hu, drop_append_of_le_length hle]
    simp only [map_eq_some_iff, @bracketScan_append_iff _ (u.drop (bracketIntro u)) v, length_drop]
    constructor
    · rintro ⟨m, ⟨hm, hlen⟩, rfl⟩
      exact ⟨⟨m, hm, rfl⟩, by omega⟩
    · rintro ⟨⟨m, hm, rfl⟩, hlen⟩
      exact ⟨m, ⟨hm, by omega⟩, rfl⟩
  · constructor
    · intro h
      have hb := bracketEnd_bounds h
      omega
    · rintro ⟨h, hlen⟩
      have hb := bracketEnd_bounds h
      omega

/-! ## One token -/

/-- The token read at a position `d` further on. -/
def Token.shift (d : Nat) : Token → Token
  | .end => .end
  | .star next => .star (d + next)
  | .question next => .question (d + next)
  | .bracket next => .bracket (d + next)
  | .literal byte next => .literal byte (d + next)

variable {d : Nat}

theorem Token.nextIndex_shift {t : Token} (h : t ≠ .end) : (t.shift d).nextIndex = d + t.nextIndex := by
  cases t with
  | «end» => exact absurd rfl h
  | _ => rfl

variable {index : Nat}

theorem plainToken_shift : plainToken (d + index) byte = (plainToken index byte).shift d := by
  unfold plainToken
  split_ifs <;> rfl

theorem unescapedToken_shift (d index : Nat) (byte : UInt8) (rest : List UInt8) :
    unescapedToken (d + index) byte rest = (unescapedToken index byte rest).shift d := by
  unfold unescapedToken
  rw [plainToken_shift]
  cases bracketEnd rest <;> split_ifs <;> simp only [shift, Nat.add_assoc]

/-- A backslash that escapes the byte behind it. -/
def Escapes (flags : UInt32) (byte : UInt8) : Prop :=
  byte = backslash ∧ has flags fnmNoescape = false

variable {flags : UInt32}

theorem tokenAt_escape (h : Escapes flags byte) (index : Nat) (escaped : UInt8) (tail : List UInt8) :
    tokenAt index flags (byte :: escaped :: tail) = .literal escaped (index + 2) :=
  if_pos h

theorem tokenAt_unescaped (h : Escapes flags byte → rest = []) (index : Nat) :
    tokenAt index flags (byte :: rest) = unescapedToken index byte rest := by
  cases rest with
  | nil => exact ite_id _
  | cons escaped tail => exact if_neg fun hesc => cons_ne_nil _ _ (h hesc)

/-- The two ways a nonempty rest of the pattern is read. -/
theorem escapes_cases (flags : UInt32) (byte : UInt8) (rest : List UInt8) :
    (Escapes flags byte ∧ ∃ escaped tail, rest = escaped :: tail) ∨ (Escapes flags byte → rest = []) := by
  by_cases h : Escapes flags byte
  · cases rest with
    | nil => exact inr fun _ => rfl
    | cons escaped tail => exact inl ⟨h, escaped, tail, rfl⟩
  · exact inr fun h' => absurd h' h

/-- A token depends on its position only through `next`. -/
theorem tokenAt_shift {rest : List UInt8} : tokenAt (d + index) flags rest = (tokenAt index flags rest).shift d := by
  cases rest with
  | nil => rfl
  | cons byte rest =>
    rcases escapes_cases flags byte rest with ⟨h, escaped, tail, rfl⟩ | h
    · rw [tokenAt_escape h, tokenAt_escape h]
      rfl
    · rw [tokenAt_unescaped h, tokenAt_unescaped h, unescapedToken_shift]

theorem plainToken_next : (plainToken index byte).nextIndex = index + 1 ∧ plainToken index byte ≠ .end := by
  unfold plainToken
  split_ifs <;> exact ⟨rfl, by simp⟩

/-- What an unescaped byte starts. -/
theorem unescapedToken_cases (index : Nat) (byte : UInt8) (rest : List UInt8) :
    (∃ n, byte = open_ ∧ bracketEnd rest = some n ∧ unescapedToken index byte rest = .bracket (index + 1 + n)) ∨
    ((byte = open_ → bracketEnd rest = none) ∧ unescapedToken index byte rest = plainToken index byte) := by
  unfold unescapedToken
  by_cases hopen : byte = open_
  · rw [if_pos hopen]
    cases hb : bracketEnd rest with
    | some n => exact inl ⟨n, hopen, rfl, rfl⟩
    | none => exact inr ⟨fun _ => rfl, rfl⟩
  · rw [if_neg hopen]
    exact inr ⟨fun h => absurd h hopen, rfl⟩

theorem unescapedToken_next (index : Nat) (byte : UInt8) (rest : List UInt8) :
    index < (unescapedToken index byte rest).nextIndex ∧
      (unescapedToken index byte rest).nextIndex ≤ index + 1 + rest.length ∧
      unescapedToken index byte rest ≠ .end := by
  rcases unescapedToken_cases index byte rest with ⟨n, -, hb, heq⟩ | ⟨-, heq⟩
  · have hn := bracketEnd_bounds hb
    rw [heq]
    refine ⟨?_, ?_, by simp⟩ <;> simp only [nextIndex] <;> omega
  · obtain ⟨hnext, hne⟩ := plainToken_next
    rw [heq]
    exact ⟨by omega, by omega, hne⟩

/-- A token is not empty and lies within the pattern. -/
theorem tokenAt_next {rest : List UInt8} (h : rest ≠ []) :
    index < (tokenAt index flags rest).nextIndex ∧ (tokenAt index flags rest).nextIndex ≤ index + rest.length ∧
      tokenAt index flags rest ≠ .end := by
  cases rest with
  | nil => exact absurd rfl h
  | cons byte rest =>
    rcases escapes_cases flags byte rest with ⟨hesc, escaped, tail, rfl⟩ | hesc
    · rw [tokenAt_escape hesc]
      refine ⟨?_, ?_, by simp⟩ <;> simp only [nextIndex, length_cons] <;> omega
    · have hu := unescapedToken_next index byte rest
      rw [tokenAt_unescaped hesc, length_cons]
      exact ⟨hu.1, by omega, hu.2.2⟩

theorem unescapedToken_take {k : Nat} (h : (unescapedToken index byte rest).nextIndex ≤ index + 1 + k) :
    unescapedToken index byte (rest.take k) = unescapedToken index byte rest := by
  have hiff := @bracketEnd_append_iff (rest.take k) (rest.drop k)
  rw [take_append_drop, length_take] at hiff
  rcases unescapedToken_cases index byte rest with ⟨n, hopen, hb, heq⟩ | ⟨hnone, heq⟩
  · -- a closed expression lies within the slice
    have hn := bracketEnd_bounds hb
    rw [heq] at h ⊢
    simp only [nextIndex] at h
    rw [unescapedToken, if_pos hopen, hiff.mpr ⟨hb, by omega⟩]
  · rcases unescapedToken_cases index byte (rest.take k) with ⟨m, hopen, hb, -⟩ | ⟨-, heq'⟩
    · -- one that is not closed in the whole is not closed in the slice
      have hsome := (hiff.mp hb).1
      rw [hnone hopen] at hsome
      cases hsome
    · rw [heq, heq']

/-- Cutting the pattern behind a token leaves the token as it is. -/
theorem tokenAt_take (h : (tokenAt index flags rest).nextIndex ≤ index + n) (hn : 0 < n) :
    tokenAt index flags (rest.take n) = tokenAt index flags rest := by
  obtain ⟨k, rfl⟩ : ∃ k, n = k + 1 := ⟨n - 1, by omega⟩
  cases rest with
  | nil => rfl
  | cons byte rest =>
    rw [take_succ_cons]
    rcases escapes_cases flags byte rest with ⟨hesc, escaped, tail, rfl⟩ | hesc
    · -- the escaped byte is inside, as the token ends inside
      rw [tokenAt_escape hesc] at h ⊢
      simp only [nextIndex] at h
      obtain ⟨j, rfl⟩ : ∃ j, k = j + 1 := ⟨k - 1, by omega⟩
      rw [take_succ_cons, tokenAt_escape hesc]
    · rw [tokenAt_unescaped hesc] at h ⊢
      rw [tokenAt_unescaped fun h' => by rw [hesc h', take_nil]]
      exact unescapedToken_take (by omega)

/-! ## The token sequence -/

variable {pattern : List UInt8}

theorem nextToken_end (h : pattern.length ≤ index) : nextToken pattern index flags = .end := by
  rw [nextToken, drop_eq_nil_of_le h]
  rfl

theorem nextToken_next (h : index < pattern.length) (flags : UInt32) :
    index < (nextToken pattern index flags).nextIndex ∧ (nextToken pattern index flags).nextIndex ≤ pattern.length ∧
      nextToken pattern index flags ≠ .end := by
  have hne : pattern.drop index ≠ [] := by
    rw [Ne, drop_eq_nil_iff]
    omega
  have hnext := @tokenAt_next index flags _ hne
  rw [length_drop] at hnext
  exact ⟨hnext.1, by unfold nextToken; omega, hnext.2.2⟩

/-- The tokens of the pattern from `index` on, each with its position. -/
def tokensFrom (pattern : List UInt8) (flags : UInt32) : Nat → Nat → List (Nat × Token)
  | 0, _ => []
  | fuel + 1, index =>
    match nextToken pattern index flags with
    | .end => []
    | token => (index, token) :: tokensFrom pattern flags fuel token.nextIndex

/-- The token sequence of a pattern, as `next_token` produces it. -/
def tokens (pattern : List UInt8) (flags : UInt32) : List (Nat × Token) :=
  tokensFrom pattern flags pattern.length 0

/-- Reading token after token from one position to another. -/
inductive Chain (pattern : List UInt8) (flags : UInt32) : Nat → List (Nat × Token) → Nat → Prop where
  | nil {i} : Chain pattern flags i [] i
  | cons {i ts e} : i < pattern.length →
      Chain pattern flags (nextToken pattern i flags).nextIndex ts e →
      Chain pattern flags i ((i, nextToken pattern i flags) :: ts) e

section chain

variable {i e : Nat} {ts : List (Nat × Token)}

theorem Chain.le (h : Chain pattern flags i ts e) : i ≤ e := by
  induction h with
  | nil => exact Nat.le_refl _
  | cons hi _ ih =>
    have hnext := nextToken_next hi flags
    omega

variable {ts' : List (Nat × Token)}

theorem Chain.trans {e' : Nat} (h : Chain pattern flags i ts e)
    (h' : Chain pattern flags e ts' e') : Chain pattern flags i (ts ++ ts') e' := by
  induction h with
  | nil => exact h'
  | cons hi _ ih => exact .cons hi (ih h')

section

variable (h : Chain pattern flags i ts pattern.length)
include h

/-- The tokens up to the end are determined by where they start. -/
theorem Chain.unique (h' : Chain pattern flags i ts' pattern.length) : ts = ts' := by
  generalize he : pattern.length = e at h
  induction h generalizing ts' with
  | nil =>
    subst he
    cases h' with
    | nil => rfl
    | cons hi _ => exact absurd hi (Nat.lt_irrefl _)
  | cons hi _ ih =>
    subst he
    cases h' with
    | nil => exact absurd hi (Nat.lt_irrefl _)
    | cons _ hrest => rw [ih hrest rfl]

/-- The tokens up to the end: none at the end, else the next one and the rest. -/
theorem Chain.cases_end : (i = pattern.length ∧ ts = []) ∨
      (i < pattern.length ∧ ∃ rest, ts = (i, nextToken pattern i flags) :: rest ∧
        Chain pattern flags (nextToken pattern i flags).nextIndex rest pattern.length) := by
  generalize he : pattern.length = e at h
  cases h with
  | nil => exact inl ⟨rfl, rfl⟩
  | cons hi hrest => exact inr ⟨he ▸ hi, _, rfl, hrest⟩

end

theorem chain_tokensFrom {fuel : Nat} (hi : i ≤ pattern.length) (hfuel : pattern.length ≤ i + fuel) :
    Chain pattern flags i (tokensFrom pattern flags fuel i) pattern.length := by
  induction fuel generalizing i with
  | zero =>
    obtain rfl : i = pattern.length := by omega
    exact .nil
  | succ fuel ih =>
    rcases Nat.lt_or_ge i pattern.length with hlt | hge
    · have hnext := nextToken_next hlt flags
      have hrest := Chain.cons hlt (ih (i := (nextToken pattern i flags).nextIndex)
        hnext.2.1 (by omega))
      unfold tokensFrom
      split
      · exact absurd ‹_› hnext.2.2
      · exact hrest
    · obtain rfl : i = pattern.length := by omega
      rw [tokensFrom, nextToken_end .refl]
      exact .nil

theorem chain_tokens (pattern : List UInt8) (flags : UInt32) :
    Chain pattern flags 0 (tokens pattern flags) pattern.length :=
  chain_tokensFrom (Nat.zero_le _) (by omega)

theorem Chain.mem (h : Chain pattern flags i ts e) {it : Nat × Token} (hmem : it ∈ ts) :
    it.1 < pattern.length ∧ it.2 = nextToken pattern it.1 flags := by
  induction h with
  | nil => cases hmem
  | cons hi _ ih =>
    rcases mem_cons.mp hmem with rfl | hmem
    · exact ⟨hi, rfl⟩
    · exact ih hmem

/-! ## Slices between tokens -/

/-- A token of a slice that starts at `d`, as a token of the whole. -/
def shiftBy (d : Nat) (it : Nat × Token) : Nat × Token := (d + it.1, it.2.shift d)

theorem drop_slice {s j e : Nat} : ((pattern.take e).drop s).drop j = (pattern.drop (s + j)).take (e - (s + j)) := by
  rw [drop_drop, drop_take]

/-- **Re-tokenising a slice** that ends between two tokens yields the tokens of
    the whole pattern. -/
theorem Chain.slice (h : Chain pattern flags i ts e) (he : e ≤ pattern.length) {s j : Nat} (hij : i = s + j) :
    ∃ ts', Chain ((pattern.take e).drop s) flags j ts' ((pattern.take e).drop s).length ∧ ts = ts'.map (shiftBy s) := by
  induction h generalizing j with
  | @nil i =>
    refine ⟨[], ?_, rfl⟩
    have hlen : ((pattern.take i).drop s).length = j := by
      rw [length_drop, length_take]
      omega
    rw [hlen]
    exact .nil
  | @cons i ts e hi hrest ih =>
    have hnext := nextToken_next hi flags
    have hend := hrest.le
    -- the token is read the same way in the slice, up to its position
    have htok : nextToken pattern i flags = (nextToken ((pattern.take e).drop s) j flags).shift s := by
      rw [nextToken, nextToken, drop_slice, ← hij, ← tokenAt_shift, ← hij]
      refine (tokenAt_take ?_ ?_).symm
      · show (nextToken pattern i flags).nextIndex ≤ _
        omega
      · omega
    have hlt : j < ((pattern.take e).drop s).length := by
      rw [length_drop, length_take]
      omega
    have hslice := nextToken_next hlt flags
    rw [htok, nextIndex_shift hslice.2.2] at ih
    obtain ⟨ts', hts', rfl⟩ := ih he rfl
    refine ⟨_, .cons hlt hts', ?_⟩
    rw [map_cons, shiftBy, ← htok, ← hij]

end chain

end Crabc.Pattern
