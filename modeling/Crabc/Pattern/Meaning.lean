/-
  Crabc.Pattern.Meaning

  `fnmatch` against the declarative meaning of the pattern's token sequence:
  the whole token sequence, or its parts between slashes component by
  component, over the candidate or, with `FNM_LEADING_DIR`, over a prefix of it
  that ends just before a slash.
-/

import Crabc.Pattern.Component

namespace Crabc.Pattern

open Crabc.Lib Or Nat

/-! ## The meaning -/

/-- A slash literal, escaped or not. -/
def isSlash (it : Nat × Token) : Bool :=
  match it.2 with
  | .literal byte _ => byte == slash
  | _ => false

/-- The texts a candidate offers: itself, and with `FNM_LEADING_DIR` every prefix that ends just before a slash. -/
def Selected (flags : UInt32) (candidate text : List UInt8) : Prop :=
  text = candidate ∨ (has flags fnmLeadingDir = true ∧ ∃ rest, candidate = text ++ slash :: rest)

/-- Component by component: the tokens cut at slash literals against the text cut at slashes. -/
def PathMeaning (arch : Arch) (pattern : List UInt8) (flags : UInt32) (ts : List (Nat × Token))
    (candidate : List UInt8) : Prop :=
  ∃ text, Selected flags candidate text ∧ List.Forall₂ (ComponentMeaning arch pattern flags) (ts.splitOnP isSlash)
      (text.splitOnP (· == slash))

/-- The declarative meaning of a pattern. -/
def Meaning (arch : Arch) (pattern candidate : List UInt8) (flags : UInt32) : Prop :=
  if has flags fnmPathname = true then
    PathMeaning arch pattern flags (tokens pattern flags) candidate
  else
    ∃ text, Selected flags candidate text ∧ ComponentMeaning arch pattern flags (tokens pattern flags) text

/-! ## Cutting at the first slash -/

open List

section cut

variable {arch : Arch} {pattern : List UInt8} {flags : UInt32} {seg ts : List (Nat × Token)}
  {sep : Nat × Token} {x s text : List UInt8}

theorem splitOnP_slash (hx : slash ∉ x) : x.splitOnP (· == slash) = [x] := by
  refine splitOnP_eq_singleton fun b hb => ?_
  rw [beq_eq_false_iff_ne]
  rintro rfl
  exact hx hb

theorem splitOnP_append_slash (hx : slash ∉ x) (s : List UInt8) :
    (x ++ slash :: s).splitOnP (· == slash) = x :: s.splitOnP (· == slash) := by
  rw [splitOnP_append_cons _ _ (by simp), splitOnP_slash hx]
  rfl

theorem selected_noSlash (hs : slash ∉ s) : Selected flags s text ↔ text = s := by
  refine ⟨?_, inl⟩
  rintro (h | ⟨-, rest, rfl⟩)
  · exact h
  · exact absurd (by simp) hs

/-- A selected text ends at the first slash or goes on behind it. -/
theorem selected_append_slash (hx : slash ∉ x) : Selected flags (x ++ slash :: s) text ↔
      (has flags fnmLeadingDir = true ∧ text = x) ∨ ∃ text', text = x ++ slash :: text' ∧ Selected flags s text' := by
  constructor
  · rintro (rfl | ⟨hlead, rest, heq⟩)
    · exact inr ⟨s, rfl, inl rfl⟩
    · rcases append_eq_append_iff.mp heq with ⟨a, rfl, ha⟩ | ⟨c, rfl, hc⟩
      · cases a with
        | nil => exact inl ⟨hlead, append_nil x⟩
        | cons b a =>
          obtain ⟨rfl, rfl⟩ := ha
          exact inr ⟨a, rfl, inr ⟨hlead, rest, rfl⟩⟩
      · cases c with
        | nil => exact inl ⟨hlead, (append_nil text).symm⟩
        | cons b c =>
          rw [cons_append, cons.injEq] at hc
          exact absurd (by simp [← hc.1]) hx
  · rintro (⟨hlead, rfl⟩ | ⟨text', rfl, rfl | ⟨hlead, rest, rfl⟩⟩)
    · exact inr ⟨hlead, s, rfl⟩
    · exact inl rfl
    · exact inr ⟨hlead, rest, by simp⟩

/-- Both sides go on: the first components match, and so does the rest. -/
theorem pathMeaning_both (hseg : ∀ it ∈ seg, isSlash it = false) (hsep : isSlash sep = true)
    (hx : slash ∉ x) : PathMeaning arch pattern flags (seg ++ sep :: ts) (x ++ slash :: s) ↔
      ComponentMeaning arch pattern flags seg x ∧ PathMeaning arch pattern flags ts s := by
  have hcut : (seg ++ sep :: ts).splitOnP isSlash = seg :: ts.splitOnP isSlash := by
    rw [splitOnP_append_cons _ _ hsep, splitOnP_eq_singleton hseg]
    rfl
  unfold PathMeaning
  rw [hcut]
  constructor
  · rintro ⟨text, hsel, hall⟩
    rcases (selected_append_slash hx).mp hsel with ⟨-, rfl⟩ | ⟨text', rfl, hsel'⟩
    · -- the text is one component, the pattern has more
      rw [splitOnP_slash hx, forall₂_cons, forall₂_nil_right_iff] at hall
      exact absurd hall.2 (splitOnP_ne_nil _ _)
    · rw [splitOnP_append_slash hx, forall₂_cons] at hall
      exact ⟨hall.1, text', hsel', hall.2⟩
  · rintro ⟨hfirst, text', hsel', hall⟩
    refine ⟨x ++ slash :: text', (selected_append_slash hx).mpr (inr ⟨text', rfl, hsel'⟩), ?_⟩
    rw [splitOnP_append_slash hx]
    exact .cons hfirst hall

/-- The pattern has more components than the candidate. -/
theorem not_pathMeaning_of_noSlash (hsep : isSlash sep = true) (hs : slash ∉ s) :
    ¬ PathMeaning arch pattern flags (seg ++ sep :: ts) s := by
  rintro ⟨text, hsel, hall⟩
  obtain rfl := (selected_noSlash hs).mp hsel
  have hlen := hall.length_eq
  have hseg := length_pos_iff.mpr (splitOnP_ne_nil isSlash seg)
  have hts := length_pos_iff.mpr (splitOnP_ne_nil isSlash ts)
  rw [splitOnP_append_cons _ _ hsep, splitOnP_slash hs, length_append, length_singleton] at hlen
  omega

/-- The last component of the pattern, with more of the candidate to come. -/
theorem pathMeaning_last (hseg : ∀ it ∈ seg, isSlash it = false) (hx : slash ∉ x) :
    PathMeaning arch pattern flags seg (x ++ slash :: s) ↔
      has flags fnmLeadingDir = true ∧ ComponentMeaning arch pattern flags seg x := by
  unfold PathMeaning
  rw [splitOnP_eq_singleton hseg]
  constructor
  · rintro ⟨text, hsel, hall⟩
    rcases (selected_append_slash hx).mp hsel with ⟨hlead, rfl⟩ | ⟨text', rfl, -⟩
    · rw [splitOnP_slash hx, forall₂_cons] at hall
      exact ⟨hlead, hall.1⟩
    · rw [splitOnP_append_slash hx, forall₂_cons, forall₂_nil_left_iff] at hall
      exact absurd hall.2 (splitOnP_ne_nil _ _)
  · rintro ⟨hlead, hm⟩
    refine ⟨x, (selected_append_slash hx).mpr (inl ⟨hlead, rfl⟩), ?_⟩
    rw [splitOnP_slash hx]
    exact .cons hm .nil

theorem pathMeaning_single (hseg : ∀ it ∈ seg, isSlash it = false) (hs : slash ∉ s) :
    PathMeaning arch pattern flags seg s ↔ ComponentMeaning arch pattern flags seg s := by
  unfold PathMeaning
  simp only [selected_noSlash hs, exists_eq_left]
  rw [splitOnP_eq_singleton hseg, splitOnP_slash hs, forall₂_cons]
  exact and_iff_left .nil

end cut

/-! ## The flags a component is matched with -/

section flags

variable {flags flags' : UInt32}

/-- Clearing `FNM_LEADING_DIR` leaves every other flag. -/
theorem has_clear (flags flag : UInt32) (h : ~~~fnmLeadingDir &&& flag = flag) :
    has (flags &&& ~~~fnmLeadingDir) flag = has flags flag := by
  rw [has, has, UInt32.and_assoc, h]

section

variable (h : has flags fnmCasefold = has flags' fnmCasefold)
include h

theorem bytesEqual_congr (pattern candidate : UInt8) :
    bytesEqual pattern candidate flags = bytesEqual pattern candidate flags' := by
  rw [bytesEqual, bytesEqual, h]

theorem rangeMatches_congr (arch : Arch) (low high candidate folded : UInt8) :
    rangeMatches arch low high candidate folded flags = rangeMatches arch low high candidate folded flags' := by
  cases arch with
  | x86_64 => rfl
  | other => simp only [rangeMatches, h]

/-- Only the escape and the case flags decide about tokens. -/
theorem tokenMatches_congr (arch : Arch) (pattern : List UInt8) (token : Token) (start : Nat)
    (candidate : UInt8) : tokenMatches arch pattern token start candidate flags =
      tokenMatches arch pattern token start candidate flags' := by
  have htests (folded : UInt8) : memberTests arch candidate folded flags =
      memberTests arch candidate folded flags' := by
    simp only [memberTests, bytesEqual_congr h, rangeMatches_congr h]
  cases token with
  | bracket next => simp only [tokenMatches, bracketMatches, htests, h]
  | literal byte next => exact bytesEqual_congr h byte candidate
  | _ => rfl

end

theorem nextToken_congr (h : has flags fnmNoescape = has flags' fnmNoescape) {pattern : List UInt8} (index : Nat) :
    nextToken pattern index flags = nextToken pattern index flags' := by
  unfold nextToken
  cases pattern.drop index with
  | nil => rfl
  | cons byte rest => simp only [tokenAt, h]

theorem Chain.congr {pattern : List UInt8} {i e : Nat} {ts : List (Nat × Token)}
    (hchain : Chain pattern flags i ts e) (h : has flags fnmNoescape = has flags' fnmNoescape) :
    Chain pattern flags' i ts e := by
  induction hchain with
  | nil => exact .nil
  | cons hi _ ih =>
    rw [nextToken_congr h] at ih ⊢
    exact .cons hi ih

end flags

/-! ## A component of the pattern -/

section slice

variable {arch : Arch} {pattern : List UInt8} {flags : UInt32} {i e s : Nat}
  {ts : List (Nat × Token)}

/-- The bytes a slice has at a position are those of the whole. -/
theorem slice_getElem? {j : Nat} (hj : j < ((pattern.take e).drop s).length) :
    ((pattern.take e).drop s)[j]? = pattern[s + j]? := by
  rw [length_drop, length_take] at hj
  rw [List.getElem?_drop, List.getElem?_take, if_pos (by omega)]

/-- A token of a slice accepts what the token of the whole accepts. -/
theorem item_shiftBy {it : Nat × Token} (hlt : it.1 < ((pattern.take e).drop s).length)
    (htok : it.2 = nextToken ((pattern.take e).drop s) it.1 flags) :
    item arch pattern flags (shiftBy s it) = item arch ((pattern.take e).drop s) flags it := by
  obtain ⟨j, token⟩ := it
  have hnext := nextToken_next hlt flags
  rw [← htok] at hnext
  cases token with
  | bracket next =>
    have hbody : (pattern.drop (s + j + 1)).take (s + next - 1 - (s + j + 1)) =
        (((pattern.take e).drop s).drop (j + 1)).take (next - 1 - (j + 1)) := by
      simp only [Token.nextIndex, length_drop, length_take] at hnext
      rw [drop_slice, take_take, ← Nat.add_assoc]
      congr 1
      omega
    simp only [item, shiftBy, Token.shift, tokenMatches, bracketMatches, hbody]
  | _ => rfl

/-- The meaning of a slice's own tokens is that of the tokens it was cut from. -/
theorem componentMeaning_slice {ts' : List (Nat × Token)}
    (h : Chain ((pattern.take e).drop s) flags 0 ts' ((pattern.take e).drop s).length)
    {text : List UInt8} : ComponentMeaning arch pattern flags (ts'.map (shiftBy s)) text ↔
      ComponentMeaning arch ((pattern.take e).drop s) flags ts' text := by
  have hitems : (ts'.map (shiftBy s)).map (item arch pattern flags) =
      ts'.map (item arch ((pattern.take e).drop s) flags) := by
    rw [map_map]
    refine map_congr_left fun it hit => ?_
    obtain ⟨hlt, htok⟩ := h.mem hit
    exact item_shiftBy hlt htok
  have hdot : LeadingDot pattern (ts'.map (shiftBy s)) ↔ LeadingDot ((pattern.take e).drop s) ts' := by
    unfold LeadingDot
    cases ts' with
    | nil => rfl
    | cons it rest =>
      have hlt := (h.mem (mem_cons_self ..)).1
      simp only [map_cons, head?_cons, Option.bind_some, shiftBy, slice_getElem? hlt]
  unfold ComponentMeaning
  rw [hitems, hdot]

/-- `pattern_component_end` finds the tokens up to the next slash literal. -/
theorem patternComponentEnd_spec (flags : UInt32) {start : Nat} (hstart : start ≤ pattern.length) :
    ∃ e next hasSlash, patternComponentEnd pattern start flags = some (e, next, hasSlash) ∧ e ≤ pattern.length ∧
      (∃ seg, Chain pattern flags start seg e ∧ ∀ it ∈ seg, isSlash it = false) ∧
      ((hasSlash = false ∧ e = pattern.length) ∨ (hasSlash = true ∧ e < pattern.length ∧
          isSlash (e, nextToken pattern e flags) = true ∧
          next = (nextToken pattern e flags).nextIndex)) := by
  have hloop : ∃ r, patternComponentEnd pattern start flags = some r ∧ _ := loop_correct _
    (fun cursor => cursor ≤ pattern.length ∧
      ∃ seg, Chain pattern flags start seg cursor ∧ ∀ it ∈ seg, isSlash it = false)
    (fun cursor => pattern.length - cursor)
    (fun r => r.1 ≤ pattern.length ∧ (∃ seg, Chain pattern flags start seg r.1 ∧ ∀ it ∈ seg, isSlash it = false) ∧
      ((r.2.2 = false ∧ r.1 = pattern.length) ∨ (r.2.2 = true ∧ r.1 < pattern.length ∧
          isSlash (r.1, nextToken pattern r.1 flags) = true ∧
          r.2.1 = (nextToken pattern r.1 flags).nextIndex)))
    ?_ (pattern.length + 1) start ⟨hstart, [], .nil, by simp⟩ (by omega)
  · obtain ⟨⟨e, next, hasSlash⟩, hrun, hle, hseg, hcases⟩ := hloop
    exact ⟨e, next, hasSlash, hrun, hle, hseg, hcases⟩
  · rintro cursor ⟨hle, seg, hchain, hseg⟩
    rcases hle.lt_or_eq with hlt | rfl
    · obtain ⟨hnext, hnextLe, hne⟩ := nextToken_next hlt flags
      -- a token that is no slash is passed
      have hpass (hnot : isSlash (cursor, nextToken pattern cursor flags) = false) :
          ((nextToken pattern cursor flags).nextIndex ≤ pattern.length ∧
            ∃ seg, Chain pattern flags start seg (nextToken pattern cursor flags).nextIndex ∧
              ∀ it ∈ seg, isSlash it = false) ∧
            pattern.length - (nextToken pattern cursor flags).nextIndex < pattern.length - cursor := by
        refine ⟨⟨hnextLe, seg ++ [(cursor, nextToken pattern cursor flags)], hchain.trans (.cons hlt .nil), ?_⟩, by omega⟩
        exact forall_mem_append.mpr ⟨hseg, forall_mem_singleton.mpr hnot⟩
      cases htok : nextToken pattern cursor flags with
      | «end» => exact absurd htok hne
      | literal byte next =>
        rw [htok] at hpass
        dsimp only
        split_ifs with hslash
        · refine ⟨hle, ⟨seg, hchain, hseg⟩, inr ⟨rfl, hlt, ?_, ?_⟩⟩
          · rw [htok, hslash]
            rfl
          · rw [htok]
            rfl
        · exact hpass (by simpa [isSlash] using hslash)
      | _ =>
        rw [htok] at hpass
        exact hpass rfl
    · rw [nextToken_end .refl]
      exact ⟨le_refl _, ⟨seg, hchain, hseg⟩, inl ⟨rfl, rfl⟩⟩

end slice

/-! ## The component loop -/

section path

variable {arch : Arch} {pattern candidate : List UInt8} {flags : UInt32}

/-- A component of the candidate ends at the next slash or at the end. -/
theorem candidateComponentEnd_spec (candidate : List UInt8) {cs ce : Nat} (hcs : cs ≤ candidate.length)
    (hce : candidateComponentEnd candidate cs = ce) :
    cs ≤ ce ∧ slash ∉ (candidate.take ce).drop cs ∧
      ((ce = candidate.length ∧ candidate.drop cs = (candidate.take ce).drop cs) ∨ (ce < candidate.length ∧
          candidate.drop cs = (candidate.take ce).drop cs ++ slash :: candidate.drop (ce + 1))) := by
  unfold candidateComponentEnd at hce
  cases hfind : (candidate.drop cs).findIdx? (· == slash) with
  | none =>
    rw [hfind] at hce
    subst hce
    rw [findIdx?_eq_none_iff] at hfind
    rw [take_length]
    refine ⟨hcs, fun hmem => ?_, inl ⟨rfl, rfl⟩⟩
    exact absurd (hfind slash hmem) (by simp)
  | some offset =>
    rw [hfind] at hce
    subst hce
    obtain ⟨hlt, hat, hbefore⟩ := findIdx?_eq_some_iff_getElem.mp hfind
    have hget : candidate[cs + offset]? = some slash := by
      rw [← List.getElem?_drop, List.getElem?_eq_getElem hlt]
      simpa using hat
    obtain ⟨hlt', hget'⟩ := List.getElem?_eq_some_iff.mp hget
    rw [drop_take, Nat.add_sub_cancel_left]
    refine ⟨Nat.le_add_right _ _, fun hmem => ?_, inr ⟨hlt', ?_⟩⟩
    · obtain ⟨j, hj, hjs⟩ := mem_iff_getElem.mp hmem
      rw [length_take] at hj
      rw [getElem_take] at hjs
      have hno := hbefore j (by omega)
      rw [hjs] at hno
      exact absurd hno (by simp)
    · rw [← hget', ← drop_eq_getElem_cons hlt', ← drop_drop, take_append_drop]

/-- Matching one component of the pattern against one of the candidate. -/
theorem componentMatches_slice (arch : Arch) {ps e : Nat} {seg : List (Nat × Token)} {x : List UInt8}
    (hchain : Chain pattern flags ps seg e) (he : e ≤ pattern.length) (hx : slash ∉ x) :
    ∃ b, componentMatches arch ((pattern.take e).drop ps) x (flags &&& ~~~fnmLeadingDir) = some b ∧
      (b = true ↔ ComponentMeaning arch pattern flags seg x) := by
  have hescape := has_clear flags fnmNoescape (by decide)
  have hcase := has_clear flags fnmCasefold (by decide)
  have hperiod := has_clear flags fnmPeriod (by decide)
  obtain ⟨b, hrun, hb⟩ := componentMatches_iff
    (by
      intro byte hmem
      have hne : byte ≠ slash := by
        rintro rfl
        exact hx hmem
      simp [consumable, hne])
  refine ⟨b, hrun, hb.trans ?_⟩
  obtain ⟨ts', hts', rfl⟩ := hchain.slice he ps.add_zero.symm
  -- the slice's own tokens are these, with either set of flags
  have htoks : tokens ((pattern.take e).drop ps) (flags &&& ~~~fnmLeadingDir) = ts' :=
    (chain_tokens _ _).unique (hts'.congr hescape.symm)
  have hitems : ts'.map (item arch ((pattern.take e).drop ps) (flags &&& ~~~fnmLeadingDir)) =
      ts'.map (item arch ((pattern.take e).drop ps) flags) := by
    refine map_congr_left fun it _ => ?_
    obtain ⟨j, token⟩ := it
    cases token <;> simp only [item, tokenMatches_congr hcase]
  rw [componentMeaning_slice hts', htoks, ComponentMeaning, ComponentMeaning, hperiod, hitems]

/-- The loop invariant over the components. -/
structure PathInv (arch : Arch) (pattern candidate : List UInt8) (flags : UInt32) (goal : Prop)
    (st : Nat × Nat) : Prop where
  pattern_le : st.1 ≤ pattern.length
  candidate_le : st.2 ≤ candidate.length
  todo : ∃ ts, Chain pattern flags st.1 ts pattern.length ∧
    (goal ↔ PathMeaning arch pattern flags ts (candidate.drop st.2))

/-- **One round** over the components: it answers, or both sides go on. -/
theorem fnmatchBody_spec {goal : Prop} {st : Nat × Nat} (h : PathInv arch pattern candidate flags goal st) :
    (∃ b, fnmatchBody arch pattern candidate flags st = .done (some b) ∧ (b = true ↔ goal)) ∨
      ∃ st', fnmatchBody arch pattern candidate flags st = .again st' ∧
        PathInv arch pattern candidate flags goal st' ∧ st.2 < st'.2 := by
  obtain ⟨ps, cs⟩ := st
  obtain ⟨hps, hcs, ts, hts, hgoal⟩ := h
  obtain ⟨pe, next, hasSlash, hend, hpe, ⟨seg, hseg, hnoSlash⟩, hcase⟩ :=
    patternComponentEnd_spec flags hps
  obtain ⟨hle, hx, hcut⟩ := candidateComponentEnd_spec candidate hcs rfl
  obtain ⟨b, hrun, hb⟩ := componentMatches_slice arch hseg hpe hx
  unfold fnmatchBody
  simp only [hend, hrun]
  rcases hcase with ⟨rfl, rfl⟩ | ⟨rfl, hlt, hsep, rfl⟩
  · -- the last component of the pattern answers
    left
    obtain rfl := hts.unique hseg
    rcases hcut with ⟨hce, hdrop⟩ | ⟨hce, hdrop⟩
    · rw [hdrop, pathMeaning_single hnoSlash hx, ← hb] at hgoal
      exact ⟨b, by rw [hce]; cases b <;> simp, hgoal.symm⟩
    · rw [hdrop, pathMeaning_last hnoSlash hx, ← hb] at hgoal
      refine ⟨has flags fnmLeadingDir && b, ?_, by rw [hgoal, Bool.and_eq_true]⟩
      cases hlead : has flags fnmLeadingDir <;> cases b <;> simp [hce]
  · -- a component of the pattern with more behind it
    obtain ⟨hnext, hnextLe, -⟩ := nextToken_next hlt flags
    have hrest := @chain_tokensFrom flags pattern _ _ hnextLe (le_add_left _ _)
    obtain rfl := hts.unique (hseg.trans (.cons hlt hrest))
    rcases hcut with ⟨hce, hdrop⟩ | ⟨hce, hdrop⟩
    · left
      rw [hdrop] at hgoal
      refine ⟨false, by rw [hce]; cases b <;> simp, iff_of_false (by simp) fun hg => ?_⟩
      exact not_pathMeaning_of_noSlash hsep hx (hgoal.mp hg)
    · rw [hdrop, pathMeaning_both hnoSlash hsep hx, ← hb] at hgoal
      cases b with
      | false => exact inl ⟨false, by simp [hce], by simp [hgoal]⟩
      | true =>
        right
        refine ⟨((nextToken pattern pe flags).nextIndex, candidateComponentEnd candidate cs + 1),
          by simp [hce], ⟨hnextLe, hce, _, hrest, ?_⟩, lt_succ_of_le hle⟩
        simpa using hgoal

theorem fnmatch_pathname (hpath : has flags fnmPathname = true) : ∃ b, fnmatch arch pattern candidate flags = some b ∧
      (b = true ↔ PathMeaning arch pattern flags (tokens pattern flags) candidate) := by
  have hinit : PathInv arch pattern candidate flags
      (PathMeaning arch pattern flags (tokens pattern flags) candidate) (0, 0) :=
    ⟨zero_le _, zero_le _, _, chain_tokens pattern flags, by rw [drop_zero]⟩
  have hloop := loop_correct (fnmatchBody arch pattern candidate flags)
    (PathInv arch pattern candidate flags _) (fun st => candidate.length - st.2)
    (fun r => ∃ b, r = some b ∧ (b = true ↔ PathMeaning arch pattern flags (tokens pattern flags) candidate))
    ?_ (candidate.length + 1) (0, 0) hinit (by simp)
  · obtain ⟨r, hrun, b, rfl, hb⟩ := hloop
    refine ⟨b, ?_, hb⟩
    rw [fnmatch, if_pos hpath, hrun]
    rfl
  · intro st hinv
    rcases fnmatchBody_spec hinv with ⟨b, hdone, hb⟩ | ⟨st', hagain, hinv', hlt⟩
    · rw [hdone]
      exact ⟨b, rfl, hb⟩
    · rw [hagain]
      have hle := hinv'.candidate_le
      exact ⟨hinv', by omega⟩

end path

/-! ## The whole candidate -/

section whole

variable {arch : Arch} {pattern candidate : List UInt8} {flags : UInt32}

theorem componentMatches_plain (hpath : has flags fnmPathname = false) (text : List UInt8) :
    ∃ b, componentMatches arch pattern text flags = some b ∧
      (b = true ↔ ComponentMeaning arch pattern flags (tokens pattern flags) text) :=
  componentMatches_iff fun _ _ => by simp [consumable, hpath]

/-- The prefixes before a slash are tried in order, then the whole candidate. -/
theorem leadingDirMatches_iff (hpath : has flags fnmPathname = false) (indices : List Nat) :
    ∃ b, leadingDirMatches arch pattern candidate flags indices = some b ∧ (b = true ↔
        (∃ i ∈ indices, candidate[i]? = some slash ∧
          ComponentMeaning arch pattern flags (tokens pattern flags) (candidate.take i)) ∨
        ComponentMeaning arch pattern flags (tokens pattern flags) candidate) := by
  induction indices with
  | nil =>
    obtain ⟨b, hrun, hb⟩ := @componentMatches_plain arch pattern flags hpath candidate
    exact ⟨b, hrun, by simp [hb]⟩
  | cons i indices ih =>
    obtain ⟨b, hrun, hb⟩ := ih
    obtain ⟨b', hrun', hb'⟩ := @componentMatches_plain arch pattern flags hpath (candidate.take i)
    rw [leadingDirMatches]
    split_ifs with hslash
    · rw [hrun']
      cases b' with
      | true => exact ⟨true, rfl, by simp [hslash, ← hb']⟩
      | false => exact ⟨b, hrun, by simp [hb, hslash, ← hb']⟩
    · exact ⟨b, hrun, by simp [hb, hslash]⟩

/-- A text that ends before a slash is a prefix up to some slash's position. -/
theorem exists_slash_iff {P : List UInt8 → Prop} :
    (∃ i ∈ range candidate.length, candidate[i]? = some slash ∧ P (candidate.take i)) ↔
      ∃ text, (∃ rest, candidate = text ++ slash :: rest) ∧ P text := by
  constructor
  · rintro ⟨i, -, hget, hp⟩
    obtain ⟨hlt, hget'⟩ := List.getElem?_eq_some_iff.mp hget
    refine ⟨candidate.take i, ⟨candidate.drop (i + 1), ?_⟩, hp⟩
    rw [← hget', ← drop_eq_getElem_cons hlt, take_append_drop]
  · rintro ⟨text, ⟨rest, rfl⟩, hp⟩
    exact ⟨text.length, by simp, by simp, by rwa [take_left]⟩

theorem fnmatch_plain (hpath : has flags fnmPathname = false) : ∃ b, fnmatch arch pattern candidate flags = some b ∧
      (b = true ↔ ∃ text, Selected flags candidate text ∧
        ComponentMeaning arch pattern flags (tokens pattern flags) text) := by
  rw [fnmatch, if_neg (by simp [hpath])]
  split_ifs with hlead
  · obtain ⟨b, hrun, hb⟩ := @leadingDirMatches_iff arch pattern candidate flags hpath
      (range candidate.length)
    refine ⟨b, hrun, ?_⟩
    rw [hb, exists_slash_iff]
    simp only [Selected, hlead, true_and, or_and_right, exists_or, exists_eq_left]
    exact or_comm
  · obtain ⟨b, hrun, hb⟩ := @componentMatches_plain arch pattern flags hpath candidate
    exact ⟨b, hrun, by simp [Selected, hlead, hb]⟩

end whole

/-- **`fnmatch` means its tokens.**  For every pattern, candidate and flag word
    the matcher returns, and says whether the candidate has the meaning of the
    token sequence of the whole pattern; and a slice of the pattern that ends
    between two tokens has the tokens it was cut from. -/
theorem fnmatch_iff_meaning (arch : Arch) (pattern candidate : List UInt8) (flags : UInt32) :
    (∃ b, fnmatch arch pattern candidate flags = some b ∧ (b = true ↔ Meaning arch pattern candidate flags)) ∧
    ∀ s e seg, Chain pattern flags s seg e → e ≤ pattern.length →
      (tokens ((pattern.take e).drop s) flags).map (shiftBy s) = seg := by
  constructor
  · unfold Meaning
    split_ifs with hpath
    · exact fnmatch_pathname hpath
    · exact fnmatch_plain (by simpa using hpath)
  · intro s e seg hseg he
    obtain ⟨ts', hts', rfl⟩ := hseg.slice he s.add_zero.symm
    rw [(chain_tokens _ _).unique hts']

/-- The last component of `*/b` is tokenised alone as in the whole. -/
theorem fnmatch_meaning_component : (tokens (([0x2a, 0x2f, 0x62] : List UInt8).drop 2) fnmPathname).map (shiftBy 2) =
      [(2, .literal 0x62 3)] := by
  have hchain := @Chain.cons [0x2a, 0x2f, 0x62] fnmPathname 2 [] _ (by decide) .nil
  exact (fnmatch_iff_meaning .x86_64 [0x2a, 0x2f, 0x62] [] fnmPathname).2 2 3 _ hchain (by decide)

end Crabc.Pattern
