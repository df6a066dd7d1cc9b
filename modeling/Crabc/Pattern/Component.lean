/-
  Crabc.Pattern.Component

  `component_matches` decides whether the tokens of its pattern match the
  candidate as a glob.  The loop remembers one star only; its invariant says
  what is still open: a match from the current position, or a match of the
  remembered star's rest from a later one.
-/

import Crabc.Lib.Glob
import Crabc.Pattern.Tokens

namespace Crabc.Pattern

open Crabc.Lib

/-- A token as an item of a glob. -/
def item (arch : Arch) (pattern : List UInt8) (flags : UInt32) (it : Nat × Token) :
    GlobItem UInt8 :=
  match it.2 with
  | .star _ => none
  | token => some fun candidate => tokenMatches arch pattern token it.1 candidate flags

/-- The first byte of the pattern text of some tokens is a dot. -/
def LeadingDot (pattern : List UInt8) (ts : List (Nat × Token)) : Prop :=
  (ts.head?.bind fun it => pattern[it.1]?) = some dot

/-- The meaning of tokens of `pattern` for the text of one component: the text
    splits among the tokens, and with `FNM_PERIOD` a leading dot is written out. -/
def ComponentMeaning (arch : Arch) (pattern : List UInt8) (flags : UInt32)
    (ts : List (Nat × Token)) (text : List UInt8) : Prop :=
  (has flags fnmPeriod = true → text.head? = some dot → LeadingDot pattern ts) ∧
    GlobMatches (ts.map (item arch pattern flags)) text

open List

section

variable {arch : Arch} {pattern candidate : List UInt8} {flags : UInt32} {goal : Prop}

/-- What the loop still has to find, `ps` being the items and `s` the text from the current position on. -/
def Open (arch : Arch) (pattern candidate : List UInt8) (flags : UInt32) (goal : Prop)
    (st : ComponentState) (ps : List (GlobItem UInt8)) (s : List UInt8) : Prop :=
  match st.starPattern with
  | none => goal ↔ GlobMatches ps s
  | some sp => ∃ ts w x, Chain pattern flags sp ts pattern.length ∧
      ts.map (item arch pattern flags) = w ++ ps ∧ candidate.drop st.starCandidate = x ++ s ∧
      w.length = x.length ∧ none ∉ w ∧
      (goal ↔ GlobMatches ps s ∨ MatchesLater (w ++ ps) (x ++ s))

/-- The loop invariant of `component_matches`. -/
structure Inv (arch : Arch) (pattern candidate : List UInt8) (flags : UInt32) (goal : Prop)
    (st : ComponentState) (ts : List (Nat × Token)) : Prop where
  chain : Chain pattern flags st.patternIndex ts pattern.length
  index : st.candidateIndex ≤ candidate.length
  star : st.starCandidate ≤ st.candidateIndex
  todo : Open arch pattern candidate flags goal st (ts.map (item arch pattern flags))
    (candidate.drop st.candidateIndex)

/-- The variant: the star only moves forward, and between its moves the pattern index does. -/
def rank (pattern candidate : List UInt8) (st : ComponentState) : Nat :=
  (candidate.length + 1 - st.starCandidate) * (pattern.length + 1) + (pattern.length - st.patternIndex)

/-- A round that goes on keeps the invariant and lowers the variant. -/
def Good (arch : Arch) (pattern candidate : List UInt8) (flags : UInt32) (goal : Prop)
    (st : ComponentState) : Next ComponentState Bool → Prop
  | .again st' =>
    (∃ ts, Inv arch pattern candidate flags goal st' ts) ∧ rank pattern candidate st' < rank pattern candidate st
  | .done b => b = true ↔ goal

variable {st : ComponentState} {ts : List (Nat × Token)}

/-- Backtracking is right once the current position cannot match. -/
theorem backtrack_good (h : Inv arch pattern candidate flags goal st ts)
    (hslash : ∀ byte ∈ candidate, consumable flags byte = true)
    (hno : ¬ GlobMatches (ts.map (item arch pattern flags)) (candidate.drop st.candidateIndex)) :
    Good arch pattern candidate flags goal st (backtrack candidate flags st) := by
  have htodo := h.todo
  unfold Open at htodo
  unfold backtrack
  cases hstar : st.starPattern with
  | none =>
    rw [hstar] at htodo
    exact iff_of_false (by simp) fun hg => hno (htodo.mp hg)
  | some sp =>
    rw [hstar] at htodo
    obtain ⟨tsp, w, x, hchain, hitems, htext, -, -, hgoal⟩ := htodo
    rw [← hitems, ← htext, or_iff_right hno] at hgoal
    cases hbyte : candidate[st.starCandidate]? with
    | none =>
      rw [drop_eq_nil_of_le (List.getElem?_eq_none_iff.mp hbyte)] at hgoal
      exact iff_of_false (by simp) fun hg => not_matchesLater_nil (hgoal.mp hg)
    | some byte =>
      obtain ⟨hlt, hget⟩ := List.getElem?_eq_some_iff.mp hbyte
      rw [drop_eq_getElem_cons hlt, hget, matchesLater_cons] at hgoal
      simp only [hslash byte (mem_of_getElem? hbyte), if_true]
      refine ⟨⟨tsp, hchain, hlt, Nat.le_refl _, ?_⟩, ?_⟩
      · exact ⟨tsp, [], [], hchain, rfl, rfl, rfl, by simp, hgoal⟩
      · simp only [rank]
        have hsucc : candidate.length + 1 - st.starCandidate =
            (candidate.length + 1 - (st.starCandidate + 1)) + 1 := by omega
        rw [hsucc, Nat.add_mul]
        omega

/-- A star: whatever an earlier star could still do, this one can. -/
theorem star_good {next : Nat} (h : Inv arch pattern candidate flags goal st ((st.patternIndex, .star next) :: ts))
    (hrest : Chain pattern flags next ts pattern.length) (hnext : st.patternIndex < next) :
    Good arch pattern candidate flags goal st
      (.again { st with
        starPattern := some next
        starCandidate := st.candidateIndex
        patternIndex := next }) := by
  have hindex := h.index
  have hstar := h.star
  have htodo := h.todo
  have hle := hrest.le
  have hgoal : goal ↔ GlobMatches (none :: ts.map (item arch pattern flags))
      (candidate.drop st.candidateIndex) := by
    unfold Open at htodo
    cases hold : st.starPattern with
    | none =>
      rw [hold] at htodo
      exact htodo
    | some sp =>
      rw [hold] at htodo
      obtain ⟨tsp, w, x, -, -, -, hlen, hw, hg⟩ := htodo
      rw [hg]
      exact or_iff_left_of_imp fun hlater => hlater.exchange hw hlen
  refine ⟨⟨ts, hrest, hindex, Nat.le_refl _, ?_⟩, ?_⟩
  · exact ⟨ts, [], [], hrest, rfl, rfl, rfl, by simp, hgoal.trans globMatches_star_iff_later⟩
  · have hmul : (candidate.length + 1 - st.candidateIndex) * (pattern.length + 1) ≤
        (candidate.length + 1 - st.starCandidate) * (pattern.length + 1) :=
      Nat.mul_le_mul_right _ (by omega)
    simp only [rank]
    omega

/-- A test that accepts the next byte. -/
theorem test_good {token : Token} {p : UInt8 → Bool} {byte : UInt8}
    (h : Inv arch pattern candidate flags goal st ((st.patternIndex, token) :: ts))
    (hitem : item arch pattern flags (st.patternIndex, token) = some p)
    (hrest : Chain pattern flags token.nextIndex ts pattern.length) (hnext : st.patternIndex < token.nextIndex)
    (hbyte : candidate[st.candidateIndex]? = some byte) (hp : p byte = true) :
    Good arch pattern candidate flags goal st
      (.again { st with
        patternIndex := token.nextIndex
        candidateIndex := st.candidateIndex + 1 }) := by
  obtain ⟨hlt, hget⟩ := List.getElem?_eq_some_iff.mp hbyte
  have hstar := h.star
  have htodo := h.todo
  have hle := hrest.le
  rw [map_cons, hitem, drop_eq_getElem_cons hlt, hget] at htodo
  have hstep : GlobMatches (some p :: ts.map (item arch pattern flags))
      (byte :: candidate.drop (st.candidateIndex + 1)) ↔
      GlobMatches (ts.map (item arch pattern flags)) (candidate.drop (st.candidateIndex + 1)) := by
    rw [globMatches_one_cons, and_iff_right hp]
  refine ⟨⟨ts, hrest, hlt, Nat.le_succ_of_le hstar, ?_⟩, by simp only [rank]; omega⟩
  unfold Open at htodo ⊢
  cases hold : st.starPattern with
  | none =>
    rw [hold] at htodo
    exact htodo.trans hstep
  | some sp =>
    -- the test and its byte join what lies between the star and here
    rw [hold] at htodo
    obtain ⟨tsp, w, x, hchain, hitems, htext, hlen, hw, hg⟩ := htodo
    refine ⟨tsp, w ++ [some p], x ++ [byte], hchain, ?_, ?_, ?_, ?_, ?_⟩
    · rw [hitems, append_assoc]
      rfl
    · rw [htext, append_assoc]
      rfl
    · rw [length_append, length_append, hlen]
      rfl
    · simp [hw]
    · rw [hg, hstep, append_assoc, append_assoc]
      rfl

/-- **One round** of the loop. -/
theorem componentBody_good (h : Inv arch pattern candidate flags goal st ts)
    (hslash : ∀ byte ∈ candidate, consumable flags byte = true) :
    Good arch pattern candidate flags goal st
      (componentBody arch pattern candidate flags st) := by
  unfold componentBody
  rcases h.chain.cases_end with ⟨hpat, rfl⟩ | ⟨hlt, ts, rfl, hrest⟩
  · -- the end of the pattern
    rw [nextToken_end (Nat.le_of_eq hpat.symm)]
    split_ifs with hend
    · have htodo := h.todo
      rw [map_nil, drop_eq_nil_of_le hend] at htodo
      unfold Open at htodo
      refine iff_of_true rfl ?_
      cases hold : st.starPattern with
      | none =>
        rw [hold] at htodo
        exact htodo.mpr .nil
      | some sp =>
        rw [hold] at htodo
        obtain ⟨tsp, w, x, -, -, -, -, -, hg⟩ := htodo
        exact hg.mpr (Or.inl .nil)
    · refine backtrack_good h hslash fun hm => ?_
      rw [map_nil, globMatches_nil, drop_eq_nil_iff] at hm
      omega
  · obtain ⟨hnext, -, hne⟩ := nextToken_next hlt flags
    have htest (token : Token) (p : UInt8 → Bool) (heq : nextToken pattern st.patternIndex flags = token)
        (hitem : item arch pattern flags (st.patternIndex, token) = some p) {next : Next ComponentState Bool}
        (hnone : candidate[st.candidateIndex]? = none → next = backtrack candidate flags st)
        (hsome : ∀ byte, candidate[st.candidateIndex]? = some byte → next =
          if consumable flags byte && p byte then
            .again { st with
              patternIndex := token.nextIndex
              candidateIndex := st.candidateIndex + 1 }
          else backtrack candidate flags st) :
        Good arch pattern candidate flags goal st next := by
      subst heq
      cases hbyte : candidate[st.candidateIndex]? with
      | none =>
        rw [hnone hbyte]
        refine backtrack_good h hslash fun hm => ?_
        rw [map_cons, hitem, drop_eq_nil_of_le (List.getElem?_eq_none_iff.mp hbyte)] at hm
        exact globMatches_one_nil hm
      | some byte =>
        have hc := hslash byte (mem_of_getElem? hbyte)
        simp only [hsome byte hbyte, hc, Bool.true_and]
        split_ifs with hp
        · exact test_good h hitem hrest hnext hbyte hp
        · obtain ⟨hlt', hget⟩ := List.getElem?_eq_some_iff.mp hbyte
          refine backtrack_good h hslash fun hm => hp ?_
          rw [map_cons, hitem, drop_eq_getElem_cons hlt', hget, globMatches_one_cons] at hm
          exact hm.1
    cases htok : nextToken pattern st.patternIndex flags with
    | «end» => exact absurd htok hne
    | star next =>
      rw [htok] at h hrest hnext
      exact star_good h hrest hnext
    | question next | bracket next | literal byte next => exact htest _ _ htok rfl (fun hbyte => by rw [hbyte]) fun byte hbyte => by rw [hbyte]

/-- **`component_matches` is exact**: it returns, and says whether the tokens of its pattern match the candidate. -/
theorem componentMatches_iff (hslash : ∀ byte ∈ candidate, consumable flags byte = true) :
    ∃ b, componentMatches arch pattern candidate flags = some b ∧
      (b = true ↔ ComponentMeaning arch pattern flags (tokens pattern flags) candidate) := by
  have hchain := chain_tokens pattern flags
  have hdot : LeadingDot pattern (tokens pattern flags) ↔ pattern.head? = some dot := by
    unfold LeadingDot
    rcases hchain.cases_end with ⟨hlen, hnil⟩ | ⟨-, rest, hcons, -⟩
    · rw [hnil, length_eq_zero_iff.mp hlen.symm]
      rfl
    · rw [hcons, head?_cons, Option.bind_some, head?_eq_getElem?]
  unfold componentMatches ComponentMeaning
  rw [hdot]
  split_ifs with hperiod
  · refine ⟨false, rfl, iff_of_false (by simp) ?_⟩
    simp only [Bool.and_eq_true, beq_iff_eq, bne_iff_ne] at hperiod
    exact fun hm => hperiod.2 (hm.1 hperiod.1.1 hperiod.1.2)
  · have hfirst : (has flags fnmPeriod = true → candidate.head? = some dot → pattern.head? = some dot) := by
      intro hp hc
      by_contra hne
      exact hperiod (by simp [hp, hc, hne])
    rw [and_iff_right hfirst]
    have hinit : Inv arch pattern candidate flags
        (GlobMatches ((tokens pattern flags).map (item arch pattern flags)) candidate)
        ⟨0, 0, none, 0⟩ (tokens pattern flags) :=
      ⟨hchain, Nat.zero_le _, Nat.le_refl _, by exact Iff.rfl⟩
    refine loop_correct _ (fun st => ∃ ts, Inv arch pattern candidate flags _ st ts)
      (rank pattern candidate) _ ?_ _ _ ⟨_, hinit⟩ ?_
    · rintro st ⟨ts, hinv⟩
      have hgood := componentBody_good hinv hslash
      generalize componentBody arch pattern candidate flags st = answer at hgood ⊢
      cases answer <;> exact hgood
    · simp only [rank, Nat.sub_zero]
      rw [show candidate.length + 2 = (candidate.length + 1) + 1 from rfl, Nat.add_mul (candidate.length + 1) 1]
      omega

end

end Crabc.Pattern
