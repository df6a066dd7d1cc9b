/-
  Crabc.Libc.BracketScan

  How `pat_next_c` finds the end of a bracket expression, and how such an expression is
  read member by member.  The scanner passes the members the reader takes, with the
  nested elements as units, except where a range ends in the `[` of an element.
-/

import Crabc.Libc.OwnedFnmatch

namespace Crabc.Libc

open Crabc.Lib Crabc.Pattern

/-! ## The scanner -/

open Option List

section Scanner

variable {closing cursor opening : Nat} {delimiter byte : UInt8} {bytes rest : List UInt8}
  {units : List (Nat × Nat)}

/-- A byte that neither closes the expression nor opens an element is passed. -/
theorem bracketWalk_plain (hclose : byte ≠ close) (hopen : byte = open_ → rest.head?.any isDelimiter = false) :
    bracketWalk none cursor (byte :: rest) = bracketWalk none (cursor + 1) rest := by
  rw [bracketWalk.eq_def]
  dsimp only
  rw [if_neg hclose]
  split
  · rename_i hbyte
    cases rest with
    | nil => rw [bracketWalk]
    | cons next rest =>
      have hnext : isDelimiter next = false := hopen hbyte
      simp only [hnext, Bool.false_eq_true, if_false]
  · rfl

theorem bracketWalk_close : bracketWalk none cursor (close :: rest) = some (cursor, []) := by
  rw [bracketWalk.eq_def]
  exact if_pos rfl

theorem bracketWalk_open (h : isDelimiter delimiter = true) : bracketWalk none cursor (open_ :: delimiter :: rest) =
      bracketWalk (some (cursor, delimiter)) (cursor + 3) rest := by
  rw [bracketWalk.eq_def]
  dsimp only
  rw [if_neg (by decide), if_pos rfl, if_pos h]

/-- The scanner in an element comes to its first pair of the delimiter and `]`. -/
theorem bracketWalk_nested (h : bracketWalk (some (opening, delimiter)) cursor bytes = some (closing, units)) :
    ∃ n after, bytes[n]? = some delimiter ∧ bytes[n + 1]? = some close ∧
      (∀ i < n, ¬ (bytes[i]? = some delimiter ∧ bytes[i + 1]? = some close)) ∧
      units = (opening, cursor + n) :: after ∧
      bracketWalk none (cursor + n + 1) (bytes.drop (n + 2)) = some (closing, after) := by
  induction bytes generalizing cursor with
  | nil => cases h
  | cons previous rest ih =>
    cases rest with
    | nil =>
      cases h
    | cons next rest =>
      rw [bracketWalk] at h
      split at h
      · rename_i hpair
        obtain ⟨r, hr, hunits⟩ := map_eq_some_iff.mp h
        cases hunits
        exact ⟨0, r.2, by simp [hpair.1], by simp [hpair.2], nofun, rfl, hr⟩
      · rename_i hpair
        obtain ⟨n, after, hd, hc, hfirst, hunits, hwalk⟩ := ih h
        refine ⟨n + 1, after, hd, hc, ?_, ?_, ?_⟩
        · intro i hi
          cases i with
          | zero => simpa using hpair
          | succ i => exact hfirst i (by omega)
        · rw [hunits, Nat.add_right_comm, Nat.add_assoc]
        · rw [show cursor + (n + 1) + 1 = cursor + 1 + n + 1 by omega]
          exact hwalk

/-- The scanner stops at a closing bracket, and the elements it passes lie behind its start. -/
theorem bracketWalk_spec (h : bracketWalk none cursor bytes = some (closing, units)) :
    cursor ≤ closing ∧ bytes[closing - cursor]? = some close ∧ ∀ u ∈ units, cursor ≤ u.1 := by
  -- one call may pass an element of any length, so the induction is on the length
  induction hlen : bytes.length using Nat.strongRecOn generalizing cursor bytes units with
  | ind length ih =>
    cases bytes with
    | nil => cases h
    | cons byte rest =>
      by_cases hclose : byte = close
      · rw [hclose, bracketWalk_close] at h
        cases h
        exact ⟨Nat.le_refl _, by simp [hclose], nofun⟩
      · by_cases hopen : byte = open_ ∧ rest.head?.any isDelimiter = true
        · obtain ⟨rfl, hdelim⟩ := hopen
          obtain ⟨d, rest, rfl⟩ : ∃ d rest', rest = d :: rest' := by
            cases rest with
            | nil => cases hdelim
            | cons d rest' => exact ⟨d, rest', rfl⟩
          rw [bracketWalk_open hdelim] at h
          obtain ⟨n, after, _, _, _, rfl, hwalk⟩ := bracketWalk_nested h
          obtain ⟨hle, hat, hafter⟩ := ih _ (by simp at hlen ⊢; omega) hwalk rfl
          refine ⟨by omega, ?_, ?_⟩
          · rw [getElem?_drop] at hat
            obtain ⟨i, rfl⟩ := Nat.exists_eq_add_of_le hle
            rw [show cursor + 3 + n + 1 + i - cursor = n + 2 + i + 2 by omega]
            rwa [Nat.add_sub_cancel_left] at hat
          · rintro u (_ | ⟨_, hu⟩)
            · exact Nat.le_refl _
            · exact Nat.le_trans (by omega) (hafter u hu)
        · rw [bracketWalk_plain hclose (by simpa using hopen)] at h
          obtain ⟨hle, hat, hafter⟩ := ih _ (by simp at hlen ⊢; omega) h rfl
          refine ⟨by omega, ?_, fun u hu => Nat.le_of_succ_le (hafter u hu)⟩
          obtain ⟨i, rfl⟩ := Nat.exists_eq_add_of_le hle
          rw [show cursor + 1 + i - cursor = i + 1 by omega]
          rwa [Nat.add_sub_cancel_left] at hat

end Scanner

/-! ## Positions outside the nested elements -/

/-- The scanner of the expression that closes at `closing`, with the elements `units`,
    passes position `p` outside of them. -/
def Outside (string : List UInt8) (count closing : Nat) (units : List (Nat × Nat)) (p : Nat) :
    Prop :=
  ∃ before after, units = before ++ after ∧ (∀ u ∈ before, u.2 < p) ∧
    bracketWalk none p ((string.take count).drop p) = some (closing, after)

/-- The delimiter and `]` stand together at `q` for the first time from `start` on. -/
def ClosesAt (string : List UInt8) (delimiter : UInt8) (start q : Nat) : Prop :=
  start ≤ q ∧ (cells string)[q - 1]? = some delimiter ∧ (cells string)[q]? = some close ∧ ∀ j, start ≤ j → j < q →
      ¬ ((cells string)[j - 1]? = some delimiter ∧ (cells string)[j]? = some close)

/-- A nested element opens at `p`. -/
def OpensNested (string : List UInt8) (p : Nat) : Prop :=
  (cells string)[p]? = some open_ ∧ ∃ d, (cells string)[p + 1]? = some d ∧ isDelimiter d = true

section Positions

variable {string : List UInt8} {count closing p i : Nat} {units : List (Nat × Nat)} {byte : UInt8}

theorem cells_of_take (h : (string.take count)[i]? = some byte) : (cells string)[i]? = some byte := by
  obtain ⟨hi, rfl⟩ := List.getElem?_eq_some_iff.mp h
  rw [length_take] at hi
  rw [cells, List.getElem?_append_left (by omega), getElem_take]
  exact List.getElem?_eq_getElem _

/-- The first pair is one pair. -/
theorem ClosesAt.unique {d : UInt8} {start q q' : Nat} (h : ClosesAt string d start q)
    (h' : ClosesAt string d start q') : q = q' := by
  obtain ⟨hle, hd, hc, hfirst⟩ := h
  obtain ⟨hle', hd', hc', hfirst'⟩ := h'
  rcases Nat.lt_trichotomy q q' with hlt | heq | hlt
  · exact absurd ⟨hd, hc⟩ (hfirst' q hle hlt)
  · exact heq
  · exact absurd ⟨hd', hc'⟩ (hfirst q' hle' hlt)

section

variable (h : Outside string count closing units p)
include h

theorem Outside.le : p ≤ closing := by
  obtain ⟨_, _, _, _, hwalk⟩ := h
  exact (bracketWalk_spec hwalk).1

theorem Outside.take_closing : (string.take count)[closing]? = some close := by
  obtain ⟨_, _, _, _, hwalk⟩ := h
  obtain ⟨hle, hat, _⟩ := bracketWalk_spec hwalk
  rwa [getElem?_drop, Nat.add_sub_cancel' hle] at hat

theorem Outside.cells_closing : (cells string)[closing]? = some close := cells_of_take h.take_closing

/-- A position outside the elements is inside none of them. -/
theorem Outside.not_inside : ∀ u ∈ units, ¬ (u.1 < p ∧ p ≤ u.2) := by
  obtain ⟨before, after, rfl, hbefore, hwalk⟩ := h
  intro u hu hin
  rcases mem_append.mp hu with hu | hu
  · have hlt := hbefore u hu
    omega
  · have hle := (bracketWalk_spec hwalk).2.2 u hu
    omega

/-- What the matcher sees up to the closing bracket is what the scanner sees. -/
theorem Outside.take_of_cells (hi : i ≤ closing) (hat : (cells string)[i]? = some byte) :
    (string.take count)[i]? = some byte := by
  have hlt : closing < (string.take count).length :=
    (List.getElem?_eq_some_iff.mp h.take_closing).1
  have hget := List.getElem?_eq_getElem (Nat.lt_of_le_of_lt hi hlt)
  have heq := cells_of_take hget
  rw [hat, some.injEq] at heq
  rw [hget, ← heq]

/-- Every position up to the closing bracket is one of the string. -/
theorem Outside.cell (hi : i ≤ closing) : ∃ b, (cells string)[i]? = some b := by
  have hlt := (List.getElem?_eq_some_iff.mp h.take_closing).1
  exact ⟨_, cells_of_take (List.getElem?_eq_getElem (Nat.lt_of_le_of_lt hi hlt))⟩

theorem Outside.lt (hat : (cells string)[p]? = some byte) (hne : byte ≠ close) : p < closing := by
  refine Nat.lt_of_le_of_ne h.le ?_
  rintro rfl
  rw [h.cells_closing, some.injEq] at hat
  exact hne hat.symm

/-- The scanner passes a byte that neither closes the expression nor opens an element. -/
theorem Outside.plain (hat : (cells string)[p]? = some byte) (hclose : byte ≠ close)
    (hopen : ¬ OpensNested string p) : Outside string count closing units (p + 1) := by
  have htake := h.take_of_cells h.le hat
  obtain ⟨before, after, hunits, hbefore, hwalk⟩ := h
  refine ⟨before, after, hunits, fun u hu => Nat.lt_succ_of_lt (hbefore u hu), ?_⟩
  obtain ⟨hlt, hget⟩ := List.getElem?_eq_some_iff.mp htake
  rw [drop_eq_getElem_cons hlt, hget] at hwalk
  rw [bracketWalk_plain hclose] at hwalk
  · exact hwalk
  · rintro rfl
    cases hnext : ((string.take count).drop (p + 1)).head? with
    | none => rfl
    | some d =>
      rw [head?_drop] at hnext
      show isDelimiter d = false
      by_contra hd
      exact hopen ⟨hat, d, cells_of_take hnext, by simpa using hd⟩

/-- The scanner passes an element as one unit. -/
theorem Outside.nested {d : UInt8} (hat : (cells string)[p]? = some open_)
    (hd : (cells string)[p + 1]? = some d) (hdelim : isDelimiter d = true) :
    ∃ q, ClosesAt string d (p + 3) q ∧ (p, q) ∈ units ∧ q < closing ∧ Outside string count closing units (q + 1) := by
  have hlt := h.lt hat (by decide)
  obtain ⟨hp, hget⟩ := List.getElem?_eq_some_iff.mp (h.take_of_cells h.le hat)
  obtain ⟨hp', hget'⟩ := List.getElem?_eq_some_iff.mp (h.take_of_cells hlt hd)
  have hseen : ∀ i b, i ≤ closing → (cells string)[i]? = some b →
      (string.take count)[i]? = some b := fun i b => h.take_of_cells
  obtain ⟨before, after, hunits, hbefore, hwalk⟩ := h
  rw [drop_eq_getElem_cons hp, hget, drop_eq_getElem_cons hp', hget', bracketWalk_open hdelim] at hwalk
  obtain ⟨n, after', hn, hn', hfirst, rfl, hrest⟩ := bracketWalk_nested hwalk
  rw [List.getElem?_drop] at hn hn'
  rw [drop_drop] at hrest
  have hle := (bracketWalk_spec hrest).1
  have hindex : p + 1 + 1 + (n + 2) = p + 3 + n + 1 := by omega
  rw [hindex] at hrest
  refine ⟨p + 3 + n, ⟨by omega, ?_, ?_, ?_⟩, ?_, by omega, ?_⟩
  · rw [show p + 3 + n - 1 = p + 1 + 1 + n by omega]
    exact cells_of_take hn
  · rw [show p + 3 + n = p + 1 + 1 + (n + 1) by omega]
    exact cells_of_take hn'
  · -- an earlier pair would have stopped the scanner
    rintro j hj hjlt ⟨hjd, hjc⟩
    obtain ⟨i, rfl⟩ : ∃ i, j = p + 3 + i := ⟨j - (p + 3), by omega⟩
    apply hfirst i (by omega)
    rw [List.getElem?_drop, List.getElem?_drop]
    refine ⟨hseen _ _ (by omega) ?_, hseen _ _ (by omega) ?_⟩
    · rwa [show p + 3 + i - 1 = p + 1 + 1 + i by omega] at hjd
    · rwa [show p + 3 + i = p + 1 + 1 + (i + 1) by omega] at hjc
  · rw [hunits]
    exact mem_append_right _ mem_cons_self
  · refine ⟨before ++ [(p, p + 3 + n)], after', by simp [hunits], ?_, hrest⟩
    intro u hu
    rcases mem_append.mp hu with hu | hu
    · have hlt' := hbefore u hu
      omega
    · rw [mem_singleton.mp hu]
      exact Nat.lt_succ_self _

end

/-- The scanner passes bytes above 0x7f one by one. -/
theorem Outside.high {n : Nat} (h : Outside string count closing units p)
    (hhigh : ∀ i < n, HighAt ((cells string).drop p) i) :
    Outside string count closing units (p + n) := by
  induction n with
  | zero => exact h
  | succ n ih =>
    have hn := ih fun i hi => hhigh i (Nat.lt_succ_of_lt hi)
    obtain ⟨b, hb, hge⟩ := hhigh n n.lt_succ_self
    rw [getElem?_drop] at hb
    apply hn.plain hb
    · rintro rfl
      exact absurd hge (by decide)
    · rintro ⟨hopen, _⟩
      rw [hb, some.injEq] at hopen
      rw [hopen] at hge
      exact absurd hge (by decide)

end Positions

/-! ## Reading member by member -/

/-- A hyphen that is not the last member: it takes the next character as the end of a range. -/
def RangeAt (string : List UInt8) (p : Nat) : Prop :=
  (cells string)[p]? = some dash ∧ (cells string)[p + 1]? ≠ some close

/-- The member after the one at `p`. -/
inductive NextMember (locale : Locale) (string : List UInt8) (p : Nat) : Nat → Prop where
  | range {high : UInt32} {n : Nat} : RangeAt string p →
      (mbtowc locale.utf8 ((cells string).drop (p + 1)) 4).outcome = some (high, n) →
      NextMember locale string p (p + (n + 1))
  | nested {d : UInt8} {q : Nat} : (cells string)[p]? = some open_ →
      (cells string)[p + 1]? = some d → isDelimiter d = true → ClosesAt string d (p + 3) q →
      NextMember locale string p (q + 1)
  | single {byte : UInt8} : (cells string)[p]? = some byte → byte < 128 → byte ≠ close →
      ¬ RangeAt string p → ¬ OpensNested string p → NextMember locale string p (p + 1)
  | wide {byte : UInt8} {character : UInt32} {n : Nat} : (cells string)[p]? = some byte →
      128 ≤ byte → (mbtowc locale.utf8 ((cells string).drop p) 4).outcome = some (character, n) →
      NextMember locale string p (p + n)

/-- Where the members start: behind the `[`, a `^` or `!`, and a leading `]` or `-`. -/
def membersStart (string : List UInt8) : Nat :=
  let start := if (cells string)[1]? = some 0x5e ∨ (cells string)[1]? = some 0x21 then 2 else 1
  if (cells string)[start]? = some close ∨ (cells string)[start]? = some dash then start + 1
  else start

/-- The members of the expression, read from the first one on up to the closing bracket
    or to a character that cannot be decoded. -/
inductive MemberAt (locale : Locale) (string : List UInt8) : Nat → Prop where
  | first : MemberAt locale string (membersStart string)
  | next {p q : Nat} : MemberAt locale string p → NextMember locale string p q →
      MemberAt locale string q

/-- The range at `p` ends in the `[` of a nested element. -/
def EndsInNested (string : List UInt8) (p : Nat) : Prop :=
  (cells string)[p]? = some dash ∧ OpensNested string (p + 1)

section Reading

variable {locale : Locale} {string : List UInt8} {count closing p q : Nat}
  {units : List (Nat × Nat)} {byte : UInt8}

theorem drop_of_cells (hat : (cells string)[p]? = some byte) :
    (cells string).drop p = byte :: (cells string).drop (p + 1) := by
  obtain ⟨hlt, rfl⟩ := List.getElem?_eq_some_iff.mp hat
  exact drop_eq_getElem_cons hlt

theorem mbtowc_cells_ascii {utf8 : Bool} (hat : (cells string)[p]? = some byte) (hlt : byte < 0x80) (hne : byte ≠ 0) :
    (mbtowc utf8 ((cells string).drop p) 4).outcome = some (byte.toUInt32, 1) := by
  rw [drop_of_cells hat, mbtowc_ascii utf8 hlt hne]

theorem mbtowc_cells_sound (utf8 : Bool) (hat : (cells string)[p]? = some byte) (hge : 0x80 ≤ byte) :
    (mbtowc utf8 ((cells string).drop p) 4).Sound ((cells string).drop p) := by
  rw [drop_of_cells hat]
  exact mbtowc_sound hge

/-- The scanner passes what the reader takes as one member, except a range that ends in the `[` of an element. -/
theorem Outside.next (h : Outside string count closing units p) (hnul : 0 ∉ string)
    (hends : ¬ EndsInNested string p) (hnext : NextMember locale string p q) :
    Outside string count closing units q ∧ p < q := by
  cases hnext with
  | @range high n hrange hdecode =>
    obtain ⟨hdash, hne⟩ := hrange
    have hlt := h.lt hdash (by decide)
    have hpoint : Outside string count closing units (p + 1) := by
      apply h.plain hdash (by decide)
      rintro ⟨hopen, _⟩
      rw [hdash] at hopen
      exact absurd hopen (by decide)
    obtain ⟨b, hb⟩ := h.cell hlt
    refine ⟨?_, by omega⟩
    rw [show p + (n + 1) = p + 1 + n by omega]
    by_cases hascii : b < 0x80
    · -- the end of the range is one byte, and it opens no element
      have hmem : b ∈ string :=
        mem_of_mem_take (mem_of_getElem? (h.take_of_cells hlt hb))
      have hzero : b ≠ 0 := fun hzero => hnul (hzero ▸ hmem)
      rw [mbtowc_cells_ascii hb hascii hzero] at hdecode
      cases hdecode
      exact hpoint.plain hb (fun hclose => hne (hclose ▸ hb)) fun hopen => hends ⟨hdash, hopen⟩
    · exact hpoint.high ((mbtowc_cells_sound _ hb (UInt8.not_lt.mp hascii)).highs _ _ hdecode)
  | @nested d q hopen hd hdelim hcloses =>
    obtain ⟨q', hcloses', _, _, hout⟩ := h.nested hopen hd hdelim
    rw [hcloses.unique hcloses']
    refine ⟨hout, ?_⟩
    have hle := hcloses'.1
    omega
  | single hat hlt hclose hrange hopen => exact ⟨h.plain hat hclose hopen, by omega⟩
  | wide hat hge hdecode =>
    have hsound := mbtowc_cells_sound locale.utf8 hat hge
    refine ⟨h.high (hsound.highs _ _ hdecode), ?_⟩
    have hpos := hsound.length_pos _ _ hdecode
    omega

end Reading

/-! ## Where the two walks start -/

section Start

variable {string : List UInt8} {count closing : Nat} {units : List (Nat × Nat)}

/-- How `match_bracket_c` starts. -/
theorem membersStart_eq {first leading : UInt8} {start : Nat} (hfirst : (cells string)[1]? = some first)
    (hstart : start = if (first == 0x5e || first == 0x21) = true then 2 else 1)
    (hleading : (cells string)[start]? = some leading) :
    membersStart string = if leading = close ∨ leading = dash then start + 1 else start := by
  have hif : (if (cells string)[1]? = some 0x5e ∨ (cells string)[1]? = some 0x21 then 2 else 1) = start := by
    rw [hstart, hfirst]
    simp
  rw [membersStart]
  simp only [hif, hleading, some.injEq]

theorem le_membersStart {first : UInt8} {start : Nat} (hfirst : (cells string)[1]? = some first)
    (hstart : start = if (first == 0x5e || first == 0x21) = true then 2 else 1) :
    start ≤ membersStart string := by
  have hif : (if (cells string)[1]? = some 0x5e ∨ (cells string)[1]? = some 0x21 then 2 else 1) = start := by
    rw [hstart, hfirst]
    simp
  rw [membersStart, hif]
  split <;> omega

theorem one_le_membersStart (string : List UInt8) : 1 ≤ membersStart string := by
  rw [membersStart]
  split <;> split <;> omega

theorem bracketIntro_eq (bytes : List UInt8) : bracketIntro bytes =
      if bytes[0]? = some 0x5e ∨ bytes[0]? = some 0x21 then
        if bytes[1]? = some close then 2 else 1
      else if bytes[0]? = some close then 1 else 0 := by
  match bytes with
  | [] => rfl
  | [first] => simp [bracketIntro]
  | first :: second :: _ => simp [bracketIntro]

/-- The scanner starts where the members start, a leading hyphen apart. -/
theorem outside_membersStart (h : bracketClose (string.take count) = some (closing, units)) :
    Outside string count closing units (membersStart string) := by
  have hout : Outside string count closing units (1 + bracketIntro ((string.take count).drop 1)) :=
    ⟨[], units, rfl, nofun, h⟩
  have hle := hout.le
  obtain ⟨first, hfirst⟩ := hout.cell (i := 1) (by omega)
  -- what the scanner sees on its way is what stands in the string
  have hseen : ∀ i ≤ closing, ∀ b, (string.take count)[i]? = some b ↔ (cells string)[i]? = some b :=
    fun i hi b => ⟨cells_of_take, hout.take_of_cells hi⟩
  rw [bracketIntro_eq, getElem?_drop, getElem?_drop] at hout hle
  generalize hs : (if (first == 0x5e || first == 0x21) = true then 2 else 1) = start
  have hstart : start ≤ closing := by
    rw [← hs]
    simp only [hseen 1 (by omega), hfirst, some.injEq, Nat.add_zero] at hle
    simp only [Bool.or_eq_true, beq_iff_eq]
    split at hle <;> rename_i hinv
    · rw [if_pos hinv]
      split at hle <;> omega
    · rw [if_neg hinv]
      omega
  obtain ⟨leading, hleading⟩ := hout.cell hstart
  have hcursor : Outside string count closing units
      (if leading = close then start + 1 else start) := by
    simp only [hseen 1 (by omega), hfirst, some.injEq, Nat.add_zero] at hout
    simp only [Bool.or_eq_true, beq_iff_eq] at hs
    by_cases hinv : first = 0x5e ∨ first = 0x21
    · rw [if_pos hinv] at hs hout
      subst hs
      simp only [hseen 2 hstart, hleading, some.injEq, apply_ite (1 + ·)] at hout
      exact hout
    · rw [if_neg hinv] at hs hout
      subst hs
      rw [hfirst, some.injEq] at hleading
      subst hleading
      rwa [apply_ite (1 + ·)] at hout
  rw [membersStart_eq hfirst hs.symm hleading]
  by_cases hclose : leading = close
  · rw [if_pos hclose] at hcursor
    rwa [if_pos (.inl hclose)]
  · rw [if_neg hclose] at hcursor
    by_cases hdash : leading = dash
    · rw [if_pos (.inr hdash)]
      apply hcursor.plain hleading hclose
      rintro ⟨hopen, _⟩
      rw [hleading, hdash] at hopen
      exact absurd hopen (by decide)
    · rwa [if_neg (by tauto)]

end Start

end Crabc.Libc
