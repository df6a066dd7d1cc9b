/-
  Crabc.Libc.BracketWalk

  `match_bracket_c` walks through a bracket expression without a bound of its own.  As
  long as no range ends in the `[` of a nested element it stays inside what `pat_next_c`
  found and starts on no element in its middle, whatever it looks for.  Otherwise it
  lands behind that `[`, and some character takes it there.
-/

import Crabc.Libc.BracketScan

namespace Crabc.Libc

open Crabc.Lib Crabc.Pattern Logged List Event

/-! ## The matcher inside the expression -/

/-- What the matcher may do: look at positions up to the closing bracket, and be at the
    head of its loop outside the elements. -/
def Inside (closing : Nat) (units : List (Nat × Nat)) : Event → Prop
  | .look i => i ≤ closing
  | .enter p => ∀ u ∈ units, ¬ (u.1 < p ∧ p ≤ u.2)

variable {m : Member}

open Option

section Matcher

variable {locale : Locale} {string : List UInt8} {count closing p : Nat}
  {units : List (Nat × Nat)} {byte : UInt8} {sought : Sought} {inverted : Bool}

variable {i start : Nat}

theorem byteAt_does (hat : (cells string)[i]? = some byte) (hi : i ≤ closing) :
    (byteAt string i).Does (Inside closing units) (· = byte) where
  allowed := by
    intro e he
    cases mem_singleton.mp he
    exact hi
  returns := ⟨byte, hat, rfl⟩

/-- A run of looks that ends at or before the closing bracket. -/
theorem looks_inside {length : Nat} (h : ∀ i < length, start + i ≤ closing) :
    ∀ e ∈ (range length).map fun i => look (start + i), Inside closing units e := by
  intro e he
  obtain ⟨i, hi, rfl⟩ := mem_map.mp he
  exact h i (mem_range.mp hi)

/-- A round goes on to the next member. -/
def Onward (locale : Locale) (string : List UInt8) (p : Nat) : Next Member Bool → Prop
  | .again m => NextMember locale string p m.position
  | .done _ => True

section

variable (h : Outside string count closing units p)
include h

theorem bytesAt_does (start length : Nat) (hle : start + length ≤ closing) :
    (bytesAt string start length).Does (Inside closing units) fun _ => True where
  allowed := looks_inside fun i hi => by omega
  returns := by
    have hlt := (List.getElem?_eq_some_iff.mp h.cells_closing).1
    exact ⟨_, if_pos (by omega), trivial⟩

/-- The decoder looks on only behind bytes above 0x7f, and the closing bracket is none. -/
theorem mbtowcAt_does (hi : i ≤ closing) : (mbtowcAt locale string i).Does (Inside closing units)
      (· = (mbtowc locale.utf8 ((cells string).drop i) 4).outcome) where
  allowed := by
    apply looks_inside
    intro j hj
    by_contra hgt
    have hhigh : HighAt ((cells string).drop i) (closing - i) :=
      mbtowc_high locale.utf8 _ 4 _ (by omega)
    obtain ⟨b, hb, hge⟩ := hhigh
    rw [List.getElem?_drop, Nat.add_sub_cancel' hi, h.cells_closing, some.injEq] at hb
    rw [← hb] at hge
    exact absurd hge (by decide)
  returns := by
    have hlt := (List.getElem?_eq_some_iff.mp h.cells_closing).1
    exact ⟨_, if_pos (by omega), rfl⟩

/-- The inner loop finds the first pair of the delimiter and `]`. -/
theorem nestedClose_does {d : UInt8} {q : Nat} (hcloses : ClosesAt string d start q) (hq : q ≤ closing)
    (hstart : 0 < start) : (nestedClose string d start).Does (Inside closing units) (· = q) := by
  obtain ⟨hle, hd, hc, hfirst⟩ := hcloses
  have hlt := (List.getElem?_eq_some_iff.mp h.cells_closing).1
  apply does_loop (fun position => start ≤ position ∧ position ≤ q)
    (fun position => q - position)
  · rintro position ⟨hge, hpos⟩
    obtain ⟨previous, hprevious⟩ := h.cell (i := position - 1) (by omega)
    obtain ⟨b, hb⟩ := h.cell (i := position) (by omega)
    -- before `q` the pair is not there, so the loop goes on
    have hbefore : ¬ (previous = d ∧ b = close) → position < q := by
      intro hne
      refine Nat.lt_of_le_of_ne hpos ?_
      rintro rfl
      rw [hd, some.injEq] at hprevious
      rw [hc, some.injEq] at hb
      exact hne ⟨hprevious.symm, hb.symm⟩
    refine (byteAt_does hprevious (by omega)).bind ?_
    rintro _ rfl
    apply does_ite
    · intro hne
      have hlt' := hbefore fun hpair => hne hpair.1
      exact does_pure ⟨⟨by omega, by omega⟩, by omega⟩
    · intro heq
      rw [not_not] at heq
      subst heq
      refine (byteAt_does hb (by omega)).bind ?_
      rintro _ rfl
      apply does_ite
      · intro hne
        have hlt' := hbefore fun hpair => hne hpair.2
        exact does_pure ⟨⟨by omega, by omega⟩, by omega⟩
      · intro heq
        rw [not_not] at heq
        refine does_pure ?_
        by_contra hne
        rw [heq] at hb
        exact hfirst position hge (by omega) ⟨hprevious, hb⟩
  · exact ⟨Nat.le_refl _, hle⟩
  · omega

theorem singleTest_does {last : Nat} {wide : UInt32} (hlast : last < closing)
    (hnext : NextMember locale string start (last + 1)) :
    (singleTest string sought inverted last wide).Does (Inside closing units)
      (Onward locale string start) := by
  apply does_ite
  · intro _
    obtain ⟨next, hnextByte⟩ := h.cell (i := last + 1) (by omega)
    refine (byteAt_does hnextByte (by omega)).bind ?_
    rintro _ rfl
    apply does_ite
    · intro _
      exact does_pure trivial
    · intro hdash
      rw [not_not] at hdash
      -- a hyphen is not the closing bracket, so one more byte is left
      have hlt : last + 1 < closing := by
        refine Nat.lt_of_le_of_ne hlast ?_
        intro heq
        rw [heq, h.cells_closing, hdash] at hnextByte
        exact absurd hnextByte (by decide)
      obtain ⟨after, hafter⟩ := h.cell (i := last + 2) (by omega)
      refine (byteAt_does hafter (by omega)).bind ?_
      rintro _ rfl
      apply does_ite
      · intro _
        exact does_pure trivial
      · intro _
        exact does_pure hnext
  · intro _
    exact does_pure hnext

theorem singleRound_does (hat : (cells string)[p]? = some byte) (hclose : byte ≠ close) (hrange : ¬ RangeAt string p)
    (hopen : ¬ OpensNested string p) : (singleRound locale string sought inverted p byte).Does (Inside closing units)
      (Onward locale string p) := by
  have hlt := h.lt hat hclose
  apply does_ite
  · intro hascii
    exact singleTest_does h hlt (.single hat hascii hclose hrange hopen)
  · intro hge
    refine (mbtowcAt_does h h.le).bind ?_
    rintro _ rfl
    split
    · exact does_pure trivial
    · rename_i wide n hdecode
      have hsound := mbtowc_cells_sound locale.utf8 hat (UInt8.not_lt.mp hge)
      have hpos := hsound.length_pos _ _ hdecode
      have hle := (h.high (hsound.highs _ _ hdecode)).le
      refine singleTest_does h (by omega) ?_
      rw [show p + (n - 1) + 1 = p + n by omega]
      exact .wide hat (UInt8.not_lt.mp hge) hdecode

end

section

variable (h : Outside string count closing units m.position)
include h

theorem rangeRound_does (hrange : RangeAt string m.position) :
    (rangeRound locale string sought inverted m).Does (Inside closing units)
      (Onward locale string m.position) := by
  refine (mbtowcAt_does h (h.lt hrange.1 (by decide))).bind ?_
  rintro _ rfl
  split
  · exact does_pure trivial
  · rename_i high n hdecode
    apply does_ite
    · intro _
      exact does_pure trivial
    · intro _
      exact does_pure (NextMember.range hrange hdecode)

theorem nestedRound_does {d : UInt8} (hopen : (cells string)[m.position]? = some open_)
    (hd : (cells string)[m.position + 1]? = some d) (hdelim : isDelimiter d = true) :
    (nestedRound locale string sought inverted m).Does (Inside closing units)
      (Onward locale string m.position) := by
  obtain ⟨q, hcloses, _, hq, _⟩ := h.nested hopen hd hdelim
  have hle := hcloses.1
  refine (byteAt_does hd (by omega)).bind ?_
  rintro _ rfl
  refine (nestedClose_does h hcloses (by omega) (by omega)).bind ?_
  rintro q rfl
  have hnext : NextMember locale string m.position (q + 1) := .nested hopen hd hdelim hcloses
  apply does_ite
  · intro _
    refine (bytesAt_does h _ _ (by omega)).bind ?_
    intro name _
    apply does_ite
    · intro _
      exact does_pure trivial
    · intro _
      exact does_pure hnext
  · intro _
    exact does_pure hnext

/-- One round stays inside the expression and goes on to the next member. -/
theorem memberRound_does : (memberRound locale string sought inverted m).Does (Inside closing units)
      (Onward locale string m.position) := by
  obtain ⟨b, hb⟩ := h.cell h.le
  refine (does_emit h.not_inside).bind fun _ _ => ?_
  refine (byteAt_does hb h.le).bind ?_
  rintro b rfl
  apply does_ite
  · intro _
    exact does_pure trivial
  intro hclose
  have hlt := h.lt hb hclose
  obtain ⟨next, hnext⟩ := h.cell (i := m.position + 1) hlt
  have hat : ∀ {c : UInt8}, (cells string)[m.position]? = some c → b = c := by
    intro c hc
    rwa [hb, some.injEq] at hc
  apply does_ite
  · rintro rfl
    refine (byteAt_does hnext hlt).bind ?_
    rintro _ rfl
    apply does_ite
    · intro hne
      refine rangeRound_does h ⟨hb, ?_⟩
      rw [hnext, ne_eq, some.injEq]
      exact hne
    · intro heq
      rw [not_not] at heq
      refine singleRound_does h hb hclose (fun hrange => hrange.2 (heq ▸ hnext)) ?_
      intro hopen
      exact absurd (hat hopen.1) (by decide)
  · intro hdash
    have hrange : ¬ RangeAt string m.position := fun hrange => hdash (hat hrange.1)
    apply does_ite
    · rintro rfl
      refine (byteAt_does hnext hlt).bind ?_
      rintro _ rfl
      apply does_ite
      · intro hdelim
        exact nestedRound_does h hb hnext hdelim
      · intro hdelim
        refine singleRound_does h hb hclose hrange ?_
        rintro ⟨_, d, hd, hd'⟩
        rw [hnext, some.injEq] at hd
        exact hdelim (hd ▸ hd')
    · intro hopen
      exact singleRound_does h hb hclose hrange fun hnested => hopen (hat hnested.1)

end

/-- The loop of the matcher, as long as no range of a member it gets to ends in the `[` of an element. -/
theorem matchMembers_does (hnul : 0 ∉ string) (hstart : Outside string count closing units (membersStart string))
    (hends : ∀ p, MemberAt locale string p → ¬ EndsInNested string p) :
    (matchMembers locale string sought inverted (membersStart string)).Does
      (Inside closing units) fun _ => True := by
  obtain ⟨seed, hseed⟩ := hstart.cell (i := membersStart string - 1)
    (Nat.le_trans (Nat.sub_le _ _) hstart.le)
  have hlt := (List.getElem?_eq_some_iff.mp hstart.cells_closing).1
  refine (byteAt_does hseed (Nat.le_trans (Nat.sub_le _ _) hstart.le)).bind fun _ _ => ?_
  apply does_loop
    (fun m : Member => MemberAt locale string m.position ∧ Outside string count closing units m.position)
    (fun m => closing - m.position)
  · rintro m ⟨hmember, hout⟩
    refine (memberRound_does hout).mono fun next hnext => ?_
    cases next with
    | done _ => trivial
    | again m' =>
      obtain ⟨hout', hlt'⟩ := hout.next hnul (hends _ hmember) hnext
      have hle := hout'.le
      exact ⟨⟨hmember.next hnext, hout'⟩, by omega⟩
  · exact ⟨.first, hstart⟩
  · show closing - membersStart string < _
    omega

theorem matchBracketC_does (hnul : 0 ∉ string) {character folded : UInt32}
    (hstart : Outside string count closing units (membersStart string))
    (hends : ∀ p, MemberAt locale string p → ¬ EndsInNested string p) :
    (matchBracketC locale string character folded).Does (Inside closing units) fun _ => True := by
  have hle := hstart.le
  have hone := one_le_membersStart string
  obtain ⟨first, hfirst⟩ := hstart.cell (i := 1) (by omega)
  refine (byteAt_does hfirst (by omega)).bind ?_
  rintro first rfl
  dsimp only
  generalize hs : (if (first == 0x5e || first == 0x21) = true then 2 else 1) = start
  have hlead := le_membersStart hfirst hs.symm
  obtain ⟨leading, hleading⟩ := hstart.cell (i := start) (by omega)
  have heq := membersStart_eq hfirst hs.symm hleading
  refine (byteAt_does hleading (by omega)).bind ?_
  rintro leading rfl
  apply does_ite
  · intro hlit
    rw [if_pos hlit] at heq
    rw [← heq]
    apply does_ite
    · intro _
      exact does_pure trivial
    · intro _
      exact matchMembers_does hnul hstart hends
  · intro hlit
    rw [if_neg hlit] at heq
    rw [← heq]
    exact matchMembers_does hnul hstart hends

end Matcher

/-! ## A character that is in no expression -/

/-- The end-of-file value, which no member of an expression has. -/
def soughtEof : Sought := ⟨weof, weof⟩

section EndOfFile

variable {locale : Locale} {string : List UInt8} {count closing p q : Nat}
  {units : List (Nat × Nat)} {inverted : Bool}

theorem ne_weof {w : UInt32} (h : w < 0x80000000) : w ≠ weof := by
  rintro rfl
  exact absurd h (by decide)

theorem within_soughtEof {low high : UInt32} (hlow : low < 0x80000000) (hhigh : high < 0x80000000) :
    soughtEof.within low high = false := by
  have hgt : low ≤ high → ¬ weof - low ≤ high - low := by
    intro hle hsub
    rw [UInt32.le_iff_toNat_le] at hle hsub
    have heof : low ≤ weof := by
      show low.toNat ≤ 4294967295
      have hlt := low.toNat_lt
      omega
    rw [UInt32.toNat_sub_of_le _ _ heof, UInt32.toNat_sub_of_le _ _ hle] at hsub
    change low.toNat < 2147483648 at hlow
    change high.toNat < 2147483648 at hhigh
    change 4294967295 - low.toNat ≤ high.toNat - low.toNat at hsub
    omega
  show (decide (low ≤ high) &&
    (decide (weof - low ≤ high - low) || decide (weof - low ≤ high - low))) = false
  by_cases hle : low ≤ high
  · rw [decide_eq_false (hgt hle), Bool.or_self, Bool.and_false]
  · rw [decide_eq_false hle, Bool.false_and]

theorem inClass_soughtEof (locale : Locale) (name : List UInt8) : soughtEof.inClass locale name = false := by
  show (iswctype locale.tables weof (wctype name) || iswctype locale.tables weof (wctype name)) = _
  rw [iswctype_weof, Bool.or_self]

theorem result_byteAt_bind {α : Type} {byte : UInt8} (hat : (cells string)[p]? = some byte)
    (f : UInt8 → Logged Event α) : (byteAt string p >>= f).result = (f byte).result := by
  rw [result_bind, byteAt, hat, bind_some]

theorem result_mbtowcAt_bind {α : Type} (hlt : p < (cells string).length)
    (f : Option (UInt32 × Nat) → Logged Event α) : (mbtowcAt locale string p >>= f).result =
      (f (mbtowc locale.utf8 ((cells string).drop p) 4).outcome).result := by
  rw [result_bind, mbtowcAt]
  rw [if_pos hlt, bind_some]

theorem result_memberRound {byte : UInt8} {sought : Sought} (hat : (cells string)[m.position]? = some byte)
    (hclose : byte ≠ close) : (memberRound locale string sought inverted m).result =
      if byte = dash then
        (byteAt string (m.position + 1) >>= fun next =>
          if next ≠ close then rangeRound locale string sought inverted m
          else singleRound locale string sought inverted m.position byte).result
      else if byte = open_ then
        (byteAt string (m.position + 1) >>= fun next =>
          if isDelimiter next then nestedRound locale string sought inverted m
          else singleRound locale string sought inverted m.position byte).result
      else (singleRound locale string sought inverted m.position byte).result := by
  rw [memberRound, result_bind, result_emit, bind_some, result_byteAt_bind hat, if_neg hclose]
  split
  · rfl
  · split
    · rfl
    · rfl

/-- A member that is neither a range nor an element is a single one. -/
theorem result_memberRound_single {byte : UInt8} {sought : Sought}
    (h : Outside string count closing units m.position) (hat : (cells string)[m.position]? = some byte)
    (hclose : byte ≠ close) (hrange : ¬ RangeAt string m.position) (hopen : ¬ OpensNested string m.position) :
    (memberRound locale string sought inverted m).result =
      (singleRound locale string sought inverted m.position byte).result := by
  obtain ⟨next, hnext⟩ := h.cell (h.lt hat hclose)
  rw [result_memberRound hat hclose]
  split
  · rename_i hdash
    have heq : next = close := by
      by_contra hne
      refine hrange ⟨hdash ▸ hat, ?_⟩
      rw [hnext, ne_eq, some.injEq]
      exact hne
    rw [result_byteAt_bind hnext, if_neg (not_not.mpr heq)]
  · split
    · rename_i hbyte
      rw [result_byteAt_bind hnext, if_neg fun hdelim => hopen ⟨hbyte ▸ hat, next, hnext, hdelim⟩]
    · rfl

theorem result_singleTest_soughtEof {last : Nat} {wide : UInt32} (hwide : wide < 0x80000000) :
    (singleTest string soughtEof inverted last wide).result = some (.again ⟨last + 1, wide⟩) := by
  have hne : ¬ (wide = soughtEof.character ∨ wide = soughtEof.folded) := by
    rintro (heq | heq)
    · exact ne_weof hwide heq
    · exact ne_weof hwide heq
  rw [singleTest, if_neg hne]
  rfl

/-- A round that looks for the end-of-file value goes on as long as there is a member. -/
theorem memberRound_soughtEof (inverted : Bool) (m : Member) (h : Outside string count closing units m.position)
    (hwide : m.wide < 0x80000000) (hnext : NextMember locale string m.position q) :
    ∃ wide, wide < 0x80000000 ∧ (memberRound locale string soughtEof inverted m).result = some (.again ⟨q, wide⟩) := by
  cases hnext with
  | range hrange hdecode =>
    obtain ⟨next, hnext⟩ := h.cell (h.lt hrange.1 (by decide))
    have hne : next ≠ close := fun heq => hrange.2 (heq ▸ hnext)
    have hout := within_soughtEof hwide (mbtowc_wide_lt hdecode)
    refine ⟨m.wide, hwide, ?_⟩
    rw [result_memberRound hrange.1 (by decide), if_pos rfl, result_byteAt_bind hnext,
      if_pos hne, rangeRound, result_mbtowcAt_bind (List.getElem?_eq_some_iff.mp hnext).1,
      hdecode]
    dsimp only
    rw [hout]
    rfl
  | @nested d q hopen hd hdelim hcloses =>
    obtain ⟨q', hcloses', _, hq, _⟩ := h.nested hopen hd hdelim
    obtain rfl := hcloses.unique hcloses'
    have hle := hcloses.1
    obtain ⟨q, hclosing, rfl⟩ := (nestedClose_does h hcloses (by omega) (by omega)).returns
    refine ⟨m.wide, hwide, ?_⟩
    rw [result_memberRound hopen (by decide), if_neg (by decide), if_pos rfl,
      result_byteAt_bind hd, if_pos hdelim, nestedRound, result_byteAt_bind hd,
      result_bind, hclosing, bind_some]
    dsimp only
    split
    · obtain ⟨name, hname, _⟩ := (bytesAt_does h (m.position + 2)
        (q - (m.position + 2) - 1) (by omega)).returns
      rw [result_bind, hname, bind_some, inClass_soughtEof]
      rfl
    · rfl
  | @single byte hat hlt hclose hrange hopen =>
    refine ⟨byte.toUInt32, byte_lt_sign byte, ?_⟩
    rw [result_memberRound_single h hat hclose hrange hopen, singleRound, if_pos hlt,
      result_singleTest_soughtEof (byte_lt_sign byte)]
  | @wide byte character n hat hge hdecode =>
    have hne : ∀ {c : UInt8}, c < 128 → (cells string)[m.position]? ≠ some c := by
      intro c hc heq
      rw [hat, some.injEq] at heq
      exact absurd (heq ▸ hge) (UInt8.not_le.mpr hc)
    have hclose : byte ≠ close := fun heq => hne (by decide) (heq ▸ hat)
    have hpos := (mbtowc_cells_sound locale.utf8 hat hge).length_pos _ _ hdecode
    refine ⟨character, mbtowc_wide_lt hdecode, ?_⟩
    rw [result_memberRound_single h hat hclose (fun hrange => hne (by decide) hrange.1)
      (fun hopen => hne (by decide) hopen.1), singleRound, if_neg (UInt8.not_lt.mpr hge),
      result_mbtowcAt_bind (List.getElem?_eq_some_iff.mp hat).1, hdecode]
    rw [result_singleTest_soughtEof (mbtowc_wide_lt hdecode),
      show m.position + (n - 1) + 1 = m.position + n by omega]

/-- The run that looks for the end-of-file value is, from the first member on, the loop. -/
theorem matchBracketC_weof {locale : Locale} (hstart : Outside string count closing units (membersStart string)) :
    ∃ inverted seed, seed < 0x80000000 ∧
      ∀ e ∈ (loop (memberRound locale string soughtEof inverted) ((cells string).length + 1)
          ⟨membersStart string, seed⟩).events,
        e ∈ (matchBracketC locale string weof weof).events := by
  have hle := hstart.le
  have hone := one_le_membersStart string
  obtain ⟨first, hfirst⟩ := hstart.cell (i := 1) (by omega)
  obtain ⟨seed, hseed⟩ := hstart.cell (i := membersStart string - 1) (by omega)
  refine ⟨first == 0x5e || first == 0x21, seed.toUInt32, byte_lt_sign seed, ?_⟩
  intro e he
  have hmembers : e ∈ (matchMembers locale string soughtEof (first == 0x5e || first == 0x21)
      (membersStart string)).events := mem_events_bind hseed he
  refine mem_events_bind hfirst ?_
  dsimp only
  generalize hs : (if (first == 0x5e || first == 0x21) = true then 2 else 1) = start
  have hlead := le_membersStart hfirst hs.symm
  obtain ⟨leading, hleading⟩ := hstart.cell (i := start) (by omega)
  have heq := membersStart_eq hfirst hs.symm hleading
  refine mem_events_bind hleading ?_
  split
  · rename_i hlit
    rw [if_pos hlit] at heq
    rw [if_neg (ne_weof (byte_lt_sign leading)).symm, ← heq]
    exact hmembers
  · rename_i hlit
    rw [if_neg hlit] at heq
    rw [← heq]
    exact hmembers

end EndOfFile

/-! ## Safety of the bracket matcher -/

/-- The nested elements that `pat_next_c` passes as units, from their `[` to their `]`. -/
def nestedElements (string : List UInt8) (count : Nat) : List (Nat × Nat) :=
  ((bracketClose (string.take count)).map (·.2)).getD []

/-- What `match_bracket_c` owes on an expression of `k` bytes: it looks at these only, it
    returns, and the head of its loop is never in the middle of an element. -/
structure StaysInside (k : Nat) (elements : List (Nat × Nat)) (run : Logged Event Bool) : Prop where
  looks : ∀ i, look i ∈ run.events → i < k
  enters : ∀ p, enter p ∈ run.events → ∀ u ∈ elements, ¬ (u.1 < p ∧ p ≤ u.2)
  returns : run.result.isSome

section Safety

variable {locale : Locale} {string : List UInt8} {count closing k p : Nat} {flags : UInt32}
  {units : List (Nat × Nat)}

theorem StaysInside.of_does {run : Logged Event Bool}
    (h : run.Does (Inside closing units) fun _ => True) : StaysInside (closing + 1) units run where
  looks := fun i hi => Nat.lt_succ_of_le (h.allowed _ hi)
  enters := fun p hp => h.allowed _ hp
  returns := by
    obtain ⟨value, hvalue, _⟩ := h.returns
    rw [hvalue]
    rfl

/-- `pat_next_c` reports a bracket where it found its end. -/
theorem bracketClose_of_patNextC (h : patNextC locale string count flags = (.bracket, k)) :
    ∃ closing units, bracketClose (string.take count) = some (closing, units) ∧ k = closing + 1 := by
  have hliteral : ∀ s c e, (patLiteral locale s c e).1 ≠ .bracket := by
    intro s c e
    unfold patLiteral
    repeat' split
    all_goals
      intro hkind
      cases hkind
  rw [patNextC.eq_def] at h
  split at h
  · cases h
  · cases h
  · split at h
    · exact absurd (congrArg Prod.fst h) (hliteral _ _ _)
    · split at h
      · -- the opening bracket: only a closed expression is reported as one
        split at h
        · cases h
        · rename_i closing units hclose
          cases h
          exact ⟨closing, units, hclose, rfl⟩
      · split at h
        · cases h
        · split at h
          · cases h
          · exact absurd (congrArg Prod.fst h) (hliteral _ _ _)

/-- A range that ends in the `[` of an element takes the matcher behind that `[`. -/
theorem enters_nested {inverted : Bool} {n : Nat} {wide : UInt32} (hout : Outside string count closing units p)
    (hends : EndsInNested string p) (hwide : wide < 0x80000000) (hn : n ≤ p)
    (hturns : Logged.Turns (memberRound locale string soughtEof inverted) n m ⟨p, wide⟩) :
    ∃ u ∈ units, (u.1 < p + 2 ∧ p + 2 ≤ u.2) ∧ enter (p + 2) ∈ (loop (memberRound locale string soughtEof inverted)
        ((cells string).length + 1) m).events := by
  obtain ⟨hdash, hopen, d, hd, hdelim⟩ := hends
  have hpoint : Outside string count closing units (p + 1) := by
    apply hout.plain hdash (by decide)
    rintro ⟨hbyte, _⟩
    rw [hdash] at hbyte
    exact absurd hbyte (by decide)
  obtain ⟨q, hcloses, hunit, hq, _⟩ := hpoint.nested hopen hd hdelim
  have hle := hcloses.1
  have hlen := (List.getElem?_eq_some_iff.mp hout.cells_closing).1
  refine ⟨(p + 1, q), hunit, ⟨?_, ?_⟩, ?_⟩
  · exact Nat.lt_succ_self _
  · show p + 2 ≤ q
    omega
  · have hrange : NextMember locale string p (p + (1 + 1)) := by
      refine .range ⟨hdash, ?_⟩ (mbtowc_cells_ascii hopen (by decide) (by decide))
      rw [hopen]
      decide
    obtain ⟨wide', _, hround⟩ := memberRound_soughtEof inverted ⟨p, wide⟩ hout hwide
      hrange
    refine mem_events_loop (hturns.snoc hround) (by omega) ?_
    exact mem_events_bind_left List.mem_cons_self

/-- **Safety of the bracket matcher.**  Where `pat_next_c` reports a bracket expression,
    `match_bracket_c` stays inside it for every character if and only if no range of the
    expression ends in the `[` of a nested element. -/
theorem matchBracketC_staysInside_iff (hnul : 0 ∉ string)
    (hscan : patNextC locale string count flags = (.bracket, k)) : (∀ character folded,
        StaysInside k (nestedElements string count)
          (matchBracketC locale string character folded)) ↔
      ∀ p, MemberAt locale string p → ¬ EndsInNested string p := by
  obtain ⟨closing, units, hclose, rfl⟩ := bracketClose_of_patNextC hscan
  have hunits : nestedElements string count = units := by
    rw [nestedElements, hclose]
    rfl
  have hstart := outside_membersStart hclose
  rw [hunits]
  constructor
  · intro hall
    obtain ⟨inverted, seed, hseed, hevents⟩ := matchBracketC_weof hstart
    have hrun := hall weof weof
    -- the walk that looks for the end-of-file value gets to every member
    have hreach : ∀ p, MemberAt locale string p → Outside string count closing units p ∧
        ∃ n wide, n ≤ p ∧ wide < 0x80000000 ∧ Logged.Turns (memberRound locale string soughtEof inverted) n
            ⟨membersStart string, seed⟩ ⟨p, wide⟩ := by
      intro p hp
      induction hp with
      | first => exact ⟨hstart, 0, seed, Nat.zero_le _, hseed, .zero _⟩
      | @next p q _ hnext ih =>
        obtain ⟨hout, n, wide, hn, hwide, hturns⟩ := ih
        have hends : ¬ EndsInNested string p := by
          intro hends
          obtain ⟨u, hu, hin, hevent⟩ := enters_nested hout hends hwide hn hturns
          exact hrun.enters _ (hevents _ hevent) u hu hin
        obtain ⟨hout', hlt⟩ := hout.next hnul hends hnext
        obtain ⟨wide', hwide', hround⟩ := memberRound_soughtEof inverted ⟨p, wide⟩
          hout hwide hnext
        exact ⟨hout', n + 1, wide', by omega, hwide', hturns.snoc hround⟩
    intro p hp hends
    obtain ⟨hout, n, wide, hn, hwide, hturns⟩ := hreach p hp
    obtain ⟨u, hu, hin, hevent⟩ := enters_nested hout hends hwide hn hturns
    exact hrun.enters _ (hevents _ hevent) u hu hin
  · intro hends character folded
    exact .of_does (matchBracketC_does hnul hstart hends)

end Safety

/-- `[a-[:[:]]`: the range ends in the `[` of `[:[:]`. -/
def rangeIntoClass : List UInt8 := [0x5b, 0x61, 0x2d, 0x5b, 0x3a, 0x5b, 0x3a, 0x5d, 0x5d]

/-- The case of `[a-[:[:]]`, which `pat_next_c` reports as one expression of nine bytes. -/
theorem rangeIntoClass_staysInside_iff :
    0 ∉ rangeIntoClass ∧ patNextC asciiLocale rangeIntoClass 9 0 = (.bracket, 9) ∧ ((∀ character folded,
          StaysInside 9 (nestedElements rangeIntoClass 9)
            (matchBracketC asciiLocale rangeIntoClass character folded)) ↔
        ∀ p, MemberAt asciiLocale rangeIntoClass p → ¬ EndsInNested rangeIntoClass p) :=
  ⟨by decide, by decide, matchBracketC_staysInside_iff (by decide)
    (show patNextC asciiLocale rangeIntoClass 9 0 = (.bracket, 9) by decide)⟩

/-- Looking for `z` the matcher takes the `[:` in the middle of the element for another
    one and searches for its end behind the terminating NUL. -/
theorem rangeIntoClass_overrun : patNextC asciiLocale rangeIntoClass 9 0 = (.bracket, 9) ∧
      nestedElements rangeIntoClass 9 = [(3, 7)] ∧
      enter 4 ∈ (matchBracketC asciiLocale rangeIntoClass 0x7a 0x7a).events ∧
      look 10 ∈ (matchBracketC asciiLocale rangeIntoClass 0x7a 0x7a).events ∧
      ¬ StaysInside 9 (nestedElements rangeIntoClass 9)
        (matchBracketC asciiLocale rangeIntoClass 0x7a 0x7a) := by
  refine ⟨by decide, by decide, by decide, by decide, ?_⟩
  intro h
  exact absurd (h.looks 10 (by decide)) (by decide)

end Crabc.Libc
