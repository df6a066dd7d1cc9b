/-
  Crabc.Pattern.Elements

  The elements of a bracket expression of `crabc-core/src/pattern.rs`: `bracket_matches`
  reads those that `bracket_end` has passed, unless a range hyphen meets a nested one.
-/

import Crabc.Pattern.Tokens

namespace Crabc.Pattern

open List Option

/-- A byte, or a class, collating or equivalence element. -/
inductive Element where
  | byte (value : UInt8)
  | nested (delimiter : UInt8) (text : List UInt8)
deriving DecidableEq

def Element.bytes : Element → List UInt8
  | .byte value => [value]
  | .nested delimiter text => open_ :: delimiter :: (text ++ [delimiter, close])

def spelled (elements : List Element) : List UInt8 := elements.flatMap Element.bytes

@[simp] theorem spelled_cons (e : Element) (elements : List Element) :
    spelled (e :: elements) = e.bytes ++ spelled elements := rfl

/-- The elements that `bracket_end` passes. -/
def passed (bytes : List UInt8) : Option (List Element) :=
  match bytes with
  | [] => none
  | byte :: rest =>
    if byte = close then some []
    else
      match rest with
      | [] => none
      | following :: rest' =>
        if byte = open_ ∧ isDelimiter following then
          match _h : findClose following rest' with
          | some (text, rest'') => (passed rest'').map (.nested following text :: ·)
          | none => none
        else (passed (following :: rest')).map (.byte byte :: ·)
termination_by bytes.length
decreasing_by
  all_goals simp_wf
  have hlt := findClose_length _h
  omega

variable {bytes : List UInt8} {d : UInt8}

theorem bracketScan_nested : bracketScan (some d) bytes =
    (findClose d bytes).bind fun r => (bracketScan none r.2).map (· + (r.1.length + 2)) := by
  fun_induction findClose d bytes with
  | case1 => rfl
  | case2 => rfl
  | case3 _ _ rest h => simp [bracketScan, h]
  | case4 byte following rest hne ih =>
    rw [bracketScan, if_neg hne, ih]
    cases findClose d (following :: rest) <;> simp [Function.comp_def, Nat.add_assoc, Nat.add_comm, Nat.add_left_comm]

theorem findClose_append {r : List UInt8 × List UInt8} (h : findClose d bytes = some r) :
    bytes = r.1 ++ d :: close :: r.2 ∧ ∀ rest, findClose d (r.1 ++ d :: close :: rest) = some (r.1, rest) := by
  fun_induction findClose d bytes generalizing r with
  | case1 | case2 => cases h
  | case3 _ _ rest heq =>
    cases h
    simp [findClose, heq]
  | case4 byte following rest hne ih =>
    obtain ⟨r, hr, rfl⟩ := map_eq_some_iff.mp h
    obtain ⟨heq, hall⟩ := ih hr
    refine ⟨by rw [heq]; rfl, fun rest' => ?_⟩
    cases hr1 : r.1 <;> simp_all [findClose]

/-- `bracket_end` ends behind these elements. -/
theorem bracketScan_passed :
    bracketScan none bytes = (passed bytes).map fun elements => (spelled elements).length + 1 := by
  fun_induction passed bytes with
  | case1 => rfl
  | case2 => simp [bracketScan_close, spelled]
  | case3 => simp_all [bracketScan]
  | case4 byte hclose d rest hopen text rest' h ih =>
    rw [hopen.1] at hclose ⊢
    rw [bracketScan, if_neg hclose, if_pos rfl, if_pos hopen.2, bracketScan_nested, h, bind_some, ih]
    cases passed rest' <;> simp [Element.bytes]
    omega
  | case5 => simp_all [bracketScan, bracketScan_nested]
  | case6 byte hclose following rest hopen ih =>
    cases hpassed : passed (following :: rest) <;> simp_all [bracketScan, Element.bytes]

/-- The elements read one by one; a hyphen in front of a nested element has no reading. -/
def elementScan (tests : MemberTests) (inverted : Bool) : UInt8 → List Element → Option Bool
  | _, [] => some inverted
  | _, .nested d text :: rest =>
    if if d = 0x3a then tests.inClass text else text.length = 1 && tests.equal (text.headD 0) then some !inverted
    else elementScan tests inverted close rest
  | prev, .byte value :: .byte high :: rest =>
    if value = dash ∧ high ≠ close then if tests.range prev high then some !inverted else elementScan tests inverted high rest
    else if tests.equal value then some !inverted else elementScan tests inverted value (.byte high :: rest)
  | _, .byte value :: rest =>
    if value = dash ∧ rest ≠ [] then none
    else if tests.equal value then some !inverted else elementScan tests inverted value rest

/-- The loop of `bracket_matches` reads the elements. -/
def Reads (tests : MemberTests) (elements : List Element) : Prop :=
  ∀ inverted prev b, elementScan tests inverted prev elements = some b →
    memberScan tests inverted prev (spelled elements) = b

variable {tests : MemberTests} {elements : List Element}

theorem reads_byte {value : UInt8} (h : ∀ k, Reads tests (elements.drop k))
    (hopen : value = open_ → ∀ d ∈ (spelled elements).head?, ¬ isDelimiter d) :
    Reads tests (.byte value :: elements) := by
  intro inverted prev b hb
  have hvalue := h 0 inverted value b
  rw [memberScan.eq_def]
  rcases elements with - | ⟨high | ⟨d, text⟩, rest⟩
  · simp_all [elementScan, memberScan, spelled, Element.bytes]
    grind
  · have hhigh := h 1 inverted high b
    rw [elementScan.eq_def] at hb
    simp_all [Element.bytes]
    grind
  · rw [elementScan.eq_def] at hb
    simp_all [Element.bytes]
    grind

theorem reads_nested {text : List UInt8} (h : Reads tests elements) (hd : isDelimiter d)
    (htext : ∀ rest, findClose d (text ++ d :: close :: rest) = some (text, rest)) :
    Reads tests (.nested d text :: elements) := by
  intro inverted prev b hb
  have hclose := h inverted close b
  have hdash : open_ ≠ dash := by decide
  rw [memberScan.eq_def]
  rw [elementScan.eq_def] at hb
  simp_all [Element.bytes]
  grind

theorem reads_drop {e : Element} (h : ∀ k, Reads tests (elements.drop k)) (he : Reads tests (e :: elements)) :
    ∀ k, Reads tests ((e :: elements).drop k)
  | 0 => he
  | k + 1 => h k

theorem passed_reads (h : passed bytes = some elements) :
    (∀ k, Reads tests (elements.drop k)) ∧ ∃ tail, bytes = spelled elements ++ close :: tail := by
  fun_induction passed bytes generalizing elements with
  | case1 | case3 | case5 => cases h
  | case2 rest =>
    cases h
    refine ⟨fun k inverted _ b hb => ?_, rest, rfl⟩
    simp_all [memberScan, spelled, elementScan]
  | case4 byte hclose d rest hopen text rest' htext ih =>
    obtain ⟨elements, helements, rfl⟩ := map_eq_some_iff.mp h
    obtain ⟨hreads, tail, rfl⟩ := ih helements
    obtain ⟨rfl, hall⟩ := findClose_append htext
    exact ⟨reads_drop hreads (reads_nested (hreads 0) hopen.2 hall), tail, by simp [Element.bytes, hopen.1]⟩
  | case6 byte hclose following rest hopen ih =>
    obtain ⟨elements, helements, rfl⟩ := map_eq_some_iff.mp h
    obtain ⟨hreads, tail, heq⟩ := ih helements
    refine ⟨reads_drop hreads (reads_byte hreads fun hbyte d hd => ?_), tail, by simp [Element.bytes, heq]⟩
    cases hspelled : spelled elements <;> simp_all

end Crabc.Pattern
