/-
  Crabc.Dns.NameLaws

  Domain names as sequences of labels, with their text and their wire form, and what
  `write_wire_name` has to do with them: it succeeds on the texts of names whose wire
  form fits its buffer, with or without a final dot, and writes the wire form.
-/

import Crabc.Dns.Name

namespace Crabc.Dns

open Crabc.Lib Checked NameWriter UInt8 Or

/-! ## Names -/

/-- What a label may be: 1 to 63 bytes, none of them a dot. -/
structure IsLabel (label : List UInt8) : Prop where
  pos : 1 ≤ label.length
  le : label.length ≤ 63
  noDot : 46 ∉ label

/-- A domain name below the root. -/
structure DomainName where
  labels : List (List UInt8)
  nonempty : labels ≠ []
  isLabel : ∀ label ∈ labels, IsLabel label

def wireLabels (labels : List (List UInt8)) : List UInt8 :=
  labels.flatMap fun label => ofNat label.length :: label

/-- The labels, each behind its length, and the root. -/
def DomainName.wire (d : DomainName) : List UInt8 := wireLabels d.labels ++ [0]

/-- The labels with dots between them. -/
def DomainName.text (d : DomainName) : List UInt8 := List.intercalate [46] d.labels

/-- `name` is the text of `d`, perhaps with a final dot. -/
def DomainName.Spells (d : DomainName) (name : List UInt8) : Prop :=
  name = d.text ∨ name = d.text ++ [46]

theorem wireLabels_cons (label : List UInt8) (labels : List (List UInt8)) :
    wireLabels (label :: labels) = ofNat label.length :: label ++ wireLabels labels := rfl

/-- The text behind a dot, or at the start: labels with dots behind them, of which the last may be missing. -/
inductive Spelled : List UInt8 → List (List UInt8) → Prop where
  | done : Spelled [] []
  | last {label : List UInt8} : IsLabel label → Spelled label [label]
  | more {label rest : List UInt8} {labels : List (List UInt8)} :
      IsLabel label → Spelled rest labels → Spelled (label ++ 46 :: rest) (label :: labels)

variable {labels : List (List UInt8)}

open List

theorem Spelled.isLabel {text : List UInt8} (h : Spelled text labels) : ∀ label ∈ labels, IsLabel label := by
  induction h with
  | done => exact nofun
  | last hlabel =>
    intro label hmem
    rw [mem_singleton.mp hmem]
    exact hlabel
  | more hlabel _ ih =>
    rintro label (_ | ⟨_, hmem⟩)
    · exact hlabel
    · exact ih label hmem

theorem Spelled.text {text : List UInt8} (h : Spelled text labels) (hne : labels ≠ []) :
    text = intercalate [46] labels ∨ text = intercalate [46] labels ++ [46] := by
  induction h with
  | done => exact absurd rfl hne
  | last _ => exact inl intercalate_singleton.symm
  | @more label rest labels _ hrest ih =>
    cases labels with
    | nil =>
      cases hrest
      exact inr (by rw [intercalate_singleton])
    | cons label' labels =>
      rw [intercalate_cons_cons, append_assoc, singleton_append]
      rcases ih (cons_ne_nil _ _) with h | h
      · exact inl (by rw [h])
      · exact inr (by rw [h, append_assoc, cons_append])

theorem spelled_text (hne : labels ≠ []) (h : ∀ label ∈ labels, IsLabel label) :
    Spelled (intercalate [46] labels) labels ∧ Spelled (intercalate [46] labels ++ [46]) labels := by
  induction labels with
  | nil => exact absurd rfl hne
  | cons label labels ih =>
    have hlabel := h label mem_cons_self
    cases labels with
    | nil =>
      rw [intercalate_singleton]
      exact ⟨.last hlabel, .more hlabel .done⟩
    | cons label' labels =>
      have hrest := ih (cons_ne_nil _ _) fun l hl => h l (mem_cons_of_mem _ hl)
      rw [intercalate_cons_cons, append_assoc, singleton_append, append_assoc, cons_append]
      exact ⟨.more hlabel hrest.1, .more hlabel hrest.2⟩

variable {name : List UInt8}

/-- The two ways to say that a text is that of a name. -/
theorem spelled_iff : Spelled name labels ∧ labels ≠ [] ↔ ∃ d : DomainName, d.labels = labels ∧ d.Spells name := by
  constructor
  · rintro ⟨h, hne⟩
    exact ⟨⟨labels, hne, h.isLabel⟩, rfl, h.text hne⟩
  · rintro ⟨d, rfl, h⟩
    have hspelled := spelled_text d.nonempty d.isLabel
    refine ⟨?_, d.nonempty⟩
    rcases h with rfl | rfl
    · exact hspelled.1
    · exact hspelled.2

/-! ## Scanning -/

/-- A text goes on to its first dot, or has none. -/
theorem split_dot (text : List UInt8) : 46 ∉ text ∨ ∃ label rest, text = label ++ 46 :: rest ∧ 46 ∉ label := by
  induction text with
  | nil => exact inl not_mem_nil
  | cons byte text ih =>
    by_cases hbyte : byte = 46
    · exact inr ⟨[], text, by rw [hbyte]; rfl, not_mem_nil⟩
    have hcons {l : List UInt8} (h : 46 ∉ l) : 46 ∉ byte :: l := by
      rw [mem_cons, not_or]
      exact ⟨fun h => hbyte h.symm, h⟩
    rcases ih with h | ⟨label, rest, rfl, h⟩
    · exact inl (hcons h)
    · exact inr ⟨byte :: label, rest, rfl, hcons h⟩

variable {label rest : List UInt8}

/-- The bytes before a dot are passed over. -/
theorem writeLabels_scan (rounds : Nat) (w : NameWriter) (hname : name.drop w.index = label ++ rest)
    (hdot : 46 ∉ label) : writeLabels name (label.length + rounds) w =
      writeLabels name rounds { w with index := w.index + label.length } := by
  induction label generalizing w with
  | nil => rw [length_nil, Nat.zero_add, Nat.add_zero]
  | cons byte label ih =>
    have hbyte : name[w.index]? = some byte := by
      rw [← head?_drop, hname]
      rfl
    have hindex : w.index ≠ name.length := by
      rintro h
      rw [h, getElem?_eq_none .refl] at hbyte
      cases hbyte
    have hne : byte ≠ 46 := fun h => hdot (h ▸ mem_cons_self)
    have hdrop : name.drop (w.index + 1) = label ++ rest := by
      rw [← drop_drop, hname]
      rfl
    have hstep : writeLabels name (label.length + rounds + 1) w =
        writeLabels name (label.length + rounds) { w with index := w.index + 1 } := by
      rw [writeLabels, if_neg hindex, index_ok hbyte, ok_bind, if_pos hne]
    rw [length_cons, Nat.add_right_comm, hstep,
      ih { w with index := w.index + 1 } hdrop fun h => hdot (mem_cons_of_mem _ h)]
    congr 2
    dsimp only
    omega

/-! ## Writing -/

/-- The writer at the start of the text `rest` of a name, behind a dot or at the start
    of the name, with `front` written. -/
structure NameWriter.At (w : NameWriter) (name rest front : List UInt8) : Prop where
  filled : Filled w.output maxNameWire front
  room : front.length < maxNameWire
  written : w.written = front.length
  index : w.index = w.labelStart
  inside : w.index ≤ name.length
  rest : name.drop w.index = rest
  behind : w.index = 0 ∨ name[w.index - 1]? = some 46

variable {w : NameWriter} {front : List UInt8}

/-- A label that is not empty. -/
theorem label_ok_iff (h : w.At name (label ++ rest) front) (hne : label ≠ []) :
    (label.length ≤ 63 ∧ front.length + label.length + 1 < maxNameWire →
      ∃ output, NameWriter.label name { w with index := w.index + label.length } = .ok { w with
            index := w.index + label.length
            written := front.length + label.length + 1
            output } ∧
        Filled output maxNameWire (front ++ ofNat label.length :: label)) ∧
    (¬ (label.length ≤ 63 ∧ front.length + label.length + 1 < maxNameWire) →
      ∃ e, NameWriter.label name { w with index := w.index + label.length } = .error e) := by
  have hpos : 0 < label.length := length_pos_iff.mpr hne
  have hsub : w.index + label.length - w.labelStart = label.length := by
    rw [h.index]
    omega
  have hlength : name.length = w.index + (label.length + rest.length) := by
    have := congrArg length h.rest
    rw [length_drop, length_append] at *
    omega
  simp only [NameWriter.label, hsub, h.written, h.filled.length]
  rw [if_neg (by omega)]
  constructor
  · rintro ⟨hle, hroom⟩
    obtain ⟨output₁, hstore, hfilled₁⟩ := h.filled.store (ε := Errno)
      (ofNat label.length) rfl (by omega)
    obtain ⟨output₂, hblit, hfilled₂⟩ := hfilled₁.blit (ε := Errno)
      (i := front.length + 1) label (by simp) (by omega)
    have hslice : (slice name w.labelStart (w.index + label.length) :
        Checked Errno (List UInt8)) = .ok label := by
      rw [slice_ok (by omega) (by omega), ← h.index, h.rest, Nat.add_sub_cancel_left, take_left]
    rw [if_neg (by omega), if_neg (by omega), hstore, ok_bind, hslice, ok_bind, hblit]
    refine ⟨output₂, rfl, ?_⟩
    rw [append_assoc, singleton_append] at hfilled₂
    exact hfilled₂
  · intro hnot
    by_cases hle : label.length > 63
    · exact ⟨invalid, by rw [if_pos hle]⟩
    · exact ⟨nameTooLong, by rw [if_neg hle, if_pos (by omega)]⟩

variable {output : List UInt8}

/-- Passing a dot, or the end, behind a label that fits. -/
theorem NameWriter.At.next (h : w.At name (label ++ 46 :: rest) front)
    (hroom : front.length + label.length + 1 < maxNameWire)
    (hfilled : Filled output maxNameWire (front ++ ofNat label.length :: label)) :
    NameWriter.At ⟨w.index + label.length + 1, w.index + label.length + 1,
      front.length + label.length + 1, output⟩ name rest
      (front ++ ofNat label.length :: label) := by
  have hrest := h.rest
  have hdrop : name.drop (w.index + label.length) = 46 :: rest := by rw [← drop_drop, hrest, drop_left]
  have hlt : w.index + label.length < name.length := by
    have := congrArg length hdrop
    rw [length_drop, length_cons] at this
    omega
  refine ⟨hfilled, ?_, ?_, rfl, hlt, ?_, inr ?_⟩
  · rw [length_append, length_cons]
    omega
  · rw [length_append, length_cons]
    rfl
  · rw [← drop_drop, hdrop]
    rfl
  · rw [Nat.add_sub_cancel, ← head?_drop, hdrop]
    rfl

/-- At a dot behind a label the writer takes the label and goes on behind the dot. -/
theorem writeLabels_dot {rounds : Nat} (h : w.At name (label ++ 46 :: rest) front) :
    writeLabels name (rounds + 1) { w with index := w.index + label.length } =
      (NameWriter.label name { w with index := w.index + label.length } >>= fun w' =>
        writeLabels name rounds { w' with index := w'.index + 1, labelStart := w'.index + 1 }) := by
  have hdrop : name.drop (w.index + label.length) = 46 :: rest := by rw [← drop_drop, h.rest, drop_left]
  have hbyte : name[w.index + label.length]? = some 46 := by
    rw [← head?_drop, hdrop]
    rfl
  have hindex : w.index + label.length ≠ name.length := by
    intro heq
    rw [heq, getElem?_eq_none .refl] at hbyte
    cases hbyte
  rw [writeLabels, if_neg hindex, index_ok hbyte, ok_bind, if_neg (fun hne => hne rfl)]

theorem NameWriter.At.end_eq (h : w.At name label front) : w.index + label.length = name.length := by
  have := congrArg length h.rest
  have := h.inside
  rw [length_drop] at *
  omega

/-- The end of the name behind a dot. -/
theorem writeLabels_done (h : w.At name [] front) (hstart : w.index ≠ 0) : writeLabels name 1 w = .ok w := by
  have hend : w.index = name.length := h.end_eq
  have hprevious := h.behind.resolve_left hstart
  rw [writeLabels, if_pos hend]
  simp only [label]
  rw [if_pos (by rw [h.index]; omega), if_pos ⟨hend, hstart⟩, index_ok hprevious, ok_bind, if_pos rfl, pure_eq]

/-- An empty label anywhere else is an error. -/
theorem label_empty (h : w.At name rest front) (hnot : w.index = name.length → w.index = 0) :
    NameWriter.label name w = .error invalid := by
  simp only [NameWriter.label]
  rw [if_pos (by rw [h.index]; omega), if_neg (fun hand => hand.2 (hnot hand.1))]

/-- The text of labels that fit is written. -/
theorem writeLabels_spelled (h : Spelled rest labels) (hat : w.At name rest front)
    (hstart : rest = [] → w.index ≠ 0) (hroom : front.length + (wireLabels labels).length < maxNameWire) :
    ∃ w', writeLabels name (rest.length + 1) w = .ok w' ∧ Filled w'.output maxNameWire (front ++ wireLabels labels) ∧
      w'.written = front.length + (wireLabels labels).length := by
  induction h generalizing w front with
  | done =>
    refine ⟨w, writeLabels_done hat (hstart rfl), ?_, hat.written⟩
    rw [wireLabels, flatMap_nil, append_nil]
    exact hat.filled
  | @last label hlabel =>
    have hne : label ≠ [] := length_pos_iff.mp hlabel.pos
    have hsize : (wireLabels [label]).length = label.length + 1 := by simp [wireLabels]
    have hat' : w.At name (label ++ []) front := by rwa [append_nil]
    obtain ⟨output, hrun, hfilled⟩ := (label_ok_iff hat' hne).1 ⟨hlabel.le, by omega⟩
    have hscan := writeLabels_scan 1 w hat'.rest hlabel.noDot
    rw [hscan, writeLabels, if_pos hat.end_eq, hrun]
    refine ⟨_, rfl, ?_, ?_⟩
    · simpa [wireLabels] using hfilled
    · dsimp only
      omega
  | @more label rest labels hlabel _ ih =>
    have hne : label ≠ [] := length_pos_iff.mp hlabel.pos
    have hsize : (wireLabels (label :: labels)).length = label.length + 1 + (wireLabels labels).length := by
      rw [wireLabels_cons, cons_append, length_cons, length_append]
      omega
    obtain ⟨output, hrun, hfilled⟩ := (label_ok_iff hat hne).1 ⟨hlabel.le, by omega⟩
    have hnext := hat.next (by omega) hfilled
    have hfront : (front ++ ofNat label.length :: label).length = front.length + label.length + 1 := by
      rw [length_append, length_cons, Nat.add_assoc]
    obtain ⟨w', hrest, hfilled', hwritten'⟩ := ih hnext (fun _ => Nat.succ_ne_zero _)
      (by omega)
    have hrounds : (label ++ 46 :: rest).length + 1 = label.length + (rest.length + 1 + 1) := by
      rw [length_append, length_cons]
      omega
    rw [hrounds, writeLabels_scan _ w hat.rest hlabel.noDot, writeLabels_dot hat, hrun, ok_bind]
    refine ⟨w', hrest, ?_, by omega⟩
    rwa [append_assoc, cons_append] at hfilled'

/-- Only texts of labels that fit are written. -/
theorem spelled_of_writeLabels {w' : NameWriter} (hat : w.At name rest front)
    (hrun : writeLabels name (rest.length + 1) w = .ok w') :
    ∃ labels, Spelled rest labels ∧ (rest = [] → w.index ≠ 0) ∧
      front.length + (wireLabels labels).length < maxNameWire := by
  induction hn : rest.length using Nat.strongRecOn generalizing rest front w with
  | _ n ih =>
    rcases split_dot rest with hdot | ⟨label, rest, rfl, hdot⟩
    · -- the last label, or nothing
      have hname : name.drop w.index = rest ++ [] := by rw [hat.rest, append_nil]
      have hscan := writeLabels_scan 1 w hname hdot
      rw [hscan, writeLabels, if_pos hat.end_eq] at hrun
      by_cases hnil : rest = []
      · subst hnil
        refine ⟨[], .done, fun _ hzero => ?_, hat.room⟩
        have hempty := hrun.symm.trans (label_empty hat fun _ => hzero)
        cases hempty
      · have hat' : w.At name (rest ++ []) front := by rwa [append_nil]
        by_cases hfit : rest.length ≤ 63 ∧ front.length + rest.length + 1 < maxNameWire
        · refine ⟨[rest], .last ⟨length_pos_iff.mpr hnil, hfit.1, hdot⟩, fun h => absurd h hnil, ?_⟩
          have hsize : (wireLabels [rest]).length = rest.length + 1 := by simp [wireLabels]
          omega
        · obtain ⟨e, he⟩ := (label_ok_iff hat' hnil).2 hfit
          rw [he] at hrun
          cases hrun
    · -- a label and a dot
      have hrounds : (label ++ 46 :: rest).length + 1 = label.length + (rest.length + 1 + 1) := by
        rw [length_append, length_cons]
        omega
      rw [hrounds, writeLabels_scan _ w hat.rest hdot, writeLabels_dot hat] at hrun
      by_cases hnil : label = []
      · subst hnil
        have hempty : NameWriter.label name w = .error invalid := by
          apply label_empty hat
          have := hat.end_eq
          omega
        change (NameWriter.label name w >>= _) = _ at hrun
        rw [hempty] at hrun
        cases hrun
      by_cases hfit : label.length ≤ 63 ∧ front.length + label.length + 1 < maxNameWire
      · obtain ⟨output, hlabel, hfilled⟩ := (label_ok_iff hat hnil).1 hfit
        rw [hlabel, ok_bind] at hrun
        obtain ⟨labels, hspelled, -, hroom⟩ := ih rest.length
          (by omega) (hat.next hfit.2 hfilled) hrun rfl
        refine ⟨label :: labels, .more ⟨length_pos_iff.mpr hnil, hfit.1, hdot⟩ hspelled,
          fun h => ?_, ?_⟩
        · simp at h
        · rw [wireLabels_cons, cons_append, length_cons, length_append]
          rw [length_append, length_cons] at hroom
          omega
      · obtain ⟨e, he⟩ := (label_ok_iff hat hnil).2 hfit
        rw [he] at hrun
        cases hrun

/-! ## Whole names -/

theorem NameWriter.at_start : NameWriter.At ⟨0, 0, 0, replicate maxNameWire 0⟩ name name [] where
  filled := ⟨length_replicate, nil_prefix⟩
  room := by decide
  written := rfl
  index := rfl
  inside := Nat.zero_le _
  rest := rfl
  behind := inl rfl

theorem DomainName.length_wire (d : DomainName) : d.wire.length = (wireLabels d.labels).length + 1 :=
  length_append

theorem Spelled.eq_nil {text : List UInt8} (h : Spelled text labels) (hnil : text = []) : labels = [] := by
  cases h with
  | done => rfl
  | last hlabel =>
    have := hlabel.pos
    rw [hnil] at this
    cases this
  | more _ _ => simp at hnil

/-- A name is not empty. -/
theorem DomainName.Spells.ne_nil {d : DomainName} (h : d.Spells name) : name ≠ [] := fun hnil =>
  d.nonempty ((spelled_iff.mpr ⟨d, rfl, h⟩).1.eq_nil hnil)

theorem replicate_ne_nil : replicate maxNameWire (0 : UInt8) ≠ [] := by
  exact cons_ne_nil _ _

/-- `write_wire_name` writes the wire form of a name that fits its buffer. -/
theorem writeWireName_ok {d : DomainName} (h : d.Spells name) (hfit : d.wire.length ≤ maxNameWire) :
    ∃ output, writeWireName name (replicate maxNameWire 0) = .ok (d.wire.length, output) ∧
      Filled output maxNameWire d.wire := by
  have hspelled := (spelled_iff.mpr ⟨d, rfl, h⟩).1
  have hwire := d.length_wire
  obtain ⟨w, hrun, hfilled, hwritten⟩ := writeLabels_spelled hspelled at_start
    (fun hnil => absurd hnil h.ne_nil) (by rw [length_nil]; omega)
  rw [length_nil, Nat.zero_add] at hwritten
  obtain ⟨output, hstore, hfilled'⟩ := hfilled.store (ε := Errno) 0 hwritten (by omega)
  rw [writeWireName, if_neg (not_or.mpr ⟨h.ne_nil, replicate_ne_nil⟩), hrun, ok_bind,
    if_neg (by rw [hfilled.length]; omega), hstore, ok_bind, hwritten, ← hwire]
  exact ⟨output, rfl, hfilled'⟩

/-- `write_wire_name` only succeeds on names that fit its buffer. -/
theorem name_of_writeWireName {n : Nat} (h : writeWireName name (replicate maxNameWire 0) = .ok (n, output)) :
    ∃ d : DomainName, d.Spells name ∧ d.wire.length ≤ maxNameWire := by
  rw [writeWireName] at h
  by_cases hempty : name = [] ∨ replicate maxNameWire (0 : UInt8) = []
  · rw [if_pos hempty] at h
    cases h
  rw [if_neg hempty] at h
  cases hrun : writeLabels name (name.length + 1) ⟨0, 0, 0, replicate maxNameWire 0⟩ with
  | ok w =>
    obtain ⟨labels, hspelled, hstart, hroom⟩ :=
      spelled_of_writeLabels at_start hrun
    have hne : labels ≠ [] := by
      rintro rfl
      cases hspelled
      exact hempty (inl rfl)
    obtain ⟨d, rfl, hspells⟩ := spelled_iff.mp ⟨hspelled, hne⟩
    refine ⟨d, hspells, ?_⟩
    rw [length_nil, Nat.zero_add] at hroom
    rw [d.length_wire]
    exact hroom
  | error e | panic =>
    rw [hrun] at h
    cases h

end Crabc.Dns
