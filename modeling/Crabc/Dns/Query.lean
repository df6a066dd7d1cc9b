/-
  Crabc.Dns.Query

  The packet that `encode_query` writes, and what the readers make of it: `skip_name`
  and `expand_name` follow the wire form of its name, and with the response bit set
  `DnsResponse::parse` accepts it as the answer to its own question.
-/

import Crabc.Dns.NameLaws

namespace Crabc.Dns

open Crabc.Lib Checked Nat List DomainName DnsResponse

/-! ## The packet -/

/-- The query for `d`: the header, the name and the question's type and class. -/
def queryPacket (d : DomainName) (recordType queryId : UInt16) : List UInt8 :=
  [highByte queryId, lowByte queryId, 1, 0, 0, 1, 0, 0, 0, 0, 0, 0] ++ d.wire ++
    [highByte recordType, lowByte recordType, 0, 1]

variable {d : DomainName} {recordType queryId : UInt16}

theorem length_queryPacket : (queryPacket d recordType queryId).length = 12 + d.wire.length + 4 := by
  simp only [queryPacket, length_append, length_cons, length_nil]

variable {name output packet back : List UInt8} {offset : Nat} {labels : List (List UInt8)}

/-- `encode_query` writes the packet into a buffer that has room for it. -/
theorem encodeQuery_ok (h : d.Spells name) (hfit : d.wire.length ≤ maxNameWire)
    (hroom : 12 + d.wire.length + 4 ≤ output.length) :
    encodeQuery name recordType queryId output = .ok (12 + d.wire.length + 4,
      queryPacket d recordType queryId ++ output.drop (12 + d.wire.length + 4)) := by
  obtain ⟨wire, hwrite, hfilled⟩ := writeWireName_ok h hfit
  have hslice : (slice wire 0 d.wire.length : Checked Errno (List UInt8)) = .ok d.wire := by
    rw [slice_ok (Nat.zero_le _) (by rw [hfilled.length]; exact hfit), drop_zero, Nat.sub_zero, hfilled.take]
  set n := d.wire.length with hn
  set back := output.drop (12 + n + 4) with hback
  -- the cleared packet, cut into the header, the name and the end of the question
  have hclear : (blit output 0 (replicate (12 + n + 4) 0) : Checked Errno (List UInt8)) =
      .ok (replicate 12 0 ++ (replicate n 0 ++ ([0, 0, 0, 0] ++ back))) := by
    rw [blit, inRange_ok (by rw [length_replicate]; omega), length_replicate, Nat.zero_add, take_zero, nil_append,
      ← replicate_append_replicate, ← replicate_append_replicate, append_assoc,
      append_assoc]
    rfl
  have hname (header : List UInt8) (hheader : header.length = 12) :
      (blit (header ++ (replicate n 0 ++ ([0, 0, 0, 0] ++ back))) 12 d.wire :
        Checked Errno (List UInt8)) = .ok (header ++ (d.wire ++ ([0, 0, 0, 0] ++ back))) :=
    blit_append _ hheader.symm length_replicate
  have htotal : (queryPacket d recordType queryId ++ back) =
      [highByte queryId, lowByte queryId, 1, 0, 0, 1, 0, 0, 0, 0, 0, 0] ++ d.wire ++
        ([highByte recordType, lowByte recordType, 0, 1] ++ back) := by
    rw [queryPacket, append_assoc]
  have hfront : 12 + n = ([highByte queryId, lowByte queryId, 1, 0, 0, 1, 0, 0, 0, 0, 0, 0] ++ d.wire).length := by
    rw [length_append]
    rfl
  rw [encodeQuery, if_neg (by omega), hwrite, ok_bind, htotal]
  dsimp only
  rw [if_neg (by omega), hclear, ok_bind, store_front _ _ (by simp), ok_bind,
    store_front _ _ (by simp), ok_bind, store_front _ _ (by simp), ok_bind,
    store_front _ _ (by simp), ok_bind, hslice, ok_bind, hname _ (by rfl),
    ok_bind, ← append_assoc]
  rw [store_back (j := 0) _ _ hfront (by simp), ok_bind,
    store_back (j := 1) _ _ (by rw [hfront]; rfl) (by simp), ok_bind,
    store_back (j := 2) _ _ (by rw [hfront]; rfl) (by simp), ok_bind,
    store_back (j := 3) _ _ (by rw [hfront]; rfl) (by simp), ok_bind]
  rfl

/-! ## Reading the name -/

theorem getElem?_of_drop {rest : List UInt8} {byte : UInt8} (h : packet.drop offset = byte :: rest) :
    packet[offset]? = some byte ∧ offset < packet.length ∧ packet.drop (offset + 1) = rest := by
  have hlt : offset < packet.length := by
    have := congrArg length h
    rw [length_drop, length_cons] at this
    omega
  refine ⟨?_, hlt, ?_⟩
  · rw [← head?_drop, h]
    rfl
  · rw [← drop_drop, h]
    rfl

/-- The length byte of a label is no pointer and no end. -/
theorem IsLabel.lengthByte {label : List UInt8} (h : IsLabel label) : (UInt8.ofNat label.length).toNat = label.length ∧
      UInt8.ofNat label.length &&& 0xc0 ≠ 0xc0 ∧ ¬ UInt8.ofNat label.length > 63 ∧
      UInt8.ofNat label.length ≠ 0 := by
  have hpos := h.pos
  have hle := h.le
  generalize label.length = n at *
  interval_cases n <;> decide

/-- `skip_name` passes over labels and the root. -/
theorem skipNameLoop_labels {rounds : Nat} (offset steps : Nat) (hlabels : ∀ label ∈ labels, IsLabel label)
    (h : packet.drop offset = wireLabels labels ++ 0 :: back) (hsteps : steps + labels.length ≤ 128)
    (hrounds : labels.length < rounds) : skipNameLoop packet rounds offset none steps =
      .ok (offset + (wireLabels labels).length + 1) := by
  obtain ⟨rounds, rfl⟩ := Nat.exists_eq_add_of_lt hrounds
  induction labels generalizing offset steps with
  | nil =>
    obtain ⟨hbyte, hlt, -⟩ := getElem?_of_drop h
    rw [skipNameLoop, if_neg (by omega), index_ok hbyte, ok_bind, if_neg (by decide), if_neg (by decide), if_pos rfl]
    rfl
  | cons label labels ih =>
    have hlabel := hlabels label mem_cons_self
    obtain ⟨hnat, hpointer, hbig, hzero⟩ := hlabel.lengthByte
    rw [wireLabels_cons, cons_append, cons_append] at h
    obtain ⟨hbyte, hlt, hrest⟩ := getElem?_of_drop h
    have hnext : packet.drop (offset + 1 + label.length) = wireLabels labels ++ 0 :: back := by
      rw [← drop_drop, hrest, append_assoc, drop_left]
    have hroom : offset + 1 + label.length ≤ packet.length := by
      have := congrArg length hrest
      rw [length_drop, length_append, length_append] at this
      omega
    have hrec := ih (offset + 1 + label.length) (steps + 1)
      (fun l hl => hlabels l (mem_cons_of_mem _ hl)) hnext
      (by rw [length_cons] at hsteps; omega)
      (by omega)
    have hsucc : (label :: labels).length + rounds + 1 = labels.length + rounds + 1 + 1 := by
      rw [length_cons]
      omega
    rw [hsucc, skipNameLoop, if_neg (by omega), index_ok hbyte, ok_bind,
      if_neg hpointer, if_neg hbig, if_neg hzero, hnat, if_neg (by omega),
      if_neg (by omega), hrec, wireLabels_cons, cons_append,
      length_cons, length_append]
    congr 1
    omega

/-- Every label takes two bytes or more. -/
theorem two_mul_length_le (h : ∀ label ∈ labels, IsLabel label) : 2 * labels.length ≤ (wireLabels labels).length := by
  induction labels with
  | nil => exact zero_le _
  | cons label labels ih =>
    have hpos := (h label mem_cons_self).pos
    have hrest := ih fun l hl => h l (mem_cons_of_mem _ hl)
    rw [wireLabels_cons, cons_append, length_cons, length_cons, length_append]
    omega

theorem skipName_wire (h : packet.drop offset = d.wire ++ back) (hfit : d.wire.length ≤ maxNameWire) :
    skipName packet offset = .ok (offset + d.wire.length) := by
  have htwo := two_mul_length_le d.isLabel
  have hwire := d.length_wire
  rw [maxNameWire] at hfit
  rw [wire, append_assoc, singleton_append] at h
  rw [skipName, skipNameLoop_labels offset 0 d.isLabel h (by omega) (by omega), hwire, add_assoc]

/-! ## Expanding the name -/

/-- The reader has written `front` into a buffer of `size` bytes. -/
structure NameReader.At (r : NameReader) (size : Nat) (front : List UInt8) : Prop where
  filled : Filled r.output size front
  written : r.written = front.length

/-- The text `front` with a label behind it. -/
def withLabel (front label : List UInt8) : List UInt8 :=
  if front = [] then label else front ++ 46 :: label

variable {size : Nat} {r : NameReader}

theorem NameReader.At.dot {front : List UInt8} (h : r.At size front) (hroom : front.length + 1 < size) :
    ∃ r', r.dot = .ok r' ∧ r'.offset = r.offset ∧ r'.jumps = r.jumps ∧
      r'.At size (if front = [] then [] else front ++ [46]) := by
  by_cases hnil : front = []
  · subst hnil
    rw [NameReader.dot, if_neg (fun hne => hne h.written), if_pos rfl]
    exact ⟨r, rfl, rfl, rfl, h⟩
  · have hne : r.written ≠ 0 := by
      rw [h.written]
      exact fun hzero => hnil (eq_nil_of_length_eq_zero hzero)
    obtain ⟨output, hstore, hfilled⟩ := h.filled.store (ε := Errno) 46 h.written
      (by rw [h.written]; omega)
    rw [NameReader.dot, if_pos hne, if_neg (by rw [h.written, h.filled.length]; omega), hstore, ok_bind, if_neg hnil]
    refine ⟨_, rfl, rfl, rfl, hfilled, ?_⟩
    rw [h.written, length_append]
    rfl

/-- One label of the packet is added to the text. -/
theorem NameReader.At.label {front label : List UInt8} (h : r.At size front)
    (hpacket : packet.drop (r.offset + 1) = label ++ back) (hpos : 0 < label.length)
    (hroom : (withLabel front label).length < size) :
    ∃ r', r.label packet label.length = .ok r' ∧ r'.offset = r.offset + 1 + label.length ∧
      r'.At size (withLabel front label) := by
  have hlength : r.offset + 1 + label.length ≤ packet.length := by
    have := congrArg length hpacket
    rw [length_drop, length_append] at this
    omega
  have hwith : withLabel front label = (if front = [] then [] else front ++ [46]) ++ label := by
    rw [withLabel]
    split
    · rw [nil_append]
    · rw [append_assoc, singleton_append]
  have hslice : (slice packet (r.offset + 1) (r.offset + 1 + label.length) :
      Checked Errno (List UInt8)) = .ok label := by
    rw [slice_ok (Nat.le_add_right _ _) hlength, hpacket, Nat.add_sub_cancel_left, take_left]
  have hfront : front.length + 1 < size := by
    rw [withLabel] at hroom
    split at hroom
    · have hnil : front.length = 0 := by rw [‹front = []›]; rfl
      omega
    · rw [length_append, length_cons] at hroom
      omega
  obtain ⟨r₁, hdot, hoffset, -, hat⟩ := h.dot hfront
  rw [hwith, length_append] at hroom
  obtain ⟨output, hblit, hfilled⟩ := hat.filled.blit (ε := Errno) label hat.written
    (by rw [hat.written]; omega)
  rw [NameReader.label, if_neg (by omega), hdot, ok_bind, if_neg (by rw [hat.written, hat.filled.length]; omega),
    hslice, ok_bind, hblit, hwith]
  refine ⟨_, rfl, rfl, hfilled, ?_⟩
  rw [length_append, ← hat.written]

/-- The text of labels behind a text. -/
def withLabels (front : List UInt8) (labels : List (List UInt8)) : List UInt8 :=
  labels.foldl withLabel front

theorem length_withLabels_le (front : List UInt8) : front.length ≤ (withLabels front labels).length := by
  induction labels generalizing front with
  | nil => exact le_refl _
  | cons label labels ih =>
    refine le_trans ?_ (ih (withLabel front label))
    rw [withLabel]
    split
    · rw [‹front = []›]
      exact zero_le _
    · rw [length_append]
      exact le_add_right _ _

theorem withLabels_eq (front : List UInt8) (hfront : front ≠ []) :
    withLabels front labels = intercalate [46] (front :: labels) := by
  induction labels generalizing front with
  | nil => rw [intercalate_singleton]; rfl
  | cons label labels ih =>
    have hne : front ++ 46 :: label ≠ [] := by simp
    have hstep : withLabels front (label :: labels) = withLabels (front ++ 46 :: label) labels := by
      rw [withLabels, foldl_cons, withLabel, if_neg hfront]
      rfl
    rw [hstep, ih _ hne]
    cases labels with
    | nil => rw [intercalate_singleton, intercalate_cons_cons, intercalate_singleton,
        append_assoc, singleton_append]
    | cons label' labels =>
      rw [intercalate_cons_cons, intercalate_cons_cons, intercalate_cons_cons]
      simp only [append_assoc, cons_append, nil_append]

theorem withLabels_text : withLabels [] d.labels = d.text := by
  have hlabels := d.isLabel
  have hnonempty := d.nonempty
  rw [text]
  generalize d.labels = labels at *
  cases labels with
  | nil => exact absurd rfl hnonempty
  | cons label labels =>
    have hne : label ≠ [] := length_pos_iff.mp (hlabels label mem_cons_self).pos
    exact withLabels_eq label hne

/-- `expand_name` follows the labels to the root. -/
theorem expandNameLoop_labels {rounds : Nat} (r : NameReader) (front : List UInt8)
    (hlabels : ∀ label ∈ labels, IsLabel label)
    (hpacket : packet.drop r.offset = wireLabels labels ++ 0 :: back) (h : r.At size front)
    (hne : withLabels front labels ≠ []) (hroom : (withLabels front labels).length < size)
    (hrounds : labels.length < rounds) :
    ∃ output, expandNameLoop packet rounds r = .ok ((withLabels front labels).length, output) ∧
      Filled output size (withLabels front labels) := by
  obtain ⟨rounds, rfl⟩ := Nat.exists_eq_add_of_lt hrounds
  induction labels generalizing r front with
  | nil =>
    obtain ⟨hbyte, hlt, -⟩ := getElem?_of_drop hpacket
    have hwritten : r.written ≠ 0 := by
      rw [h.written]
      exact fun hzero => hne (eq_nil_of_length_eq_zero hzero)
    rw [expandNameLoop, if_neg (by omega), index_ok hbyte, ok_bind,
      if_neg (by decide), if_neg (by decide), if_pos rfl, if_neg hwritten, h.written]
    exact ⟨r.output, rfl, h.filled⟩
  | cons label labels ih =>
    have hlabel := hlabels label mem_cons_self
    obtain ⟨hnat, hpointer, hbig, hzero⟩ := hlabel.lengthByte
    rw [wireLabels_cons, cons_append, cons_append] at hpacket
    obtain ⟨hbyte, hlt, hrest⟩ := getElem?_of_drop hpacket
    rw [append_assoc] at hrest
    have hlabelRoom := Nat.lt_of_le_of_lt (length_withLabels_le (withLabel front label)) hroom
    obtain ⟨r', hrun, hoffset, hat⟩ := h.label hrest hlabel.pos hlabelRoom
    have hnext : packet.drop r'.offset = wireLabels labels ++ 0 :: back := by
      rw [hoffset, ← drop_drop, hrest, drop_left]
    have hsucc : (label :: labels).length + rounds + 1 = labels.length + rounds + 1 + 1 := by
      rw [length_cons]
      omega
    rw [hsucc, expandNameLoop, if_neg (by omega), index_ok hbyte, ok_bind,
      if_neg hpointer, if_neg hbig, if_neg hzero, hnat, hrun, ok_bind]
    exact ih r' (withLabel front label) (fun l hl => hlabels l (mem_cons_of_mem _ hl)) hnext
      hat hne hroom (by omega)

theorem DomainName.text_ne_nil (d : DomainName) : d.text ≠ [] :=
  DomainName.Spells.ne_nil (d := d) (Or.inl rfl)

/-- `expand_name` gives the text of a name on the wire. -/
theorem expandName_wire (h : packet.drop offset = d.wire ++ back) (hroom : d.text.length < output.length) :
    ∃ output', expandName packet offset output = .ok (d.text.length, output') ∧
      Filled output' output.length d.text := by
  have htwo := two_mul_length_le d.isLabel
  have hwire := d.length_wire
  have hlength := congrArg length h
  rw [length_drop, length_append] at hlength
  rw [wire, append_assoc, singleton_append] at h
  rw [← withLabels_text] at hroom ⊢
  exact expandNameLoop_labels ⟨offset, 0, 0, output⟩ [] d.isLabel h
    ⟨filled_nil, rfl⟩ (by rw [withLabels_text]; exact d.text_ne_nil) hroom (by omega)

/-! ## The answer to its own question -/

/-- The packet with the QR bit set. -/
def withResponseBit (packet : List UInt8) : List UInt8 := packet.modify 2 (· ||| 0x80)

theorem withResponseBit_queryPacket : withResponseBit (queryPacket d recordType queryId) =
      [highByte queryId, lowByte queryId, 0x81, 0, 0, 1, 0, 0, 0, 0, 0, 0] ++ d.wire ++
        [highByte recordType, lowByte recordType, 0, 1] := rfl

theorem fromBeBytes_bytes (word : UInt16) : fromBeBytes (highByte word) (lowByte word) = word := by
  have hlt := word.toNat_lt
  apply UInt16.toNat_inj.mp
  rw [fromBeBytes, highByte, lowByte, UInt16.toNat_ofNat', UInt8.toNat_ofNat', UInt8.toNat_ofNat']
  omega

theorem wordAt_of_drop {high low : UInt8} (h : packet.drop offset = high :: low :: back) :
    wordAt packet offset = .ok (fromBeBytes high low) := by
  obtain ⟨hhigh, -, hrest⟩ := getElem?_of_drop h
  obtain ⟨hlow, -, -⟩ := getElem?_of_drop hrest
  rw [wordAt, index_ok hhigh, ok_bind, index_ok hlow]
  rfl

/-- `DnsResponse::parse` accepts the packet of its own query. -/
theorem parse_queryPacket (h : d.Spells name) (hfit : d.wire.length ≤ maxNameWire) :
    parse (withResponseBit (queryPacket d recordType queryId)) name recordType queryId = .ok
        { packet := withResponseBit (queryPacket d recordType queryId)
          answerOffset := 12 + d.wire.length + 4
          answerCount := 0
          responseCode := 0
          truncated := false } := by
  obtain ⟨output, hwrite, hfilled⟩ := writeWireName_ok h hfit
  rw [withResponseBit_queryPacket]
  set packet := [highByte queryId, lowByte queryId, 0x81, 0, 0, 1, 0, 0, 0, 0, 0, 0] ++ d.wire ++
    [highByte recordType, lowByte recordType, 0, 1] with hpacket
  have hlength : packet.length = 12 + d.wire.length + 4 := by
    simp only [hpacket, length_append, length_cons, length_nil]
  have hname : packet.drop 12 = d.wire ++ [highByte recordType, lowByte recordType, 0, 1] := by rfl
  have hquestion : packet.drop (12 + d.wire.length) = [highByte recordType, lowByte recordType, 0, 1] := by
    rw [← drop_drop, hname, drop_left]
  have hheader : headerOk packet queryId = .ok true := by
    have hid : wordAt packet 0 = .ok (fromBeBytes (highByte queryId) (lowByte queryId)) := rfl
    have hflags : (index packet 2 : Checked Errno UInt8) = .ok 0x81 := rfl
    have hquestions : wordAt packet 4 = .ok 1 := rfl
    have hbits : ¬ (queryId ≠ queryId ∨ (0x81 : UInt8) &&& 0x80 = 0 ∨ (0x81 : UInt8) &&& 0x78 ≠ 0) := by
      rw [not_or, not_not]
      exact ⟨rfl, by decide⟩
    rw [headerOk, hid, ok_bind, hflags, ok_bind, fromBeBytes_bytes, if_neg hbits, hquestions]
    rfl
  have hexpected : (slice output 0 d.wire.length : Checked Errno (List UInt8)) = .ok d.wire := by
    rw [slice_ok (Nat.zero_le _) (by rw [hfilled.length]; exact hfit), drop_zero, Nat.sub_zero, hfilled.take]
  have hslice : (slice packet 12 (12 + d.wire.length) : Checked Errno (List UInt8)) = .ok d.wire := by
    rw [slice_ok (by omega) (by omega), hname, Nat.add_sub_cancel_left, take_left]
  have hkind : wordAt packet (12 + d.wire.length) = .ok recordType := by
    rw [wordAt_of_drop hquestion, fromBeBytes_bytes]
  have hclass : wordAt packet (12 + d.wire.length + 2) = .ok classIn := by
    have hdrop : packet.drop (12 + d.wire.length + 2) = [0, 1] := by
      rw [← drop_drop, hquestion]
      rfl
    rw [wordAt_of_drop hdrop]
    rfl
  have hok : questionOk packet d.wire recordType (12 + d.wire.length) = .ok true := by
    rw [questionOk, if_neg (by omega), hslice, ok_bind, hkind, ok_bind, hclass, ok_bind]
    simp
  rw [parse, if_neg (by omega), hheader, ok_bind, if_neg (by decide), hwrite, ok_bind]
  dsimp only
  rw [hexpected, ok_bind, skipName_wire hname hfit, ok_bind, hok, ok_bind, if_neg (by decide)]
  rfl

/-! ## Which names are accepted -/

/-- The name without its optional trailing dot. -/
def withoutFinalDot (name : List UInt8) : List UInt8 :=
  if name.getLast? = some 46 then name.dropLast else name

/-- A text ends with its last label, not with a dot. -/
theorem DomainName.getLast?_text : d.text.getLast? ≠ some 46 := by
  have hlabels := d.isLabel
  have hnonempty := d.nonempty
  rw [text]
  generalize d.labels = labels at *
  induction labels with
  | nil => exact absurd rfl hnonempty
  | cons label labels ih =>
    have hlabel := hlabels label mem_cons_self
    cases labels with
    | nil =>
      rw [intercalate_singleton]
      exact fun hlast => hlabel.noDot (mem_of_getLast? hlast)
    | cons label' labels =>
      have hrest := ih (fun l hl => hlabels l (mem_cons_of_mem _ hl)) (cons_ne_nil _ _)
      rw [intercalate_cons_cons, getLast?_append]
      intro hlast
      cases htail : (intercalate [46] (label' :: labels)).getLast? with
      | none =>
        -- the rest is not empty, since its first label is not
        have hnil := getLast?_eq_none_iff.mp htail
        have hpos := (hlabels label' (mem_cons_of_mem _ mem_cons_self)).pos
        cases labels with
        | nil =>
          rw [intercalate_singleton] at hnil
          rw [hnil] at hpos
          cases hpos
        | cons label'' labels =>
          simp at hnil
      | some byte =>
        rw [htail] at hlast hrest
        exact hrest hlast

theorem DomainName.Spells.withoutFinalDot (h : d.Spells name) : withoutFinalDot name = d.text := by
  rcases h with rfl | rfl
  · exact if_neg d.getLast?_text
  · rw [Dns.withoutFinalDot, if_pos getLast?_concat, dropLast_concat]

/-- The wire form has a length byte where the text has a dot, one more in front and the root behind. -/
theorem DomainName.length_wire_text : d.wire.length = d.text.length + 2 := by
  rw [d.length_wire, text]
  have hnonempty := d.nonempty
  generalize d.labels = labels at *
  induction labels with
  | nil => exact absurd rfl hnonempty
  | cons label labels ih =>
    cases labels with
    | nil =>
      rw [intercalate_singleton, wireLabels]
      simp
    | cons label' labels =>
      have hrest := ih (cons_ne_nil _ _)
      rw [intercalate_cons_cons, wireLabels_cons]
      simp only [length_append, length_cons, length_nil] at hrest ⊢
      omega

/-- The name alone decides how long its wire form is. -/
theorem DomainName.Spells.length_wire (h : d.Spells name) : d.wire.length = (Dns.withoutFinalDot name).length + 2 := by
  rw [h.withoutFinalDot, d.length_wire_text]

theorem DomainName.Spells.length_le (h : d.Spells name) : d.wire.length ≤ name.length + 2 := by
  rw [d.length_wire_text]
  rcases h with rfl | rfl
  · exact le_refl _
  · rw [length_append]
    omega

/-- A query is only written for a name that fits. -/
theorem name_of_encodeQuery {r : Nat × List UInt8} (h : encodeQuery name recordType queryId output = .ok r) :
    ∃ d : DomainName, d.Spells name ∧ d.wire.length ≤ maxNameWire ∧ 12 + d.wire.length + 4 ≤ output.length := by
  rw [encodeQuery] at h
  by_cases hshort : output.length < 12
  · rw [if_pos hshort] at h
    cases h
  rw [if_neg hshort] at h
  cases hwrite : writeWireName name (replicate maxNameWire 0) with
  | ok value =>
    obtain ⟨d, hspells, hfit⟩ := name_of_writeWireName hwrite
    obtain ⟨wire, hwrite', -⟩ := writeWireName_ok hspells hfit
    refine ⟨d, hspells, hfit, ?_⟩
    rw [hwrite', ok_bind] at h
    dsimp only at h
    by_contra hbig
    rw [if_pos (by omega)] at h
    cases h
  | error e | panic =>
    rw [hwrite] at h
    cases h

/-- What the encoder and the readers owe to one another for one name: a packet that was written reads back,
    and the names that are accepted are those whose wire form has at most 255 octets. -/
structure QueryLaws (name : List UInt8) (recordType queryId : UInt16) : Prop where
  parses : ∀ output total output', encodeQuery name recordType queryId output = .ok (total, output') →
    ∃ response, parse (withResponseBit (output'.take total)) name recordType queryId = .ok response
  expands : ∀ output total output', encodeQuery name recordType queryId output = .ok (total, output') →
    ∀ text, (withoutFinalDot name).length < text.length →
      ∃ n text', expandName (withResponseBit (output'.take total)) 12 text = .ok (n, text') ∧
        text'.take n = withoutFinalDot name
  accepts : ∀ output, name.length + 18 ≤ output.length → ((∃ r, encodeQuery name recordType queryId output = .ok r) ↔
      ∃ d : DomainName, d.Spells name ∧ d.wire.length ≤ 255)

/-- What is written is the packet of the name. -/
theorem encodeQuery_packet {output' : List UInt8} {total : Nat}
    (h : encodeQuery name recordType queryId output = .ok (total, output')) :
    ∃ d : DomainName, d.Spells name ∧ d.wire.length ≤ maxNameWire ∧
      output'.take total = queryPacket d recordType queryId := by
  obtain ⟨d, hspells, hfit, hroom⟩ := name_of_encodeQuery h
  rw [encodeQuery_ok hspells hfit hroom] at h
  cases h
  refine ⟨d, hspells, hfit, ?_⟩
  rw [← length_queryPacket, take_left]

theorem encodeQuery_accepts (recordType queryId : UInt16) (hroom : name.length + 18 ≤ output.length) :
    (∃ r, encodeQuery name recordType queryId output = .ok r) ↔
      ∃ d : DomainName, d.Spells name ∧ d.wire.length ≤ maxNameWire := by
  constructor
  · rintro ⟨r, hr⟩
    obtain ⟨d, hspells, hfit, -⟩ := name_of_encodeQuery hr
    exact ⟨d, hspells, hfit⟩
  · rintro ⟨d, hspells, hfit⟩
    have hle := hspells.length_le
    exact ⟨_, encodeQuery_ok hspells hfit (by omega)⟩

/-- A name of 256 octets breaks the laws: it is accepted. -/
theorem QueryLaws.length_ne (hlaws : QueryLaws name recordType queryId) (d : DomainName)
    (hspells : d.Spells name) : d.wire.length ≠ 256 := by
  intro hlength
  have hroom : name.length + 18 ≤ (replicate (name.length + 18) (0 : UInt8)).length := by rw [length_replicate]
  have haccepted := (encodeQuery_accepts recordType queryId hroom).mpr
    ⟨d, hspells, le_of_eq hlength⟩
  obtain ⟨d', hspells', hfit⟩ := (hlaws.accepts _ hroom).mp haccepted
  rw [hspells'.length_wire, ← hspells.length_wire] at hfit
  omega

/-- The laws hold for a name exactly when its wire form does not have 256 octets:
    `MAX_NAME_WIRE` is one more than the limit. -/
theorem queryLaws_iff (name : List UInt8) (recordType queryId : UInt16) :
    QueryLaws name recordType queryId ↔ ∀ d : DomainName, d.Spells name → d.wire.length ≠ 256 := by
  constructor
  · intro hlaws
    exact hlaws.length_ne
  · intro hne
    refine ⟨?_, ?_, ?_⟩
    · intro output total output' hrun
      obtain ⟨d, hspells, hfit, hpacket⟩ := encodeQuery_packet hrun
      rw [hpacket]
      exact ⟨_, parse_queryPacket hspells hfit⟩
    · intro output total output' hrun text hroom
      obtain ⟨d, hspells, hfit, hpacket⟩ := encodeQuery_packet hrun
      rw [hspells.withoutFinalDot] at hroom ⊢
      have hname : (withResponseBit (queryPacket d recordType queryId)).drop 12 =
          d.wire ++ [highByte recordType, lowByte recordType, 0, 1] := by
        rfl
      obtain ⟨text', hexpand, hfilled⟩ := expandName_wire hname hroom
      rw [hpacket]
      exact ⟨_, text', hexpand, hfilled.take⟩
    · intro output hroom
      rw [encodeQuery_accepts recordType queryId hroom]
      constructor
      · rintro ⟨d, hspells, hfit⟩
        have := hne d hspells
        rw [maxNameWire] at hfit
        exact ⟨d, hspells, by omega⟩
      · rintro ⟨d, hspells, hfit⟩
        exact ⟨d, hspells, by rw [maxNameWire]; omega⟩

theorem isLabel_replicate {n : Nat} (hpos : 1 ≤ n) (hle : n ≤ 63) : IsLabel (replicate n 97) where
  pos := by rwa [length_replicate]
  le := by rwa [length_replicate]
  noDot := fun hmem => absurd (eq_of_mem_replicate hmem) (by decide)

/-- Three labels of 63 bytes and one of 62. -/
def name256 : DomainName where
  labels := [replicate 63 97, replicate 63 97, replicate 63 97, replicate 62 97]
  nonempty := cons_ne_nil _ _
  isLabel := by
    intro label hlabel
    simp only [mem_cons, not_mem_nil, or_false] at hlabel
    rcases hlabel with rfl | rfl | rfl | rfl
    all_goals exact isLabel_replicate (by decide) (by decide)

/-- 254 bytes of text, 256 octets on the wire, and a query is written for it. -/
theorem encodeQuery_name256 : name256.wire.length = 256 ∧
      (∃ r, encodeQuery name256.text 1 0 (replicate 512 0) = .ok r) ∧
      ¬ QueryLaws name256.text 1 0 := by
  have hlength : name256.wire.length = 256 := by
    rw [length_wire]
    simp only [name256, wireLabels, flatMap_cons, flatMap_nil, cons_append,
      append_nil, length_cons, length_append, length_replicate]
  have htext : name256.text.length = 254 := by
    have := name256.length_wire_text
    omega
  refine ⟨hlength, ?_, fun hlaws => hlaws.length_ne name256 (Or.inl rfl) hlength⟩
  apply (encodeQuery_accepts 1 0 _).mpr
  · exact ⟨name256, Or.inl rfl, le_of_eq hlength⟩
  · rw [htext, length_replicate]
    omega

end Crabc.Dns
