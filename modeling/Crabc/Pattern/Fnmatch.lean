/-
  Crabc.Pattern.Fnmatch

  The filename matcher of `crabc-core/src/pattern.rs`: `bracket_end`,
  `next_token`, `bracket_matches`, `token_matches`, `component_matches`,
  `pattern_component_end` and `fnmatch`.

  Patterns and candidates are byte lists, positions in them natural numbers.
  The two builds differ in how a bracket folds case; `Arch` selects one.
-/

import Crabc.Lib.Loop

namespace Crabc.Pattern

open Crabc.Lib

/-! ## Flags and bytes -/

def fnmPathname : UInt32 := 0x1
def fnmNoescape : UInt32 := 0x2
def fnmPeriod : UInt32 := 0x4
def fnmLeadingDir : UInt32 := 0x8
def fnmCasefold : UInt32 := 0x10

/-- `flags & flag != 0`. -/
def has (flags flag : UInt32) : Bool := flags &&& flag != 0

/-- `cfg(target_arch = "x86_64")` or not. -/
inductive Arch where
  | x86_64
  | other
deriving DecidableEq, Repr

def slash : UInt8 := 0x2f      -- b'/'
def dot : UInt8 := 0x2e        -- b'.'
def backslash : UInt8 := 0x5c  -- b'\'
def open_ : UInt8 := 0x5b      -- b'['
def close : UInt8 := 0x5d      -- b']'
def dash : UInt8 := 0x2d       -- b'-'

def toAsciiLowercase (byte : UInt8) : UInt8 :=
  if 0x41 ≤ byte ∧ byte ≤ 0x5a then byte + 0x20 else byte

def toAsciiUppercase (byte : UInt8) : UInt8 :=
  if 0x61 ≤ byte ∧ byte ≤ 0x7a then byte - 0x20 else byte

def asciiCasefold (byte : UInt8) : UInt8 :=
  if 0x41 ≤ byte ∧ byte ≤ 0x5a then byte + (0x61 - 0x41) else toAsciiLowercase byte

def bytesEqual (pattern candidate : UInt8) (flags : UInt32) : Bool :=
  pattern == candidate ||
    (has flags fnmCasefold && asciiCasefold pattern == asciiCasefold candidate)

/-! ## Tokens -/

/-- `pattern.rs::Token`; `next` is the position behind the token. -/
inductive Token where
  | end
  | star (next : Nat)
  | question (next : Nat)
  | bracket (next : Nat)
  | literal (byte : UInt8) (next : Nat)
deriving DecidableEq, Repr

/-- `Token::next_index`. -/
def Token.nextIndex : Token → Nat
  | .end => 0
  | .star next | .question next | .bracket next | .literal _ next => next

/-- `matches!(byte, b':' | b'.' | b'=')`. -/
def isDelimiter (byte : UInt8) : Bool := byte == 0x3a || byte == 0x2e || byte == 0x3d

/-- The two loops of `bracket_end` as one scan of the bytes from `cursor` on. Inside a nested element the mode
    is its delimiter; the answer counts the bytes up to and including the closing bracket. -/
def bracketScan : Option UInt8 → List UInt8 → Option Nat
  | _, [] => none
  | none, byte :: rest =>
    if byte = close then some 1
    else if byte = open_ then
      match rest with
      | [] => none
      | delimiter :: rest' =>
        if isDelimiter delimiter then (bracketScan (some delimiter) rest').map (· + 2)
        else (bracketScan none (delimiter :: rest')).map (· + 1)
    else (bracketScan none rest).map (· + 1)
  | some delimiter, byte :: rest =>
    match rest with
    | [] => none
    | following :: rest' =>
      if byte = delimiter ∧ following = close then (bracketScan none rest').map (· + 2)
      else (bracketScan (some delimiter) (following :: rest')).map (· + 1)

/-- The bytes `bracket_end` passes before its loops: a leading `^` or `!`, then a leading `]`. -/
def bracketIntro : List UInt8 → Nat
  | [] => 0
  | first :: rest =>
    if first = 0x5e ∨ first = 0x21 then
      match rest with
      | [] => 1
      | second :: _ => if second = close then 2 else 1
    else if first = close then 1
    else 0

/-- `bracket_end`, from the bytes after the opening bracket: how many of them belong to the expression. -/
def bracketEnd (rest : List UInt8) : Option Nat :=
  (bracketScan none (rest.drop (bracketIntro rest))).map (bracketIntro rest + ·)

/-- The final `match` of `next_token`. -/
def plainToken (index : Nat) (byte : UInt8) : Token :=
  if byte = 0x2a then .star (index + 1)
  else if byte = 0x3f then .question (index + 1)
  else .literal byte (index + 1)

/-- `next_token` behind the escape: a closed bracket expression or one byte. -/
def unescapedToken (index : Nat) (byte : UInt8) (rest : List UInt8) : Token :=
  if byte = open_ then
    match bracketEnd rest with
    | some n => .bracket (index + 1 + n)
    | none => plainToken index byte
  else plainToken index byte

/-- `next_token` at position `index`, given the bytes `pattern[index..]`. -/
def tokenAt (index : Nat) (flags : UInt32) : List UInt8 → Token
  | [] => .end
  | byte :: rest =>
    if byte = backslash ∧ has flags fnmNoescape = false then
      match rest with
      | [] => unescapedToken index byte rest
      | escaped :: _ => .literal escaped (index + 2)
    else unescapedToken index byte rest

/-- `next_token`. -/
def nextToken (pattern : List UInt8) (index : Nat) (flags : UInt32) : Token :=
  tokenAt index flags (pattern.drop index)

/-! ## Matching one byte -/

/-- `class_matches`; the names are the byte strings of the source. -/
def classMatches (class_ : List UInt8) (candidate folded : UInt8) : Bool :=
  let equal (byte : UInt8) : Bool := candidate == byte || folded == byte
  let inRange (low high : UInt8) : Bool :=
    (low ≤ candidate && candidate ≤ high) || (low ≤ folded && folded ≤ high)
  let within (low high : UInt8) : Bool := low ≤ candidate && candidate ≤ high
  -- b"alnum"
  if class_ = [0x61, 0x6c, 0x6e, 0x75, 0x6d] then
    inRange 0x30 0x39 || inRange 0x41 0x5a || inRange 0x61 0x7a
  -- b"alpha"
  else if class_ = [0x61, 0x6c, 0x70, 0x68, 0x61] then inRange 0x41 0x5a || inRange 0x61 0x7a
  -- b"blank"
  else if class_ = [0x62, 0x6c, 0x61, 0x6e, 0x6b] then equal 0x20 || equal 0x09
  -- b"cntrl"
  else if class_ = [0x63, 0x6e, 0x74, 0x72, 0x6c] then candidate < 0x20 || candidate == 0x7f
  -- b"digit"
  else if class_ = [0x64, 0x69, 0x67, 0x69, 0x74] then inRange 0x30 0x39
  -- b"graph"
  else if class_ = [0x67, 0x72, 0x61, 0x70, 0x68] then within 0x21 0x7e
  -- b"lower"
  else if class_ = [0x6c, 0x6f, 0x77, 0x65, 0x72] then inRange 0x61 0x7a
  -- b"print"
  else if class_ = [0x70, 0x72, 0x69, 0x6e, 0x74] then within 0x20 0x7e
  -- b"punct"
  else if class_ = [0x70, 0x75, 0x6e, 0x63, 0x74] then
    within 0x21 0x2f || within 0x3a 0x40 || within 0x5b 0x60 || within 0x7b 0x7e
  -- b"space"
  else if class_ = [0x73, 0x70, 0x61, 0x63, 0x65] then
    equal 0x20 || equal 0x09 || equal 0x0a || equal 0x0d || equal 0x0c || equal 0x0b
  -- b"upper"
  else if class_ = [0x75, 0x70, 0x70, 0x65, 0x72] then inRange 0x41 0x5a
  -- b"xdigit"
  else if class_ = [0x78, 0x64, 0x69, 0x67, 0x69, 0x74] then
    inRange 0x30 0x39 || inRange 0x41 0x46 || inRange 0x61 0x66
  else false

/-- The inner loop of `bracket_matches`: the bytes before the first `delimiter`
    followed by `]`, and those behind that pair. -/
def findClose (delimiter : UInt8) : List UInt8 → Option (List UInt8 × List UInt8)
  | [] => none
  | [_] => none
  | byte :: following :: rest =>
    if byte = delimiter ∧ following = close then some ([], rest)
    else (findClose delimiter (following :: rest)).map fun r => (byte :: r.1, r.2)

theorem findClose_length {delimiter : UInt8} {bytes class_ rest : List UInt8}
    (h : findClose delimiter bytes = some (class_, rest)) : rest.length < bytes.length := by
  fun_induction findClose delimiter bytes generalizing class_ with
  | case1 | case2 => cases h
  | case3 byte following rest' heq =>
    cases h
    simp only [List.length_cons]
    omega
  | case4 byte following rest' hne ih =>
    obtain ⟨r, hr, hr'⟩ := Option.map_eq_some_iff.mp h
    cases hr'
    have hlt := ih hr
    rw [List.length_cons]
    omega

/-- The range test of `bracket_matches`. -/
def rangeMatches (arch : Arch) (low high candidate folded : UInt8) (flags : UInt32) : Bool :=
  match arch with
  | .x86_64 =>
    low ≤ high &&
      ((low ≤ candidate && candidate ≤ high) || (low ≤ folded && folded ≤ high))
  | .other =>
    let low := if has flags fnmCasefold then asciiCasefold low else low
    let high := if has flags fnmCasefold then asciiCasefold high else high
    low ≤ high && (low ≤ folded && folded ≤ high)

/-- The tests of `bracket_matches` on the candidate: against one byte, a range and a named class. -/
structure MemberTests where
  equal : UInt8 → Bool
  range : UInt8 → UInt8 → Bool
  inClass : List UInt8 → Bool

def memberTests (arch : Arch) (candidate folded : UInt8) (flags : UInt32) : MemberTests where
  equal byte := bytesEqual byte candidate flags
  range low high := rangeMatches arch low high candidate folded flags
  inClass class_ := classMatches class_ candidate folded

/-- The `while` loop of `bracket_matches` over the bytes that are left before
    the closing bracket; `prev` is `pattern[cursor - 1]`. -/
def memberScan (tests : MemberTests) (inverted : Bool) (prev : UInt8) (bytes : List UInt8) :
    Bool :=
  match bytes with
  | [] => inverted
  | byte :: rest =>
    let single : Bool :=
      if tests.equal byte then !inverted else memberScan tests inverted byte rest
    match rest with
    | [] => single
    | following :: rest' =>
      if byte = dash ∧ following ≠ close then
        if tests.range prev following then !inverted
        else memberScan tests inverted following rest'
      else if byte = open_ ∧ isDelimiter following then
        match _hclose : findClose following rest' with
        | some (class_, rest'') =>
          let matched :=
            if following = 0x3a then tests.inClass class_
            else class_.length = 1 && tests.equal (class_.headD 0)
          if matched then !inverted else memberScan tests inverted close rest''
        | none => single
      else single
termination_by bytes.length
decreasing_by
  all_goals simp_wf
  all_goals first
    | omega
    | (have hlt := findClose_length _hclose; omega)

/-- `bracket_matches` on the bytes between the brackets. -/
def bodyMatches (tests : MemberTests) (body : List UInt8) (candidate : UInt8) : Bool :=
  let inverted : Bool := body.head? = some 0x5e || body.head? = some 0x21
  let members := if inverted then body.drop 1 else body
  let prev := if inverted then body.headD 0 else open_
  match members with
  | [] => inverted
  | first :: rest =>
    -- `]` and `-` are ordinary members when they appear first
    if first = close ∨ first = dash then
      if candidate = first then !inverted else memberScan tests inverted first rest
    else memberScan tests inverted prev (first :: rest)

/-- `bracket_matches`. -/
def bracketMatches (arch : Arch) (pattern : List UInt8) (start next : Nat)
    (candidate folded : UInt8) (flags : UInt32) : Bool :=
  bodyMatches (memberTests arch candidate folded flags)
    ((pattern.drop (start + 1)).take (next - 1 - (start + 1))) candidate

/-- `token_matches`. -/
def tokenMatches (arch : Arch) (pattern : List UInt8) (token : Token) (tokenStart : Nat)
    (candidate : UInt8) (flags : UInt32) : Bool :=
  match token with
  | .question _ => true
  | .bracket next =>
    let folded :=
      if has flags fnmCasefold then
        match arch with
        | .x86_64 =>
          let upper := toAsciiUppercase candidate
          if upper = candidate then toAsciiLowercase candidate else upper
        | .other => asciiCasefold candidate
      else candidate
    bracketMatches arch pattern tokenStart next candidate folded flags
  | .literal byte _ => bytesEqual byte candidate flags
  | .end | .star _ => false

/-! ## The matcher -/

/-- The local variables of `component_matches`. -/
structure ComponentState where
  patternIndex : Nat
  candidateIndex : Nat
  starPattern : Option Nat
  starCandidate : Nat
deriving DecidableEq, Repr

/-- `!pathname || byte != b'/'`. -/
def consumable (flags : UInt32) (byte : UInt8) : Bool := !has flags fnmPathname || byte != slash

/-- Give the most recent star one more byte. -/
def backtrack (candidate : List UInt8) (flags : UInt32) (st : ComponentState) :
    Next ComponentState Bool :=
  match st.starPattern with
  | none => .done false
  | some nextPattern =>
    match candidate[st.starCandidate]? with
    | none => .done false
    | some byte =>
      if consumable flags byte then
        .again
          { st with
            starCandidate := st.starCandidate + 1
            candidateIndex := st.starCandidate + 1
            patternIndex := nextPattern }
      else .done false

/-- One round of the loop of `component_matches`. -/
def componentBody (arch : Arch) (pattern candidate : List UInt8) (flags : UInt32)
    (st : ComponentState) : Next ComponentState Bool :=
  match nextToken pattern st.patternIndex flags with
  | .end =>
    if st.candidateIndex ≥ candidate.length then .done true else backtrack candidate flags st
  | .star next =>
    .again
      { st with
        starPattern := some next
        starCandidate := st.candidateIndex
        patternIndex := next }
  | token =>
    match candidate[st.candidateIndex]? with
    | none => backtrack candidate flags st
    | some byte =>
      if consumable flags byte && tokenMatches arch pattern token st.patternIndex byte flags then
        .again
          { st with
            patternIndex := token.nextIndex
            candidateIndex := st.candidateIndex + 1 }
      else backtrack candidate flags st

/-- `component_matches`. -/
def componentMatches (arch : Arch) (pattern candidate : List UInt8) (flags : UInt32) :
    Option Bool :=
  if has flags fnmPeriod && candidate.head? == some dot && pattern.head? != some dot then
    some false
  else
    loop (componentBody arch pattern candidate flags)
      ((candidate.length + 2) * (pattern.length + 1)) ⟨0, 0, none, 0⟩

/-- `pattern_component_end`. -/
def patternComponentEnd (pattern : List UInt8) (start : Nat) (flags : UInt32) :
    Option (Nat × Nat × Bool) :=
  loop
    (fun cursor =>
      match nextToken pattern cursor flags with
      | .end => .done (pattern.length, pattern.length, false)
      | .literal byte next =>
        if byte = slash then .done (cursor, next, true) else .again next
      | token => .again token.nextIndex)
    (pattern.length + 1) start

/-- The end of the candidate's component that starts at `start`. -/
def candidateComponentEnd (candidate : List UInt8) (start : Nat) : Nat :=
  match (candidate.drop start).findIdx? (· == slash) with
  | none => candidate.length
  | some offset => start + offset

/-- One round of the loop of `fnmatch` over the components. -/
def fnmatchBody (arch : Arch) (pattern candidate : List UInt8) (flags : UInt32)
    (st : Nat × Nat) : Next (Nat × Nat) (Option Bool) :=
  match patternComponentEnd pattern st.1 flags with
  | none => .done none
  | some (patternEnd, patternNext, patternHasSlash) =>
    let candidateEnd := candidateComponentEnd candidate st.2
    let candidateHasSlash : Bool := candidateEnd < candidate.length
    if patternHasSlash != candidateHasSlash && candidateHasSlash && !has flags fnmLeadingDir then
      .done (some false)
    else
      match componentMatches arch ((pattern.take patternEnd).drop st.1)
          ((candidate.take candidateEnd).drop st.2) (flags &&& ~~~fnmLeadingDir) with
      | none => .done none
      | some false => .done (some false)
      | some true =>
        if !patternHasSlash then .done (some true)
        else if !candidateHasSlash then .done (some false)
        else .again (patternNext, candidateEnd + 1)

/-- The loop of `fnmatch` over the slashes of the candidate. -/
def leadingDirMatches (arch : Arch) (pattern candidate : List UInt8) (flags : UInt32) :
    List Nat → Option Bool
  | [] => componentMatches arch pattern candidate flags
  | index :: rest =>
    if candidate[index]? = some slash then
      (componentMatches arch pattern (candidate.take index) flags).bind fun matched =>
        if matched then some true else leadingDirMatches arch pattern candidate flags rest
    else leadingDirMatches arch pattern candidate flags rest

/-- `fnmatch`. -/
def fnmatch (arch : Arch) (pattern candidate : List UInt8) (flags : UInt32) : Option Bool :=
  if has flags fnmPathname then
    (loop (fnmatchBody arch pattern candidate flags) (candidate.length + 1) (0, 0)).join
  else if has flags fnmLeadingDir then
    leadingDirMatches arch pattern candidate flags (List.range candidate.length)
  else componentMatches arch pattern candidate flags

end Crabc.Pattern
