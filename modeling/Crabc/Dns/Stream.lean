/-
  Crabc.Dns.Stream

  The bytes that `tcp_exchange` of `crabc-core/src/resolver.rs` moves over its stream,
  taken from the calls it makes and their answers: what the peer accepts is the frame of
  the query, and what is validated is the frame that came, however both were split.
-/

import Crabc.Dns.ExchangeLaws

namespace Crabc.Dns

open Crabc.Lib Process List Meets UInt8

/-! ## Traffic -/

/-- What the later calls moved. -/
def traffic (part : List Call → Call → List UInt8) : List Call → List Call → List UInt8
  | _, [] => []
  | before, call :: later => part (before ++ [call]) call ++ traffic part (before ++ [call]) later

theorem traffic_concat (part : List Call → Call → List UInt8) (before later : List Call) (call : Call) :
    traffic part before (later ++ [call]) = traffic part before later ++ part (before ++ later ++ [call]) call := by
  induction later generalizing before with
  | nil => simp [traffic]
  | cons first later ih => simp [traffic, ih]

/-- The calls since `start` have sent and received these bytes. -/
def Moved (env : Env) (start : List Call) (sent received : List UInt8) (w : World) : Prop :=
  ∃ later, w.calls = start ++ later ∧ traffic (sentPart env) start later = sent ∧
    traffic (receivedPart env) start later = received

section

variable {ε α : Type} {env : Env} {start : List Call} {sent received : List UInt8} {rounds : Nat} {fd deadline : Int}

theorem steady_moved : Steady env (some fd) (Moved env start) fun _ => True where
  call call _ := by
    rintro ⟨later, hcalls, rfl, rfl⟩
    refine ⟨later ++ [call], by rw [hcalls, append_assoc], ?_, ?_⟩
    all_goals rw [traffic_concat, hcalls]
  running _ := trivial

/-- After these bytes a value comes with `P`; errors and runs that go on are left open. -/
abbrev Moves (env : Env) (start : List Call) (sent received : List UInt8) (c : Exchange ε α)
    (P : α → World → Prop) : Prop :=
  Meets (Moved env start sent received) c (fun | .ok value => P value | .error _ => fun _ => True) fun _ => True

theorem sendAll_moves {bytes : List UInt8} : Moves env start sent received (sendAll env rounds fd bytes deadline)
    fun _ => Moved env start (sent ++ bytes) received := by
  refine (sendAll_meets sent received steady_moved bytes).mono (fun _ hw => hw) fun r w hw => ?_
  cases r with
  | ok _ => exact hw
  | error _ => exact trivial

/-! ## Frames -/

/-- A message behind its length, in two bytes with the high one first. -/
def IsFrame (message frame : List UInt8) : Prop :=
  ∃ high low : UInt8, frame = high :: low :: message ∧ high.toNat * 256 + low.toNat = message.length

/-- The frame of a query. -/
def queryFrame (query : List UInt8) : List UInt8 :=
  [ofNat (query.length / 256), ofNat query.length] ++ query

variable {query : List UInt8}

theorem isFrame_queryFrame (h : query.length ≤ 65535) : IsFrame query (queryFrame query) := by
  refine ⟨_, _, rfl, ?_⟩
  rw [toNat_ofNat', toNat_ofNat']
  omega

/-- How much of the frame `start_tcp` has queued. -/
def DnsTcpStart.frameBytes : DnsTcpStart → Nat
  | .connected => 0
  | .queued frameBytes => frameBytes

theorem tcpQueued_moves {started : DnsTcpStart} :
    Moves env start sent received (tcpQueued env rounds query fd deadline started)
    fun queued w => queued = started.frameBytes ∧ Moved env start sent received w := by
  cases started with
  | connected => exact meets_pure fun _ hw => ⟨rfl, hw⟩
  | queued frameBytes =>
    refine meets_ite (fun _ => meets_throw fun _ _ => trivial) fun _ => meets_ite (fun _ => ?_) fun _ =>
      meets_pure fun _ hw => ⟨rfl, hw⟩
    exact bind (awaitReady_meets _ _ steady_moved .writable)
      (fun _ => meets_pure fun _ hw => ⟨rfl, hw⟩)
      fun _ _ _ => trivial

theorem sendFrame_moves {queued : Nat} : Moves env start sent received (sendFrame env rounds query fd deadline queued)
    fun _ => Moved env start (sent ++ (queryFrame query).drop queued) received := by
  rw [queryFrame, drop_append, ← append_assoc]
  refine meets_ite (fun hqueued => ?_) fun hqueued => ?_
  · exact bind sendAll_moves (fun _ => sendAll_moves) fun _ _ _ => trivial
  · rw [drop_of_length_le (l := [_, _]) (Nat.le_of_not_lt hqueued), append_nil]
    exact sendAll_moves

variable (env rounds fd deadline query)

/-- The send phase of `tcp_exchange`. -/
def sendPhase (started : DnsTcpStart) : Exchange Errno Unit := do
  let queued ← tcpQueued env rounds query fd deadline started
  sendFrame env rounds query fd deadline queued

/-- Its receive phase, up to the validation. -/
def receiveResponse : Exchange Errno (List UInt8) := do
  let (received, lengthBytes) ← receiveExact env rounds fd [0, 0] deadline
  ofExcept received
  let responseLength ← lift (wordAt lengthBytes 0)
  let w ← get
  if responseLength.toNat < 12 ∨ responseLength.toNat > w.answer.length then throw msgSize
  else do
    let (received, response) ← receiveExact env rounds fd (w.answer.take responseLength.toNat) deadline
    setAnswer (response ++ w.answer.drop responseLength.toNat)
    ofExcept received
    Pure.pure response

theorem receiveResponse_moves : Moves env start sent [] (receiveResponse env rounds fd deadline)
    fun response w => ∃ frame, IsFrame response frame ∧ Moved env start sent frame w := by
  refine bind (receiveExact_meets sent [] steady_moved [0, 0]) (fun r => ?_) fun _ _ _ => trivial
  obtain ⟨answer, lengthBytes⟩ := r
  cases answer with
  | error e => exact fun _ _ => trivial
  | ok value =>
  refine bind (Q := fun _ w => lengthBytes.length = 2 ∧ Moved env start sent lengthBytes w) (fun _ hw => hw)
    (fun _ => meets_of_pure fun hlength => ?_) fun _ _ _ => trivial
  obtain ⟨high, low, rfl⟩ : ∃ high low, lengthBytes = [high, low] := by
    match lengthBytes, hlength with
    | [high, low], _ => exact ⟨high, low, rfl⟩
  refine meets_lift_bind (x := wordAt [high, low] 0) (T := (· = fromBeBytes high low)) (Checked.meets_ok rfl)
    (fun word hword => bind (Q := fun _ => Moved env start sent [high, low]) (fun _ hw => hw)
      (fun w => meets_ite (fun _ => meets_throw fun _ _ => trivial) fun hrange => ?_) fun _ _ _ => trivial) fun _ _ _ => trivial
  refine bind (receiveExact_meets _ _ steady_moved _) (fun r w' hw => ?_) fun _ _ _ => trivial
  obtain ⟨answer, response⟩ := r
  cases answer with
  | error e => exact trivial
  | ok value =>
    refine ⟨high :: low :: response, ⟨high, low, rfl, ?_⟩, hw.2⟩
    rw [hw.1, length_take, hword, fromBeBytes, UInt16.toNat_ofNat']
    rw [hword, fromBeBytes, UInt16.toNat_ofNat'] at hrange
    have := high.toNat_lt
    have := low.toNat_lt
    omega

theorem receiveFrame_eq {queryId : UInt16} {framing : RecordFraming} :
    receiveFrame env rounds query queryId framing fd deadline =
      receiveResponse env rounds fd deadline >>= fun response => lift (tcpPacket query queryId framing response) := by
  simp only [receiveFrame, receiveResponse, bind_assoc]
  refine congrArg (_ >>= ·) (funext fun _ => congrArg (_ >>= ·) (funext fun _ => congrArg (_ >>= ·) (funext fun _ =>
    congrArg (_ >>= ·) (funext fun w => ?_))))
  split
  · rfl
  · simp only [bind_assoc]
    rfl

/-- `tcp_exchange` sends the frame of its query and validates the message of a received frame. -/
theorem tcpRoundTrip_frames (query : { bytes : List UInt8 // bytes.length ≤ 65535 }) (queryId : UInt16)
    (framing : RecordFraming) (started : DnsTcpStart) (start : List Call) :
    (tcpRoundTrip env rounds query queryId framing fd deadline started = do
      sendPhase env rounds fd deadline query started
      let response ← receiveResponse env rounds fd deadline
      lift (tcpPacket query queryId framing response)) ∧
    ∃ frame, IsFrame query frame ∧ Moves env start [] [] (sendPhase env rounds fd deadline query started)
        (fun _ => Moved env start (frame.drop started.frameBytes) []) ∧
      ∀ sent, Moves env start sent [] (receiveResponse env rounds fd deadline)
        fun response w => ∃ frame, IsFrame response frame ∧ Moved env start sent frame w := by
  refine ⟨?_, queryFrame query, isFrame_queryFrame query.2, ?_, fun sent => receiveResponse_moves env rounds fd deadline⟩
  · simp only [tcpRoundTrip, sendPhase, receiveFrame_eq, bind_assoc]
  · exact bind tcpQueued_moves
      (fun queued => meets_of_pure fun hqueued => hqueued ▸ sendFrame_moves)
      fun _ _ _ => trivial

end

end Crabc.Dns
