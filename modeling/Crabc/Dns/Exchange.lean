/-
  Crabc.Dns.Exchange

  The query engine of `crabc-core/src/resolver.rs`: `exchange_impl` and the functions it
  calls, over a `DnsTransport` and the raw system calls that answer as they like.

  The world is the calls made so far and the bytes of the caller's answer buffer.  What
  a call answers is a function of the calls so far, of which it is the last: every
  sequence of answers is that of such a function.  A receive writes what it likes into
  the slice it is given.  Each loop has a number of rounds, after which the run goes on.
-/

import Crabc.Dns.Reply
import Crabc.Lib.Process

namespace Crabc.Dns

open Crabc.Lib

open Process (attempt get lift loop modify ofExcept throw)

/-! ## Errors and constants -/

def interrupted : Errno := 4

/-- `AGAIN` and `WOULDBLOCK`. -/
def wouldBlock : Errno := 11

def brokenPipe : Errno := 32

def overflow : Errno := 75

def connReset : Errno := 104

def timedOut : Errno := 110

def canceled : Errno := 125

def afInet : Nat := 2

def afInet6 : Nat := 10

/-- `SOCK_DGRAM | SOCK_CLOEXEC | SOCK_NONBLOCK`. -/
def datagramSocket : Nat := 0x80802

/-- `SOCK_STREAM | SOCK_CLOEXEC | SOCK_NONBLOCK`. -/
def streamSocket : Nat := 0x80801

/-- `MAX_NAMESERVERS`. -/
def maxNameservers : Nat := 3

/-! ## Configurations and addresses -/

structure NameServer where
  family : UInt16
  address : Vector UInt8 16
  port : UInt16
  scopeId : UInt32

structure ExchangeConfig where
  nameservers : Vector NameServer 3
  nameserverCount : Nat
  timeoutMs : UInt32
  attempts : UInt8

inductive RecordFraming where
  | complete
  | questionMatched
deriving DecidableEq

structure DnsSocketAddress where
  family : Nat
  storage : List UInt8
  length : Nat

/-- The bytes of a port in network order; zero selects port 53. -/
def portBytes (port : UInt16) : List UInt8 :=
  let port := if port = 0 then 53 else port
  [highByte port, lowByte port]

/-- The bytes of a word of 32 bits in the order of the machine. -/
def nativeBytes (word : UInt32) : List UInt8 :=
  [word.toUInt8, (word >>> 8).toUInt8, (word >>> 16).toUInt8, (word >>> 24).toUInt8]

/-- `server_address`. -/
def serverAddress (server : NameServer) : Option DnsSocketAddress :=
  if server.family.toNat = afInet then
    let bytes := [2, 0] ++ portBytes server.port ++ server.address.toList.take 4 ++ List.replicate 8 0
    some { family := afInet, storage := bytes ++ List.replicate 12 0, length := 16 }
  else if server.family.toNat = afInet6 then
    let bytes := [10, 0] ++ portBytes server.port ++ List.replicate 4 0 ++
      server.address.toList ++ nativeBytes server.scopeId
    some { family := afInet6, storage := bytes, length := 28 }
  else none

/-! ## Calls and their answers -/

inductive DnsSocketKind where
  | datagram
  | stream
deriving DecidableEq

inductive DnsWait where
  | readable
  | writable
deriving DecidableEq

inductive DnsIoResult (α : Type) where
  | complete (value : α)
  | failed (error : Errno)
  | maskedCancellation

structure DnsDatagram where
  length : Nat
  truncated : Bool

inductive DnsTcpStart where
  | connected
  | queued (frameBytes : Nat)

inductive DnsTcpFailure where
  | immediate
  | waitUntilDeadline

/-- The methods of `DnsTransport` and the system calls beside it, with what they are given. -/
inductive Call where
  | clockGettime
  | syscallFailed (error : Errno)
  | socket (family type : Nat)
  | socketOpened (fd : Int) (kind : DnsSocketKind)
  | connect (fd : Int) (target : DnsSocketAddress)
  | closeSocket (fd : Int)
  | streamStarting
  | wait (fd : Int) (event : DnsWait) (timeoutMs : Nat)
  | send (fd : Int) (bytes : List UInt8) (kind : DnsSocketKind)
  | receiveStream (fd : Int) (bytes : List UInt8)
  | receiveDatagram (fd : Int) (bytes : List UInt8)
  | startTcp (fd : Int) (target : DnsSocketAddress) (query : List UInt8) (deadlineMs : Int)

/-- The answers, for the calls so far. -/
structure Env where
  clockGettime : List Call → Except Errno (Int × Int)
  socket : List Call → Except Errno Int
  connect : List Call → Except Errno Unit
  streamStarting : List Call → DnsTcpFailure
  wait : List Call → DnsIoResult Bool
  send : List Call → DnsIoResult Nat
  receiveStream : List Call → DnsIoResult Nat × List UInt8
  receiveDatagram : List Call → DnsIoResult DnsDatagram × List UInt8
  startTcp : List Call → Except Errno DnsTcpStart

structure World where
  calls : List Call
  answer : List UInt8

abbrev Exchange (ε α : Type) := Process World ε α

variable {ε : Type}

/-- Make a call and take its answer. -/
def ask {α : Type} (call : Call) (answers : List Call → α) : Exchange ε α := do
  modify fun w => { w with calls := w.calls ++ [call] }
  let w ← get
  pure (answers w.calls)

/-- A call without an answer. -/
def tell (call : Call) : Exchange ε Unit := ask call fun _ => ()

/-- What a slice holds after a callee wrote to it. -/
def overwrite (slice written : List UInt8) : List UInt8 :=
  written.take slice.length ++ slice.drop written.length

def setAnswer (answer : List UInt8) : Exchange ε Unit := modify fun w => { w with answer }

/-! ## Time -/

/-- Saturating arithmetic of `i64`. -/
def saturate (x : Int) : Int := max (-2 ^ 63) (min x (2 ^ 63 - 1))

variable (env : Env)

/-- `monotonic_millis`. -/
def monotonicMillis : Exchange Errno Int := do
  match ← ask .clockGettime env.clockGettime with
  | .error e => do
    tell (.syscallFailed e)
    throw e
  | .ok (seconds, nanoseconds) =>
    pure (saturate (saturate (seconds * 1000) + nanoseconds.tdiv 1000000))

/-- `deadline_after`. -/
def deadlineAfter (timeoutMs : UInt32) : Exchange Errno Int := do
  let now ← monotonicMillis env
  pure (saturate (now + timeoutMs.toNat))

/-- `remaining_millis`; the difference wraps. -/
def remainingMillis (deadline : Int) : Exchange Errno Nat := do
  let now ← monotonicMillis env
  if now ≥ deadline then pure 0
  else pure ((min ((deadline - now).bmod (2 ^ 64)) (2 ^ 32 - 1)) % 2 ^ 32).toNat

/-! ## Bounded input and output -/

variable (rounds : Nat)

/-- A round of `poll_until`. -/
def pollRound (fd : Int) (event : DnsWait) (deadline : Int) :
    Exchange Errno (Next Unit Bool) := do
  let remaining ← remainingMillis env deadline
  if remaining = 0 then pure (.done false)
  else
    match ← ask (.wait fd event remaining) env.wait with
    | .complete ready => pure (.done ready)
    | .failed e => if e = interrupted then pure (.again ()) else throw e
    | .maskedCancellation => pure (.again ())

/-- `poll_until`. -/
def pollUntil (fd : Int) (event : DnsWait) (deadline : Int) : Exchange Errno Bool :=
  loop (fun _ => pollRound env fd event deadline) rounds ()

/-- Wait for the socket, or time out. -/
def awaitReady (fd : Int) (event : DnsWait) (deadline : Int) : Exchange Errno Unit := do
  let ready ← pollUntil env rounds fd event deadline
  if ready then pure () else throw timedOut

/-- A round of `send_all`, with `offset` bytes sent. -/
def sendAllRound (fd : Int) (bytes : List UInt8) (deadline : Int) (offset : Nat) :
    Exchange Errno (Next Nat Unit) :=
  if offset < bytes.length then do
    let remaining ← remainingMillis env deadline
    if remaining = 0 then throw timedOut
    else
      match ← ask (.send fd (bytes.drop offset) .stream) env.send with
      | .complete length =>
        if length = 0 then throw brokenPipe
        else if length ≤ bytes.length - offset then pure (.again (offset + length))
        else throw overflow
      | .failed e =>
        if e = interrupted then pure (.again offset)
        else if e = wouldBlock then do
          awaitReady env rounds fd .writable deadline
          pure (.again offset)
        else throw e
      | .maskedCancellation => throw canceled
  else pure (.done ())

/-- `send_all`. -/
def sendAll (fd : Int) (bytes : List UInt8) (deadline : Int) : Exchange Errno Unit :=
  loop (sendAllRound env rounds fd bytes deadline) rounds 0

/-- A round of `send_datagram`. -/
def sendDatagramRound (fd : Int) (bytes : List UInt8) (deadline : Int) :
    Exchange Errno (Next Unit Unit) := do
  let remaining ← remainingMillis env deadline
  if remaining = 0 then throw timedOut
  else
    match ← ask (.send fd bytes .datagram) env.send with
    | .complete length =>
      if length = bytes.length then pure (.done ()) else throw msgSize
    | .maskedCancellation => pure (.done ())
    | .failed e =>
      if e = interrupted then pure (.again ())
      else if e = wouldBlock then do
        awaitReady env rounds fd .writable deadline
        pure (.again ())
      else throw e

/-- `send_datagram`. -/
def sendDatagram (fd : Int) (bytes : List UInt8) (deadline : Int) : Exchange Errno Unit :=
  loop (fun _ => sendDatagramRound env rounds fd bytes deadline) rounds ()

/-- A round of `receive_exact`.  The slice is part of what it returns, so that a failed
    receive leaves its bytes as well. -/
def receiveExactRound (fd deadline : Int) :
    Nat × List UInt8 → Exchange Errno (Next (Nat × List UInt8) (Except Errno Unit × List UInt8))
  | (offset, bytes) =>
    if offset < bytes.length then do
      match ← attempt (awaitReady env rounds fd .readable deadline) with
      | .error e => pure (.done (.error e, bytes))
      | .ok () => do
        let rest := bytes.drop offset
        let (received, written) ← ask (.receiveStream fd rest) env.receiveStream
        let bytes := bytes.take offset ++ overwrite rest written
        match received with
        | .complete length =>
          if length = 0 then pure (.done (.error connReset, bytes))
          else if length ≤ rest.length then pure (.again (offset + length, bytes))
          else pure (.done (.error overflow, bytes))
        | .failed e =>
          if e = interrupted ∨ e = wouldBlock then pure (.again (offset, bytes))
          else pure (.done (.error e, bytes))
        | .maskedCancellation => pure (.done (.error canceled, bytes))
    else pure (.done (.ok (), bytes))

/-- `receive_exact`. -/
def receiveExact (fd : Int) (bytes : List UInt8) (deadline : Int) :
    Exchange Errno (Except Errno Unit × List UInt8) :=
  loop (receiveExactRound env rounds fd deadline) rounds (0, bytes)

/-- `receive_datagram`, into the answer buffer. -/
def receiveDatagram (fd : Int) : Exchange Errno Nat := do
  let w ← get
  let (received, written) ← ask (.receiveDatagram fd w.answer) env.receiveDatagram
  setAnswer (overwrite w.answer written)
  match received with
  | .complete packet =>
    if packet.length ≤ w.answer.length ∧ packet.truncated = false then pure packet.length
    else throw overflow
  | .maskedCancellation => throw wouldBlock
  | .failed e => throw e

/-! ## One exchange over each transport -/

inductive UdpResponse where
  | complete (length : Nat)
  | truncated

variable (query : List UInt8) (queryId : UInt16) (framing : RecordFraming)

/-- The record test, which only one framing makes. -/
def framed (packet : List UInt8) (questionEnd : Nat) : Checked Errno Bool :=
  match framing with
  | .complete => hasCompleteRecords packet questionEnd
  | .questionMatched => pure true

/-- What `udp_exchange` does with a datagram; `none` ignores it. -/
def udpPacket (packet : List UInt8) : Checked Errno (Option UdpResponse) := do
  match ← matchingQuestionEnd packet query queryId with
  | none => pure none
  | some questionEnd => do
    let flags ← .index packet 2
    if flags &&& 0x02 ≠ 0 then pure (some .truncated)
    else
      let complete ← framed framing packet questionEnd
      if complete then pure (some (.complete packet.length)) else pure none

/-- A round of `udp_exchange`. -/
def udpRound (fd deadline : Int) : Exchange Errno (Next Unit UdpResponse) := do
  awaitReady env rounds fd .readable deadline
  match ← attempt (receiveDatagram env fd) with
  | .error e =>
    if e = overflow ∨ e = interrupted ∨ e = wouldBlock then pure (.again ())
    else throw e
  | .ok length => do
    let w ← get
    let packet ← lift (.slice w.answer 0 length)
    match ← lift (udpPacket query queryId framing packet) with
    | none => pure (.again ())
    | some response => pure (.done response)

/-- `udp_exchange`. -/
def udpExchange (fd deadline : Int) : Exchange Errno UdpResponse :=
  loop (fun _ => udpRound env rounds query queryId framing fd deadline) rounds ()

/-- The bytes of the frame that the start of the connection has sent. -/
def tcpQueued (fd deadline : Int) : DnsTcpStart → Exchange Errno Nat
  | .connected => pure 0
  | .queued frameBytes =>
    if frameBytes > query.length + 2 then throw overflow
    else if frameBytes < query.length + 2 then do
      awaitReady env rounds fd .writable deadline
      pure frameBytes
    else pure frameBytes

/-- The rest of the frame. -/
def sendFrame (fd deadline : Int) (queued : Nat) : Exchange Errno Unit := do
  let frameLength := [UInt8.ofNat (query.length / 256), UInt8.ofNat query.length]
  if queued < 2 then do
    sendAll env rounds fd (frameLength.drop queued) deadline
    sendAll env rounds fd (query.drop (queued - 2)) deadline
  else sendAll env rounds fd (query.drop (queued - 2)) deadline

/-- What `tcp_exchange` does with a frame. -/
def tcpPacket (packet : List UInt8) : Checked Errno Nat := do
  match ← matchingQuestionEnd packet query queryId with
  | none => .error malformed
  | some questionEnd => do
    let flags ← .index packet 2
    if flags &&& 0x02 ≠ 0 then .error malformed
    else
      let complete ← framed framing packet questionEnd
      if complete then pure packet.length else .error malformed

/-- The reply of `tcp_exchange`. -/
def receiveFrame (fd deadline : Int) : Exchange Errno Nat := do
  let (received, lengthBytes) ← receiveExact env rounds fd [0, 0] deadline
  ofExcept received
  let responseLength ← lift (wordAt lengthBytes 0)
  let w ← get
  if responseLength.toNat < 12 ∨ responseLength.toNat > w.answer.length then throw msgSize
  else do
    let (received, response) ←
      receiveExact env rounds fd (w.answer.take responseLength.toNat) deadline
    setAnswer (response ++ w.answer.drop responseLength.toNat)
    ofExcept received
    lift (tcpPacket query queryId framing response)

/-- The closure of `tcp_exchange` that runs while the socket is open. -/
def tcpRoundTrip (fd deadline : Int) (started : DnsTcpStart) : Exchange Errno Nat := do
  let queued ← tcpQueued env rounds query fd deadline started
  sendFrame env rounds query fd deadline queued
  receiveFrame env rounds query queryId framing fd deadline

/-- `wait_failed_start`: the wait is on a descriptor that is ignored. -/
def waitFailedStart (failure : DnsTcpFailure) (deadline : Int) (e : Errno) :
    Exchange Errno Nat :=
  match failure with
  | .immediate => throw e
  | .waitUntilDeadline => do
    let _ ← (attempt (pollUntil env rounds (-1) .readable deadline) :
      Exchange Errno (Except Errno Bool))
    throw e

/-- `tcp_exchange`. -/
def tcpExchange (target : DnsSocketAddress) (deadline : Int) : Exchange Errno Nat := do
  let w ← get
  if query.length > 65535 ∨ w.answer.length < 12 then throw msgSize
  else do
    let failure ← ask .streamStarting env.streamStarting
    match ← ask (.socket target.family streamSocket) env.socket with
    | .error e => do
      tell (.syscallFailed e)
      waitFailedStart env rounds failure deadline e
    | .ok fd => do
      tell (.socketOpened fd .stream)
      match ← ask (.startTcp fd target query deadline) env.startTcp with
      | .error e => do
        tell (.closeSocket fd)
        waitFailedStart env rounds failure deadline e
      | .ok started => do
        let result ← attempt
          (tcpRoundTrip env rounds query queryId framing fd deadline started)
        tell (.closeSocket fd)
        ofExcept result

/-! ## The exchange -/

inductive ExchangeError where
  | setup (error : Errno)
  | transport (error : Errno)

variable (timeoutMs : UInt32) (preserveSetupError : Bool)

/-- What follows the socket of one server: `none` goes on with the next server. -/
def serverSocket (target : DnsSocketAddress) (deadline fd : Int) :
    Exchange ExchangeError (Option Nat) := do
  tell (.socketOpened fd .datagram)
  match ← ask (.connect fd target) env.connect with
  | .error e => do
    tell (.syscallFailed e)
    tell (.closeSocket fd)
    pure none
  | .ok () =>
    match ← attempt (sendDatagram env rounds fd query deadline) with
    | .error _ => do
      tell (.closeSocket fd)
      pure none
    | .ok () =>
      match ← attempt (udpExchange env rounds query queryId framing fd deadline) with
      | .ok (.complete length) => do
        tell (.closeSocket fd)
        pure (some length)
      | .ok .truncated => do
        tell (.closeSocket fd)
        match ← attempt
            (tcpExchange env rounds query queryId framing target deadline) with
        | .ok length => pure (some length)
        | .error _ => pure none
      | .error _ => do
        tell (.closeSocket fd)
        pure none

/-- The body of the loops of `exchange_impl`. -/
def exchangeServer (server : NameServer) : Exchange ExchangeError (Option Nat) :=
  match serverAddress server with
  | none => pure none
  | some target => do
    match ← attempt (deadlineAfter env timeoutMs) with
    | .error _ => pure none
    | .ok deadline =>
      match ← ask (.socket server.family.toNat datagramSocket) env.socket with
      | .error e => do
        tell (.syscallFailed e)
        if preserveSetupError then throw (.setup e) else pure none
      | .ok fd => serverSocket env rounds query queryId framing target deadline fd

/-- The inner loop of `exchange_impl`. -/
def exchangeServers : List NameServer → Exchange ExchangeError (Option Nat)
  | [] => pure none
  | server :: servers => do
    match ← exchangeServer env rounds query queryId framing timeoutMs preserveSetupError server with
    | some length => pure (some length)
    | none => exchangeServers servers

/-- The outer loop of `exchange_impl`. -/
def exchangeAttempts (servers : List NameServer) : Nat → Exchange ExchangeError Nat
  | 0 => throw (.transport timedOut)
  | attempts + 1 => do
    match ← exchangeServers env rounds query queryId framing timeoutMs preserveSetupError servers with
    | some length => pure length
    | none => exchangeAttempts servers attempts

/-- The tests of the query in `exchange_impl`. -/
def queryOk : Checked Errno Bool :=
  if query.length < 12 then pure false
  else do
    let id ← wordAt query 0
    if id ≠ queryId then pure false
    else
      let question ← (oneQuestionEnd query).result
      pure question.isSome

/-- `exchange_impl`. -/
def exchangeImpl (config : ExchangeConfig) : Exchange ExchangeError Nat := do
  let w ← get
  let queryFits ← lift ((queryOk query queryId).mapError ExchangeError.transport)
  if config.nameserverCount = 0 ∨ config.nameserverCount > maxNameservers ∨
      config.timeoutMs = 0 ∨ config.attempts = 0 ∨ w.answer.length < 12 ∨ queryFits = false then
    throw (.transport invalid)
  else
    exchangeAttempts env rounds query queryId framing config.timeoutMs preserveSetupError
      (config.nameservers.toList.take config.nameserverCount) config.attempts.toNat

end Crabc.Dns
