/-
  Crabc.Dns.ExchangeLaws

  Two laws of `exchange_impl` over all answers of the transport and of the system: what
  it returns is a reply to the query, and its sockets are open one at a time, used while
  they are open and closed once.  One specification of each function carries both.
-/

import Crabc.Dns.Exchange
import Crabc.Lib.Lease

namespace Crabc.Dns

open Crabc.Lib Process Lease Meets Call Except

open Checked (meets_error meets_index meets_ok)

/-! ## What the laws speak of -/

/-- What a call does to the sockets.  A wait on descriptor -1 is on no socket. -/
def Call.action : Call → LeaseAction Int
  | .socketOpened fd _ => .acquire fd
  | .closeSocket fd => .release fd
  | .wait fd _ _ => if fd = -1 then .other else .use fd
  | .connect fd _ | .send fd _ _ | .receiveStream fd _ | .receiveDatagram fd _
  | .startTcp fd _ _ _ => .use fd
  | .clockGettime | .syscallFailed _ | .socket _ _ | .streamStarting => .other

/-- A packet that is an answer to the query. -/
structure Accepted (framing : RecordFraming) (query : List UInt8) (queryId : UInt16)
    (packet : List UInt8) : Prop where
  correlated : ∃ stop, Correlated packet query queryId stop ∧ (framing = .complete → CompleteRecords packet stop)
  untruncated : ∃ flags, packet[2]? = some flags ∧ flags &&& 0x02 = 0

/-- The socket that is open, and what is known of the answer buffer. -/
def World.Holds (held : Option Int) (G : List UInt8 → Prop) (w : World) : Prop :=
  after (w.calls.map action) = some held ∧ G w.answer

/-- No call so far broke the discipline of the sockets. -/
def World.Safe (w : World) : Prop := ∃ held, after (w.calls.map action) = some held

variable {w : World} {G : List UInt8 → Prop} {held : Option Int}

theorem World.Holds.safe (h : w.Holds held G) : w.Safe := ⟨held, h.1⟩

variable {ε α β : Type} {held' : Option Int} 
  {Q : Except ε α → World → Prop}

/-- A specification of a program of the exchange: at every moment the discipline holds. -/
abbrev Runs (P : World → Prop) (c : Exchange ε α) (Q : Except ε α → World → Prop) : Prop :=
  Meets P c Q World.Safe

/-- The program leaves the open socket and the answer buffer as they are. -/
abbrev Keeps (held : Option Int) (G : List UInt8 → Prop) (c : Exchange ε α) : Prop :=
  Runs (World.Holds held G) c fun _ => World.Holds held G

/-- The bytes of a send that the peer accepted, for the calls up to it. -/
def sentPart (env : Env) (calls : List Call) : Call → List UInt8
  | .send _ bytes .stream =>
    match env.send calls with
    | .complete length => bytes.take length
    | _ => []
  | _ => []

/-- The bytes that a receive put into its slice. -/
def receivedPart (env : Env) (calls : List Call) : Call → List UInt8
  | .receiveStream _ slice =>
    match env.receiveStream calls with
    | (.complete length, written) => (overwrite slice written).take length
    | _ => []
  | _ => []

/-- A condition on the bytes moved so far that every call on the open socket keeps. -/
structure Steady (env : Env) (held : Option Int) (I : List UInt8 → List UInt8 → World → Prop)
    (R : World → Prop) : Prop where
  call : ∀ {sent received w} (call : Call), step held call.action = some held → I sent received w →
    I (sent ++ sentPart env (w.calls ++ [call]) call) (received ++ receivedPart env (w.calls ++ [call]) call)
      { w with calls := w.calls ++ [call] }
  running : ∀ {sent received w}, I sent received w → R w

/-! ## Calls -/

open List

variable {answers : List Call → β} {call : Call}

theorem runs_ask_bind {f : β → Exchange ε α} (hstep : step held call.action = some held')
    (hf : ∀ a, Runs (World.Holds held' G) (f a) Q) : Runs (World.Holds held G) (ask call answers >>= f) Q := by
  intro w hw
  apply hf (answers (w.calls ++ [call])) { w with calls := w.calls ++ [call] }
  refine ⟨?_, hw.2⟩
  rw [map_append, map_singleton, after_concat, hw.1]
  exact hstep

variable {f : Unit → Exchange ε α}

theorem runs_tell_bind (hstep : step held call.action = some held') (hf : Runs (World.Holds held' G) (f ()) Q) :
    Runs (World.Holds held G) (tell call >>= f) Q :=
  runs_ask_bind hstep fun _ => hf

/-- The program goes on with the answer buffer as it now is. -/
theorem runs_get_bind {f : World → Exchange ε α}
    (hf : ∀ w, G w.answer → Runs (World.Holds held (· = w.answer)) (f w) Q) :
    Runs (World.Holds held G) (get >>= f) Q :=
  fun w hw => hf w hw.2 w ⟨hw.1, rfl⟩

theorem runs_setAnswer_bind {H : List UInt8 → Prop} {answer : List UInt8} (hanswer : H answer)
    (hf : Runs (World.Holds held H) (f ()) Q) :
    Runs (World.Holds held G) (setAnswer answer >>= f) Q :=
  fun w hw => hf { w with answer } ⟨hw.1, hanswer⟩

theorem step_use {fd : Int} : step (some fd) (.use fd) = some (some fd) := if_pos rfl

/-- A wait on the open socket, or on none. -/
theorem step_wait {fd : Int} (hfd : fd = -1 ∨ held = some fd) (event : DnsWait) (timeout : Nat) :
    step held (wait fd event timeout).action = some held := by
  rw [action]
  split
  · cases held <;> rfl
  · obtain rfl := hfd.resolve_left ‹_›
    exact step_use

theorem step_other : step held .other = some held := by
  cases held <;> rfl

theorem runs_open_bind {fd : Int} {kind : DnsSocketKind} (hf : Runs (World.Holds (some fd) G) (f ()) Q) :
    Runs (World.Holds none G) (tell (.socketOpened fd kind) >>= f) Q :=
  runs_tell_bind rfl hf

theorem runs_close_bind {fd : Int} (hf : Runs (World.Holds none G) (f ()) Q) :
    Runs (World.Holds (some fd) G) (tell (.closeSocket fd) >>= f) Q := by
  have hstep : step (some fd) (closeSocket fd).action = some none := if_pos rfl
  exact runs_tell_bind hstep hf

theorem keeps_ofExcept {r : Except ε α} : Keeps held G (Process.ofExcept r) :=
  meets_ofExcept fun _ hw => hw

theorem keeps_pure {value : α} : Keeps held G (Pure.pure value : Exchange ε α) :=
  meets_pure fun _ hw => hw

theorem keeps_throw {e : ε} : Keeps held G (throw e : Exchange ε α) := meets_throw fun _ hw => hw

theorem Keeps.bind {c : Exchange ε β} {f : β → Exchange ε α} (h : Keeps held G c)
    (hf : ∀ value, Keeps held G (f value)) : Keeps held G (c >>= f) :=
  Meets.bind h hf fun _ _ hw => hw

theorem keeps_loop {body : β → Exchange ε (Next β α)} (h : ∀ b, Keeps held G (body b))
    (rounds : Nat) (b : β) : Keeps held G (loop body rounds b) := by
  apply meets_loop (I := fun _ => World.Holds held G)
  · intro b
    apply (h b).mono (fun _ hw => hw)
    intro r w hw
    match r with
    | .ok (.again _) | .ok (.done _) | .error _ => exact hw
  · exact fun _ _ hw => hw.safe

/-! ## Bounded input and output -/

section Bounded

variable {env : Env} {rounds : Nat} {fd deadline : Int}

theorem length_overwrite {slice written : List UInt8} : (overwrite slice written).length = slice.length := by
  rw [overwrite, length_append, length_take, length_drop]
  omega

variable {bytes : List UInt8}

/-- What a receive leaves of a slice has the slice's length. -/
theorem length_received {offset : Nat} (written : List UInt8) (h : offset < bytes.length) :
    (bytes.take offset ++ overwrite (bytes.drop offset) written).length = bytes.length := by
  rw [length_append, length_overwrite, length_take, length_drop]
  omega

section

variable {I : List UInt8 → List UInt8 → World → Prop} {R : World → Prop} (sent received : List UInt8)

variable {sent received} in
theorem Steady.ask_bind (h : Steady env held I R) {f : β → Exchange ε α} (hstep : step held call.action = some held)
    (hf : ∀ calls,
      Meets (I (sent ++ sentPart env calls call) (received ++ receivedPart env calls call)) (f (answers calls)) Q R) :
    Meets (I sent received) (ask call answers >>= f) Q R :=
  fun _ hw => hf _ _ (h.call call hstep hw)

variable {sent received} in
/-- A call that is neither a send nor a receive. -/
theorem Steady.other_bind (h : Steady env held I R) {f : β → Exchange ε α} (hstep : step held call.action = some held)
    (hcall : ∀ calls, sentPart env calls call = [] ∧ receivedPart env calls call = [])
    (hf : ∀ a, Meets (I sent received) (f a) Q R) : Meets (I sent received) (ask call answers >>= f) Q R := by
  refine h.ask_bind hstep fun calls => ?_
  rw [(hcall calls).1, (hcall calls).2, append_nil, append_nil]
  exact hf _

theorem monotonicMillis_meets (h : Steady env held I R) :
    Meets (I sent received) (monotonicMillis env) (fun _ => I sent received) R := by
  refine h.other_bind step_other (fun _ => ⟨rfl, rfl⟩) fun now => ?_
  cases now with
  | error e => exact h.other_bind step_other (fun _ => ⟨rfl, rfl⟩) fun _ => meets_throw fun _ hw => hw
  | ok now => exact meets_pure fun _ hw => hw

theorem remainingMillis_meets (h : Steady env held I R) :
    Meets (I sent received) (remainingMillis env deadline) (fun _ => I sent received) R := by
  apply (monotonicMillis_meets _ _ h).bind _ fun _ _ hw => hw
  intro now
  exact meets_ite (fun _ => meets_pure fun _ hw => hw) fun _ => meets_pure fun _ hw => hw

theorem pollUntil_meets (h : Steady env held I R) (hfd : fd = -1 ∨ held = some fd) (event : DnsWait) :
    Meets (I sent received) (pollUntil env rounds fd event deadline) (fun _ => I sent received) R := by
  apply meets_loop (I := fun _ => I sent received) _ fun _ _ hw => h.running hw
  intro _
  apply (remainingMillis_meets _ _ h).bind _ fun _ _ hw => hw
  intro remaining
  apply meets_ite
  · exact fun _ => meets_pure fun _ hw => hw
  intro hpos
  apply h.other_bind (step_wait hfd ..) fun _ => ⟨rfl, rfl⟩
  intro answer
  cases answer with
  | complete ready => exact meets_pure fun _ hw => hw
  | failed e => exact meets_ite (fun _ => meets_pure fun _ hw => hw) fun _ => meets_throw fun _ hw => hw
  | maskedCancellation => exact meets_pure fun _ hw => hw

section

variable (h : Steady env (some fd) I R)
include h

theorem awaitReady_meets (event : DnsWait) :
    Meets (I sent received) (awaitReady env rounds fd event deadline) (fun _ => I sent received) R := by
  apply (pollUntil_meets _ _ h (.inr rfl) event).bind _ fun _ _ hw => hw
  intro ready
  exact meets_ite (fun _ => meets_pure fun _ hw => hw) fun _ => meets_throw fun _ hw => hw

/-- The bytes sent so far are those in front of the offset. -/
theorem sendAll_meets (bytes : List UInt8) : Meets (I sent received) (sendAll env rounds fd bytes deadline) (fun
      | .ok _, w => I (sent ++ bytes) received w
      | .error _, w => ∃ sent, I sent received w) R := by
  apply (meets_loop (I := fun offset w => offset ≤ bytes.length ∧ I (sent ++ bytes.take offset) received w) _
    (fun _ _ hw => h.running hw.2) rounds 0).mono (fun w hw => ⟨Nat.zero_le _, by simpa using hw⟩) fun _ _ hw => hw
  intro offset
  apply meets_of_pure
  intro hle
  apply meets_ite
  · intro hlt
    apply (remainingMillis_meets _ _ h).bind _ fun _ _ hw => ⟨_, hw⟩
    intro remaining
    apply meets_ite
    · exact fun _ => meets_throw fun _ hw => ⟨_, hw⟩
    intro hpos
    refine h.ask_bind step_use fun calls => ?_
    simp only [sentPart, receivedPart, append_nil]
    cases env.send calls with
    | complete length =>
      refine meets_ite (fun _ => meets_throw fun _ hw => ⟨_, hw⟩) fun _ => meets_ite (fun hfits => ?_) fun _ =>
        meets_throw fun _ hw => ⟨_, hw⟩
      rw [append_assoc, ← take_add]
      exact meets_pure fun w hw => ⟨by omega, hw⟩
    | failed e =>
      rw [append_nil]
      refine meets_ite (fun _ => meets_pure fun w hw => ⟨hle, hw⟩) fun _ => meets_ite (fun _ => ?_) fun _ =>
        meets_throw fun _ hw => ⟨_, hw⟩
      exact (awaitReady_meets _ _ h .writable).bind (fun _ => meets_pure fun w hw => ⟨hle, hw⟩)
        fun _ _ hw => ⟨_, hw⟩
    | maskedCancellation => exact meets_throw fun _ hw => ⟨_, hw⟩
  · intro hge
    rw [take_of_length_le (by omega)]
    exact meets_pure fun w hw => hw

/-- The bytes received so far are those in front of the offset; the slice keeps its length in each of
    the ways a round can end. -/
theorem receiveExact_meets (bytes : List UInt8) :
    Meets (I sent received) (receiveExact env rounds fd bytes deadline) (fun
      | .ok (.ok _, slice), w => slice.length = bytes.length ∧ I sent (received ++ slice) w
      | .ok (.error _, slice), w => slice.length = bytes.length ∧ ∃ received, I sent received w
      | .error _, w => ∃ received, I sent received w) R := by
  apply (meets_loop (I := fun (b : Nat × List UInt8) w => (b.2.length = bytes.length ∧ b.1 ≤ b.2.length) ∧
    I sent (received ++ b.2.take b.1) w) _ (fun _ _ hw => h.running hw.2) rounds (0, bytes)).mono
    (fun w hw => ⟨⟨rfl, Nat.zero_le _⟩, by simpa using hw⟩) fun _ _ hw => hw
  rintro ⟨offset, slice⟩
  dsimp only
  apply meets_of_pure
  rintro ⟨hlength, hle⟩
  apply meets_ite
  · intro hlt
    apply attempt_bind (awaitReady_meets _ _ h .readable)
    intro ready
    cases ready with
    | error e => exact meets_pure fun w hw => ⟨hlength, _, hw⟩
    | ok _ =>
      refine h.ask_bind step_use fun calls => ?_
      rcases hanswer : env.receiveStream calls with ⟨answer, written⟩
      simp only [sentPart, receivedPart, hanswer, append_nil]
      have hlength' := (length_received written hlt).trans hlength
      cases answer with
      | complete length =>
        refine meets_ite (fun _ => meets_pure fun w hw => ⟨hlength', _, hw⟩) fun _ => meets_ite (fun hfits => ?_) fun _ =>
          meets_pure fun w hw => ⟨hlength', _, hw⟩
        refine meets_pure fun w hw => ⟨⟨hlength', ?_⟩, ?_⟩
        · rw [length_drop] at hfits
          dsimp only
          omega
        · rwa [take_append, take_take, length_take, Nat.min_eq_left hle, Nat.add_sub_cancel_left,
            Nat.min_eq_right (Nat.le_add_right _ _), ← append_assoc]
      | failed e =>
        refine meets_ite (fun _ => meets_pure fun w hw => ⟨⟨hlength', hlength' ▸ hlength ▸ hle⟩, ?_⟩) fun _ =>
          meets_pure fun w hw => ⟨hlength', _, hw⟩
        rwa [take_append_of_le_length (by rw [length_take]; omega), take_take, Nat.min_self, ← append_nil (received ++ _)]
      | maskedCancellation => exact meets_pure fun w hw => ⟨hlength', _, hw⟩
  · intro hge
    rw [take_of_length_le (by omega)]
    exact meets_pure fun w hw => ⟨hlength, hw⟩

end

theorem steady_holds : Steady env held (fun _ _ => World.Holds held G) World.Safe where
  call call hstep hw := by
    refine ⟨?_, hw.2⟩
    rw [map_append, map_singleton, after_concat, hw.1]
    exact hstep
  running hw := hw.safe

end

theorem deadlineAfter_keeps {timeoutMs : UInt32} : Keeps held G (deadlineAfter env timeoutMs) :=
  Keeps.bind (monotonicMillis_meets [] [] steady_holds) fun _ => keeps_pure

theorem awaitReady_keeps (event : DnsWait) : Keeps (some fd) G (awaitReady env rounds fd event deadline) :=
  awaitReady_meets [] [] steady_holds event

theorem sendAll_keeps (bytes : List UInt8) : Keeps (some fd) G (sendAll env rounds fd bytes deadline) := by
  apply (sendAll_meets [] [] steady_holds bytes).mono fun _ hw => hw
  intro r w hw
  cases r with
  | ok _ => exact hw
  | error _ => exact hw.choose_spec

theorem sendDatagram_keeps : Keeps (some fd) G (sendDatagram env rounds fd bytes deadline) := by
  apply keeps_loop
  intro _
  apply Keeps.bind (remainingMillis_meets [] [] steady_holds)
  intro remaining
  apply meets_ite
  · exact fun _ => keeps_throw
  intro hpos
  apply runs_ask_bind step_use
  intro answer
  cases answer with
  | complete length => exact meets_ite (fun _ => keeps_pure) fun _ => keeps_throw
  | maskedCancellation => exact keeps_pure
  | failed e =>
    apply meets_ite
    · exact fun _ => keeps_pure
    intro _
    apply meets_ite _ fun _ => keeps_throw
    exact fun _ => (awaitReady_keeps .writable).bind fun _ => keeps_pure

theorem receiveExact_runs : Runs (World.Holds (some fd) G) (receiveExact env rounds fd bytes deadline) fun r w =>
      (∀ x, r = .ok x → x.2.length = bytes.length) ∧ World.Holds (some fd) G w := by
  apply (receiveExact_meets [] [] steady_holds bytes).mono fun _ hw => hw
  intro r w hw
  match r with
  | .ok (.ok _, _) => exact ⟨fun _ heq => ok.inj heq ▸ hw.1, hw.2⟩
  | .ok (.error _, _) => exact ⟨fun _ heq => ok.inj heq ▸ hw.1, hw.2.choose_spec⟩
  | .error _ => exact ⟨nofun, hw.choose_spec⟩

theorem receiveDatagram_runs {size : Nat} :
    Runs (World.Holds (some fd) (·.length = size)) (receiveDatagram env fd) fun r w =>
      (∀ n, r = .ok n → n ≤ size) ∧ World.Holds (some fd) (·.length = size) w := by
  apply runs_get_bind
  intro w hsize
  apply runs_ask_bind step_use
  rintro ⟨received, written⟩
  apply runs_setAnswer_bind (H := (·.length = size)) (length_overwrite.trans hsize)
  cases received with
  | complete packet =>
    apply meets_ite
    · rintro ⟨hle, -⟩
      exact meets_pure fun w hw => ⟨fun n heq => ok.inj heq ▸ hsize ▸ hle, hw⟩
    · exact fun _ => meets_throw fun w hw => ⟨nofun, hw⟩
  | maskedCancellation | failed e => exact meets_throw fun w hw => ⟨nofun, hw⟩

end Bounded

/-! ## One exchange over each transport -/

section Exchanges

variable {env : Env} {rounds : Nat} (query : List UInt8) (queryId : UInt16) (framing : RecordFraming)
  {fd deadline : Int}

/-- An answer buffer that starts with the reply, if there is one. -/
def Delivered (size : Nat) (reply : Option Nat) (answer : List UInt8) : Prop :=
  answer.length = size ∧ ∀ n, reply = some n → n ≤ size ∧ Accepted framing query queryId (answer.take n)

variable {query queryId framing} {size : Nat}

/-- The length of the reply that a program returns. -/
def replyOf (reply : α → Option Nat) : Except ε α → Option Nat
  | .ok value => reply value
  | .error _ => none

def UdpResponse.reply : UdpResponse → Option Nat
  | .complete length => some length
  | .truncated => none

theorem delivered_none (hw : w.Holds held (·.length = size)) :
    w.Holds held (Delivered query queryId framing size none) := ⟨hw.1, hw.2, nofun⟩

theorem World.Holds.sized {reply : Option Nat} (hw : w.Holds held (Delivered query queryId framing size reply)) :
    w.Holds held (·.length = size) := ⟨hw.1, hw.2.1⟩

variable {packet : List UInt8}

theorem framed_meets (hheader : 12 ≤ packet.length) {stop : Nat} : (framed framing packet stop).Meets fun b =>
      b = true → framing = .complete → CompleteRecords packet stop := by
  cases framing with
  | complete => exact (hasCompleteRecords_meets hheader).mono fun b hb htrue _ => hb htrue
  | questionMatched => exact meets_ok fun _ => nofun

theorem Correlated.header {stop : Nat} (h : Correlated packet query queryId stop) : 12 ≤ packet.length :=
  Nat.le_trans (Nat.le_of_lt h.question.header_lt) h.question.inside

theorem udpPacket_meets : (udpPacket query queryId framing packet).Meets fun o =>
      ∀ n, o = some (.complete n) → n = packet.length ∧ Accepted framing query queryId packet := by
  apply (matchingQuestionEnd_meets ..).bind
  intro found hfound
  cases found with
  | none => exact meets_ok nofun
  | some stop =>
    have hcorrelated := hfound stop rfl
    have hheader := hcorrelated.header
    apply (meets_index (by omega)).bind
    intro flags hflags
    apply Checked.meets_ite
    · exact fun _ => meets_ok nofun
    intro htc
    apply (framed_meets hheader).bind
    intro complete hcomplete
    apply Checked.meets_ite
    · intro htrue
      apply meets_ok
      rintro n ⟨⟩
      exact ⟨rfl, ⟨stop, hcorrelated, hcomplete htrue⟩, flags, hflags, Decidable.not_not.mp htc⟩
    · exact fun _ => meets_ok nofun

theorem tcpPacket_meets : (tcpPacket query queryId framing packet).Meets fun n =>
      n = packet.length ∧ Accepted framing query queryId packet := by
  apply (matchingQuestionEnd_meets ..).bind
  intro found hfound
  cases found with
  | none => exact meets_error _
  | some stop =>
    have hcorrelated := hfound stop rfl
    have hheader := hcorrelated.header
    apply (meets_index (by omega)).bind
    intro flags hflags
    apply Checked.meets_guard
    intro htc
    apply (framed_meets hheader).bind
    intro complete hcomplete
    apply Checked.meets_ite
    · intro htrue
      exact meets_ok
        ⟨rfl, ⟨stop, hcorrelated, hcomplete htrue⟩, flags, hflags, Decidable.not_not.mp htc⟩
    · exact fun _ => meets_error _

/-- The packet looked at is the front of the answer buffer. -/
theorem udpRound_runs : Runs (World.Holds (some fd) (·.length = size))
      (udpRound env rounds query queryId framing fd deadline) fun r =>
        World.Holds (some fd) (Delivered query queryId framing size
          (replyOf (fun | .again _ => none | .done response => response.reply) r)) := by
  apply bind (awaitReady_keeps .readable) _ fun _ _ => delivered_none
  intro _
  apply attempt_bind receiveDatagram_runs
  intro received
  cases received with
  | error e =>
    apply meets_ite
    · exact fun _ => meets_pure fun w hw => delivered_none hw.2
    · exact fun _ => meets_throw fun w hw => delivered_none hw.2
  | ok length =>
    apply meets_of_pure
    intro hlength
    apply runs_get_bind
    intro w hsize
    have hle : length ≤ w.answer.length := hsize ▸ hlength length rfl
    have hpacket : (Checked.slice w.answer 0 length : Checked Errno _).Meets
        (· = w.answer.take length) := by
      rw [Checked.slice_ok (Nat.zero_le _) hle, drop_zero, Nat.sub_zero]
      exact meets_ok rfl
    apply meets_lift_bind hpacket _ fun _ w' hw' => ⟨hw'.1, hw'.2 ▸ hsize, nofun⟩
    rintro packet rfl
    apply meets_lift_bind udpPacket_meets _
      fun _ w' hw' => ⟨hw'.1, hw'.2 ▸ hsize, nofun⟩
    intro found hfound
    match found with
    | none | some .truncated => exact meets_pure fun w' hw' => ⟨hw'.1, hw'.2 ▸ hsize, nofun⟩
    | some (.complete n) =>
      obtain ⟨hn, haccepted⟩ := hfound n rfl
      rw [length_take, Nat.min_eq_left hle] at hn
      subst hn
      apply meets_pure
      rintro w' ⟨hheld, hanswer⟩
      refine ⟨hheld, hanswer ▸ hsize, ?_⟩
      rintro m ⟨⟩
      exact ⟨hlength n rfl, hanswer ▸ haccepted⟩

theorem udpExchange_runs : Runs (World.Holds (some fd) (·.length = size))
      (udpExchange env rounds query queryId framing fd deadline) fun r =>
        World.Holds (some fd) (Delivered query queryId framing size
          (replyOf UdpResponse.reply r)) := by
  apply meets_loop (I := fun _ => World.Holds (some fd) (·.length = size))
  · intro _
    apply udpRound_runs.mono (fun _ hw => hw)
    intro r w hw
    match r with
    | .ok (.again _) => exact hw.sized
    | .ok (.done _) => exact hw
    | .error _ => exact hw
  · exact fun _ _ hw => hw.safe

variable {started : DnsTcpStart}

theorem tcpQueued_keeps : Keeps (some fd) G (tcpQueued env rounds query fd deadline started) := by
  cases started with
  | connected => exact keeps_pure
  | queued frameBytes =>
    apply meets_ite
    · exact fun _ => keeps_throw
    intro _
    apply meets_ite _ fun _ => keeps_pure
    exact fun _ => (awaitReady_keeps .writable).bind fun _ => keeps_pure

theorem sendFrame_keeps {queued : Nat} : Keeps (some fd) G (sendFrame env rounds query fd deadline queued) := by
  apply meets_ite
  · intro _
    exact (sendAll_keeps _).bind fun _ => sendAll_keeps _
  · exact fun _ => sendAll_keeps _

theorem receiveFrame_runs : Runs (World.Holds (some fd) (·.length = size))
      (receiveFrame env rounds query queryId framing fd deadline) fun r =>
        World.Holds (some fd) (Delivered query queryId framing size (replyOf some r)) := by
  apply bind receiveExact_runs _
    fun _ _ hw => delivered_none hw.2
  rintro ⟨received, lengthBytes⟩
  apply meets_of_pure
  intro hbytes
  have htwo : lengthBytes.length = 2 := hbytes _ rfl
  apply bind keeps_ofExcept _ fun _ _ => delivered_none
  intro _
  apply meets_lift_bind (meets_wordAt (by omega)) _ fun _ _ => delivered_none
  intro responseLength _
  apply runs_get_bind
  intro w hsize
  apply meets_ite
  · exact fun _ => meets_throw fun w' hw' => ⟨hw'.1, hw'.2 ▸ hsize, nofun⟩
  intro hrange
  have hle : responseLength.toNat ≤ w.answer.length := by omega
  apply bind receiveExact_runs _
    fun _ _ hw' => ⟨hw'.2.1, hw'.2.2 ▸ hsize, nofun⟩
  rintro ⟨received', response⟩
  apply meets_of_pure
  intro hbytes'
  have hresponse : response.length = responseLength.toNat := by
    have hlen := hbytes' _ rfl
    rwa [length_take, Nat.min_eq_left hle] at hlen
  -- from here on the buffer starts with the response
  apply runs_setAnswer_bind (H := fun answer => answer.length = size ∧ answer.take response.length = response)
  · refine ⟨?_, take_left⟩
    rw [length_append, length_drop]
    omega
  apply bind keeps_ofExcept _ fun _ _ hw => ⟨hw.1, hw.2.1, nofun⟩
  intro _
  apply meets_lift tcpPacket_meets
  · rintro n ⟨rfl, haccepted⟩ w' ⟨hheld, hlength, hfront⟩
    refine ⟨hheld, hlength, ?_⟩
    rintro m ⟨⟩
    exact ⟨by omega, hfront.symm ▸ haccepted⟩
  · exact fun _ w' hw' => ⟨hw'.1, hw'.2.1, nofun⟩

theorem tcpRoundTrip_runs : Runs (World.Holds (some fd) (·.length = size))
      (tcpRoundTrip env rounds query queryId framing fd deadline started) fun r =>
        World.Holds (some fd) (Delivered query queryId framing size (replyOf some r)) := by
  apply bind tcpQueued_keeps _
    fun _ _ => delivered_none
  intro queued
  apply bind sendFrame_keeps _ fun _ _ => delivered_none
  exact fun _ => receiveFrame_runs

theorem waitFailedStart_runs {failure : DnsTcpFailure} {e : Errno} :
    Runs (World.Holds none (·.length = size)) (waitFailedStart env rounds failure deadline e)
      fun r => World.Holds none (Delivered query queryId framing size (replyOf some r)) := by
  cases failure with
  | immediate => exact meets_throw fun _ => delivered_none
  | waitUntilDeadline =>
    apply attempt_bind (pollUntil_meets [] [] steady_holds (.inl rfl) .readable)
    exact fun _ => meets_throw fun _ => delivered_none

theorem tcpExchange_runs (target : DnsSocketAddress) : Runs (World.Holds none (·.length = size))
      (tcpExchange env rounds query queryId framing target deadline) fun r =>
        World.Holds none (Delivered query queryId framing size (replyOf some r)) := by
  apply runs_get_bind
  intro w hsize
  apply mono _ (fun w' hw' => (⟨hw'.1, hw'.2 ▸ hsize⟩ : w'.Holds none (·.length = size)))
    fun _ _ hw' => hw'
  apply meets_ite
  · exact fun _ => meets_throw fun _ => delivered_none
  intro _
  apply runs_ask_bind step_other
  intro failure
  apply runs_ask_bind step_other
  intro opened
  cases opened with
  | error e =>
    apply runs_tell_bind step_other
    exact waitFailedStart_runs
  | ok fd =>
    apply runs_open_bind
    apply runs_ask_bind step_use
    intro started
    cases started with
    | error e =>
      apply runs_close_bind
      exact waitFailedStart_runs
    | ok started =>
      apply attempt_bind
        tcpRoundTrip_runs
      intro result
      apply runs_close_bind
      exact meets_ofExcept fun _ hw => hw

end Exchanges

/-! ## The exchange -/

section Impl

variable {env : Env} {rounds : Nat} {query : List UInt8} {queryId : UInt16} {framing : RecordFraming}
  {timeoutMs : UInt32} {preserveSetupError : Bool} {size : Nat}

theorem serverSocket_runs {target : DnsSocketAddress} {deadline fd : Int} : Runs (World.Holds none (·.length = size))
      (serverSocket env rounds query queryId framing target deadline fd) fun r =>
        World.Holds none (Delivered query queryId framing size (replyOf id r)) := by
  -- every way out closes the socket first
  apply runs_open_bind
  apply runs_ask_bind step_use
  intro connected
  cases connected with
  | error e =>
    apply runs_tell_bind step_other
    apply runs_close_bind
    exact meets_pure fun _ => delivered_none
  | ok _ =>
    apply attempt_bind sendDatagram_keeps
    intro sent
    cases sent with
    | error e =>
      apply runs_close_bind
      exact meets_pure fun _ => delivered_none
    | ok _ =>
      apply attempt_bind
        udpExchange_runs
      intro response
      match response with
      | .ok (.complete n) | .error e =>
        apply runs_close_bind
        exact meets_pure fun _ hw => hw
      | .ok .truncated =>
        apply runs_close_bind
        apply attempt_bind
          ((tcpExchange_runs target).mono
            (fun _ => World.Holds.sized) fun _ _ hw => hw)
        intro result
        cases result with
        | ok n | error e => exact meets_pure fun _ hw => hw

theorem exchangeServer_runs {server : NameServer} : Runs (World.Holds none (·.length = size))
      (exchangeServer env rounds query queryId framing timeoutMs preserveSetupError server) fun r =>
        World.Holds none (Delivered query queryId framing size (replyOf id r)) := by
  rw [exchangeServer]
  cases serverAddress server with
  | none => exact meets_pure fun _ => delivered_none
  | some target =>
    apply attempt_bind deadlineAfter_keeps
    intro deadline
    cases deadline with
    | error e => exact meets_pure fun _ => delivered_none
    | ok deadline =>
      apply runs_ask_bind step_other
      intro opened
      cases opened with
      | error e =>
        apply runs_tell_bind step_other
        apply meets_ite
        · exact fun _ => meets_throw fun _ => delivered_none
        · exact fun _ => meets_pure fun _ => delivered_none
      | ok fd => exact serverSocket_runs

variable {servers : List NameServer}

theorem exchangeServers_runs : Runs (World.Holds none (·.length = size))
      (exchangeServers env rounds query queryId framing timeoutMs preserveSetupError servers)
      fun r => World.Holds none (Delivered query queryId framing size (replyOf id r)) := by
  induction servers with
  | nil => exact meets_pure fun _ => delivered_none
  | cons server servers ih =>
    apply bind exchangeServer_runs _ fun _ _ hw => hw
    intro reply
    cases reply with
    | some n => exact meets_pure fun _ hw => hw
    | none => exact ih.mono (fun _ => World.Holds.sized) fun _ _ hw => hw

theorem exchangeAttempts_runs {attempts : Nat} : Runs (World.Holds none (·.length = size))
      (exchangeAttempts env rounds query queryId framing timeoutMs preserveSetupError servers
        attempts)
      fun r => World.Holds none (Delivered query queryId framing size (replyOf some r)) := by
  induction attempts with
  | zero => exact meets_throw fun _ => delivered_none
  | succ attempts ih =>
    apply bind exchangeServers_runs _ fun _ _ hw => hw
    intro reply
    cases reply with
    | some n => exact meets_pure fun _ hw => hw
    | none => exact ih.mono (fun _ => World.Holds.sized) fun _ _ hw => hw

theorem queryOk_meets : ((queryOk query queryId).mapError ExchangeError.transport).Meets fun b =>
      b = true → wordAt query 0 = .ok queryId := by
  apply Checked.Meets.mapError
  apply Checked.meets_ite
  · exact fun _ => meets_ok nofun
  intro hheader
  apply (meets_wordAt (by omega)).bind
  intro id hid
  apply Checked.meets_ite
  · exact fun _ => meets_ok nofun
  intro hsame
  rw [Decidable.not_not] at hsame
  apply oneQuestionEnd_meets.result.bind
  exact fun _ _ => meets_ok fun _ => hsame ▸ hid

variable (env rounds query queryId framing preserveSetupError size) in
theorem exchangeImpl_runs (config : ExchangeConfig) : Runs (World.Holds none (·.length = size))
      (exchangeImpl env rounds query queryId framing preserveSetupError config) fun r w =>
        World.Holds none (Delivered query queryId framing size (replyOf some r)) w ∧
          ∀ n, r = .ok n → wordAt query 0 = .ok queryId := by
  apply runs_get_bind
  intro w hsize
  apply mono _ (fun w' hw' => (⟨hw'.1, hw'.2 ▸ hsize⟩ : w'.Holds none (·.length = size)))
    fun _ _ hw' => hw'
  apply meets_lift_bind queryOk_meets _
    fun _ _ hw => ⟨delivered_none hw, nofun⟩
  intro queryFits hquery
  apply meets_ite
  · exact fun _ => meets_throw fun _ hw => ⟨delivered_none hw, nofun⟩
  intro htests
  have hfits : queryFits = true := by
    simp only [not_or, Bool.not_eq_false] at htests
    exact htests.2.2.2.2.2
  apply exchangeAttempts_runs.mono (fun _ hw => hw)
  exact fun _ _ hw => ⟨hw, fun _ _ => hquery hfits⟩

end Impl

/-! ## The laws -/

section Laws

variable (env : Env) (rounds : Nat) (query : List UInt8) (queryId : UInt16)
  (framing : RecordFraming) (preserveSetupError : Bool) (config : ExchangeConfig)

/-- Whatever the transport and the system answer, the bytes returned are a reply to the
    query: its id, its question and no other, the response bit, opcode zero, no
    truncation, and in complete framing records that end where the bytes end. -/
theorem exchangeImpl_accepted (answer : List UInt8) (n : Nat) (w : World)
    (h : exchangeImpl env rounds query queryId framing preserveSetupError config
      { calls := [], answer } = (some (.ok n), w)) :
    w.answer.length = answer.length ∧ n ≤ answer.length ∧ wordAt query 0 = .ok queryId ∧
      Accepted framing query queryId (w.answer.take n) := by
  have hrun := exchangeImpl_runs env rounds query queryId framing preserveSetupError answer.length
    config { calls := [], answer } ⟨rfl, rfl⟩
  rw [h] at hrun
  obtain ⟨⟨-, hlength, hreply⟩, hid⟩ := hrun
  obtain ⟨hle, haccepted⟩ := hreply n rfl
  exact ⟨hlength, hle, hid n rfl, haccepted⟩

/-- The query for the address of the name `a`. -/
def addressQuery : List UInt8 := [0, 7, 1, 0, 0, 1, 0, 0, 0, 0, 0, 0, 1, 97, 0, 0, 1, 0, 1]

/-- A reply to it with one record, whose name is a pointer to the question's. -/
def addressReply : List UInt8 :=
  [0, 7, 129, 128, 0, 1, 0, 1, 0, 0, 0, 0, 1, 97, 0, 0, 1, 0, 1, 192, 12, 0, 1, 0, 1, 0, 0, 0, 60, 0, 4, 127, 0, 0, 1]

/-- A system on which every call succeeds, and a server that sends the reply. -/
def repliesAtOnce : Env where
  clockGettime _ := .ok (0, 0)
  socket _ := .ok 3
  connect _ := .ok ()
  streamStarting _ := .immediate
  wait _ := .complete true
  send _ := .complete 19
  receiveStream _ := (.complete 0, [])
  receiveDatagram _ := (.complete { length := 35, truncated := false }, addressReply)
  startTcp _ := .ok .connected

/-- One server, which is asked once. -/
def oneServer : ExchangeConfig where
  nameservers := .replicate 3
    { family := 2, address := .replicate 16 127, port := 0, scopeId := 0 }
  nameserverCount := 1
  timeoutMs := 1000
  attempts := 1

theorem exchangeImpl_accepted_address : ∃ w, exchangeImpl repliesAtOnce 1 addressQuery 7 .complete true oneServer
        { calls := [], answer := List.replicate 40 0 } = (some (.ok 35), w) ∧
      Accepted .complete addressQuery 7 (w.answer.take 35) :=
  ⟨_, rfl, (exchangeImpl_accepted repliesAtOnce 1 addressQuery 7 .complete true oneServer
    (List.replicate 40 0) 35 _ rfl).2.2.2⟩

/-- The discipline of the sockets in a run: at every moment at most one is open, each
    use is of the open one, and when the exchange returns, which it does without a
    panic, every socket opened was closed once, before the next was opened. -/
structure SocketDiscipline (run : Option (Checked ExchangeError Nat) × World) : Prop where
  disciplined : Lease.Disciplined (run.2.calls.map action)
  returned : run.1.isSome → Lease.Balanced (run.2.calls.map action) none
  noPanic : run.1 ≠ some .panic

theorem exchangeImpl_socketDiscipline (answer : List UInt8) :
    SocketDiscipline (exchangeImpl env rounds query queryId framing preserveSetupError config
      { calls := [], answer }) := by
  have hrun := exchangeImpl_runs env rounds query queryId framing preserveSetupError answer.length
    config { calls := [], answer } ⟨rfl, rfl⟩
  match hresult : exchangeImpl env rounds query queryId framing preserveSetupError config
      { calls := [], answer } with
  | (some (.ok n), w) | (some (.error e), w) =>
    rw [hresult] at hrun
    exact ⟨disciplined_of_after hrun.1.1, fun _ => balanced_of_after hrun.1.1, nofun⟩
  | (some .panic, w) =>
    rw [hresult] at hrun
    exact hrun.elim
  | (none, w) =>
    rw [hresult] at hrun
    obtain ⟨held, hheld⟩ := hrun
    exact ⟨disciplined_of_after hheld, nofun, nofun⟩

end Laws

end Crabc.Dns
