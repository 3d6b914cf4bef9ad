import NeoOS.Lib.RingBuf
import NeoOS.Lib.Serial

/-!
# TCP connections (`kernel/net/tcp.c`)

One connection block and everything that is done to it under its lock: segments, the
timer, and the calls of the socket layer. Sequence numbers are serial numbers, the two
buffers are rings. Segments are staged in `txq` and leave it one by one (`txFlush`) after
the lock is released. Each call sees one value of `timer_ticks`.

Left out are the bytes of the header with its checksum, the statistics, the state trace and
the wait queues. An incoming segment carries the value of its MSS option (`parse_mss`), 0
without one.
-/

namespace NeoOS.Tcp

open Serial (add sub)

/-- `TCP_SNDBUF`. -/
def sndbufSize : ℕ := 32768

/-- `TCP_RCVBUF`. -/
def rcvbufSize : ℕ := 32768

/-- `TCP_REASM_SEGS`. -/
def reasmSegs : ℕ := 8

/-- `TCP_REASM_MAX`. -/
def reasmMax : ℕ := 1460

/-- `TCP_BACKLOG_MAX`. -/
def backlogMax : ℕ := 8

/-- `TCP_DEFAULT_MSS`. -/
def defaultMss : ℕ := 536

/-- `TCP_MAX_MSS`. -/
def maxMss : ℕ := 1460

/-- `TIMER_HZ`. -/
def timerHz : ℕ := 100

/-- `TCP_TIMEWAIT_TICKS`. -/
def timewaitTicks : ℕ := 2 * (5 * timerHz)

/-- `TCP_RTO_MIN_TICKS`. -/
def rtoMinTicks : ℕ := timerHz / 5

/-- `TCP_RTO_MAX_TICKS`. -/
def rtoMaxTicks : ℕ := 60 * timerHz

/-- `TCP_DELACK_TICKS`. -/
def delackTicks : ℕ := timerHz / 5

/-- `TCP_MAX_RETRIES`. -/
def maxRetries : ℕ := 12

/-- `TCP_ESTABLISH_TICKS`. -/
def establishTicks : ℕ := 30 * timerHz

/-- The length of `txq`. -/
def txqMax : ℕ := 8

/-- `enum tcp_state`. -/
inductive State
  | closed | listen | synSent | synReceived | established | finWait1 | finWait2 | closeWait
  | closing | lastAck | timeWait
  deriving DecidableEq

/-- The flags of a header that the code looks at. -/
structure Flags where
  fin : Bool := false
  syn : Bool := false
  rst : Bool := false
  psh : Bool := false
  ack : Bool := false
  deriving DecidableEq

/-- A segment, with the value of its MSS option. -/
structure Seg where
  seq : ℕ
  ack : ℕ
  flags : Flags
  window : ℕ
  mss : ℕ
  data : List UInt8
  deriving DecidableEq

/-- `struct tcp_reasm`; an unused slot is `none`. -/
structure Reasm where
  seq : ℕ
  data : List UInt8
  deriving DecidableEq

/-- The round-trip estimate and the timeout it gives. -/
structure Rtt where
  srtt8 : ℕ
  rttvar8 : ℕ
  rttSeq : ℕ
  rttAt : ℕ
  rttPending : Bool
  rtoTicks : ℕ

/-- The congestion control. -/
structure Cc where
  cwnd : ℕ
  ssthresh : ℕ
  dupacks : ℕ
  recover : ℕ
  inRecovery : Bool

/-- `fin_sent`: 0, 1 (the FIN is due) and 2 (it is out). -/
inductive FinSent
  | no | due | sent
  deriving DecidableEq

/-- The errors a call returns, or leaves in `so_error`. -/
inductive Err
  | econnreset | econnrefused | etimedout | epipe | enotconn | eagain | enetunreach | eisconn | einval
  deriving DecidableEq

/-- `struct tcb`. Other blocks are named by their index in the table. -/
structure Tcb where
  state : State
  inUse : Bool
  localN : ℕ
  remoteN : ℕ
  lportN : ℕ
  rportN : ℕ
  sndUna : ℕ
  sndNxt : ℕ
  sndWnd : ℕ
  sndWl1 : ℕ
  sndWl2 : ℕ
  iss : ℕ
  rcvNxt : ℕ
  rcvWnd : ℕ
  irs : ℕ
  mss : ℕ
  snd : RingBuf UInt8
  rcv : RingBuf UInt8
  reasm : List (Option Reasm)
  rtoDeadline : ℕ
  delackDeadline : ℕ
  persistDeadline : ℕ
  timewaitDeadline : ℕ
  establishDeadline : ℕ
  rtt : Rtt
  retries : ℕ
  persistShift : ℕ
  cc : Cc
  backlog : ℕ
  acceptQ : List ℕ
  parent : Option ℕ
  sockGone : Bool
  reclaimed : Bool
  nodelay : Bool
  soError : Option Err
  finSent : FinSent
  finRcvd : Bool
  reset : Bool
  shutRd : Bool
  shutWr : Bool
  txq : List Seg

/-- What `tcp_alloc` makes of a slot; the buffers keep their bytes. -/
def Tcb.allocated (t : Tcb) : Tcb where
  state := .closed
  inUse := true
  localN := 0
  remoteN := 0
  lportN := 0
  rportN := 0
  sndUna := 0
  sndNxt := 0
  sndWnd := 0
  sndWl1 := 0
  sndWl2 := 0
  iss := 0
  rcvNxt := 0
  rcvWnd := rcvbufSize
  irs := 0
  mss := defaultMss
  snd := { t.snd with head := 0, len := 0 }
  rcv := { t.rcv with head := 0, len := 0 }
  reasm := List.replicate reasmSegs none
  rtoDeadline := 0
  delackDeadline := 0
  persistDeadline := 0
  timewaitDeadline := 0
  establishDeadline := 0
  rtt := ⟨0, 0, t.rtt.rttSeq, t.rtt.rttAt, false, rtoMinTicks * 5⟩
  retries := 0
  persistShift := 0
  cc := ⟨0, sndbufSize, 0, 0, false⟩
  backlog := 0
  acceptQ := []
  parent := none
  sockGone := false
  reclaimed := false
  nodelay := false
  soError := none
  finSent := .no
  finRcvd := false
  reset := false
  shutRd := false
  shutWr := false
  txq := []

/-! ## Output -/

/-- `tx_queue`: a full queue drops the segment. The header's window has 16 bits. -/
def txQueue (t : Tcb) (s : Seg) : Tcb :=
  if txqMax ≤ t.txq.length then t else { t with txq := t.txq ++ [{ s with window := min s.window 65535 }] }

/-- `advertised_window`. -/
def advertisedWindow (t : Tcb) : ℕ :=
  let free := rcvbufSize - t.rcv.len
  if free < t.mss ∧ free < rcvbufSize / 2 then 0 else free

/-- `send_flags`. -/
def sendFlags (t : Tcb) (flags : Flags) (seq : ℕ) : Tcb :=
  txQueue t ⟨seq, t.rcvNxt, flags, advertisedWindow t, if flags.syn then maxMss else 0, []⟩

/-- `send_flags` with `TCP_ACK` at `snd_nxt`. -/
def sendAck (t : Tcb) : Tcb := sendFlags t { ack := true } t.sndNxt

/-- The states in which `tcp_output` does anything. -/
def State.outputs : State → Bool
  | .established | .closeWait | .finWait1 | .lastAck | .closing => true
  | _ => false

/-- A deadline that is not armed yet is armed. -/
def armRto (t : Tcb) (now : ℕ) : Tcb :=
  if t.rtoDeadline = 0 then { t with rtoDeadline := now + t.rtt.rtoTicks } else t

/-- How many bytes the next round of the loop of `tcp_output` sends; `none` is a `break`. -/
def outputSize (window : ℕ) (t : Tcb) : Option ℕ :=
  let inFlight := sub t.sndNxt t.sndUna
  if txqMax - 1 ≤ t.txq.length then none
  else if window ≤ inFlight then none
  -- behind the FIN `in_flight` is one more than `snd_len`
  else if t.snd.len ≤ inFlight then none
  else
    let n := min (min (t.snd.len - inFlight) (window - inFlight)) t.mss
    -- Nagle: no small segment while anything is unacknowledged
    if !t.nodelay ∧ n < t.mss ∧ 0 < inFlight then none else some n

/-- The round: `n` bytes from `snd_nxt` on are staged. -/
def outputData (now n : ℕ) (t : Tcb) : Tcb :=
  let t := txQueue t ⟨t.sndNxt, t.rcvNxt, { ack := true, psh := true }, advertisedWindow t, 0,
    t.snd.peek sndbufSize (sub t.sndNxt t.sndUna) n⟩
  let t := if t.rtt.rttPending then t
    else { t with rtt := { t.rtt with rttPending := true, rttSeq := t.sndNxt, rttAt := now } }
  let t := armRto { t with sndNxt := add t.sndNxt n } now
  { t with delackDeadline := 0 }

/-- Every round stages a segment, so the queue's length bounds the loop. -/
def outputLoop (now window : ℕ) : ℕ → Tcb → Tcb
  | 0, t => t
  | fuel + 1, t =>
    match outputSize window t with
    | none => t
    | some n => outputLoop now window fuel (outputData now n t)

/-- The FIN goes out once everything before it has been sent. -/
def outputFin (now : ℕ) (t : Tcb) : Tcb :=
  if t.finSent = .due ∧ t.sndNxt = add t.sndUna t.snd.len then
    let t := sendFlags t { fin := true, ack := true } t.sndNxt
    armRto { t with sndNxt := add t.sndNxt 1, finSent := .sent } now
  else t

/-- `tcp_output`. -/
def tcpOutput (now : ℕ) (t : Tcb) : Tcb :=
  if t.state.outputs then
    outputFin now (outputLoop now (min t.sndWnd t.cc.cwnd) txqMax t)
  else t

/-! ## Congestion control and round-trip time -/

/-- `cc_init`. -/
def ccInit (mss : ℕ) (c : Cc) : Cc :=
  { c with cwnd := 2 * mss, ssthresh := sndbufSize, dupacks := 0, inRecovery := false }

/-- `cc_on_ack`. -/
def ccOnAck (mss acked : ℕ) (c : Cc) : Cc :=
  if c.inRecovery then { c with cwnd := c.ssthresh, inRecovery := false, dupacks := 0 }
  else
    let cwnd :=
      if c.cwnd < c.ssthresh then add c.cwnd (min acked mss)
      else
        let inc := mss * mss / (if c.cwnd = 0 then 1 else c.cwnd)
        add c.cwnd (if inc = 0 then 1 else inc)
    { c with cwnd := min cwnd sndbufSize }

/-- `ssthresh` after a loss. -/
def lossThresh (mss flight : ℕ) : ℕ := max (flight / 2) (2 * mss)

/-- `cc_on_timeout`. -/
def ccOnTimeout (mss flight : ℕ) (c : Cc) : Cc :=
  { c with ssthresh := lossThresh mss flight, cwnd := mss, inRecovery := false, dupacks := 0 }

/-- `cc_on_dupack`; the flag asks for a retransmission. -/
def ccOnDupack (mss flight sndNxt : ℕ) (c : Cc) : Cc × Bool :=
  let c := { c with dupacks := add c.dupacks 1 }
  if c.inRecovery then ({ c with cwnd := add c.cwnd mss }, false)
  else if c.dupacks = 3 then
    let thresh := lossThresh mss flight
    ({ c with ssthresh := thresh, cwnd := thresh + 3 * mss, inRecovery := true, recover := sndNxt }, true)
  else (c, false)

/-- The bytes that are out and not acknowledged; the FIN is not one of them. -/
def outstanding (t : Tcb) : ℕ :=
  let n := sub t.sndNxt t.sndUna
  if t.finSent = .sent ∧ n = t.snd.len + 1 then n - 1 else n

/-- `retransmit`: the first unacknowledged segment. -/
def retransmit (t : Tcb) : Tcb :=
  if outstanding t = 0 then
    if t.finSent = .sent then sendFlags t { fin := true, ack := true } (sub t.sndNxt 1) else t
  else
    txQueue { t with rtt := { t.rtt with rttPending := false } }
      ⟨t.sndUna, t.rcvNxt, { ack := true, psh := true }, advertisedWindow t, 0,
        t.snd.peek sndbufSize 0 (min (outstanding t) t.mss)⟩

/-- The value of a 32-bit pattern as `int32_t`. -/
def int32 (a : ℤ) : ℤ := (a + 2147483648) % 4294967296 - 2147483648

/-- The bits of an `int32_t`. -/
def uint32 (a : ℤ) : ℕ := (a % 4294967296).toNat

/-- `rtt_sample`, in eighths of a tick. -/
def rttSample (measured : ℕ) (r : Rtt) : Rtt :=
  let m8 := measured * 8 % Serial.size
  let r :=
    if r.srtt8 = 0 then { r with srtt8 := m8, rttvar8 := m8 / 2 }
    else
      let err := int32 (int32 m8 - int32 r.srtt8)
      let absErr := if err < 0 then int32 (-err) else err
      { r with
        rttvar8 := uint32 (int32 r.rttvar8 + (int32 (absErr - int32 r.rttvar8)).tdiv 4)
        srtt8 := uint32 (int32 r.srtt8 + err.tdiv 8) }
  let rto := add r.srtt8 (4 * r.rttvar8) / 8
  { r with rtoTicks := min (max rto rtoMinTicks) rtoMaxTicks }

/-! ## Receive -/

/-- `deliver`: in-order bytes go to the receive ring, as far as there is room. -/
def deliver (t : Tcb) (data : List UInt8) : Tcb :=
  let data := data.take (rcvbufSize - t.rcv.len)
  { t with rcv := t.rcv.push rcvbufSize data, rcvNxt := add t.rcvNxt data.length }

/-- One slot in a pass of `drain_reasm`; the flag says that something was delivered. -/
def drainSlot (t : Tcb) (i : ℕ) : Tcb × Bool :=
  match (t.reasm[i]?).join with
  | none => (t, false)
  | some r =>
    if Serial.le r.seq t.rcvNxt && Serial.gt (add r.seq r.data.length) t.rcvNxt then
      ({ deliver t (r.data.drop (sub t.rcvNxt r.seq)) with reasm := t.reasm.set i none }, true)
    else if Serial.le (add r.seq r.data.length) t.rcvNxt then ({ t with reasm := t.reasm.set i none }, false)
    else (t, false)

/-- The body of the loop over the slots; the flag is `moved`. -/
def drainRound (r : Tcb × Bool) (i : ℕ) : Tcb × Bool :=
  let d := drainSlot r.1 i
  (d.1, r.2 || d.2)

/-- One pass over the slots. -/
def drainPass (t : Tcb) : Tcb × Bool := (List.range reasmSegs).foldl drainRound (t, false)

/-- `drain_reasm`: passes until nothing moves. A pass that moves frees a slot, so there are
at most `reasmSegs + 1`. -/
def drainLoop : ℕ → Tcb → Tcb
  | 0, t => t
  | fuel + 1, t =>
    let r := drainPass t
    if r.2 then drainLoop fuel r.1 else r.1

def drainReasm (t : Tcb) : Tcb := drainLoop (reasmSegs + 1) t

/-- `queue_reasm`: a duplicate and a ninth segment are dropped. -/
def queueReasm (t : Tcb) (seq : ℕ) (data : List UInt8) : Tcb :=
  if t.reasm.any fun r => r.any fun r => r.seq == seq then t
  else match t.reasm.findIdx? Option.isNone with
    | none => t
    | some i => { t with reasm := t.reasm.set i (some ⟨seq, data.take reasmMax⟩) }

/-- `enter_closed`. -/
def enterClosed (t : Tcb) (err : Option Err) : Tcb :=
  { t with state := .closed, soError := err, rtoDeadline := 0, delackDeadline := 0, persistDeadline := 0,
           establishDeadline := 0 }

/-! ## Segments -/

/-- A RST: the error depends on whether the connection was ever established. -/
def segRst (t : Tcb) : Tcb :=
  enterClosed { t with reset := true }
    (some (if t.state = .synSent ∨ t.state = .synReceived then .econnrefused else .econnreset))

/-- The MSS the peer's option asks for. -/
def segMss (s : Seg) (t : Tcb) : ℕ := if s.mss = 0 then t.mss else min s.mss maxMss

/-- The answer to our SYN has arrived. -/
def segConnected (now : ℕ) (s : Seg) (t : Tcb) : Tcb :=
  let t := { t with irs := s.seq, rcvNxt := add s.seq 1, sndUna := s.ack, sndWnd := s.window, mss := segMss s t }
  let t := { t with cc := ccInit t.mss t.cc, state := .established, establishDeadline := 0, rtoDeadline := 0 }
  let t := if t.rtt.rttPending
    then { t with rtt := { rttSample (now - t.rtt.rttAt) t.rtt with rttPending := false } } else t
  sendAck t

/-- A segment in `SYN_SENT`. -/
def segSynSent (now : ℕ) (s : Seg) (t : Tcb) : Tcb :=
  if s.flags.syn ∧ s.flags.ack then
    if !Serial.ge s.ack (add t.iss 1) ∨ Serial.gt s.ack t.sndNxt then t else segConnected now s t
  else if s.flags.syn then
    -- simultaneous open
    sendFlags { t with irs := s.seq, rcvNxt := add s.seq 1, state := .synReceived } { syn := true, ack := true } t.iss
  else t

/-- The acceptability test: the segment overlaps the receive window. -/
def acceptable (s : Seg) (t : Tcb) : Bool :=
  let win := if t.rcvWnd = 0 then 1 else t.rcvWnd
  let inside := Serial.ge s.seq t.rcvNxt && Serial.lt s.seq (add t.rcvNxt win)
  if s.data = [] then if t.rcvWnd = 0 then s.seq == t.rcvNxt else inside
  else inside || (Serial.lt s.seq t.rcvNxt && Serial.gt (add s.seq s.data.length) t.rcvNxt)

/-- The handshake of a passive open is complete. -/
def segEstablished (s : Seg) (t : Tcb) : Tcb :=
  { t with sndUna := s.ack, sndWnd := s.window, cc := ccInit t.mss t.cc, state := .established,
           establishDeadline := 0, rtoDeadline := 0 }

/-- An ACK that moves `snd_una`. -/
def segAcked (now : ℕ) (s : Seg) (t : Tcb) : Tcb :=
  let acked := sub s.ack t.sndUna
  -- the FIN's number is not data
  let dataAcked := if t.finSent = .sent ∧ Serial.ge s.ack (add t.sndUna (t.snd.len + 1)) then t.snd.len else acked
  let t := { t with sndUna := s.ack, snd := t.snd.skip sndbufSize dataAcked, retries := 0,
                    cc := { t.cc with dupacks := 0 }, persistShift := 0 }
  let t := if t.rtt.rttPending ∧ Serial.ge s.ack t.rtt.rttSeq
    then { t with rtt := { rttSample (now - t.rtt.rttAt) t.rtt with rttPending := false } } else t
  { t with cc := ccOnAck t.mss acked t.cc,
           rtoDeadline := if t.sndUna = t.sndNxt then 0 else now + t.rtt.rtoTicks }

/-- The acknowledgement of a segment. -/
def segAck (now : ℕ) (s : Seg) (t : Tcb) : Tcb :=
  if Serial.gt s.ack t.sndUna && Serial.le s.ack t.sndNxt then segAcked now s t
  else if s.ack = t.sndUna ∧ s.data = [] ∧ t.sndUna ≠ t.sndNxt then
    let c := ccOnDupack t.mss (sub t.sndNxt t.sndUna) t.sndNxt t.cc
    let t := { t with cc := c.1 }
    if c.2 then retransmit t else t
  else t

/-- The window update. -/
def segWindow (now : ℕ) (s : Seg) (t : Tcb) : Tcb :=
  if Serial.lt t.sndWl1 s.seq || (t.sndWl1 == s.seq && Serial.le t.sndWl2 s.ack) then
    { t with sndWnd := s.window, sndWl1 := s.seq, sndWl2 := s.ack,
             persistDeadline :=
               if s.window = 0 then if t.sndWnd = 0 then t.persistDeadline else now + t.rtt.rtoTicks else 0 }
  else t

/-- The data of a segment. -/
def segData (now : ℕ) (s : Seg) (t : Tcb) : Tcb :=
  if s.data = [] then t
  else if s.seq = t.rcvNxt then
    let t := drainReasm (deliver t s.data)
    if t.delackDeadline = 0 then { t with delackDeadline := now + delackTicks }
    else sendAck { t with delackDeadline := 0 }
  else if Serial.gt s.seq t.rcvNxt then sendAck (queueReasm t s.seq s.data)
  else sendAck t

/-- What a FIN does to the state. -/
def finState (now : ℕ) (t : Tcb) : Tcb :=
  match t.state with
  | .established => { t with state := .closeWait }
  | .finWait1 => { t with state := .closing }
  | .finWait2 => { t with state := .timeWait, timewaitDeadline := now + timewaitTicks }
  | _ => t

/-- The FIN of a segment. -/
def segFin (now : ℕ) (s : Seg) (t : Tcb) : Tcb :=
  if s.flags.fin && Serial.le s.seq t.rcvNxt && Serial.ge (add s.seq s.data.length) t.rcvNxt then
    finState now (sendAck { t with finRcvd := true, rcvNxt := add t.rcvNxt 1 })
  else t

/-- The transitions the ACK alone drives, and the output at the end. -/
def segClose (now : ℕ) (t : Tcb) : Tcb :=
  if t.state = .finWait1 ∧ t.finSent = .sent ∧ Serial.ge t.sndUna t.sndNxt then
    tcpOutput now (if t.finRcvd then { t with state := .timeWait, timewaitDeadline := now + timewaitTicks }
      else { t with state := .finWait2 })
  else if t.state = .closing ∧ Serial.ge t.sndUna t.sndNxt then
    tcpOutput now { t with state := .timeWait, timewaitDeadline := now + timewaitTicks }
  else if t.state = .lastAck ∧ Serial.ge t.sndUna t.sndNxt then enterClosed t none
  else tcpOutput now t

/-- What follows the handshake. -/
def segRest (now : ℕ) (s : Seg) (t : Tcb) : Tcb :=
  segClose now (segFin now s (segData now s (segWindow now s (segAck now s t))))

/-- `tcp_segment`. The flag says that the block joins its listener's backlog. -/
def tcpSegment (now : ℕ) (s : Seg) (t : Tcb) : Tcb × Bool :=
  if s.flags.rst then (segRst t, false)
  else if t.state = .synSent then (segSynSent now s t, false)
  else if t.state ≠ .listen ∧ !acceptable s t then (sendAck t, false)
  else if !s.flags.ack then (t, false)
  else if t.state = .synReceived then
    if Serial.ge s.ack t.sndUna && Serial.le s.ack t.sndNxt then
      (segRest now s (segEstablished s t), t.parent.isSome)
    else (txQueue t ⟨s.ack, 0, { rst := true }, 0, 0, []⟩, false)
  else (segRest now s t, false)

/-- Our SYN goes out and takes one number. -/
def sendSyn (now : ℕ) (flags : Flags) (t : Tcb) : Tcb :=
  let t := sendFlags t flags t.iss
  { t with sndNxt := add t.sndNxt 1, rtoDeadline := now + t.rtt.rtoTicks }

/-- The block `tcp_input` makes for a SYN to a listener; `rand` is the random number. -/
def passiveOpen (now rand dst src dport sport listener : ℕ) (s : Seg) (old : Tcb) : Tcb :=
  let t := old.allocated
  let iss := rand % Serial.size
  sendSyn now { syn := true, ack := true }
    { t with localN := dst, remoteN := src, lportN := dport, rportN := sport, irs := s.seq, rcvNxt := add s.seq 1,
             iss := iss, sndUna := iss, sndNxt := iss, sndWnd := s.window, parent := some listener, mss := segMss s t,
             state := .synReceived, establishDeadline := now + establishTicks }

/-! ## The timer -/

/-- `tcp_release`. -/
def tcpRelease (t : Tcb) : Tcb :=
  if t.reclaimed then t else { t with reclaimed := true, state := .closed, inUse := false }

/-- Exponential backoff, clamped. -/
def rtoBackoff (now : ℕ) (t : Tcb) : Tcb :=
  let rto := min (t.rtt.rtoTicks * 2) rtoMaxTicks
  { t with cc := ccOnTimeout t.mss (sub t.sndNxt t.sndUna) t.cc, rtt := { t.rtt with rtoTicks := rto },
           rtoDeadline := now + rto }

/-- What the retransmission timer sends. -/
def rtoResend (t : Tcb) : Tcb :=
  if t.state = .synSent then sendFlags t { syn := true } t.iss
  else if t.state = .synReceived then sendFlags t { syn := true, ack := true } t.iss
  else retransmit t

/-- The retransmission timer has fired; after `TCP_MAX_RETRIES` times the connection is given up. -/
def rtoFired (now : ℕ) (t : Tcb) : Tcb × Bool :=
  let t := { t with retries := (t.retries + 1) % 256 }
  if maxRetries < t.retries then (enterClosed t (some .etimedout), true)
  else (rtoResend (rtoBackoff now t), false)

/-- The retransmission timer; the flag says that it gave up. -/
def rtoCheck (now : ℕ) (t : Tcb) : Tcb × Bool :=
  if t.rtoDeadline ≠ 0 ∧ t.rtoDeadline ≤ now then rtoFired now t else (t, false)

/-- The delayed ACK. -/
def delackFired (now : ℕ) (t : Tcb) : Tcb :=
  if t.delackDeadline ≠ 0 ∧ t.delackDeadline ≤ now then sendAck { t with delackDeadline := 0 } else t

/-- The next zero-window probe is due later. -/
def persistBackoff (now : ℕ) (t : Tcb) : Tcb :=
  let shift := (t.persistShift + 1) % 256
  { t with persistShift := shift, persistDeadline := now + min (t.rtt.rtoTicks * 2 ^ min shift 6) rtoMaxTicks }

/-- The zero-window probe: one byte, or an old number if there is none. -/
def persistProbe (t : Tcb) : Tcb :=
  let inFlight := sub t.sndNxt t.sndUna
  if inFlight < t.snd.len then
    txQueue t ⟨t.sndNxt, t.rcvNxt, { ack := true }, advertisedWindow t, 0, t.snd.peek sndbufSize inFlight 1⟩
  else sendFlags t { ack := true } (sub t.sndNxt 1)

/-- The persist timer. -/
def persistFired (now : ℕ) (t : Tcb) : Tcb :=
  if t.persistDeadline ≠ 0 ∧ t.persistDeadline ≤ now then persistProbe (persistBackoff now t) else t

/-- The body of the loop of `tcp_timer_tick`, for one block. -/
def tcpTimer (now : ℕ) (t : Tcb) : Tcb :=
  if !t.inUse then t
  else if t.timewaitDeadline ≠ 0 ∧ t.timewaitDeadline ≤ now then
    enterClosed { t with timewaitDeadline := 0 } none
  else if t.sockGone ∧ t.state = .closed ∧ !t.reclaimed then tcpRelease t
  else if t.establishDeadline ≠ 0 ∧ t.establishDeadline ≤ now then
    enterClosed { t with establishDeadline := 0 } (some .etimedout)
  else
    let r := rtoCheck now t
    if r.2 then r.1 else persistFired now (delackFired now r.1)

/-! ## The calls of the socket layer -/

/-- What `tcp_connect` writes before the SYN goes out. -/
def connecting (now rand dev dst dport : ℕ) (t : Tcb) : Tcb :=
  let iss := rand % Serial.size
  { t with localN := dev, remoteN := dst, rportN := dport, iss := iss, sndUna := iss, sndNxt := iss,
           sndWnd := sndbufSize, cc := ccInit t.mss t.cc, state := .synSent, establishDeadline := now + establishTicks,
           rtt := { t.rtt with rttPending := true, rttSeq := iss, rttAt := now } }

/-- `tcp_connect`; `route` is the address of the device, `rand` the random number. -/
def tcpConnect (now rand : ℕ) (route : Option ℕ) (dst dport : ℕ) (t : Tcb) : Tcb × Except Err Unit :=
  match route with
  | none => (t, .error .enetunreach)
  | some dev =>
    if t.state ≠ .closed then (t, .error .eisconn)
    else (sendSyn now { syn := true } (connecting now rand dev dst dport t), .ok ())

/-- `tcp_listen`. -/
def tcpListen (backlog : ℤ) (t : Tcb) : Tcb × Except Err Unit :=
  if t.state ≠ .closed ∧ t.state ≠ .listen then (t, .error .einval)
  else ({ t with backlog := (min (max backlog 1) backlogMax).toNat, state := .listen }, .ok ())

/-- `tcp_send`: the number of bytes accepted. -/
def tcpSend (now : ℕ) (data : List UInt8) (t : Tcb) : Tcb × Except Err ℕ :=
  if t.reset then (t, .error .econnreset)
  else if t.shutWr then (t, .error .epipe)
  else if t.state ≠ .established ∧ t.state ≠ .closeWait then (t, .error .enotconn)
  else
    let n := min data.length (sndbufSize - t.snd.len)
    (tcpOutput now { t with snd := t.snd.push sndbufSize (data.take n) }, .ok n)

/-- `tcp_recv`: the bytes read. -/
def tcpRecv (len : ℕ) (t : Tcb) : Tcb × Except Err (List UInt8) :=
  if t.rcv.len ≠ 0 then
    let n := min len t.rcv.len
    let out := t.rcv.peek rcvbufSize 0 n
    let t := { t with rcv := t.rcv.skip rcvbufSize n }
    (if advertisedWindow t ≠ 0 then sendAck t else t, .ok out)
  else if t.reset then (t, .error .econnreset)
  else if t.finRcvd ∨ t.shutRd ∨ t.state = .closed then (t, .ok [])
  else (t, .error .eagain)

/-- Where a shutdown of the write side leads. -/
def shutdownState : State → State
  | .established => .finWait1
  | .closeWait => .lastAck
  | s => s

/-- What `tcp_shutdown_write` writes before the output. -/
def shuttingDown (t : Tcb) : Tcb := { t with shutWr := true, finSent := .due, state := shutdownState t.state }

/-- `tcp_shutdown_write`. -/
def tcpShutdownWrite (now : ℕ) (t : Tcb) : Tcb :=
  if t.shutWr ∨ t.finSent ≠ .no then t else tcpOutput now (shuttingDown t)

/-- `tcp_close`, but for the connections in the backlog of a listener. The flag says that
`tcp_release` follows once the staged segments are out. -/
def tcpClose (now : ℕ) (t : Tcb) : Tcb × Bool :=
  let t := { t with sockGone := true }
  match t.state with
  | .established | .closeWait => (tcpShutdownWrite now t, false)
  | .listen => ({ t with acceptQ := [], state := .closed }, true)
  | .closed => (t, true)
  | .synSent => ({ sendFlags t { rst := true } t.sndNxt with state := .closed }, true)
  | _ => (t, false)

/-- What `tcp_close` of a listener does to a connection nobody accepted, before its
`tcp_release`. -/
def closeOrphan (t : Tcb) : Tcb :=
  let t := { t with sockGone := true }
  { sendFlags t { rst := true } t.sndNxt with state := .closed }

/-- One round of `tcp_tx_flush`: the first staged segment is sent. -/
def txFlush (t : Tcb) : Tcb × Option Seg :=
  match t.txq with
  | [] => (t, none)
  | s :: q => ({ t with txq := q }, some s)

/-! ## A connection over time -/

/-- A block with its history: the bytes `tcp_recv` has returned, the bytes `tcp_send` has
accepted and the segments that were transmitted. `releasing` is set while a `tcp_close` has
its `tcp_release` still to do. -/
structure Conn where
  t : Tcb
  got : List UInt8 := []
  accepted : List UInt8 := []
  log : List Seg := []
  releasing : Bool := false

/-- What can happen to a block: a segment for it, a pass of the timer, a staged segment that
leaves, and the calls of the socket layer. -/
inductive Event
  | segment (s : Seg)
  | timer
  | flush
  | connect (rand : ℕ) (route : Option ℕ) (dst dport : ℕ)
  | listen (backlog : ℤ)
  | send (data : List UInt8)
  | recv (len : ℕ)
  | shutdownRead
  | shutdownWrite
  | nodelay (on : Bool)
  | close
  | release

/-- What a call of `tcp_recv` hands over. -/
def received : Except Err (List UInt8) → List UInt8
  | .ok out => out
  | .error _ => []

/-- What a call of `tcp_send` takes. -/
def taken (data : List UInt8) : Except Err ℕ → List UInt8
  | .ok n => data.take n
  | .error _ => []

/-- One event, at the time `e.1`. -/
def step (c : Conn) (e : ℕ × Event) : Conn :=
  match e.2 with
  | .segment s => { c with t := (tcpSegment e.1 s c.t).1 }
  | .timer => { c with t := tcpTimer e.1 c.t }
  | .flush => { c with t := (txFlush c.t).1, log := c.log ++ (txFlush c.t).2.toList }
  | .connect rand route dst dport => { c with t := (tcpConnect e.1 rand route dst dport c.t).1 }
  | .listen backlog => { c with t := (tcpListen backlog c.t).1 }
  | .send data =>
    { c with t := (tcpSend e.1 data c.t).1, accepted := c.accepted ++ taken data (tcpSend e.1 data c.t).2 }
  | .recv len => { c with t := (tcpRecv len c.t).1, got := c.got ++ received (tcpRecv len c.t).2 }
  | .shutdownRead => { c with t := { c.t with shutRd := true } }
  | .shutdownWrite => { c with t := tcpShutdownWrite e.1 c.t }
  | .nodelay on => { c with t := { c.t with nodelay := on } }
  | .close => { c with t := (tcpClose e.1 c.t).1, releasing := c.releasing || (tcpClose e.1 c.t).2 }
  | .release => if c.releasing then { c with t := tcpRelease c.t, releasing := false } else c

end NeoOS.Tcp
