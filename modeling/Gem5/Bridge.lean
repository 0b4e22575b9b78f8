import Gem5.Packet

/-!
# The bridge between two crossbars

`Bridge` forwards requests one way and responses the other, each after a delay. A request is accepted
only if the request queue has a place for it and, if it needs a response, a place for that can be
reserved. Both ports send in the same way (`SendPort`), in two steps, the call of the peer and its
return.
-/

namespace Gem5

open Machine

/-- A packet in a queue of the bridge, ready at a tick. `id` is the number of the request that it is, or
that it answers. -/
structure BridgePacket where
  tick : ℕ
  id : ℕ
  pkt : Packet
  deriving DecidableEq, Repr

/-- The sending side of a port: its queue, whether the peer is being called with the first packet and
whether it refused that packet and has not asked for it since, and the packets sent so far. -/
structure SendPort where
  transmitList : List BridgePacket := []
  sendEvent : Option ℕ := none
  sending : Bool := false
  refused : Bool := false
  sent : List BridgePacket := []
  deriving DecidableEq, Repr

namespace SendPort

variable (p : SendPort)

def arm (curTick tick : ℕ) : Except Halt (Option ℕ) :=
  if p.transmitList = [] then schedule curTick p.sendEvent tick else .ok p.sendEvent

def push (event : Option ℕ) (packet : BridgePacket) : SendPort :=
  { p with sendEvent := event, transmitList := p.transmitList ++ [packet] }

/-- `trySendTiming` up to the call of the peer. -/
def trySendTiming (curTick : ℕ) : Except Halt SendPort :=
  match p.transmitList with
  | [] => .error (.assertion "!transmitList.empty()")
  | packet :: _ => do
    require (packet.tick ≤ curTick) "tick <= curTick()"
    return { p with sending := true, refused := false }

def processSendEvent (curTick : ℕ) : Except Halt SendPort :=
  if p.sendEvent = some curTick then { p with sendEvent := none }.trySendTiming curTick
  else .error .notScheduled

def sendRefused : Except Halt SendPort :=
  if p.sending then .ok { p with sending := false, refused := true } else .error .notScheduled

def sendAccepted (curTick edge : ℕ) : Except Halt SendPort :=
  match p.transmitList with
  | [] => .error (.undefined "transmitList.pop_front()")
  | packet :: rest =>
    if p.sending then
      let p' := { p with sending := false, transmitList := rest, sent := p.sent ++ [packet] }
      match rest with
      | [] => .ok p'
      | next :: _ => do
        let event ← schedule curTick p.sendEvent (max next.tick edge)
        return { p' with sendEvent := event }
    else .error .notScheduled

end SendPort

/-- The bridge. `accepted` are the requests taken so far, `answered` the responses received for them,
and `owed` says that a requestor was refused and not told to retry since. -/
structure Bridge where
  clockPeriod : ℕ
  delay : ℕ
  reqQueueLimit : ℕ
  respQueueLimit : ℕ
  curTick : ℕ := 0
  reqs : SendPort := {}
  resps : SendPort := {}
  outstandingResponses : ℕ := 0
  retryReq : Bool := false
  accepted : List BridgePacket := []
  answered : List BridgePacket := []
  owed : Bool := false
  deriving DecidableEq, Repr

namespace Bridge

variable (b : Bridge)

def clockEdge (cycles : ℕ) : ℕ := Gem5.clockEdge b.clockPeriod b.curTick cycles

def respQueueFull : Bool := b.outstandingResponses = b.respQueueLimit

def reqQueueFull : Bool := b.reqs.transmitList.length = b.reqQueueLimit

def schedTimingReq (pkt : Packet) (tick : ℕ) : Except Halt Bridge := do
  let event ← b.reqs.arm b.curTick tick
  require (b.reqs.transmitList.length ≠ b.reqQueueLimit) "transmitList.size() != reqQueueLimit"
  let packet := ⟨tick, b.accepted.length, pkt⟩
  return { b with reqs := b.reqs.push event packet, accepted := b.accepted ++ [packet] }

def stall : Bridge := { b with retryReq := true, owed := true }

def recvTimingReq (pkt : Packet) (receiveDelay : ℕ) : Except Halt Bridge := do
  panicIf (pkt.cacheResponding = true) "Should not see packets where cache is responding"
  if b.retryReq then return { b with owed := true }
  else if b.reqQueueFull then return b.stall
  else if pkt.cmd.needsResponse then
    if b.respQueueFull then return b.stall
    else do
      require (b.outstandingResponses ≠ b.respQueueLimit) "outstandingResponses != respQueueLimit"
      { b with outstandingResponses := b.outstandingResponses + 1 }.schedTimingReq pkt
        (b.clockEdge b.delay + receiveDelay)
  else b.schedTimingReq pkt (b.clockEdge b.delay + receiveDelay)

def schedTimingResp (id : ℕ) (pkt : Packet) (tick : ℕ) : Except Halt Bridge := do
  let event ← b.resps.arm b.curTick tick
  let packet := ⟨tick, id, pkt⟩
  return { b with resps := b.resps.push event packet, answered := b.answered ++ [packet] }

def recvTimingResp (id : ℕ) (pkt : Packet) (receiveDelay : ℕ) : Except Halt Bridge :=
  b.schedTimingResp id pkt (b.clockEdge b.delay + receiveDelay)

def sendRetryReq : Bridge := { b with retryReq := false, owed := false }

def retryStalledReq : Bridge := if b.retryReq then b.sendRetryReq else b

/-- The rest of `trySendTiming` of the request port, after the peer took the request. -/
def reqAccepted : Except Halt Bridge := do
  let reqs ← b.reqs.sendAccepted b.curTick (b.clockEdge 0)
  return { b with reqs := reqs }.retryStalledReq

/-- The rest of `trySendTiming` of the response port, after the peer took the response. -/
def respAccepted : Except Halt Bridge := do
  require (b.outstandingResponses ≠ 0) "outstandingResponses != 0"
  let resps ← b.resps.sendAccepted b.curTick (b.clockEdge 0)
  let b' := { b with resps := resps, outstandingResponses := b.outstandingResponses - 1 }
  return if !b'.reqQueueFull && b'.retryReq then b'.sendRetryReq else b'

def advance (tick : ℕ) : Except Halt Bridge :=
  if b.curTick ≤ tick ∧ (∀ w ∈ b.reqs.sendEvent, tick ≤ w) ∧ ∀ w ∈ b.resps.sendEvent, tick ≤ w then
    .ok { b with curTick := tick }
  else .error .notScheduled

/-- The steps. `sendReq` and `sendResp` are the send events, `recvReqRetry` and `recvRespRetry` the retries
of the peers, which all call the peer, and the others are what the peers answer and ask. -/
inductive Op
  | advance (tick : ℕ)
  | recvTimingReq (pkt : Packet) (receiveDelay : ℕ)
  | recvTimingResp (id : ℕ) (pkt : Packet) (receiveDelay : ℕ)
  | sendReq
  | recvReqRetry
  | reqAccepted
  | reqRefused
  | sendResp
  | recvRespRetry
  | respAccepted
  | respRefused
  deriving DecidableEq, Repr

def step (b : Bridge) : Op → Except Halt Bridge
  | .advance tick => b.advance tick
  | .recvTimingReq pkt receiveDelay => b.recvTimingReq pkt receiveDelay
  | .recvTimingResp id pkt receiveDelay => b.recvTimingResp id pkt receiveDelay
  | .sendReq => do return { b with reqs := ← b.reqs.processSendEvent b.curTick }
  | .recvReqRetry => do return { b with reqs := ← b.reqs.trySendTiming b.curTick }
  | .reqAccepted => b.reqAccepted
  | .reqRefused => do return { b with reqs := ← b.reqs.sendRefused }
  | .sendResp => do return { b with resps := ← b.resps.processSendEvent b.curTick }
  | .recvRespRetry => do return { b with resps := ← b.resps.trySendTiming b.curTick }
  | .respAccepted => b.respAccepted
  | .respRefused => do return { b with resps := ← b.resps.sendRefused }

/-- What the peers keep to. A response is for a request that was forwarded, needs one and has not been
answered, a retry is for a packet that was refused, a call returns once, and time goes on outside of
calls. No request comes that a cache responds to. -/
def Respects (b : Bridge) : Op → Prop
  | .advance tick => (b.reqs.sending = false ∧ b.resps.sending = false) ∧ b.curTick ≤ tick
      ∧ (∀ w ∈ b.reqs.sendEvent, tick ≤ w) ∧ ∀ w ∈ b.resps.sendEvent, tick ≤ w
  | .recvTimingReq pkt _ => pkt.cacheResponding = false
  | .recvTimingResp id _ _ => (∃ r ∈ b.reqs.sent, r.id = id ∧ r.pkt.cmd.needsResponse = true)
      ∧ id ∉ b.answered.map (·.id)
  | .sendReq => b.reqs.sendEvent = some b.curTick
  | .recvReqRetry => b.reqs.refused = true
  | .reqAccepted | .reqRefused => b.reqs.sending = true
  | .sendResp => b.resps.sendEvent = some b.curTick
  | .recvRespRetry => b.resps.refused = true
  | .respAccepted | .respRefused => b.resps.sending = true

instance (b : Bridge) : DecidablePred b.Respects
  | .advance _ => inferInstanceAs (Decidable (_ ∧ _))
  | .recvTimingReq _ _ => inferInstanceAs (Decidable (_ = _))
  | .recvTimingResp _ _ _ => inferInstanceAs (Decidable (_ ∧ _))
  | .sendReq => inferInstanceAs (Decidable (_ = _))
  | .recvReqRetry => inferInstanceAs (Decidable (_ = _))
  | .reqAccepted => inferInstanceAs (Decidable (_ = _))
  | .reqRefused => inferInstanceAs (Decidable (_ = _))
  | .sendResp => inferInstanceAs (Decidable (_ = _))
  | .recvRespRetry => inferInstanceAs (Decidable (_ = _))
  | .respAccepted => inferInstanceAs (Decidable (_ = _))
  | .respRefused => inferInstanceAs (Decidable (_ = _))

end Bridge

end Gem5
