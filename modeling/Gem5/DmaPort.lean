import Gem5.Packet
import Gem5.ChunkGenerator
import Gem5.Pieces

/-!
# The DMA engine of a device in timing mode

`DmaPort` of `dma_device.cc`. An action gets a request state on the transmit list, and the engine
sends the chunks of the first one, a packet at a time. Responses come in any order.

`dmaAction`, `ddioAction` and `IdioAction` all end in `ddioActionAdq`, which is the operation here.
A number without a state in `heap` is that of a request that was freed. The last fields of the state
are a record of what was done.
-/

namespace Gem5

open Machine Function

/-- The arguments of `ddioActionAdq`. Every action has an event of its own, or none. -/
structure DmaAction where
  cmd : MemCmd
  addr : ℕ
  size : ℕ
  event : Bool
  data : Bool
  sid : ℕ
  ssid : ℕ
  delay : ℕ
  flag : RequestFlags
  isDdio : Bool
  qnum : ℤ
  deriving DecidableEq, Repr

structure DmaReqState where
  completionEvent : Bool
  totBytes : ℕ
  numBytes : ℕ
  delay : ℕ
  gen : ChunkGenerator
  data : Bool
  flags : RequestFlags
  id : ℕ
  sid : ℕ
  ssid : ℕ
  cmd : MemCmd
  isDdioReq : Bool
  adqIdx : ℤ
  deriving DecidableEq, Repr

namespace DmaReqState

def create (a : DmaAction) (id : ℕ) (gen : ChunkGenerator) : DmaReqState where
  completionEvent := a.event
  totBytes := a.size
  numBytes := 0
  delay := a.delay
  gen := gen
  data := a.data
  flags := a.flag
  id := id
  sid := a.sid
  ssid := a.ssid
  cmd := a.cmd
  isDdioReq := a.isDdio
  adqIdx := a.qnum

/-- `j` is the number of the request state. -/
def createPacket (st : DmaReqState) (j : ℕ) : Packet :=
  let req : Request := {
    paddr := st.gen.addr
    size := st.gen.size
    flags := st.flags
    requestorId := st.id
    streamId := st.sid
    substreamId := st.ssid
    taskId := 1023 }
  let pkt := Packet.ofRequest req st.cmd
  let pkt := if st.isDdioReq then
      { pkt with
        ddioPrefetchId := st.adqIdx
        ddioPrefetchDestination := st.adqIdx
        isDdioPkt := true
        isPrefetchHintPkt := decide (-1 < st.adqIdx)
        isDdioHeader := st.gen.isHead }
    else pkt
  { pkt with data := if st.data then some st.gen.complete else none, senderState := some j }

end DmaReqState

structure DmaPort where
  cacheLineSize : ℕ
  requestorId : ℕ
  clockPeriod : ℕ
  curTick : ℕ
  transmitList : List ℕ
  heap : ℕ → Option DmaReqState
  sendEvent : Option ℕ
  pendingCount : ℕ
  inRetry : Option Packet
  drainState : DrainState
  actions : List DmaAction
  sent : List Packet
  inFlight : List Packet
  answered : List Packet
  completions : List (ℕ × ℕ)

namespace DmaPort

def init (cacheLineSize requestorId clockPeriod curTick : ℕ) : DmaPort where
  cacheLineSize := cacheLineSize
  requestorId := requestorId
  clockPeriod := clockPeriod
  curTick := curTick
  transmitList := []
  heap := fun _ => none
  sendEvent := none
  pendingCount := 0
  inRetry := none
  drainState := .running
  actions := []
  sent := []
  inFlight := []
  answered := []
  completions := []

/-- A response to the packet at `index` of those that are not answered. -/
structure Answer where
  index : ℕ
  cacheResponding : Bool
  hasSharers : Bool
  deriving DecidableEq, Repr

structure Reply where
  accept : Bool
  answers : List Answer
  deriving DecidableEq, Repr

inductive Op
  | action (a : DmaAction) (r : Reply)
  | sendEvent (r : Reply)
  | recvReqRetry (r : Reply)
  | recvTimingResp (a : Answer)
  | advance (tick : ℕ)
  | drain
  | drainResume
  deriving DecidableEq, Repr

variable (s : DmaPort)

/-- The first clock edge a cycle or more from now, `clockEdge(Cycles(1))`. -/
def clockEdge : ℕ :=
  (s.curTick + (s.clockPeriod - 1)) / s.clockPeriod * s.clockPeriod + s.clockPeriod

def deref (j : ℕ) : Except Halt DmaReqState :=
  match s.heap j with
  | some st => .ok st
  | none => .error (.undefined "use of a freed DmaReqState")

def signalDrainDone : DmaPort :=
  if s.drainState = .draining then { s with drainState := .drained } else s

def signalIfIdle : DmaPort := if s.pendingCount = 0 then s.signalDrainDone else s

def received (j : ℕ) (st : DmaReqState) (numBytes : ℕ) : DmaPort :=
  { s with heap := update s.heap j (some { st with numBytes := numBytes }) }

def completed (j : ℕ) (st : DmaReqState) (delay : ℕ) : DmaPort :=
  { s with
    pendingCount := s.pendingCount - 1
    completions := if st.completionEvent then s.completions ++ [(j, s.curTick + (delay + st.delay))]
      else s.completions
    heap := update s.heap j none }

def handleResp (j size delay : ℕ) : Except Halt DmaPort := do
  let st ← s.deref j
  let numBytes := addAddr st.numBytes size
  require (numBytes ≤ st.totBytes) "state->totBytes >= state->numBytes"
  if st.totBytes = numBytes then do
    require (s.pendingCount ≠ 0) "pendingCount != 0"
    return (s.completed j st delay).signalIfIdle
  else return (s.received j st numBytes).signalIfIdle

def handleRespPacket (pkt : Packet) (delay : ℕ) : Except Halt DmaPort := do
  require (pkt.cmd.isResponse = true) "pkt->isResponse()"
  match pkt.senderState with
  | some j => s.handleResp j pkt.req.size delay
  | none => .error (.assertion "state")

def recvTimingResp (a : Answer) : Except Halt DmaPort :=
  match s.inFlight[a.index]? with
  | some p => do
    let pkt := { p with
      cmd := p.cmd.responseCommand
      cacheResponding := a.cacheResponding
      hasSharers := a.hasSharers }
    require (pkt.req.flags.uncacheable = true ∨ ¬(pkt.cacheResponding = true ∧ pkt.hasSharers = false))
      "pkt->req->isUncacheable() || !(pkt->cacheResponding() && !pkt->hasSharers())"
    handleRespPacket { s with
      inFlight := s.inFlight.eraseIdx a.index
      answered := s.answered ++ [p] } pkt 0
  | none => .error .notScheduled

def sendTimingReq (pkt : Packet) (r : Reply) : Except Halt DmaPort :=
  run recvTimingResp
    (if r.accept then { s with sent := s.sent ++ [pkt], inFlight := s.inFlight ++ [pkt] } else s)
    r.answers

/-- The packet was taken: the engine goes on to the next chunk, or to the next request after the last
one. -/
def advanceList (j : ℕ) (last : Bool) : Except Halt DmaPort :=
  if last then .ok { s with transmitList := s.transmitList.tail }
  else do
    let st ← s.deref j
    return { s with heap := update s.heap j (some { st with gen := st.gen.next.2 }) }

def scheduleSend : Except Halt DmaPort :=
  if s.transmitList = [] then .ok s
  else do
    let e ← schedule s.curTick s.sendEvent s.clockEdge
    return { s with sendEvent := e }

/-- Sends the next packet of the request `j`, which is the first of the transmit list. -/
def sendFront (j : ℕ) (r : Reply) : Except Halt DmaPort := do
  let st ← s.deref j
  let pkt := s.inRetry.getD (st.createPacket j)
  let last := st.gen.last
  let s' ← sendTimingReq { s with inRetry := none } pkt r
  if r.accept then do
    let s'' ← s'.advanceList j last
    s''.scheduleSend
  else return { s' with inRetry := some pkt }

def trySendTimingReq (r : Reply) : Except Halt DmaPort :=
  match s.transmitList with
  | [] => .error (.outOfBounds "transmitList.front()")
  | j :: _ => s.sendFront j r

def sendDma (r : Reply) : Except Halt DmaPort := do
  require (s.transmitList ≠ []) "transmitList.size()"
  if s.inRetry.isSome ∨ s.sendEvent.isSome then return s else s.trySendTimingReq r

def ddioActionAdq (a : DmaAction) (r : Reply) : Except Halt DmaPort := do
  let gen ← ChunkGenerator.create a.addr a.size s.cacheLineSize
  let j := s.actions.length
  sendDma { s with
    transmitList := s.transmitList ++ [j]
    heap := update s.heap j (some (.create a s.requestorId gen))
    pendingCount := s.pendingCount + 1
    actions := s.actions ++ [a] } r

def recvReqRetry (r : Reply) : Except Halt DmaPort := do
  require (s.transmitList ≠ []) "transmitList.size()"
  s.trySendTimingReq r

def drain : DmaPort :=
  if s.pendingCount = 0 then { s with drainState := .drained }
  else { s with drainState := .draining }

def step : Op → Except Halt DmaPort
  | .action a r => s.ddioActionAdq a r
  | .sendEvent r =>
    if s.sendEvent = some s.curTick then sendDma { s with sendEvent := none } r
    else .error .notScheduled
  -- The memory system only asks for a packet that it has rejected.
  | .recvReqRetry r => if s.inRetry.isSome then s.recvReqRetry r else .error .notScheduled
  | .recvTimingResp a => s.recvTimingResp a
  | .advance tick =>
    if s.curTick ≤ tick ∧ ∀ t ∈ s.sendEvent, tick ≤ t then .ok { s with curTick := tick }
    else .error .notScheduled
  | .drain => .ok s.drain
  | .drainResume => .ok { s with drainState := .running }

def bytes (j : ℕ) (ps : List Packet) : ℕ :=
  ((ps.filter fun p => p.senderState = some j).map Packet.size).sum

def acked (j : ℕ) : ℕ := bytes j s.answered

def sizeOf (j : ℕ) : ℕ := ((s.actions[j]?).map DmaAction.size).getD 0

def hasEvent (j : ℕ) : Bool := ((s.actions[j]?).map DmaAction.event).getD false

def unfinished : Finset ℕ :=
  (Finset.range s.actions.length).filter fun j => s.acked j < s.sizeOf j

end DmaPort

namespace DmaAction

def chunk (a : DmaAction) (id j : ℕ) (p : ℕ × ℕ) : Packet where
  cmd := a.cmd
  req := {
    paddr := p.1
    size := p.2
    flags := a.flag
    requestorId := id
    streamId := a.sid
    substreamId := a.ssid
    taskId := 1023 }
  addr := p.1
  size := p.2
  isSecure := a.flag.secure
  data := if a.data then some (p.1 - a.addr) else none
  senderState := some j
  ddioPrefetchId := if a.isDdio then a.qnum else -1
  ddioPrefetchDestination := if a.isDdio then a.qnum else -1
  isDdioPkt := a.isDdio
  isDdioHeader := a.isDdio && decide (p.1 = a.addr)
  isPrefetchHintPkt := a.isDdio && decide (-1 < a.qnum)

def packets (a : DmaAction) (cacheLineSize id j : ℕ) : List Packet :=
  (Pieces.pieces cacheLineSize a.addr a.size).map (a.chunk id j)

/-- The region is not empty and does not end after the address space, and it does not start in the
last line. -/
def Fits (a : DmaAction) (cacheLineSize : ℕ) : Prop :=
  0 < a.size ∧ a.addr + a.size < 2 ^ 64 ∧ a.addr + cacheLineSize < 2 ^ 64

instance (a : DmaAction) (c : ℕ) : Decidable (a.Fits c) :=
  inferInstanceAs (Decidable (_ ∧ _ ∧ _))

end DmaAction

namespace DmaPort

variable (s : DmaPort)

def plan : List Packet :=
  s.actions.zipIdx.flatMap fun (a, j) => a.packets s.cacheLineSize s.requestorId j

def Answer.Unmodified (a : Answer) : Prop := a.cacheResponding = true → a.hasSharers = true

instance (a : Answer) : Decidable a.Unmodified := inferInstanceAs (Decidable (_ → _))

def Allowed : Op → Prop
  | .action a r =>
    (a.cmd = .readReq ∨ a.cmd = .writeReq) ∧ a.Fits s.cacheLineSize ∧ ∀ b ∈ r.answers, b.Unmodified
  | .sendEvent r | .recvReqRetry r => ∀ b ∈ r.answers, b.Unmodified
  | .recvTimingResp a => a.Unmodified
  | .advance _ | .drain | .drainResume => True

instance : ∀ o, Decidable (s.Allowed o)
  | .action _ _ => inferInstanceAs (Decidable (_ ∧ _ ∧ _))
  | .sendEvent r | .recvReqRetry r => inferInstanceAs (Decidable (∀ b ∈ r.answers, b.Unmodified))
  | .recvTimingResp a => inferInstanceAs (Decidable a.Unmodified)
  | .advance _ | .drain | .drainResume => .isTrue trivial

end DmaPort

end Gem5
