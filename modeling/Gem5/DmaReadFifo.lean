import Gem5.DmaAtomic

/-!
# The read FIFO of a DMA device

`DmaReadFifo` of `dma_device.cc`. Reads are done in any order and hand over their bytes in the order
they were sent in. A read that was canceled is on its way until it is done, and its bytes are
dropped. In the mode that bypasses the caches a read is done at once.

`due` (the addresses asked for, not given up and not taken out) and `delivered` are history.
-/

namespace Gem5

open Machine Bytes

/-- A size that is handed over as an `int` and taken as an unsigned number of 64 bits. -/
def intToAddr (n : ℕ) : ℕ :=
  if n % 2 ^ 32 < 2 ^ 31 then n % 2 ^ 32 else n % 2 ^ 32 + (2 ^ 64 - 2 ^ 32)

structure DmaDoneEvent where
  addr : ℕ
  requestSize : ℕ
  done : Bool
  canceled : Bool
  data : List Byte
  deriving DecidableEq, Repr

def blockAddrs (start size : ℕ) : List ℕ := (List.range size).map (addAddr start)

namespace DmaDoneEvent

variable (e : DmaDoneEvent)

def addrs : List ℕ := blockAddrs e.addr e.requestSize

def cancel : DmaDoneEvent := { e with canceled := true }

def complete (mem : ℕ → Byte) : DmaDoneEvent := { e with done := true, data := e.addrs.map mem }

end DmaDoneEvent

structure DmaReadFifo where
  maxReqSize : ℕ
  fifoSize : ℕ
  drainState : DrainState
  buffer : List Byte
  nextAddr : ℕ
  endAddr : ℕ
  pendingRequests : List DmaDoneEvent
  freeRequests : ℕ
  due : List ℕ
  delivered : List (ℕ × Byte)
  deriving DecidableEq, Repr

namespace DmaReadFifo

def init (size maxReqSize maxPending : ℕ) : DmaReadFifo :=
  ⟨maxReqSize, size, .running, [], 0, 0, [], maxPending, [], []⟩

variable (f : DmaReadFifo)

def atEndOfBlock : Bool := f.nextAddr = f.endAddr

def isActive : Bool := !(f.pendingRequests.isEmpty && f.atEndOfBlock)

def sizePending : ℕ := (f.pendingRequests.map DmaDoneEvent.requestSize).sum

def write (data : List Byte) : Except Halt DmaReadFifo := do
  panicIf (f.buffer.length + data.length > f.fifoSize) "Trying to overfill FIFO buffer."
  return { f with buffer := f.buffer ++ data }

def sendRead (reqSize : ℕ) : DmaReadFifo :=
  { f with
    nextAddr := addAddr f.nextAddr reqSize
    pendingRequests := f.pendingRequests ++ [⟨f.nextAddr, reqSize, false, false, []⟩] }

/-- The loop of `resumeFillTiming`, with the free requests. -/
def fillLoop : ℕ → ℕ → DmaReadFifo → Except Halt DmaReadFifo
  | 0, _, f => .ok { f with freeRequests := 0 }
  | free + 1, sizePending, f =>
    let reqSize := min f.maxReqSize (subAddr f.endAddr f.nextAddr)
    if f.atEndOfBlock ∨ f.buffer.length + sizePending + reqSize > f.fifoSize then
      .ok { f with freeRequests := free + 1 }
    else do
      require (reqSize ≤ f.maxReqSize) "size <= _data.size()"
      fillLoop free (sizePending + reqSize) (f.sendRead reqSize)

def resumeFillTiming : Except Halt DmaReadFifo := fillLoop f.freeRequests f.sizePending f

def resumeFill : Except Halt DmaReadFifo :=
  if f.drainState = .draining then .ok f else f.resumeFillTiming

def setBlock (start size : ℕ) : DmaReadFifo :=
  { f with
    nextAddr := start
    endAddr := addAddr start size
    due := f.due ++ blockAddrs start size }

def startFill (start size : ℕ) : Except Halt DmaReadFifo := do
  require (f.atEndOfBlock = true) "atEndOfBlock()"
  (f.setBlock start size).resumeFill

def stopFill : DmaReadFifo :=
  { f with
    nextAddr := f.endAddr
    pendingRequests := f.pendingRequests.map DmaDoneEvent.cancel
    due := f.due.take f.buffer.length }

def flush : DmaReadFifo := { f with buffer := [], due := f.due.drop f.buffer.length }

def read (len : ℕ) : DmaReadFifo :=
  { f with
    buffer := f.buffer.drop len
    due := f.due.drop len
    delivered := f.delivered ++ (f.due.take len).zip (f.buffer.take len) }

def tryGet (len : ℕ) : Except Halt (Bool × DmaReadFifo) :=
  if len ≤ f.buffer.length then do return (true, ← (f.read len).resumeFill)
  else .ok (false, f)

def get (len : ℕ) : Except Halt DmaReadFifo := do
  let r ← f.tryGet len
  panicIf (r.1 = false) "Buffer underrun in DmaReadFifo::get()"
  return r.2

def finish (e : DmaDoneEvent) : Except Halt DmaReadFifo :=
  if e.canceled then .ok f else f.write e.data

def handleLoop : List DmaDoneEvent → DmaReadFifo → Except Halt DmaReadFifo
  | [], f => .ok { f with pendingRequests := [] }
  | e :: es, f =>
    if e.done then do
      let f' ← f.finish e
      handleLoop es { f' with freeRequests := f'.freeRequests + 1 }
    else .ok { f with pendingRequests := e :: es }

def signalDrainDone : DmaReadFifo :=
  if f.drainState = .draining then { f with drainState := .drained } else f

def signalIfIdle : DmaReadFifo := if f.pendingRequests = [] then f.signalDrainDone else f

def handlePending : Except Halt DmaReadFifo := do
  return (← handleLoop f.pendingRequests f).signalIfIdle

def dmaDone : Except Halt DmaReadFifo := do
  let f' ← f.handlePending
  f'.resumeFill

def drain : DmaReadFifo :=
  { f with drainState := if f.pendingRequests = [] then .drained else .draining }

inductive Op
  | startFill (start size : ℕ)
  | stopFill
  | tryGet (len : ℕ)
  | get (len : ℕ)
  | flush
  | complete (index : ℕ)
  | drain
  | drainResume
  deriving DecidableEq, Repr

def setDone (mem : ℕ → Byte) (index : ℕ) (e : DmaDoneEvent) : DmaReadFifo :=
  { f with pendingRequests := f.pendingRequests.set index (e.complete mem) }

/-- `DmaDoneEvent::process` of a read. The engine has put its bytes into the data of the event,
which are as many as the greatest read has. -/
def process (mem : ℕ → Byte) (index : ℕ) : Except Halt DmaReadFifo :=
  match f.pendingRequests[index]? with
  | none => .error .notScheduled
  | some e =>
    if e.done then .error .notScheduled
    else do
      inBounds (intToAddr e.requestSize ≤ f.maxReqSize) "event->data()"
      (f.setDone mem index e).dmaDone

/-- The operations of the device and the completions of its reads, in timing mode. What a device
does in `onEndOfBlock` is the next operation. -/
def step (mem : ℕ → Byte) (f : DmaReadFifo) : Op → Except Halt DmaReadFifo
  | .startFill start size =>
    if start < 2 ^ 64 ∧ size < 2 ^ 64 then f.startFill start size else .error .notScheduled
  | .stopFill => .ok f.stopFill
  | .tryGet len => do return (← f.tryGet len).2
  | .get len => f.get len
  | .flush => .ok f.flush
  | .complete index => f.process mem index
  | .drain => .ok f.drain
  | .drainResume => .ok { f with drainState := .running }

def Op.asks : Op → List ℕ
  | .startFill start size => blockAddrs start size
  | _ => []

def Op.Keeps (op : Op) : Prop := op ≠ .stopFill ∧ op ≠ .flush

instance (op : Op) : Decidable op.Keeps := inferInstanceAs (Decidable (_ ∧ _))

/-- The read that `resumeFillBypass` makes at once, with the engine. -/
def bypassAction (size : ℕ) (flags : RequestFlags) : DmaAction where
  cmd := .readReq
  addr := f.nextAddr
  size := intToAddr size
  event := false
  data := true
  sid := 0
  ssid := 0
  delay := 0
  flag := flags
  isDdio := false
  qnum := -1

def resumeFillBypass (env : MemSystem) (flags : RequestFlags) (s : DmaAtomic) :
    Except Halt (DmaReadFifo × DmaAtomic) :=
  let fifoSpace := f.fifoSize - f.buffer.length
  if s.port.cacheLineSize ≤ fifoSpace ∨ f.fifoSize < s.port.cacheLineSize then do
    let xferSize := min fifoSpace (subAddr f.endAddr f.nextAddr)
    require (f.pendingRequests = []) "pendingRequests.empty()"
    let s' ← s.dma env true (f.bypassAction xferSize flags)
    let f' ← f.write ((List.range xferSize).map s'.store.buf)
    return ({ f' with nextAddr := addAddr f.nextAddr xferSize }, s')
  else .ok (f, s)

end DmaReadFifo

end Gem5
