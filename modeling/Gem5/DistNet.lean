import Gem5.DistSync
import Gem5.RecvScheduler

/-!
# A distributed simulation with its clocks and packets

A switch and its nodes, each with its tick, its event of the periodic barrier and the packets it
receives. A channel carries packets and the messages of `DistSync`, marked by `none`. Its receiver
thread takes what comes first on it at any time, also while the simulation thread waits.

The rest of a simulation appears as `advance`, which passes no scheduled event, and as `transmit`.
`lastSync`, `passed`, `synced`, `sent` and `handed` are history.
-/

namespace Gem5

namespace DistNet

open RecvScheduler (Desc)

inductive Party (ι : Type)
  | switch
  | node (i : ι)
  deriving DecidableEq, Repr

inductive Dir
  | up
  | down
  deriving DecidableEq, Repr

instance : Fintype Dir := ⟨{.up, .down}, fun d => by cases d <;> decide⟩

variable {ι : Type}

def Dir.sender (i : ι) : Dir → Party ι
  | up => .node i
  | down => .switch

def Dir.receiver (i : ι) : Dir → Party ι
  | up => .switch
  | down => .node i

/-- What the simulation thread has called `run` for. -/
inductive Wait
  /-- `SyncEvent::process`. -/
  | process
  /-- `SyncEvent::start`. -/
  | start
  /-- `Sync::drainComplete`. -/
  | drainComplete
  deriving DecidableEq, Repr

structure Proc where
  curTick : ℕ
  /-- `syncEvent->when()`, also when the event is not scheduled. -/
  syncWhen : ℕ
  scheduled : Bool
  syncRepeat : ℕ
  /-- A checkpoint is ordered, and the simulation drains for it. -/
  draining : Bool
  wait : Option Wait
  exited : Bool
  lastSync : ℕ
  passed : ℕ
  /-- A periodic barrier was over since the barriers were started. -/
  synced : Bool
  deriving DecidableEq, Repr

namespace Proc

def init (curTick : ℕ) : Proc where
  curTick := curTick
  syncWhen := 0
  scheduled := false
  syncRepeat := 0
  draining := false
  wait := none
  exited := false
  lastSync := 0
  passed := 0
  synced := false

def Simulates (p : Proc) : Prop := p.wait = none ∧ p.exited = false

instance (p : Proc) : Decidable p.Simulates := inferInstanceAs (Decidable (_ ∧ _))

/-- What is done when `run` has returned, with what the barrier decided. -/
def resume (p : Proc) (d : DistSync.Decision) : Wait → Except Halt Proc
  | .process =>
    .ok (if d.doExit then { p with exited := true, draining := d.doCkpt }
      else if d.doStopSync then { p with draining := d.doCkpt }
      else { p with
        syncRepeat := d.nextRepeat
        syncWhen := p.curTick + d.nextRepeat
        scheduled := true
        draining := d.doCkpt
        synced := true })
  | .start => do
    require (d.doCkpt = false) "!DistIface::sync->doCkpt"
    require (d.doExit = false) "!DistIface::sync->doExit"
    require (d.doStopSync = false) "!DistIface::sync->doStopSync"
    require (p.curTick ≤ d.nextAt) "DistIface::sync->nextAt >= curTick()"
    require (d.nextRepeat ≤ p.syncRepeat) "DistIface::sync->nextRepeat <= repeat"
    return { p with syncWhen := d.nextAt, scheduled := true, synced := false }
  | .drainComplete => .ok { p with draining := false }

def leave (p : Proc) (d : DistSync.Decision) (w : Wait) : Except Halt Proc :=
  resume { p with wait := none, lastSync := p.curTick, passed := p.passed + 1 } d w

end Proc

structure Channel where
  wire : List (Option Desc)
  recv : RecvScheduler
  txDone : ℕ
  sent : List Desc
  handed : List Desc
  deriving DecidableEq, Repr

def Channel.init (linkDelay : ℕ) : Channel := ⟨[], RecvScheduler.init linkDelay, 0, [], []⟩

end DistNet

structure DistNet (ι : Type) where
  sync : DistSync ι
  proc : DistNet.Party ι → DistNet.Proc
  chan : ι → DistNet.Dir → DistNet.Channel
  /-- The switch has sent its acknowledgements and `run` returns. -/
  released : Bool

namespace DistNet

open RecvScheduler (Desc)

variable {ι : Type} [Fintype ι] [DecidableEq ι]

def init (nextAt nextRepeat : ℕ) (nodeAt nodeRepeat : ι → ℕ) (tick : Party ι → ℕ)
    (linkDelay : ι → Dir → ℕ) : DistNet ι where
  sync := DistSync.init nextAt nextRepeat nodeAt nodeRepeat
  proc := fun p => .init (tick p)
  chan := fun i d => .init (linkDelay i d)
  released := false

/-- What can happen. The send delay of a packet is one tick more than `delay`. -/
inductive Op (ι : Type)
  | transmit (i : ι) (d : Dir) (packet : EthPacket) (delay : ℕ)
  | receive (i : ι) (d : Dir)
  | rxDone (i : ι) (d : Dir)
  | advance (p : Party ι) (tick : ℕ)
  | process (p : Party ι)
  | start (p : Party ι)
  | drainComplete (p : Party ι)
  | switchRun
  | leave (p : Party ι)
  | requestCkpt (i : ι) (req : DistSync.ReqType)
  | requestExit (i : ι) (req : DistSync.ReqType)
  | requestStopSync (i : ι) (req : DistSync.ReqType)
  | abort (p : Party ι)
  deriving DecidableEq, Repr

def setProc (s : DistNet ι) (p : Party ι) (x : Proc) : DistNet ι :=
  { s with proc := Function.update s.proc p x }

def setChan (s : DistNet ι) (i : ι) (d : Dir) (c : Channel) : DistNet ι :=
  { s with chan := Function.update s.chan i (Function.update (s.chan i) d c) }

/-- `TxLink::transmit` and `packetOut`. -/
def transmit (s : DistNet ι) (i : ι) (d : Dir) (packet : EthPacket) (delay : ℕ) :
    Except Halt (DistNet ι) :=
  let p := s.proc (d.sender i)
  let c := s.chan i d
  if p.Simulates ∧ c.txDone ≤ p.curTick then
    let x : Desc := ⟨packet, p.curTick, delay + 1⟩
    .ok (s.setChan i d { c with
      wire := c.wire ++ [some x]
      txDone := p.curTick + (delay + 1)
      sent := c.sent ++ [x] })
  else .error .notScheduled

def recvThread (s : DistNet ι) (i : ι) : Dir → Bool
  | .up => true
  | .down => (s.sync.link i).node.recvThread

def progress (s : DistSync ι) (i : ι) : Dir → Except Halt (DistSync ι)
  | .up => s.switchRecv i
  | .down => s.nodeRecv i

def receive (s : DistNet ι) (i : ι) (d : Dir) : Except Halt (DistNet ι) :=
  let q := s.proc (d.receiver i)
  let c := s.chan i d
  match c.wire with
  | some x :: rest =>
    if s.recvThread i d then do
      let r ← c.recv.pushPacket q.curTick q.syncWhen q.syncRepeat x
      return s.setChan i d { c with wire := rest, recv := r }
    else .error .notScheduled
  | none :: rest => do
    let y ← progress s.sync i d
    return setChan { s with sync := y } i d { c with wire := rest }
  | [] => .error .notScheduled

/-- `RxLink::rxDone`. -/
def rxDone (s : DistNet ι) (i : ι) (d : Dir) : Except Halt (DistNet ι) :=
  let q := s.proc (d.receiver i)
  let c := s.chan i d
  if q.Simulates ∧ c.recv.recvDone = some q.curTick then do
    let (x, r) ← c.recv.rxDone
    return s.setChan i d { c with recv := r, handed := c.handed ++ [x] }
  else .error .notScheduled

def NotBefore (tick : ℕ) (event : Option ℕ) : Prop :=
  match event with
  | some t => tick ≤ t
  | none => True

instance (tick : ℕ) : ∀ event, Decidable (NotBefore tick event)
  | some t => inferInstanceAs (Decidable (tick ≤ t))
  | none => .isTrue trivial

def Quiet (s : DistNet ι) (p : Party ι) (tick : ℕ) : Prop :=
  ∀ i d, Dir.receiver i d = p → NotBefore tick (s.chan i d).recv.recvDone

instance (s : DistNet ι) (p : Party ι) (tick : ℕ) : Decidable (s.Quiet p tick) :=
  inferInstanceAs (Decidable (∀ _ _, _ → _))

def advance (s : DistNet ι) (p : Party ι) (tick : ℕ) : Except Halt (DistNet ι) :=
  let x := s.proc p
  if x.Simulates ∧ x.curTick < tick ∧ (x.scheduled = true → tick ≤ x.syncWhen) ∧ s.Quiet p tick then
    .ok (s.setProc p { x with curTick := tick })
  else .error .notScheduled

/-- The simulation thread enters a barrier: a node sends its request, the switch waits. -/
def enter (s : DistNet ι) (p : Party ι) (w : Wait) : Except Halt (DistNet ι) :=
  let x := s.proc p
  match p with
  | .switch => .ok (s.setProc p { x with wait := some w })
  | .node i => do
    let y ← s.sync.nodeRun i (w == .process) x.curTick
    let c := s.chan i .up
    return setChan (setProc { s with sync := y } p { x with wait := some w }) i .up
      { c with wire := c.wire ++ [none] }

def process (s : DistNet ι) (p : Party ι) : Except Halt (DistNet ι) :=
  let x := s.proc p
  if x.Simulates ∧ x.scheduled = true ∧ x.curTick = x.syncWhen ∧ s.Quiet p (x.curTick + 1) then do
    panicIf x.draining "Distributed sync is hit while draining"
    (s.setProc p { x with scheduled := false }).enter p .process
  else .error .notScheduled

def nextRepeat (s : DistNet ι) : Party ι → ℕ
  | .switch => s.sync.switch.nextRepeat
  | .node i => (s.sync.link i).node.nextRepeat

/-- `SyncEvent::start` is only called with the event not scheduled. -/
def start (s : DistNet ι) (p : Party ι) : Except Halt (DistNet ι) :=
  let x := s.proc p
  if x.Simulates ∧ x.scheduled = false then
    (s.setProc p { x with syncRepeat := s.nextRepeat p }).enter p .start
  else .error .notScheduled

def drainComplete (s : DistNet ι) (p : Party ι) : Except Halt (DistNet ι) :=
  let x := s.proc p
  if x.Simulates ∧ x.draining = true then s.enter p .drainComplete else .error .notScheduled

/-- `run` of the switch, once it has a request of every node. -/
def switchRun (s : DistNet ι) : Except Halt (DistNet ι) :=
  let x := s.proc .switch
  match x.wait with
  | some w =>
    if x.exited = false ∧ s.released = false ∧ s.sync.switch.isAbort = false then do
      let y ← s.sync.switchRun (w == .process) x.curTick
      return { s with
        sync := y
        released := true
        chan := fun i d => match d with
          | .up => s.chan i .up
          | .down => { s.chan i .down with wire := (s.chan i .down).wire ++ [none] } }
    else .error .notScheduled
  | none => .error .notScheduled

/-- What the simulation thread of the switch finds when `run` has returned. -/
def held (w : DistSync.SyncSwitch ι) : DistSync.Decision :=
  ⟨w.nextAt, w.nextRepeat, w.doCkpt, w.doExit, w.doStopSync⟩

def clear (y : DistSync ι) (p : Party ι) (d : DistSync.Decision) : Wait → Except Halt (DistSync ι)
  | .process =>
    if d.doExit = false ∧ d.doStopSync = true then
      match p with
      | .switch => y.step .switchClearStopSync
      | .node i => y.step (.nodeClearStopSync i)
    else .ok y
  | .start => .ok y
  | .drainComplete =>
    match p with
    | .switch => y.step .switchClearCkpt
    | .node i => y.step (.nodeClearCkpt i)

/-- `run` has returned. The switch waits for the next start as soon as the barriers are stopped. -/
def leave (s : DistNet ι) (p : Party ι) : Except Halt (DistNet ι) :=
  let x := s.proc p
  match x.wait with
  | some w =>
    if x.exited = true then .error .notScheduled
    else match p with
      | .node i => do
        let y ← s.sync.step (.nodeFinish i)
        let d := (y.link i).node.decision
        let x' ← x.leave d w
        let y' ← clear y p d w
        return setProc { s with sync := y' } p x'
      | .switch =>
        if s.released = true then do
          let d := held s.sync.switch
          let x' ← x.leave d w
          let y' ← clear s.sync p d w
          let s' := setProc { s with sync := y', released := false } p x'
          if w = .process ∧ d.doExit = false ∧ d.doStopSync = true then s'.start p else return s'
        else .error .notScheduled
  | none => .error .notScheduled

def abort (s : DistNet ι) (p : Party ι) : Except Halt (DistNet ι) := do
  let y ← match p with
    | .switch => s.sync.step .switchAbort
    | .node i => s.sync.step (.nodeAbort i)
  return setProc { s with sync := y } p { s.proc p with exited := true }

def step (s : DistNet ι) : Op ι → Except Halt (DistNet ι)
  | .transmit i d packet delay => s.transmit i d packet delay
  | .receive i d => s.receive i d
  | .rxDone i d => s.rxDone i d
  | .advance p tick => s.advance p tick
  | .process p => s.process p
  | .start p => s.start p
  | .drainComplete p => s.drainComplete p
  | .switchRun => s.switchRun
  | .leave p => s.leave p
  | .requestCkpt i req => do
    let y ← s.sync.step (.requestCkpt i req)
    return { s with sync := y }
  | .requestExit i req => do
    let y ← s.sync.step (.requestExit i req)
    return { s with sync := y }
  | .requestStopSync i req => do
    let y ← s.sync.step (.requestStopSync i req)
    return { s with sync := y }
  | .abort p => s.abort p

def decisions (s : DistNet ι) : List DistSync.Decision :=
  s.sync.switch.log.map DistSync.Barrier.decision

def ownRepeat (nextRepeat : ℕ) (nodeRepeat : ι → ℕ) : Party ι → ℕ
  | .switch => nextRepeat
  | .node i => nodeRepeat i

def recvTick (linkDelay : ℕ) (x : Desc) : ℕ := x.sendTick + x.sendDelay + linkDelay

/-- Packets are sent between two periodic barriers, later than the tick of the first, and the switch
acts on what a barrier decided before a request for the next one changes it. -/
def Allowed (s : DistNet ι) : Op ι → Prop
  | .transmit i d _ _ =>
    let p := s.proc (d.sender i)
    p.scheduled = true ∧ p.synced = true ∧ p.syncWhen < p.curTick + p.syncRepeat
  | .leave .switch => s.decisions.getLast? = some (held s.sync.switch)
  | _ => True

instance (s : DistNet ι) : ∀ o, Decidable (s.Allowed o)
  | .transmit _ _ _ _ => inferInstanceAs (Decidable (_ ∧ _))
  | .leave .switch => inferInstanceAs (Decidable (_ = _))
  | .leave (.node _) | .receive _ _ | .rxDone _ _ | .advance _ _ | .process _ | .start _
  | .drainComplete _ | .switchRun | .requestCkpt _ _ | .requestExit _ _ | .requestStopSync _ _
  | .abort _ => .isTrue trivial

end DistNet

end Gem5
