import Gem5.Basic

/-!
# Barriers of a distributed simulation

`DistIface::SyncNode` and `DistIface::SyncSwitch` of `dist_iface.cc`. At a barrier each node sends
the switch a request and waits, and the switch, once it has them all, sends each an acknowledgement.
A link is two FIFO channels with a receiver thread at each end. Packets are left out.

`sent`, `counted`, `ownAt`, `ownRepeat`, the logs and the number of a message are history.
-/

namespace Gem5

namespace DistSync

inductive ReqType
  | none
  | collective
  | immediate
  | pending
  deriving DecidableEq, Repr

/-- A synchronisation message, the `seq`-th of its sender. -/
structure Header where
  seq : ℕ
  sendTick : ℕ
  syncRepeat : ℕ
  needCkpt : ReqType
  needExit : ReqType
  needStopSync : ReqType
  deriving DecidableEq, Repr

structure Decision where
  nextAt : ℕ
  nextRepeat : ℕ
  doCkpt : Bool
  doExit : Bool
  doStopSync : Bool
  deriving DecidableEq, Repr

structure SyncNode where
  waitNum : ℕ
  needExit : ReqType
  needCkpt : ReqType
  needStopSync : ReqType
  doExit : Bool
  doCkpt : Bool
  doStopSync : Bool
  nextAt : ℕ
  nextRepeat : ℕ
  isAbort : Bool
  /-- The simulation thread waits inside `run(same_tick)`, called at this tick. -/
  waiting : Option (Bool × ℕ)
  recvThread : Bool
  sent : List Header
  log : List Decision
  deriving DecidableEq, Repr

namespace SyncNode

def init (nextAt nextRepeat : ℕ) : SyncNode where
  waitNum := 0
  needExit := .none
  needCkpt := .none
  needStopSync := .none
  doExit := false
  doCkpt := false
  doStopSync := false
  nextAt := nextAt
  nextRepeat := nextRepeat
  isAbort := false
  waiting := none
  recvThread := true
  sent := []
  log := []

def decision (n : SyncNode) : Decision :=
  ⟨n.nextAt, n.nextRepeat, n.doCkpt, n.doExit, n.doStopSync⟩

def afterSend : ReqType → ReqType
  | .none => .none
  | _ => .pending

def request (n : SyncNode) (curTick : ℕ) : Header where
  seq := n.sent.length
  sendTick := curTick
  syncRepeat := n.nextRepeat
  needCkpt := n.needCkpt
  needExit := n.needExit
  needStopSync := n.needStopSync

/-- `run`, up to where it waits for the receiver thread. -/
def run (n : SyncNode) (sameTick : Bool) (curTick : ℕ) : Except Halt SyncNode := do
  require (n.waitNum = 0) "waitNum == 0"
  require (n.isAbort = false) "!isAbort"
  return { n with
    waitNum := 1
    needCkpt := afterSend n.needCkpt
    needExit := afterSend n.needExit
    needStopSync := afterSend n.needStopSync
    waiting := some (sameTick, curTick)
    sent := n.sent ++ [n.request curTick] }

/-- The rest of `run`, once the wait is over. An aborted barrier does not complete. -/
def finish (n : SyncNode) : Except Halt SyncNode :=
  match n.waiting with
  | some (sameTick, curTick) =>
    if n.waitNum = 0 then do
      require (n.isAbort = true ∨ sameTick = false ∨ n.nextAt = curTick)
        "isAbort || !same_tick || (nextAt == curTick())"
      return { n with
        waiting := none
        log := if n.isAbort then n.log else n.log ++ [n.decision] }
    else .error .notScheduled
  | none => .error .notScheduled

/-- Handles an acknowledgement. The receiver thread ends when the barrier is aborted or orders an
exit. -/
def progress (n : SyncNode) (h : Header) : Except Halt SyncNode :=
  if n.isAbort then .ok { n with recvThread := false }
  else do
    require (0 < n.waitNum) "waitNum > 0"
    return { n with
      nextAt := h.sendTick
      nextRepeat := h.syncRepeat
      doCkpt := decide (h.needCkpt ≠ .none)
      doExit := decide (h.needExit ≠ .none)
      doStopSync := decide (h.needStopSync ≠ .none)
      waitNum := n.waitNum - 1
      recvThread := decide (h.needExit = .none) }

def addRequest (old req : ReqType) : Except Halt ReqType := do
  require (req ≠ .none) "req != ReqType::none"
  return if old = .none ∨ req = .immediate then req else old

def requestCkpt (n : SyncNode) (req : ReqType) : Except Halt SyncNode := do
  let r ← addRequest n.needCkpt req
  return { n with needCkpt := r }

def requestExit (n : SyncNode) (req : ReqType) : Except Halt SyncNode := do
  let r ← addRequest n.needExit req
  return { n with needExit := r }

def requestStopSync (n : SyncNode) (req : ReqType) : SyncNode := { n with needStopSync := req }

def abort (n : SyncNode) : SyncNode := { n with waitNum := 0, isAbort := true }

end SyncNode

/-- A barrier that the switch has completed: what the switch held when it began to count for it, the
requests it counted, and what it held at the end. -/
structure Barrier (ι : Type) where
  ownAt : ℕ
  ownRepeat : ℕ
  counted : List (ι × Header)
  decision : Decision
  deriving DecidableEq, Repr

structure SyncSwitch (ι : Type) where
  numNodes : ℕ
  waitNum : ℕ
  numExitReq : ℕ
  numCkptReq : ℕ
  numStopSyncReq : ℕ
  doExit : Bool
  doCkpt : Bool
  doStopSync : Bool
  nextAt : ℕ
  nextRepeat : ℕ
  isAbort : Bool
  /-- `nextAt` and `nextRepeat` when the last barrier completed. -/
  ownAt : ℕ
  ownRepeat : ℕ
  counted : List (ι × Header)
  log : List (Barrier ι)
  deriving DecidableEq, Repr

namespace SyncSwitch

variable {ι : Type}

def init (numNodes nextAt nextRepeat : ℕ) : SyncSwitch ι where
  numNodes := numNodes
  waitNum := numNodes
  numExitReq := 0
  numCkptReq := 0
  numStopSyncReq := 0
  doExit := false
  doCkpt := false
  doStopSync := false
  nextAt := nextAt
  nextRepeat := nextRepeat
  isAbort := false
  ownAt := nextAt
  ownRepeat := nextRepeat
  counted := []
  log := []

def decision (w : SyncSwitch ι) : Decision where
  nextAt := w.nextAt
  nextRepeat := w.nextRepeat
  doCkpt := w.doCkpt || w.numCkptReq == w.numNodes
  doExit := w.doExit || w.numExitReq == w.numNodes
  doStopSync := w.doStopSync || w.numStopSyncReq == w.numNodes

def order (b : Bool) : ReqType := if b then .immediate else .none

def ack (d : Decision) (seq : ℕ) : Header where
  seq := seq
  sendTick := d.nextAt
  syncRepeat := d.nextRepeat
  needCkpt := order d.doCkpt
  needExit := order d.doExit
  needStopSync := order d.doStopSync

def toBarrier (w : SyncSwitch ι) : Barrier ι := ⟨w.ownAt, w.ownRepeat, w.counted, w.decision⟩

/-- `run`, once the wait for the requests is over and unless the barrier is aborted. -/
def run (w : SyncSwitch ι) (sameTick : Bool) (curTick : ℕ) : Except Halt (SyncSwitch ι) := do
  require (sameTick = false ∨ w.nextAt = curTick) "!same_tick || (nextAt == curTick())"
  return { w with
    waitNum := w.numNodes
    doCkpt := w.decision.doCkpt
    numCkptReq := if w.decision.doCkpt then 0 else w.numCkptReq
    doExit := w.decision.doExit
    doStopSync := w.decision.doStopSync
    numStopSyncReq := if w.decision.doStopSync then 0 else w.numStopSyncReq
    ownAt := w.nextAt
    ownRepeat := w.nextRepeat
    counted := []
    log := w.log ++ [w.toBarrier] }

/-- Handles the request `h` of node `i`. -/
def progress (w : SyncSwitch ι) (i : ι) (h : Header) : Except Halt (SyncSwitch ι) :=
  if w.isAbort then .ok w
  else do
    require (0 < w.waitNum) "waitNum > 0"
    return { w with
      nextAt := max h.sendTick w.nextAt
      nextRepeat := min h.syncRepeat w.nextRepeat
      numCkptReq := w.numCkptReq + if h.needCkpt = .collective then 1 else 0
      doCkpt := w.doCkpt || h.needCkpt == .immediate
      numExitReq := w.numExitReq + if h.needExit = .collective then 1 else 0
      doExit := w.doExit || h.needExit == .immediate
      numStopSyncReq := w.numStopSyncReq + if h.needStopSync = .collective then 1 else 0
      doStopSync := w.doStopSync || h.needStopSync == .immediate
      waitNum := w.waitNum - 1
      counted := w.counted ++ [(i, h)] }

def abort (w : SyncSwitch ι) : SyncSwitch ι := { w with waitNum := 0, isAbort := true }

/-- The requests counted up to the `b`-th barrier. -/
def reached (w : SyncSwitch ι) (b : ℕ) : List (ι × Header) :=
  (w.log.take (b + 1)).flatMap Barrier.counted

def arrived (w : SyncSwitch ι) : List (ι × Header) := w.log.flatMap Barrier.counted ++ w.counted

end SyncSwitch

structure Link where
  node : SyncNode
  up : List Header
  down : List Header
  deriving DecidableEq, Repr

end DistSync

structure DistSync (ι : Type) where
  switch : DistSync.SyncSwitch ι
  link : ι → DistSync.Link

namespace DistSync

variable {ι : Type} [Fintype ι] [DecidableEq ι]

/-- Before the first barrier, with the ticks and periods `Sync::init` left at the switch and at the
nodes. -/
def init (nextAt nextRepeat : ℕ) (nodeAt nodeRepeat : ι → ℕ) : DistSync ι where
  switch := SyncSwitch.init (Fintype.card ι) nextAt nextRepeat
  link := fun i => ⟨SyncNode.init (nodeAt i) (nodeRepeat i), [], []⟩

/-- What can happen. `clearCkpt` and `clearStopSync` are what a participant does about a decision
once its barrier is over. -/
inductive Op (ι : Type)
  | nodeRun (i : ι) (sameTick : Bool) (curTick : ℕ)
  | nodeFinish (i : ι)
  | nodeRecv (i : ι)
  | switchRun (sameTick : Bool) (curTick : ℕ)
  | switchRecv (i : ι)
  | requestCkpt (i : ι) (req : ReqType)
  | requestExit (i : ι) (req : ReqType)
  | requestStopSync (i : ι) (req : ReqType)
  | nodeAbort (i : ι)
  | switchAbort
  | nodeClearCkpt (i : ι)
  | nodeClearStopSync (i : ι)
  | switchClearCkpt
  | switchClearStopSync
  deriving DecidableEq, Repr

def setLink (s : DistSync ι) (i : ι) (l : Link) : DistSync ι :=
  { s with link := Function.update s.link i l }

def setNode (s : DistSync ι) (i : ι) (n : SyncNode) : DistSync ι :=
  s.setLink i { s.link i with node := n }

def nodeRun (s : DistSync ι) (i : ι) (sameTick : Bool) (curTick : ℕ) :
    Except Halt (DistSync ι) :=
  let l := s.link i
  if l.node.waiting = none then do
    let n ← l.node.run sameTick curTick
    return s.setLink i { l with node := n, up := l.up ++ [l.node.request curTick] }
  else .error .notScheduled

def nodeRecv (s : DistSync ι) (i : ι) : Except Halt (DistSync ι) :=
  let l := s.link i
  match l.down with
  | h :: rest =>
    if l.node.recvThread then do
      let n ← l.node.progress h
      return s.setLink i { l with node := n, down := rest }
    else .error .notScheduled
  | [] => .error .notScheduled

def switchRun (s : DistSync ι) (sameTick : Bool) (curTick : ℕ) : Except Halt (DistSync ι) :=
  if s.switch.waitNum = 0 then
    if s.switch.isAbort then .ok s
    else do
      let w ← s.switch.run sameTick curTick
      let a := SyncSwitch.ack s.switch.decision s.switch.log.length
      return { switch := w, link := fun i => { s.link i with down := (s.link i).down ++ [a] } }
  else .error .notScheduled

def switchRecv (s : DistSync ι) (i : ι) : Except Halt (DistSync ι) :=
  let l := s.link i
  match l.up with
  | h :: rest => do
    let w ← s.switch.progress i h
    return setLink { s with switch := w } i { l with up := rest }
  | [] => .error .notScheduled

/-- The simulation thread of node `i` acts on a decision, outside of `run`. -/
def outside (s : DistSync ι) (i : ι) (n : SyncNode) : Except Halt (DistSync ι) :=
  if (s.link i).node.waiting = none then .ok (s.setNode i n) else .error .notScheduled

def step (s : DistSync ι) : Op ι → Except Halt (DistSync ι)
  | .nodeRun i sameTick curTick => s.nodeRun i sameTick curTick
  | .nodeFinish i => do
    let n ← (s.link i).node.finish
    return s.setNode i n
  | .nodeRecv i => s.nodeRecv i
  | .switchRun sameTick curTick => s.switchRun sameTick curTick
  | .switchRecv i => s.switchRecv i
  | .requestCkpt i req => do
    let n ← (s.link i).node.requestCkpt req
    return s.setNode i n
  | .requestExit i req => do
    let n ← (s.link i).node.requestExit req
    return s.setNode i n
  | .requestStopSync i req => .ok (s.setNode i ((s.link i).node.requestStopSync req))
  | .nodeAbort i => .ok (s.setNode i { (s.link i).node.abort with recvThread := false })
  | .switchAbort => .ok { s with switch := s.switch.abort }
  | .nodeClearCkpt i => s.outside i { (s.link i).node with doCkpt := false }
  | .nodeClearStopSync i => s.outside i { (s.link i).node with doStopSync := false }
  | .switchClearCkpt => .ok { s with switch := { s.switch with doCkpt := false } }
  | .switchClearStopSync => .ok { s with switch := { s.switch with doStopSync := false } }

/-- The requests for an exit that node `i` makes before it enters its `b`-th barrier. -/
def exitRequests (i : ι) : ℕ → List (Op ι) → List ReqType
  | _, [] => []
  | b, .requestExit j req :: ops =>
    if j = i then req :: exitRequests i b ops else exitRequests i b ops
  | 0, .nodeRun j _ _ :: ops => if j = i then [] else exitRequests i 0 ops
  | b + 1, .nodeRun j _ _ :: ops =>
    if j = i then exitRequests i b ops else exitRequests i (b + 1) ops
  | b, _ :: ops => exitRequests i b ops

inductive Kind
  | exit
  | ckpt
  deriving DecidableEq, Repr

def Op.asks (kind : Kind) (i : ι) : Op ι → List ReqType
  | .requestExit j req => if kind = .exit ∧ j = i then [req] else []
  | .requestCkpt j req => if kind = .ckpt ∧ j = i then [req] else []
  | _ => []

/-- The requests that node `i` gets before it enters its `b`-th barrier. -/
def requests (kind : Kind) (i : ι) : ℕ → List (Op ι) → List ReqType
  | _, [] => []
  | 0, .nodeRun j _ _ :: ops => if j = i then [] else requests kind i 0 ops
  | b + 1, .nodeRun j _ _ :: ops =>
    if j = i then requests kind i b ops else requests kind i (b + 1) ops
  | b, o :: ops => o.asks kind i ++ requests kind i b ops

/-- The flag of the switch is reset by `drainComplete`, after the barrier it has run for the
checkpoint. -/
def ClearsOrdered (s : DistSync ι) (o : Op ι) : Prop :=
  o = .switchClearCkpt → ∃ R ∈ s.switch.log.getLast?, R.decision.doCkpt = true

instance (s : DistSync ι) (o : Op ι) : Decidable (s.ClearsOrdered o) :=
  inferInstanceAs (Decidable (_ → _))

end DistSync

end Gem5
