import Gem5.Basic
import Gem5.EtherPacket

/-!
# Packets from a peer process

`DistIface::RecvScheduler` of `dist_iface.cc`, with the part of `DistEtherLink::RxLink` that a
checkpoint keeps. One event, `recvDone`, hands the first packet of the queue to the link at its
receive tick. Ticks are numbers without a bound, except where the source subtracts.
-/

namespace Gem5

namespace RecvScheduler

structure Desc where
  packet : EthPacket
  sendTick : ℕ
  sendDelay : ℕ
  deriving DecidableEq, Repr

end RecvScheduler

structure RecvScheduler where
  descQueue : List RecvScheduler.Desc
  prevRecvTick : ℕ
  recvDone : Option ℕ
  linkDelay : ℕ
  ckptRestore : Bool
  deriving DecidableEq, Repr

namespace RecvScheduler

def init (linkDelay : ℕ) : RecvScheduler := ⟨[], 0, none, linkDelay, false⟩

def subTick (a b : ℕ) : ℕ := (a + 2 ^ 64 - b) % 2 ^ 64

def calcReceiveTick (r : RecvScheduler) (curTick sendTick sendDelay prevRecvTick : ℕ) :
    Except Halt ℕ := do
  let recvTick := sendTick + sendDelay + r.linkDelay
  require (prevRecvTick + sendDelay ≤ recvTick) "recv_tick >= prev_recv_tick + send_delay"
  panicIf (recvTick < prevRecvTick + sendDelay) "Receive window is smaller than send delay"
  panicIf (recvTick ≤ curTick) "Simulators out of sync - missed packet receive"
  return recvTick

/-- `syncWhen` and `syncRepeat` are those of the event of the periodic barrier. -/
def pushPacket (r : RecvScheduler) (curTick syncWhen syncRepeat : ℕ) (d : Desc) :
    Except Halt RecvScheduler := do
  let recvTick ← r.calcReceiveTick curTick d.sendTick d.sendDelay r.prevRecvTick
  require (subTick syncWhen syncRepeat < d.sendTick)
    "send_tick > primary->syncEvent->when() - primary->syncEvent->repeat"
  require (syncWhen < d.sendTick + d.sendDelay + r.linkDelay)
    "send_tick + send_delay + linkDelay > primary->syncEvent->when()"
  match r.descQueue with
  | [] => do
    let e ← schedule curTick r.recvDone recvTick
    return { r with descQueue := [d], recvDone := e }
  | front :: _ => do
    require r.recvDone.isSome "recvDone->scheduled()"
    panicIf (recvTick < front.sendTick + front.sendDelay) "Out of order packet received"
    return { r with descQueue := r.descQueue ++ [d] }

def popPacket (r : RecvScheduler) (curTick : ℕ) : Except Halt (Desc × RecvScheduler) :=
  match r.descQueue with
  | [] => .error (.undefined "descQueue.front()")
  | d :: [] => .ok (d, { r with descQueue := [], prevRecvTick := curTick })
  | d :: next :: rest => do
    let recvTick ← r.calcReceiveTick curTick next.sendTick next.sendDelay curTick
    let e ← schedule curTick r.recvDone recvTick
    return (d, { r with
      descQueue := next :: rest
      recvDone := e
      prevRecvTick := curTick })

def rxDone (r : RecvScheduler) : Except Halt (Desc × RecvScheduler) :=
  match r.recvDone with
  | some curTick => popPacket { r with recvDone := none } curTick
  | none => .error .notScheduled

/-- `Link::unserialize`: the event is scheduled again for its tick. -/
def restoreEvent (curTick : ℕ) (event saved : Option ℕ) : Except Halt (Option ℕ) :=
  match saved with
  | some eventTime => schedule curTick event eventTime
  | none => .ok event

/-- `unserialize`, and then that of the link. -/
def unserialize (r saved : RecvScheduler) (curTick : ℕ) : Except Halt RecvScheduler := do
  require (r.descQueue.length = 0) "descQueue.size() == 0"
  require (r.recvDone = none) "!recvDone->scheduled()"
  require (r.ckptRestore = false) "!ckptRestore"
  let e ← restoreEvent curTick r.recvDone saved.recvDone
  return { r with
    prevRecvTick := saved.prevRecvTick
    descQueue := r.descQueue ++ saved.descQueue
    recvDone := e
    ckptRestore := true }

def resumeRecvTicks (r : RecvScheduler) (curTick : ℕ) : Except Halt RecvScheduler :=
  if r.ckptRestore then
    let v := r.descQueue.map fun d =>
      { d with sendTick := curTick, sendDelay := d.packet.simLength }
    if r.recvDone.isSome then do
      require (v ≠ []) "!descQueue.empty()"
      let e ← reschedule curTick r.recvDone curTick false
      return { r with descQueue := v, recvDone := e, ckptRestore := false }
    else do
      require (v = []) "descQueue.empty() && v.empty()"
      return { r with descQueue := v, ckptRestore := false }
  else .ok r

/-- A link that is restored from a checkpoint and resumed, with a link delay of its own. -/
def restore (saved : RecvScheduler) (linkDelay curTick : ℕ) : Except Halt RecvScheduler := do
  let r ← (init linkDelay).unserialize saved curTick
  r.resumeRecvTicks curTick

/-- The receive-done event fires `n` times, with nothing arriving: the packets handed to the link. -/
def deliver : ℕ → RecvScheduler → Except Halt (List EthPacket)
  | 0, _ => .ok []
  | n + 1, r => do
    let (d, r') ← r.rxDone
    let ps ← deliver n r'
    return d.packet :: ps

end RecvScheduler

end Gem5
