import Gem5.SnoopFilter

/-!
# The coherent crossbar forwards a snoop

`CoherentXBar::forwardTiming` shows one packet object to several caches in turn. `snoopPorts` lists
the snooping ports only. A cache, with its own number `mlc_idx`, takes the mark of a prefetch hint
off the packet before it looks whether the hint is for it.
-/

namespace Gem5

structure CoherentXBar where
  snooping : List Bool
  mlcIdx : ℕ → ℤ

/-- A packet that is shown to the caches one by one, and the ports of the caches that were notified of
a hint. -/
structure Snoop where
  pkt : Packet
  notified : List ℕ := []
  fanout : ℕ := 0
  find : Bool := false
  deriving DecidableEq, Repr

namespace CoherentXBar

variable (x : CoherentXBar)

/-- What `init` collects. -/
def snoopPorts : List ℕ :=
  (List.range x.snooping.length).filter fun p => x.snooping.getD p false

/-- `Cache::recvTimingSnoopReq` of the cache behind the port. -/
def sendTimingSnoopReq (s : Snoop) (port : ℕ) : Snoop :=
  if s.pkt.isPrefetchHintPkt then
    { s with
      pkt := { s.pkt with isPrefetchHintPkt := false }
      notified :=
        if s.pkt.ddioPrefetchDestination = x.mlcIdx port then s.notified ++ [port] else s.notified }
  else s

def forwardEach (exclude : Option ℕ) (mlcId : ℤ) : List ℕ → Snoop → Snoop
  | [], s => s
  | p :: ps, s =>
    if exclude ≠ some p then
      let s := x.sendTimingSnoopReq s p
      forwardEach exclude mlcId ps
        { s with fanout := s.fanout + 1, find := s.find || decide (mlcId = p) }
    else forwardEach exclude mlcId ps s

def forwardTiming (pkt : Packet) (exclude : Option ℕ) (dests : List ℕ) : Except Halt Snoop :=
  let mlcId := pkt.ddioPrefetchDestination
  let s := x.forwardEach exclude mlcId dests { pkt }
  if !s.find && decide (-1 < mlcId) then
    match x.snoopPorts[mlcId.toNat]? with
    | none => .error (.undefined "snoopPorts[mlc_id]")
    | some p => .ok (x.sendTimingSnoopReq s p)
  else .ok s

/-- The snoops of `recvTimingReq`, for the caches in the given filter or else for all. -/
def snoopRequest (filter : Option SnoopFilter) (pkt : Packet) (port : ℕ) : Except Halt Snoop :=
  if pkt.cmd = .writeClean then .ok { pkt }
  else
    match filter with
    | none => x.forwardTiming pkt (some port) x.snoopPorts
    | some f => do
      let (_, dests) ← f.lookupRequest pkt port
      if pkt.cmd.isEviction && !pkt.isPrefetchHintPkt then
        return { pkt := if dests ≠ [] then { pkt with blockCached := true } else pkt }
      else x.forwardTiming pkt (some port) dests

/-- The snoops of `recvTimingSnoopReq`. -/
def snoopFromBelow (filter : Option SnoopFilter) (pkt : Packet) : Except Halt Snoop :=
  match filter with
  | none => x.forwardTiming pkt none x.snoopPorts
  | some f => do
    let (_, dests) ← f.lookupSnoop pkt
    x.forwardTiming pkt none dests

end CoherentXBar

end Gem5
