import Gem5.Packet

/-!
# Miss status holding registers

`MSHR` of `mshr.cc`. A register holds the targets that wait for one block: those that its response
will serve, and those deferred to a request made after it. They come from the processor side, from
the prefetcher and from snoops. The calls made to the registers of the caches above are kept in a
list.
-/

namespace Gem5

/-- `MSHR::Target::Source`. -/
inductive Source
  | fromCPU
  | fromSnoop
  | fromPrefetcher
  deriving DecidableEq, Repr

structure Target where
  pkt : Packet
  readyTime : ℕ
  order : ℕ
  source : Source
  markedPending : Bool
  allocOnFill : Bool
  deriving DecidableEq, Repr

def Target.tag (t : Target) : ℕ × Source := (t.order, t.source)

/-- The targets of one side: snoops, or those of the cache's processor side and prefetcher. -/
def ofSide (snoop : Bool) (l : List (ℕ × Source)) : List (ℕ × Source) :=
  l.filter fun x => decide (x.2 = .fromSnoop) == snoop

/-- A call that sets or clears `downstreamPending` in a register of a cache above. -/
inductive Signal
  | setPending (mshr : ℕ)
  | clearPending (mshr : ℕ)
  deriving DecidableEq, Repr

structure TargetList where
  targets : List Target
  needsWritable : Bool
  hasUpgrade : Bool
  allocOnFill : Bool
  hasFromCache : Bool
  canMergeWrites : Bool
  writesBitmap : List Bool
  blkSize : ℕ
  deriving DecidableEq, Repr

namespace TargetList

variable (l : TargetList)

def init (blkSize : ℕ) : TargetList :=
  ⟨[], false, false, false, false, true, List.replicate blkSize false, blkSize⟩

def resetFlags : TargetList :=
  { l with
    canMergeWrites := true
    writesBitmap := List.replicate l.writesBitmap.length false
    needsWritable := false
    hasUpgrade := false
    allocOnFill := false
    hasFromCache := false }

def isReset : Bool :=
  !l.needsWritable && !l.hasUpgrade && !l.allocOnFill && !l.hasFromCache && l.canMergeWrites

def isWholeLineWrite : Bool := l.writesBitmap.all id

def fill (off n : ℕ) : Except Halt (List Bool) := do
  inBounds (off + n ≤ l.writesBitmap.length) "writesBitmap"
  return l.writesBitmap.mapIdx fun i b => b || (decide (off ≤ i) && decide (i < off + n))

def writeBitmap (pkt : Packet) : Except Halt (List Bool) :=
  if l.targets.isEmpty || !pkt.req.flags.noMerge then l.fill (pkt.getOffset l.blkSize) pkt.size
  else return l.writesBitmap

def updateWriteFlags (pkt : Packet) : Except Halt TargetList :=
  if l.isWholeLineWrite then
    return l
  else if !l.canMergeWrites then
    return l
  else if !pkt.cmd.isWrite then
    return { l with canMergeWrites := false }
  else do
    let bitmap ← l.writeBitmap pkt
    return { l with writesBitmap := bitmap, canMergeWrites := !pkt.req.flags.noMerge }

def noteRequest (pkt : Packet) (allocOnFill : Bool) : TargetList :=
  { l with
    needsWritable := l.needsWritable || pkt.cmd.needsWritable
    hasUpgrade := l.hasUpgrade || pkt.cmd.isUpgrade || decide (pkt.cmd = .storeCondReq)
    allocOnFill := l.allocOnFill || allocOnFill }

def updateFlags (pkt : Packet) (source : Source) (allocOnFill : Bool) : Except Halt TargetList :=
  if source = .fromSnoop then
    return l
  else do
    require (pkt.cmd.isRequest = true) "isRequest()"
    if source = .fromPrefetcher then
      return l.noteRequest pkt allocOnFill
    else
      updateWriteFlags { l.noteRequest pkt allocOnFill with
        hasFromCache := l.hasFromCache || pkt.cmd.fromCache } pkt

def addFlags (t : Target) : Except Halt TargetList := l.updateFlags t.pkt t.source t.allocOnFill

def populateFlags : Except Halt TargetList := l.targets.foldlM addFlags l.resetFlags

/-- A target is marked as pending if its packet comes from a cache above, whose register is told. -/
def add (pkt : Packet) (readyTime order : ℕ) (source : Source) (markPending allocOnFill : Bool) :
    Except Halt (TargetList × List Signal) := do
  let l' ← l.updateFlags pkt source allocOnFill
  let above := if markPending then pkt.senderMshr else none
  return ({ l' with
    targets := l'.targets ++ [⟨pkt, readyTime, order, source, above.isSome, allocOnFill⟩] },
    (above.map Signal.setPending).toList)

end TargetList

def MemCmd.replaceUpgrade : MemCmd → MemCmd
  | .upgradeReq => .readExReq
  | .scUpgradeReq => .scUpgradeFailReq
  | .storeCondReq => .storeCondFailReq
  | cmd => cmd

def replaceUpgrade (pkt : Packet) : Packet := { pkt with cmd := pkt.cmd.replaceUpgrade }

def Target.clearPending (t : Target) : Target := { t with markedPending := false }

/-- The calls that `clearDownstreamPending` makes for a range of targets. -/
def pendingSignals (ts : List Target) : List Signal :=
  (ts.filter Target.markedPending).filterMap fun t => t.pkt.senderMshr.map Signal.clearPending

namespace TargetList

variable (l : TargetList)

def replaceUpgrades : TargetList :=
  if l.hasUpgrade then
    { l with
      targets := l.targets.map fun t => { t with pkt := replaceUpgrade t.pkt }
      hasUpgrade := false }
  else l

def clearDownstreamPending : TargetList × List Signal :=
  ({ l with targets := l.targets.map Target.clearPending }, pendingSignals l.targets)

/-- How far the writes of a list are merged: they cover the line, or these bytes of it and more may
come, or no more are merged. -/
inductive WriteState
  | whole
  | merging (bitmap : List Bool)
  | closed
  deriving DecidableEq, Repr

def WriteState.of (bitmap : List Bool) (canMergeWrites : Bool) : WriteState :=
  if bitmap.all id then .whole else if canMergeWrites then .merging bitmap else .closed

structure Summary where
  needsWritable : Bool
  hasUpgrade : Bool
  allocOnFill : Bool
  hasFromCache : Bool
  writes : WriteState
  deriving DecidableEq, Repr

def summary : Summary :=
  ⟨l.needsWritable, l.hasUpgrade, l.allocOnFill, l.hasFromCache,
    .of l.writesBitmap l.canMergeWrites⟩

def FlagsMatch : Prop :=
  Machine.Ends l.populateFlags fun r => r.needsWritable = l.needsWritable
    ∧ r.hasUpgrade = l.hasUpgrade ∧ r.allocOnFill = l.allocOnFill
    ∧ r.hasFromCache = l.hasFromCache ∧ r.isWholeLineWrite = l.isWholeLineWrite

instance : Decidable l.FlagsMatch := inferInstanceAs (Decidable (Machine.Ends _ _))

/-- With these targets at the end of the list, their updates lead from its flags to these. -/
def Gains (ts : List Target) (s : Summary) : Prop :=
  Machine.Ends (ts.foldlM addFlags { l with targets := l.targets ++ ts }) fun r => r.summary = s

instance (ts : List Target) (s : Summary) : Decidable (l.Gains ts s) :=
  inferInstanceAs (Decidable (Machine.Ends _ _))

end TargetList

def Packet.wholeSpecialWrite (pkt : Packet) (blkSize : ℕ) : Bool :=
  pkt.cmd.isWrite && pkt.req.flags.noMerge && decide (blkSize ≤ pkt.size)

structure Mshr where
  blkAddr : ℕ
  blkSize : ℕ
  isSecure : Bool
  readyTime : ℕ
  order : ℕ
  inService : Bool
  isUncacheable : Bool
  downstreamPending : Bool
  pendingModified : Bool
  postInvalidate : Bool
  postDowngrade : Bool
  wasWholeLineWrite : Bool
  isForward : Bool
  wasBlockIO : Bool
  qidFromDev : ℤ
  isDdioPkt : Bool
  isHeader : Bool
  targets : TargetList
  deferredTargets : TargetList
  deriving DecidableEq, Repr

namespace Mshr

variable (m : Mshr)

/-- `MSHR::allocate` of a register that is free. -/
def allocate (blkAddr blkSize : ℕ) (target : Packet) (readyTime order : ℕ) (allocOnFill : Bool) :
    Except Halt (Mshr × List Signal) := do
  let source := if target.cmd = .hardPFReq then Source.fromPrefetcher else .fromCPU
  let (targets, sig) ← (TargetList.init blkSize).add target readyTime order source true allocOnFill
  return ({
    blkAddr := blkAddr
    blkSize := blkSize
    isSecure := target.isSecure
    readyTime := readyTime
    order := order
    inService := false
    isUncacheable := target.req.flags.uncacheable
    downstreamPending := false
    pendingModified := false
    postInvalidate := false
    postDowngrade := false
    wasWholeLineWrite := false
    isForward := false
    wasBlockIO := target.isBlockIO
    qidFromDev := target.ddioPrefetchDestination
    isDdioPkt := target.isDdioPkt
    isHeader := target.isDdioHeader
    targets := targets
    deferredTargets := .init blkSize }, sig)

def clearDownstreamPending : Except Halt (Mshr × List Signal) := do
  require (m.downstreamPending = true) "downstreamPending"
  let (targets, sig) := m.targets.clearDownstreamPending
  return ({ m with downstreamPending := false, targets := targets }, sig)

def markInService (pendingModifiedResp : Bool) : Except Halt (Mshr × List Signal) := do
  require (m.inService = false) "!inService"
  let (targets, sig) := if m.downstreamPending then (m.targets, [])
    else m.targets.clearDownstreamPending
  return ({ m with
    inService := true
    pendingModified := m.targets.needsWritable || pendingModifiedResp
    postInvalidate := false
    postDowngrade := false
    targets := targets
    wasWholeLineWrite := m.targets.isWholeLineWrite }, sig)

def markPending : Except Halt Mshr := do
  require (m.inService = true) "mshr->inService"
  return { m with inService := false }

def deallocate : Except Halt Mshr := do
  require (m.targets.targets = []) "targets.empty()"
  require (m.deferredTargets.isReset = true) "deferredTargets.isReset()"
  return { m with targets := m.targets.resetFlags, inService := false }

def isPendingModified : Except Halt Bool := do
  require (m.inService = true) "inService"
  return m.pendingModified

def hasPostInvalidate : Except Halt Bool := do
  require (m.inService = true) "inService"
  return m.postInvalidate

def hasPostDowngrade : Except Halt Bool := do
  require (m.inService = true) "inService"
  return m.postDowngrade

def defers (front : Target) (pkt : Packet) : Bool :=
  pkt.req.flags.isCacheMaintenance || front.pkt.req.flags.isCacheMaintenance
    || !m.deferredTargets.targets.isEmpty
    || (m.inService && (m.postInvalidate
      || (pkt.cmd.needsWritable && (!m.pendingModified || m.postDowngrade || m.isForward))))

def deferredPacket (pkt : Packet) : Packet :=
  if m.inService && m.postInvalidate then replaceUpgrade pkt else pkt

def allocateTarget (pkt : Packet) (readyTime order : ℕ) (allocOnFill : Bool) :
    Except Halt (Mshr × List Signal) := do
  require (pkt.cmd ≠ .hardPFReq) "pkt->cmd != MemCmd::HardPFReq"
  match m.targets.targets with
  | [] => .error (.undefined "targets.front()")
  | front :: _ =>
    if m.defers front pkt then do
      let (l, sig) ← m.deferredTargets.add (m.deferredPacket pkt) readyTime order .fromCPU true
        allocOnFill
      return ({ m with deferredTargets := l }, sig)
    else do
      let (l, sig) ← m.targets.add pkt readyTime order .fromCPU (!m.inService) allocOnFill
      return ({ m with targets := l }, sig)

/-- What `handleSnoop` gives: whether the cache does not go on with the snoop, the snooped packet,
the register, the calls to registers above, and whether a target was added. -/
structure Snooped where
  deferred : Bool
  pkt : Packet
  mshr : Mshr
  signals : List Signal
  added : Bool

def snoopCopy (pkt : Packet) (willRespond : Bool) : Packet :=
  if willRespond then pkt.copy true else .ofBlock pkt.req pkt.cmd m.blkSize

def markSnooped (pkt : Packet) (willRespond : Bool) : Except Halt Packet :=
  if willRespond then pkt.setCacheResponding >>= Packet.setResponderHadWritable
  else if m.pendingModified && pkt.cmd.isClean then pkt.setSatisfied
  else return pkt

def keeps (pkt : Packet) : Bool := m.pendingModified || pkt.cmd.isInvalidate

def keepSnoop (curTick order : ℕ) (pkt : Packet) (willRespond : Bool) :
    Except Halt (Packet × TargetList × List Signal) :=
  if m.keeps pkt then do
    let pkt' ← m.markSnooped pkt willRespond
    let r ← m.targets.add (m.snoopCopy pkt willRespond) curTick order .fromSnoop
      (m.downstreamPending && m.targets.needsWritable) false
    return (pkt', r)
  else return (pkt, m.targets, [])

def snoopAfter (curTick order : ℕ) (pkt : Packet) : Except Halt Snooped := do
  let willRespond := m.pendingModified && pkt.cmd.needsResponse && !pkt.cmd.isClean
  let (pkt', l, sig) ← m.keepSnoop curTick order pkt willRespond
  let downgrade := !pkt.cmd.needsWritable && !pkt.req.flags.uncacheable
  return {
    deferred := willRespond
    pkt := { pkt' with hasSharers := pkt'.hasSharers || downgrade }
    mshr := { m with
      targets := l
      postInvalidate := m.postInvalidate
        || (m.keeps pkt && (pkt.cmd.needsWritable || pkt.cmd.isInvalidate))
      postDowngrade := m.postDowngrade || downgrade }
    signals := sig
    added := m.keeps pkt }

/-- A snoop that takes copies away leaves nothing to upgrade for the requests made after it. -/
def loseCopies (pkt : Packet) : Mshr :=
  if pkt.cmd.needsWritable || pkt.req.flags.invalidate then
    { m with
      targets := m.targets.replaceUpgrades, deferredTargets := m.deferredTargets.replaceUpgrades }
  else m

def loseDeferredCopies (pkt : Packet) : Mshr :=
  if pkt.cmd.needsWritable || pkt.req.flags.invalidate then
    { m with deferredTargets := m.deferredTargets.replaceUpgrades }
  else m

def snoopInService (curTick order : ℕ) (pkt : Packet) : Except Halt Snooped :=
  match m.targets.targets with
  | [] => .error (.undefined "targets.front()")
  | front :: _ =>
    if m.postInvalidate || front.pkt.req.flags.invalidate then
      return ⟨true, pkt, m, [], false⟩
    else
      m.snoopAfter curTick order pkt

def handleSnoop (curTick order : ℕ) (pkt : Packet) : Except Halt Snooped := do
  require (pkt.cmd.isRequest = true) "isRequest()"
  panicIf (pkt.cmd.needsWritable ≠ pkt.cmd.isInvalidate ∧ pkt.req.flags.isCacheMaintenance = false)
    "needsWritable does not match isInvalidate"
  if !m.inService || (pkt.expressSnoop && m.downstreamPending) then
    return ⟨false, pkt, m.loseCopies pkt, [], false⟩
  else
    (m.loseDeferredCopies pkt).snoopInService curTick order pkt

/-- The targets that a response serves. After a response that takes the block away again only the
first target of the processor side is served, and the snoops. -/
def extractServiceableTargets (cmd : MemCmd) : Except Halt (TargetList × Mshr) :=
  if cmd = .readRespWithInvalidate then
    match m.targets.targets with
    | [] => .error (.undefined "targets.begin()")
    | first :: rest => do
      require (first.source = .fromCPU ∨ first.source = .fromPrefetcher)
        "(it->source == Target::FromCPU) || (it->source == Target::FromPrefetcher)"
      require (∀ t ∈ rest, t.source = .fromCPU ∨ t.source = .fromSnoop)
        "it->source == Target::FromSnoop"
      let ready ← { TargetList.init m.blkSize with
        targets := first :: rest.filter fun t => t.source ≠ Source.fromCPU }.populateFlags
      let l ← { m.targets with targets := rest.filter fun t => t.source = Source.fromCPU }.populateFlags
      return (ready, { m with targets := l })
  else do
    let l ← (TargetList.init m.blkSize).populateFlags
    return (m.targets, { m with targets := l })

/-- The deferred targets up to the first for cache maintenance, or that one alone if it is the first
and nothing else is left. -/
def promoted : List Target :=
  match m.deferredTargets.targets with
  | [] => []
  | t :: ts =>
    if t.pkt.req.flags.isCacheMaintenance then
      if m.targets.targets.isEmpty then [t] else []
    else t :: ts.takeWhile fun t => !t.pkt.req.flags.isCacheMaintenance

def promoteDeferredTargets (curTick : ℕ) : Except Halt (Bool × Mshr) :=
  if m.targets.targets.isEmpty && m.deferredTargets.targets.isEmpty then
    return (false, m)
  else do
    let deferred ← { m.deferredTargets with
      targets := m.deferredTargets.targets.drop m.promoted.length }.populateFlags
    let targets ← { m.targets with targets := m.targets.targets ++ m.promoted }.populateFlags
    match targets.targets with
    | [] => .error (.undefined "targets.front()")
    | front :: _ =>
      return (true, { m with
        targets := targets
        deferredTargets := deferred
        order := front.order
        readyTime := max curTick front.readyTime })

/-- `std::find_if_not`, with the assertion that the predicates make. -/
def splitFront (pred : Target → Bool) : List Target → Except Halt (List Target × List Target)
  | [] => return ([], [])
  | t :: ts => do
    require (t.source = .fromCPU) "t.source == Target::FromCPU"
    if pred t then do
      let (front, back) ← splitFront pred ts
      return (t :: front, back)
    else return ([], t :: ts)

def promoteIf (pred : Target → Bool) : Except Halt (Mshr × List Signal) := do
  require (m.downstreamPending = false) "!downstreamPending"
  let (front, back) ← splitFront pred m.deferredTargets.targets
  let deferred ← { m.deferredTargets with targets := back }.populateFlags
  return ({ m with
    targets := { m.targets with targets := m.targets.targets ++ front.map Target.clearPending }
    deferredTargets := deferred }, pendingSignals front)

def promoteReadable : Except Halt (Mshr × List Signal) := do
  if m.deferredTargets.targets.isEmpty then
    return (m, [])
  else if ← m.hasPostInvalidate then
    return (m, [])
  else
    m.promoteIf fun t => !t.pkt.req.flags.invalidate && !t.pkt.cmd.needsWritable

def promoteWritable : Except Halt (Mshr × List Signal) := do
  if !m.deferredTargets.needsWritable then
    return (m, [])
  else if (← m.hasPostInvalidate) || (← m.hasPostDowngrade) then
    return (m, [])
  else
    match m.deferredTargets.targets with
    | [] => .error (.undefined "deferredTargets.front()")
    | front :: _ =>
      if front.pkt.req.flags.invalidate then
        return (m, [])
      else do
        require (m.targets.needsWritable = false) "!targets.needsWritable"
        promoteIf { m with targets := { m.targets with needsWritable := true } }
          fun t => !t.pkt.req.flags.invalidate

/-- The deferred targets that `promoteReadable` moves. -/
def readableFront : List Target :=
  if m.postInvalidate then []
  else m.deferredTargets.targets.takeWhile fun t =>
    !t.pkt.req.flags.invalidate && !t.pkt.cmd.needsWritable

/-- The deferred targets that `promoteWritable` moves. -/
def writableFront : List Target :=
  if !m.deferredTargets.needsWritable || m.postInvalidate || m.postDowngrade then []
  else m.deferredTargets.targets.takeWhile fun t => !t.pkt.req.flags.invalidate

/-- A target that waits for a later request and is the first one to do so is not a write of the
whole block that is not merged with others. -/
def AddsMergeable (pkt : Packet) : Prop :=
  ∀ front ∈ m.targets.targets.head?, m.defers front pkt = true → m.deferredTargets.targets = [] →
    pkt.wholeSpecialWrite m.blkSize = false

instance (pkt : Packet) : Decidable (m.AddsMergeable pkt) :=
  inferInstanceAs (Decidable (∀ front ∈ m.targets.targets.head?, _))

end Mshr

/-- A register in use, with the counter that gives each target its place in the order, the targets
added so far with their sources, and those extracted so far. -/
structure MshrUse where
  mshr : Mshr
  curTick : ℕ
  nextOrder : ℕ
  added : List (ℕ × Source)
  extracted : List Target
  signals : List Signal
  deriving DecidableEq, Repr

namespace MshrUse

inductive Op
  | allocateTarget (pkt : Packet) (readyTime : ℕ) (allocOnFill : Bool)
  | handleSnoop (pkt : Packet)
  | setForward (isForward : Bool)
  | markInService (pendingModifiedResp : Bool)
  | markPending
  | extractServiceableTargets (cmd : MemCmd)
  | promoteDeferredTargets
  | promoteReadable
  | promoteWritable
  | setDownstreamPending
  | clearDownstreamPending
  | advance (ticks : ℕ)
  deriving DecidableEq, Repr

def start (blkAddr blkSize : ℕ) (target : Packet) (readyTime order curTick : ℕ)
    (allocOnFill : Bool) : Except Halt MshrUse := do
  let (m, sig) ← Mshr.allocate blkAddr blkSize target readyTime order allocOnFill
  return ⟨m, curTick, order + 1, m.targets.targets.map Target.tag, [], sig⟩

variable (s : MshrUse)

def moved (r : Mshr × List Signal) : MshrUse :=
  { s with mshr := r.1, signals := s.signals ++ r.2 }

def step (s : MshrUse) : Op → Except Halt MshrUse
  | .allocateTarget pkt readyTime allocOnFill => do
    let r ← s.mshr.allocateTarget pkt readyTime s.nextOrder allocOnFill
    return { s.moved r with
      nextOrder := s.nextOrder + 1, added := s.added ++ [(s.nextOrder, .fromCPU)] }
  | .handleSnoop pkt => do
    let r ← s.mshr.handleSnoop s.curTick s.nextOrder pkt
    return { s.moved (r.mshr, r.signals) with
      nextOrder := s.nextOrder + 1
      added := if r.added then s.added ++ [(s.nextOrder, .fromSnoop)] else s.added }
  | .setForward isForward => return { s with mshr := { s.mshr with isForward := isForward } }
  | .markInService pendingModifiedResp => return s.moved (← s.mshr.markInService pendingModifiedResp)
  | .markPending => return s.moved (← s.mshr.markPending, [])
  | .extractServiceableTargets cmd => do
    let r ← s.mshr.extractServiceableTargets cmd
    return { s with mshr := r.2, extracted := s.extracted ++ r.1.targets }
  | .promoteDeferredTargets => return s.moved ((← s.mshr.promoteDeferredTargets s.curTick).2, [])
  | .promoteReadable => return s.moved (← s.mshr.promoteReadable)
  | .promoteWritable => return s.moved (← s.mshr.promoteWritable)
  | .setDownstreamPending => do
    require (s.mshr.downstreamPending = false) "!mshr->downstreamPending"
    return { s with mshr := { s.mshr with downstreamPending := true } }
  | .clearDownstreamPending => return s.moved (← s.mshr.clearDownstreamPending)
  | .advance ticks => return { s with curTick := s.curTick + ticks }

/-- The operation moves no target whose flags the list that is served does not have, and defers no
write of a whole block that is not merged as the first target. -/
def Refreshed (s : MshrUse) : Op → Prop
  | .allocateTarget pkt _ _ => s.mshr.AddsMergeable pkt
  | .promoteReadable => s.mshr.targets.Gains s.mshr.readableFront s.mshr.targets.summary
  | .promoteWritable => s.mshr.writableFront = [] ∨
    s.mshr.targets.Gains s.mshr.writableFront { s.mshr.targets.summary with needsWritable := true }
  | _ => True

instance (s : MshrUse) (op : Op) : Decidable (s.Refreshed op) :=
  match op with
  | .allocateTarget pkt _ _ => inferInstanceAs (Decidable (s.mshr.AddsMergeable pkt))
  | .promoteReadable => inferInstanceAs (Decidable (s.mshr.targets.Gains _ _))
  | .promoteWritable => inferInstanceAs (Decidable (_ = _ ∨ s.mshr.targets.Gains _ _))
  | .handleSnoop _ | .setForward _ | .markInService _ | .markPending
  | .extractServiceableTargets _ | .promoteDeferredTargets | .setDownstreamPending
  | .clearDownstreamPending | .advance _ => inferInstanceAs (Decidable True)

def known : List Target :=
  s.extracted ++ s.mshr.targets.targets ++ s.mshr.deferredTargets.targets

end MshrUse

end Gem5
