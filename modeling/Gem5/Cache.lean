import Gem5.Lru
import Gem5.Packet

/-!
# The cache with DDIO

`BaseCache` and `Cache` in timing mode, with the blocks of `BaseSetAssoc`: which way a block is put
in, and the marks that it has from the packets of a device. A way keeps the marks when its block is
replaced.

What the cache does not decide by itself comes with each step: the tick, which blocks are cached
above, and the targets that a response serves. Data, latencies, compressor and prefetcher are left
out. `placed`, `left` and the header mark of the last write to each block are history.
-/

namespace Gem5

/-- A block object. `lastWrite` is recorded only: the header mark of the last write since the block came. -/
structure CacheBlk where
  valid : Bool := false
  addr : ℕ := 0
  secure : Bool := false
  readable : Bool := false
  writable : Bool := false
  dirty : Bool := false
  ddioPrefetchDestination : ℤ := -1
  isDdioPkt : Bool := false
  isDdioHeader : Bool := false
  repl : LRUReplData := {}
  lastWrite : Option Bool := none
  deriving DecidableEq, Repr

namespace CacheBlk

def invalidate (b : CacheBlk) : CacheBlk :=
  { b with valid := false, readable := false, writable := false, dirty := false }

def insert (b : CacheBlk) (addr : ℕ) (secure : Bool) : CacheBlk :=
  { b with valid := true, addr := addr, secure := secure, lastWrite := none }

def matchTag (b : CacheBlk) (addr : ℕ) (secure : Bool) : Bool :=
  b.valid && b.addr == addr && b.secure == secure

def write (b : CacheBlk) (pkt : Packet) : CacheBlk := { b with lastWrite := some pkt.isDdioHeader }

end CacheBlk

inductive Loc
  | way (set way : ℕ)
  | temp
  deriving DecidableEq, Repr

/-- What `MSHR::allocate` keeps of its first target. `io` is recorded only: the flag `BLOCK_IO` of it. -/
structure MissEntry where
  blkAddr : ℕ
  isSecure : Bool
  uncacheable : Bool
  wasBlockIO : Bool
  qidFromDev : ℤ
  isHeader : Bool
  isDdioPkt : Bool
  io : Bool
  deriving DecidableEq, Repr

/-- Where a block was put: whether it is for an I/O packet, whether the mask has the way, and whether the
way had been invalidated for I/O. -/
structure Placement where
  io : Bool
  way : ℕ
  selected : Bool
  ioInvalidated : Bool
  deriving DecidableEq, Repr

structure Departure where
  pkt : Packet
  lastWrite : Option Bool
  deriving DecidableEq, Repr

/-- The parameters of a cache. `setOf` is the set of a block. -/
structure CacheParams where
  blkSize : ℕ
  setOf : ℕ → ℕ
  isIOCache : Bool := false
  ddioEnabled : Bool := true
  ddioWayPart : BitVec 32 := -1
  isLLC : Bool := false
  isMLC : Bool := false
  mlcDdio : Bool := false
  writebackClean : Bool := false
  mostlyExcl : Bool := false

structure Cache where
  params : CacheParams
  sets : ℕ → List CacheBlk
  tempBlock : CacheBlk := {}
  mshrs : List MissEntry := []
  writeBuffer : List Packet := []
  writebacks : List Packet := []
  placed : List Placement := []
  left : List Departure := []

namespace Cache

variable (c : Cache)

def get : Loc → CacheBlk
  | .way s w => (c.sets s).getD w {}
  | .temp => c.tempBlock

def modify (f : CacheBlk → CacheBlk) : Loc → Cache
  | .way s w => { c with sets := Function.update c.sets s ((c.sets s).modify w f) }
  | .temp => { c with tempBlock := f c.tempBlock }

/-! ## Tags and queues -/

def blockAddr (pkt : Packet) : ℕ := pkt.getBlockAddr c.params.blkSize

def findBlock (addr : ℕ) (secure : Bool) : Option Loc :=
  ((c.sets (c.params.setOf addr)).findIdx? (·.matchTag addr secure)).map
    (Loc.way (c.params.setOf addr))

def findMshr (addr : ℕ) (secure : Bool) : Bool :=
  c.mshrs.any fun m => !m.uncacheable && m.blkAddr == addr && m.isSecure == secure

def findWrite (addr : ℕ) (secure : Bool) : Option ℕ :=
  c.writeBuffer.findIdx? fun p =>
    !p.req.flags.uncacheable && p.getBlockAddr c.params.blkSize == addr && p.isSecure == secure

/-! ## Blocks that leave -/

/-- The invalidation of an I/O block in the last level, or in a middle one that takes part. -/
def isLLCisMLCIOInvalid (pkt : Packet) : Bool :=
  ((c.params.isMLC && c.params.mlcDdio) || c.params.isLLC) && pkt.isBlockIO
    && decide (pkt.cmd = .invalidateReq)

def invalidateBlock (isLlcInv : Bool) : Loc → Cache
  | .temp => c.modify CacheBlk.invalidate .temp
  | loc => c.modify (fun b => { b.invalidate with
      repl := if isLlcInv then b.repl.invalidateDDIO else b.repl.invalidate }) loc

def blockPacket (b : CacheBlk) (cmd : MemCmd) : Packet :=
  { Packet.ofRequest ⟨b.addr, c.params.blkSize, { secure := b.secure }, 0, 0, 0, 0⟩ cmd with
    blockIO := c.params.isIOCache }

def writebackBlk (b : CacheBlk) : Except Halt Packet := do
  require (b.valid = true ∧ (b.dirty = true ∨ c.params.writebackClean = true))
    "blk && blk->isValid() && (blk->isSet(DirtyBit) || writebackClean)"
  return { c.blockPacket b (if b.dirty then .writebackDirty else .writebackClean) with
    ddioPrefetchDestination := if c.params.isIOCache then b.ddioPrefetchDestination else -1
    isDdioPkt := c.params.isIOCache && b.isDdioPkt
    isDdioHeader := c.params.isIOCache && b.isDdioHeader
    hasSharers := !b.writable }

def cleanEvictBlk (b : CacheBlk) : Except Halt Packet := do
  require (c.params.writebackClean = false) "!writebackClean"
  require (b.valid = true ∧ b.dirty = false) "blk && blk->isValid() && !blk->isSet(DirtyBit)"
  return c.blockPacket b .cleanEvict

def evictPacket (b : CacheBlk) : Except Halt Packet :=
  if b.dirty || c.params.writebackClean then c.writebackBlk b else c.cleanEvictBlk b

/-- `writebackBlk` takes the destination of the block away. -/
def evictedBlk (b : CacheBlk) : CacheBlk :=
  if (b.dirty || c.params.writebackClean) && c.params.isIOCache then
    { b with ddioPrefetchDestination := -1 }
  else b

/-- The marks that `evictBlock` sets on the packet once more. -/
def markPacket (b : CacheBlk) (pkt : Packet) : Packet :=
  if c.params.isIOCache then
    { pkt with
      ddioPrefetchDestination := b.ddioPrefetchDestination
      isDdioHeader := pkt.isDdioHeader || b.isDdioHeader }
  else pkt

def evictBlock (loc : Loc) : Except Halt Cache := do
  let b := c.get loc
  let pkt ← c.evictPacket b
  return { (c.modify c.evictedBlk loc).invalidateBlock false loc with
    writebacks := c.writebacks ++ [c.markPacket b pkt]
    left := c.left ++ [⟨c.markPacket b pkt, b.lastWrite⟩] }

def writecleanBlk (loc : Loc) : Cache :=
  { c.modify (fun b => { b with writable := false, dirty := false }) loc with
    writebacks := c.writebacks ++ [{ c.blockPacket (c.get loc) .writeClean with
      hasSharers := !(c.get loc).writable }] }

/-- The write-backs of a step go into the write buffer. Of those cached above only dirty data goes. -/
def doWritebacks (above : List ℕ) : Cache :=
  { c with
    writebacks := []
    writeBuffer := c.writeBuffer ++ c.writebacks.filterMap fun pkt =>
      if pkt.addr ∈ above then
        if pkt.cmd = .cleanEvict ∨ pkt.cmd = .writebackClean then none
        else some { pkt with blockCached := true }
      else some pkt }

/-! ## Blocks that come -/

def chooseVictim (set : ℕ) (isDdio : Bool) : Except Halt ℕ :=
  if isDdio then LRU.getVictimWayPart ((c.sets set).map (·.repl)) c.params.ddioWayPart
  else LRU.getVictim ((c.sets set).map (·.repl))

/-- `getVictimWayPart` clears the mark of an I/O invalidation of its victim. -/
def victimChosen (isDdio : Bool) (loc : Loc) : Cache :=
  if isDdio then c.modify (fun b => { b with repl := { b.repl with ioInvalidated := false } }) loc
  else c

def handleEvictions (loc : Loc) : Except Halt (Option Cache) :=
  let b := c.get loc
  if b.valid then
    if c.findMshr b.addr b.secure then .ok none else do return some (← c.evictBlock loc)
  else .ok (some c)

def insertBlock (pkt : Packet) (curTick : ℕ) (loc : Loc) : Except Halt Cache := do
  require ((c.get loc).valid = false) "!blk->isValid()"
  return c.modify (fun b => { b.insert (c.blockAddr pkt) pkt.isSecure with
    repl := b.repl.touch curTick
    ddioPrefetchDestination := pkt.ddioPrefetchDestination }) loc

/-- `allocateBlock`. The packet is for I/O or not. -/
def allocateBlock (pkt : Packet) (io isDdio : Bool) (curTick : ℕ) :
    Except Halt (Cache × Option Loc) := do
  let set := c.params.setOf (c.blockAddr pkt)
  let way ← c.chooseVictim set isDdio
  let c₁ := c.victimChosen isDdio (.way set way)
  match ← c₁.handleEvictions (.way set way) with
  | none => return (c₁, none)
  | some c₂ => do
    let c₃ ← c₂.insertBlock pkt curTick (.way set way)
    return ({ c₃ with placed := c₃.placed ++
      [⟨io, way, c.params.ddioWayPart.getLsbD way, (c.get (.way set way)).repl.ioInvalidated⟩] },
      some (.way set way))

def findOrAllocate (blk : Option Loc) (pkt : Packet) (io isDdio : Bool) (curTick : ℕ) :
    Except Halt (Cache × Option Loc) :=
  match blk with
  | some loc => .ok (c, some loc)
  | none => c.allocateBlock pkt io isDdio curTick

/-! ## Requests -/

/-- The block after a request that the cache can answer. `deferred` and `pendingDowngrade` are those of
`Cache::satisfyRequest`. -/
def satisfiedBlk (pkt : Packet) (deferred pendingDowngrade : Bool) (b : CacheBlk) : CacheBlk :=
  if pkt.cmd.isWrite then { b.write pkt with dirty := true }
  else if pkt.cmd.isRead then
    if pkt.cmd.fromCache && (pkt.cmd.needsWritable || (b.writable && !pendingDowngrade &&
        !pkt.hasSharers && decide (pkt.cmd ≠ .readCleanReq) && !deferred)) then
      { b with dirty := false }
    else b
  else { b with dirty := false }

def satisfyRequest (pkt : Packet) (deferred pendingDowngrade : Bool) (loc : Loc) :
    Except Halt Cache := do
  require (pkt.cmd.isRequest = true) "pkt->isRequest()"
  require ((c.get loc).valid = true) "blk && blk->isValid()"
  require (pkt.getOffset c.params.blkSize + pkt.size ≤ c.params.blkSize)
    "pkt->getOffset(blkSize) + pkt->getSize() <= blkSize"
  require (pkt.cmd.isWrite = true → pkt.cmd ≠ .swapReq → (c.get loc).writable = true)
    "blk->isSet(CacheBlk::WritableBit)"
  if pkt.cmd.isWrite || pkt.cmd.isRead || pkt.cmd.isUpgrade || pkt.cmd.isClean then
    return c.modify (satisfiedBlk pkt deferred pendingDowngrade) loc
  else do
    require (pkt.cmd.isInvalidate = true) "pkt->isInvalidate()"
    return c.invalidateBlock (c.isLLCisMLCIOInvalid pkt) loc

def maintainClusivity (fromCache : Bool) (loc : Loc) : Cache :=
  if fromCache && (c.get loc).valid && !(c.get loc).dirty && c.params.mostlyExcl then
    c.invalidateBlock false loc
  else c

structure Access where
  cache : Cache
  blk : Option Loc
  satisfied : Bool

def writtenBack (pkt : Packet) (new : Bool) (b : CacheBlk) : CacheBlk :=
  { b.write pkt with
    readable := new || b.readable
    dirty := decide (pkt.cmd = .writebackDirty) || b.dirty
    writable := !pkt.hasSharers || b.writable
    ddioPrefetchDestination :=
      if c.params.isIOCache && decide (pkt.ddioPrefetchDestination ≠ -1) then
        pkt.ddioPrefetchDestination
      else b.ddioPrefetchDestination }

def accessWriteback (blk : Option Loc) (pkt : Packet) (curTick : ℕ) : Except Halt Access := do
  require (c.params.blkSize = pkt.size) "blkSize == pkt->getSize()"
  if pkt.cmd = .writebackClean ∧ c.findMshr (c.blockAddr pkt) pkt.isSecure = true then
    return ⟨c, blk, true⟩
  else do
    let (c₁, blk₁) ← c.findOrAllocate blk pkt pkt.blockIO false curTick
    match blk₁ with
    | none => return ⟨c₁, none, false⟩
    | some loc => return ⟨c₁.modify (c.writtenBack pkt blk.isNone) loc, some loc, true⟩

/-- A `WriteClean` that finds or gets a block. -/
def writtenClean (pkt : Packet) (new : Bool) (b : CacheBlk) : CacheBlk :=
  let marks := c.params.isIOCache && decide (pkt.ddioPrefetchDestination ≠ -1)
  { b.write pkt with
    readable := new || b.readable
    dirty := !pkt.writeThrough || b.dirty
    ddioPrefetchDestination :=
      if marks then pkt.ddioPrefetchDestination else b.ddioPrefetchDestination
    isDdioPkt := (marks && pkt.isDdioPkt) || b.isDdioPkt
    isDdioHeader := (marks && pkt.isDdioHeader) || b.isDdioHeader }

def accessWriteClean (blk : Option Loc) (pkt : Packet) (isDdio : Bool) (curTick : ℕ) :
    Except Halt Access := do
  require (c.params.blkSize = pkt.size) "blkSize == pkt->getSize()"
  if blk = none ∧ pkt.writeThrough = true then return ⟨c, none, false⟩
  else do
    let (c₁, blk₁) ← c.findOrAllocate blk pkt pkt.blockIO isDdio curTick
    match blk₁ with
    | none => return ⟨c₁, none, false⟩
    | some loc =>
      return ⟨c₁.modify (c.writtenClean pkt blk.isNone) loc, some loc, !pkt.writeThrough⟩

def permits (pkt : Packet) (loc : Loc) : Bool :=
  (c.get loc).valid && if pkt.cmd.needsWritable then (c.get loc).writable else (c.get loc).readable

def accessHit (blk : Option Loc) (pkt : Packet) : Except Halt Access :=
  match blk with
  | none => .ok ⟨c, none, pkt.cmd.isLLSC && pkt.cmd.isWrite⟩
  | some loc =>
    if c.permits pkt loc then do
      let c₁ ← c.satisfyRequest pkt false false loc
      return ⟨c₁.maintainClusivity pkt.cmd.fromCache loc, some loc, true⟩
    else .ok ⟨c, some loc, false⟩

/-- An eviction from above that meets a write-back of this cache in the write buffer. The result is whether
the request ends here. -/
def meetWriteBuffer (pkt : Packet) : Except Halt (Cache × Bool) :=
  if pkt.cmd.isEviction then
    match c.findWrite (c.blockAddr pkt) pkt.isSecure with
    | none => .ok (c, false)
    | some i =>
      if pkt.cmd.isCleanEviction then
        .ok ({ c with
          writeBuffer := c.writeBuffer.modify i fun p => { p with blockCached := false } }, true)
      else do
        require (pkt.cmd = .writebackDirty) "pkt->cmd == MemCmd::WritebackDirty"
        return ({ c with writeBuffer := c.writeBuffer.eraseIdx i }, false)
  else .ok (c, false)

def accessCacheable (pkt : Packet) (isDdio : Bool) (curTick : ℕ) : Except Halt Access := do
  require (pkt.cmd.isRequest = true) "pkt->isRequest()"
  let blk := c.findBlock (c.blockAddr pkt) pkt.isSecure
  let c₀ := blk.elim c (c.modify fun b => { b with repl := b.repl.touch curTick })
  if pkt.req.flags.isCacheMaintenance then return ⟨c₀, blk, false⟩
  else do
    let (c₁, done) ← c₀.meetWriteBuffer pkt
    if done then return ⟨c₁, blk, true⟩
    else if pkt.cmd.isWriteback then c₁.accessWriteback blk pkt curTick
    else if pkt.cmd = .cleanEvict then return ⟨c₁, blk, blk.isSome⟩
    else if pkt.cmd = .writeClean then c₁.accessWriteClean blk pkt isDdio curTick
    else c₁.accessHit blk pkt

def access (pkt : Packet) (isDdio : Bool) (curTick : ℕ) : Except Halt Access :=
  if pkt.req.flags.uncacheable then
    match c.findBlock (c.blockAddr pkt) pkt.isSecure with
    | none => .ok ⟨c, none, false⟩
    | some loc => do return ⟨← c.evictBlock loc, none, false⟩
  else c.accessCacheable pkt isDdio curTick

def allocateMissBuffer (pkt : Packet) : Cache :=
  { c with mshrs := c.mshrs ++ [⟨c.blockAddr pkt, pkt.isSecure, pkt.req.flags.uncacheable,
      pkt.isBlockIO, pkt.ddioPrefetchDestination, pkt.isDdioHeader, pkt.isDdioPkt, pkt.blockIO⟩] }

def allocateWriteBuffer (pkt : Packet) : Cache := { c with writeBuffer := c.writeBuffer ++ [pkt] }

def startMiss (pkt : Packet) (blk : Option Loc) : Cache :=
  (blk.elim c (c.modify fun b => { b with readable := false })).allocateMissBuffer pkt

def handleTimingReqMiss (pkt : Packet) (blk : Option Loc) : Cache :=
  if pkt.req.flags.uncacheable then
    if pkt.cmd.isWrite then c.allocateWriteBuffer pkt else c.allocateMissBuffer pkt
  else if c.findMshr (c.blockAddr pkt) pkt.isSecure then
    if pkt.cmd = .writeClean then c.allocateWriteBuffer pkt else c
  else if pkt.cmd.isEviction ∨ pkt.cmd = .writeClean then c.allocateWriteBuffer pkt
  else if pkt.cmd.isSWPrefetch then c.startMiss (.ofRequest pkt.req pkt.cmd) blk
  else c.startMiss pkt blk

/-- A write of a whole line is made a `WriteLineReq`. -/
def promoteWholeLineWrites (pkt : Packet) : Packet :=
  if pkt.cmd = .writeReq ∧ pkt.size = c.params.blkSize ∧ pkt.getOffset c.params.blkSize = 0 then
    { pkt with cmd := .writeLineReq }
  else pkt

/-- `handleTimingReqHit` makes the packet the response. -/
def makeTimingResponse (pkt : Packet) : Packet :=
  if pkt.cmd.needsResponse then { pkt with cmd := pkt.cmd.responseCommand, expressSnoop := false }
  else pkt

/-- The marks that `recvTimingReq` gives a block whose write it answered, by the command that the packet
has then. -/
def markHit (pkt : Packet) (blk : Option Loc) : Cache :=
  if c.params.isIOCache && (decide (pkt.cmd = .writeReq) || decide (pkt.cmd = .writeLineReq)) then
    blk.elim c (c.modify fun b => { b with
      ddioPrefetchDestination := pkt.ddioPrefetchDestination
      isDdioHeader := pkt.isDdioHeader || b.isDdioHeader })
  else c

def recvTimingReq (pkt : Packet) (curTick : ℕ) (above : List ℕ) : Except Halt Cache :=
  let pkt := c.promoteWholeLineWrites pkt
  if pkt.cacheResponding then do
    require (pkt.cmd.needsWritable = true ∧ pkt.responderHadWritable = false)
      "pkt->needsWritable() && !pkt->responderHadWritable()"
    return c
  else do
    let a ← c.access pkt (pkt.isBlockIO && c.params.ddioEnabled) curTick
    let c₁ := a.cache.doWritebacks above
    if a.satisfied then return c₁.markHit (makeTimingResponse pkt) a.blk
    else return c₁.handleTimingReqMiss pkt a.blk

/-! ## Snoops -/

def handleSnoop (pkt : Packet) (loc : Loc) : Cache :=
  let c₁ := if pkt.cmd.isClean && (c.get loc).valid && (c.get loc).dirty then c.writecleanBlk loc else c
  if !(c.get loc).valid || pkt.cmd.mustCheckAbove then c₁
  else
    let c₂ :=
      if pkt.cmd.isRead && !pkt.cmd.isInvalidate && !pkt.req.flags.uncacheable then
        c₁.modify (fun b => { b with writable := false }) loc
      else c₁
    if pkt.cmd.isInvalidate then c₂.invalidateBlock (c.isLLCisMLCIOInvalid pkt) loc else c₂

/-- An invalidating snoop takes a write-back, but not a `WriteClean`, out of the write buffer. -/
def snoopWriteBuffer (pkt : Packet) : Cache :=
  match c.findWrite (c.blockAddr pkt) pkt.isSecure with
  | none => c
  | some i =>
    if pkt.cmd.isInvalidate && (c.writeBuffer[i]?.any fun p => decide (p.cmd ≠ .writeClean)) then
      { c with writeBuffer := c.writeBuffer.eraseIdx i }
    else c

def recvTimingSnoopReq (pkt : Packet) (putOff : Bool) (above : List ℕ) : Cache :=
  if putOff then c
  else
    match c.findBlock (c.blockAddr pkt) pkt.isSecure with
    | none => c.snoopWriteBuffer pkt
    | some loc => ((c.snoopWriteBuffer pkt).handleSnoop pkt loc).doWritebacks above

/-! ## Responses -/

inductive Served
  | fromCPU (pkt : Packet)
  | fromPrefetcher
  | fromSnoop (pkt : Packet)
  deriving DecidableEq, Repr

structure Reply where
  isForward : Bool := false
  wasWholeLineWrite : Bool := false
  allocate : Bool := true
  served : List Served := []
  hasFromCache : Bool := false
  postInvalidate : Bool := false
  postDowngrade : Bool := false
  finished : Bool := true
  deriving DecidableEq, Repr

def filledBlk (pkt : Packet) (b : CacheBlk) : CacheBlk :=
  let marks := c.params.isIOCache && decide (pkt.ddioPrefetchDestination ≠ -1)
  { b with
    readable := true
    writable := !pkt.hasSharers || b.writable
    dirty := (!pkt.hasSharers && pkt.cacheResponding) || b.dirty
    ddioPrefetchDestination :=
      if marks then pkt.ddioPrefetchDestination else b.ddioPrefetchDestination
    isDdioPkt := (marks && pkt.isDdioPkt) || b.isDdioPkt
    isDdioHeader := (marks && pkt.isDdioHeader) || b.isDdioHeader }

def allocateOnFill (pkt : Packet) (allocate io isDdio : Bool) (curTick : ℕ) :
    Except Halt (Cache × Option Loc) :=
  if allocate then c.allocateBlock pkt io isDdio curTick else .ok (c, none)

def handleFill (pkt : Packet) (blk : Option Loc) (allocate io isDdio : Bool) (curTick : ℕ) :
    Except Halt (Cache × Loc) := do
  require (pkt.addr = c.blockAddr pkt) "addr == pkt->getBlockAddr(blkSize)"
  require (c.findWrite pkt.addr pkt.isSecure = none) "!writeBuffer.findMatch(addr, is_secure)"
  match blk with
  | some loc => return (c.modify (c.filledBlk pkt) loc, loc)
  | none => do
    let (c₁, new) ← c.allocateOnFill pkt allocate io isDdio curTick
    match new with
    | some loc => return (c₁.modify (c.filledBlk pkt) loc, loc)
    | none => return (c₁.modify (fun b => c.filledBlk pkt (b.insert pkt.addr pkt.isSecure)) .temp, .temp)

def serve (pkt : Packet) (reply : Reply) (blk : Option Loc) : Served → Except Halt Cache
  | .fromPrefetcher => .ok c
  | .fromSnoop tgt => .ok (blk.elim c (c.handleSnoop tgt))
  | .fromCPU tgt =>
    match blk with
    | none => .ok c
    | some loc =>
      if tgt.cmd.isSWPrefetch then
        .ok (if tgt.cmd.needsWritable then c.modify (fun b => { b with dirty := true }) loc else c)
      else if (c.get loc).valid && (!reply.isForward || !pkt.cmd.hasData) then
        c.satisfyRequest tgt true reply.postDowngrade loc
      else if pkt.cmd = .upgradeFailResp then .ok c
      else if pkt.cmd.isInvalidate && !reply.wasWholeLineWrite && (c.get loc).valid then
        .ok (c.invalidateBlock false loc)
      else .ok c

def serveAll (pkt : Packet) (reply : Reply) (blk : Option Loc) : List Served → Cache →
    Except Halt Cache
  | [], c => .ok c
  | t :: ts, c => do
    let c₁ ← c.serve pkt reply blk t
    serveAll pkt reply blk ts c₁

def afterTargets (pkt : Packet) (reply : Reply) (loc : Loc) : Cache :=
  let c₁ := c.maintainClusivity reply.hasFromCache loc
  if (c₁.get loc).valid then
    if (pkt.cmd.isInvalidate && !reply.wasWholeLineWrite) || reply.postInvalidate then
      c₁.invalidateBlock false loc
    else if reply.postDowngrade then c₁.modify (fun b => { b with writable := false }) loc
    else c₁
  else c₁

def markResponse (pkt : Packet) (blk : Option Loc) : Cache :=
  if c.params.isIOCache then
    blk.elim c (c.modify fun b => { b with
      ddioPrefetchDestination := pkt.ddioPrefetchDestination
      isDdioHeader := pkt.isDdioHeader || b.isDdioHeader })
  else c

def markFill (pkt : Packet) (mshr : MissEntry) : Packet :=
  if pkt.ddioPrefetchDestination = -1 then
    { pkt with
      ddioPrefetchDestination := mshr.qidFromDev
      isDdioPkt := mshr.isDdioPkt || pkt.isDdioPkt
      isDdioHeader := mshr.isHeader || pkt.isDdioHeader }
  else pkt

def isFill (pkt : Packet) (reply : Reply) : Bool :=
  !reply.isForward && (pkt.cmd.isRead || decide (pkt.cmd = .upgradeResp) || reply.wasWholeLineWrite)
    && !pkt.cmd.isError

def fillOrFind (pkt : Packet) (mshr : MissEntry) (reply : Reply) (curTick : ℕ) :
    Except Halt (Cache × Option Loc) :=
  let blk := c.findBlock (c.blockAddr pkt) pkt.isSecure
  let c₁ := c.markResponse pkt blk
  if isFill pkt reply then do
    let (c₂, loc) ← c₁.handleFill (markFill pkt mshr) blk reply.allocate mshr.io
      (mshr.wasBlockIO && c.params.ddioEnabled) curTick
    return (c₂, some loc)
  else .ok (c₁, blk)

def finishMshr (reply : Reply) (i : ℕ) (blk : Option Loc) : Cache :=
  if reply.finished then { c with mshrs := c.mshrs.eraseIdx i }
  else blk.elim c (c.modify fun b => { b with readable := false })

def evictTemp (blk : Option Loc) : Except Halt Cache :=
  if blk = some .temp ∧ c.tempBlock.valid = true then c.evictBlock .temp else .ok c

def recvTimingResp (pkt : Packet) (i : ℕ) (reply : Reply) (curTick : ℕ) (above : List ℕ) :
    Except Halt Cache := do
  require (pkt.cmd.isResponse = true) "pkt->isResponse()"
  if pkt.cmd.isWrite then do
    require (pkt.req.flags.uncacheable = true) "pkt->req->isUncacheable()"
    return c
  else
    match c.mshrs[i]? with
    | none => .error (.assertion "mshr")
    | some mshr => do
      require (reply.wasWholeLineWrite = true → pkt.cmd.isInvalidate = true)
        "!mshr->wasWholeLineWrite || pkt->isInvalidate()"
      let (c₁, blk) ← c.fillOrFind pkt mshr reply curTick
      let c₂ := blk.elim c₁ (c₁.modify fun b => { b with
        readable := (b.valid && pkt.cmd.isClean && !pkt.cmd.isInvalidate) || b.readable })
      let c₃ ← serveAll pkt reply blk reply.served c₂
      let c₄ ← ((blk.elim c₃ (c₃.afterTargets pkt reply)).finishMshr reply i blk).evictTemp blk
      return c₄.doWritebacks above

/-! ## Steps -/

inductive Op
  | recvTimingReq (pkt : Packet)
  | recvTimingResp (pkt : Packet) (mshr : ℕ) (reply : Reply)
  | recvTimingSnoopReq (pkt : Packet) (putOff : Bool)
  | clean (addr : ℕ) (secure : Bool)
  | sendWrite (i : ℕ)
  deriving DecidableEq, Repr

structure Step where
  op : Op
  curTick : ℕ := 0
  above : List ℕ := []
  deriving DecidableEq, Repr

/-- `clean` is the cleaning request that `sendMSHRQueuePacket` sends while the block is dirty. -/
def step (c : Cache) (s : Step) : Except Halt Cache :=
  match s.op with
  | .recvTimingReq pkt => c.recvTimingReq pkt s.curTick s.above
  | .recvTimingResp pkt i reply => c.recvTimingResp pkt i reply s.curTick s.above
  | .recvTimingSnoopReq pkt putOff => .ok (c.recvTimingSnoopReq pkt putOff s.above)
  | .clean addr secure =>
    match c.findBlock addr secure with
    | none => .ok c
    | some loc => .ok (if (c.get loc).dirty then (c.writecleanBlk loc).doWritebacks s.above else c)
  | .sendWrite i => .ok { c with writeBuffer := c.writeBuffer.eraseIdx i }

end Cache

end Gem5
