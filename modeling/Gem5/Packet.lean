import Gem5.Basic

/-!
# Packets of the memory system

`MemCmd`, `Request` and `Packet` of `packet.hh` and `request.hh`, with the fields that the DMA engine,
the caches and the crossbar read. A command is known by its attributes, which are those of the table
`MemCmd::commandInfo`. The flags of a packet and of a request are fields.
-/

namespace Gem5

/-- `MemCmd::Command`. -/
inductive MemCmd
  | invalidCmd
  | readReq
  | readResp
  | readRespWithInvalidate
  | writeReq
  | writeResp
  | writeCompleteResp
  | writebackDirty
  | writebackClean
  | writeClean
  | cleanEvict
  | softPFReq
  | softPFExReq
  | hardPFReq
  | softPFResp
  | hardPFResp
  | writeLineReq
  | upgradeReq
  | scUpgradeReq
  | upgradeResp
  | scUpgradeFailReq
  | upgradeFailResp
  | readExReq
  | readExResp
  | readCleanReq
  | readSharedReq
  | loadLockedReq
  | storeCondReq
  | storeCondFailReq
  | storeCondResp
  | swapReq
  | swapResp
  | memFenceReq
  | memSyncReq
  | memSyncResp
  | memFenceResp
  | cleanSharedReq
  | cleanSharedResp
  | cleanInvalidReq
  | cleanInvalidResp
  | invalidDestError
  | badAddressError
  | functionalReadError
  | functionalWriteError
  | printReq
  | flushReq
  | invalidateReq
  | invalidateResp
  | htmReq
  | htmReqResp
  | htmAbort
  deriving DecidableEq, Repr

namespace MemCmd

/-- `MemCmd::Attribute`. -/
inductive Attribute
  | isRead
  | isWrite
  | isUpgrade
  | isInvalidate
  | isClean
  | needsWritable
  | isRequest
  | isResponse
  | needsResponse
  | isEviction
  | isSWPrefetch
  | isHWPrefetch
  | isLlsc
  | hasData
  | isError
  | isPrint
  | isFlush
  | fromCache
  deriving DecidableEq, Repr

open Attribute in
/-- The attributes of `MemCmd::commandInfo`. -/
def attributes : MemCmd → List Attribute
  | invalidCmd => []
  | readReq => [isRead, isRequest, needsResponse]
  | readResp => [isRead, isResponse, hasData]
  | readRespWithInvalidate => [isRead, isResponse, hasData, isInvalidate]
  | writeReq => [isWrite, needsWritable, isRequest, needsResponse, hasData]
  | writeResp => [isWrite, isResponse]
  | writeCompleteResp => [isWrite, isResponse]
  | writebackDirty => [isWrite, isRequest, isEviction, hasData, fromCache]
  | writebackClean => [isWrite, isRequest, isEviction, hasData, fromCache]
  | writeClean => [isWrite, isRequest, hasData, fromCache]
  | cleanEvict => [isRequest, isEviction, fromCache]
  | softPFReq => [isRead, isRequest, isSWPrefetch, needsResponse]
  | softPFExReq => [isRead, needsWritable, isInvalidate, isRequest, isSWPrefetch, needsResponse]
  | hardPFReq => [isRead, isRequest, isHWPrefetch, needsResponse, fromCache]
  | softPFResp => [isRead, isResponse, isSWPrefetch, hasData]
  | hardPFResp => [isRead, isResponse, isHWPrefetch, hasData]
  | writeLineReq => [isWrite, needsWritable, isRequest, needsResponse, hasData]
  | upgradeReq => [isInvalidate, needsWritable, isUpgrade, isRequest, needsResponse, fromCache]
  | scUpgradeReq =>
    [isInvalidate, needsWritable, isUpgrade, isLlsc, isRequest, needsResponse, fromCache]
  | upgradeResp => [isUpgrade, isResponse]
  | scUpgradeFailReq =>
    [isRead, needsWritable, isInvalidate, isLlsc, isRequest, needsResponse, fromCache]
  | upgradeFailResp => [isRead, isResponse, hasData]
  | readExReq => [isRead, needsWritable, isInvalidate, isRequest, needsResponse, fromCache]
  | readExResp => [isRead, isResponse, hasData]
  | readCleanReq => [isRead, isRequest, needsResponse, fromCache]
  | readSharedReq => [isRead, isRequest, needsResponse, fromCache]
  | loadLockedReq => [isRead, isLlsc, isRequest, needsResponse]
  | storeCondReq => [isWrite, needsWritable, isLlsc, isRequest, needsResponse, hasData]
  | storeCondFailReq => [isWrite, needsWritable, isLlsc, isRequest, needsResponse, hasData]
  | storeCondResp => [isWrite, isLlsc, isResponse]
  | swapReq => [isRead, isWrite, needsWritable, isRequest, hasData, needsResponse]
  | swapResp => [isRead, isWrite, isResponse, hasData]
  | memFenceReq => [isRequest, needsResponse]
  | memSyncReq => [isRequest, needsResponse]
  | memSyncResp => [isResponse]
  | memFenceResp => [isResponse]
  | cleanSharedReq => [isRequest, isClean, needsResponse, fromCache]
  | cleanSharedResp => [isResponse, isClean]
  | cleanInvalidReq => [isRequest, isInvalidate, isClean, needsResponse, fromCache]
  | cleanInvalidResp => [isResponse, isInvalidate, isClean]
  | invalidDestError => [isResponse, isError]
  | badAddressError => [isResponse, isError]
  | functionalReadError => [isRead, isResponse, isError]
  | functionalWriteError => [isWrite, isResponse, isError]
  | printReq => [isRequest, isPrint]
  | flushReq => [isRequest, isFlush, needsWritable]
  | invalidateReq => [isInvalidate, isRequest, needsWritable, needsResponse, fromCache]
  | invalidateResp => [isInvalidate, isResponse]
  | htmReq => [isRead, isRequest, needsResponse]
  | htmReqResp => [isRead, isResponse]
  | htmAbort => [isRead, isRequest]

/-- The response that `MemCmd::commandInfo` gives to a request. -/
def responseCommand : MemCmd → MemCmd
  | readReq | readCleanReq | readSharedReq | loadLockedReq => readResp
  | writeReq | writeLineReq => writeResp
  | softPFReq | softPFExReq => softPFResp
  | hardPFReq => hardPFResp
  | upgradeReq | scUpgradeReq => upgradeResp
  | scUpgradeFailReq => upgradeFailResp
  | readExReq => readExResp
  | storeCondReq | storeCondFailReq => storeCondResp
  | swapReq => swapResp
  | memFenceReq => memFenceResp
  | memSyncReq => memSyncResp
  | cleanSharedReq => cleanSharedResp
  | cleanInvalidReq => cleanInvalidResp
  | invalidateReq => invalidateResp
  | htmReq => htmReqResp
  | _ => invalidCmd

def testCmdAttrib (c : MemCmd) (a : Attribute) : Bool := decide (a ∈ c.attributes)

def isRead (c : MemCmd) : Bool := c.testCmdAttrib .isRead
def isWrite (c : MemCmd) : Bool := c.testCmdAttrib .isWrite
def isUpgrade (c : MemCmd) : Bool := c.testCmdAttrib .isUpgrade
def isRequest (c : MemCmd) : Bool := c.testCmdAttrib .isRequest
def isResponse (c : MemCmd) : Bool := c.testCmdAttrib .isResponse
def needsWritable (c : MemCmd) : Bool := c.testCmdAttrib .needsWritable
def needsResponse (c : MemCmd) : Bool := c.testCmdAttrib .needsResponse
def isInvalidate (c : MemCmd) : Bool := c.testCmdAttrib .isInvalidate
def isEviction (c : MemCmd) : Bool := c.testCmdAttrib .isEviction
def isClean (c : MemCmd) : Bool := c.testCmdAttrib .isClean
def fromCache (c : MemCmd) : Bool := c.testCmdAttrib .fromCache
def hasData (c : MemCmd) : Bool := c.testCmdAttrib .hasData
def isSWPrefetch (c : MemCmd) : Bool := c.testCmdAttrib .isSWPrefetch
def isLLSC (c : MemCmd) : Bool := c.testCmdAttrib .isLlsc
def isError (c : MemCmd) : Bool := c.testCmdAttrib .isError
def isPrint (c : MemCmd) : Bool := c.testCmdAttrib .isPrint
def isWriteback (c : MemCmd) : Bool := c.isEviction && c.hasData
def isCleanEviction (c : MemCmd) : Bool := c = cleanEvict || c = writebackClean
def mustCheckAbove (c : MemCmd) : Bool := c = hardPFReq || c.isEviction

end MemCmd

structure RequestFlags where
  uncacheable : Bool := false
  strictOrder : Bool := false
  privileged : Bool := false
  llsc : Bool := false
  memSwap : Bool := false
  memSwapCond : Bool := false
  secure : Bool := false
  clean : Bool := false
  invalidate : Bool := false
  deriving DecidableEq, Repr

namespace RequestFlags

def isCacheMaintenance (f : RequestFlags) : Bool := f.clean || f.invalidate

def noMerge (f : RequestFlags) : Bool :=
  f.uncacheable || f.strictOrder || f.privileged || f.llsc || f.memSwap || f.memSwapCond || f.secure

end RequestFlags

structure Request where
  paddr : ℕ
  size : ℕ
  flags : RequestFlags
  requestorId : ℕ
  streamId : ℕ := 0
  substreamId : ℕ := 0
  taskId : ℕ
  deriving DecidableEq, Repr

/-- A packet. `data` is the offset of its data in the buffer of the sender, `senderState` says which
object of the sender the packet is for, and `senderMshr` which MSHR of a cache above is topmost among
its sender states. `blockIO` is the flag `BLOCK_IO`. `isBlockIO` is the member `is_block_io`, which no
constructor sets, so that of a packet that is received is arbitrary. -/
structure Packet where
  cmd : MemCmd
  req : Request
  addr : ℕ
  size : ℕ
  isSecure : Bool
  data : Option ℕ := none
  senderState : Option ℕ := none
  senderMshr : Option ℕ := none
  hasSharers : Bool := false
  expressSnoop : Bool := false
  responderHadWritable : Bool := false
  cacheResponding : Bool := false
  writeThrough : Bool := false
  satisfied : Bool := false
  blockCached : Bool := false
  blockIO : Bool := false
  isBlockIO : Bool := false
  ddioPrefetchId : ℤ := -1
  ddioPrefetchDestination : ℤ := -1
  isDdioPkt : Bool := false
  isDdioHeader : Bool := false
  isPrefetchHintPkt : Bool := false
  deriving DecidableEq, Repr

namespace Packet

/-- `Packet(req, cmd)`. -/
def ofRequest (req : Request) (cmd : MemCmd) : Packet where
  cmd := cmd
  req := req
  addr := req.paddr
  size := req.size
  isSecure := req.flags.secure

def getOffset (pkt : Packet) (blkSize : ℕ) : ℕ := pkt.addr &&& (blkSize - 1)

def getBlockAddr (pkt : Packet) (blkSize : ℕ) : ℕ := pkt.addr - pkt.getOffset blkSize

def matchAddr (pkt other : Packet) : Bool :=
  pkt.addr == other.addr && pkt.isSecure == other.isSecure

/-- `Packet(req, cmd, blkSize)`, for the whole block of the request. -/
def ofBlock (req : Request) (cmd : MemCmd) (blkSize : ℕ) : Packet where
  cmd := cmd
  req := req
  addr := req.paddr - (req.paddr &&& (blkSize - 1))
  size := blkSize
  isSecure := req.flags.secure

/-- `Packet(pkt, clear_flags, alloc_data)`. The marks for DDIO are not copied. -/
def copy (pkt : Packet) (clearFlags : Bool) : Packet where
  cmd := pkt.cmd
  req := pkt.req
  addr := pkt.addr
  size := pkt.size
  isSecure := pkt.isSecure
  senderState := pkt.senderState
  senderMshr := pkt.senderMshr
  hasSharers := !clearFlags && pkt.hasSharers
  expressSnoop := !clearFlags && pkt.expressSnoop
  responderHadWritable := !clearFlags && pkt.responderHadWritable
  cacheResponding := !clearFlags && pkt.cacheResponding
  writeThrough := !clearFlags && pkt.writeThrough
  satisfied := !clearFlags && pkt.satisfied

def setCacheResponding (pkt : Packet) : Except Halt Packet := do
  require (pkt.cmd.isRequest = true) "isRequest()"
  require (pkt.cacheResponding = false) "!flags.isSet(CACHE_RESPONDING)"
  return { pkt with cacheResponding := true }

def setResponderHadWritable (pkt : Packet) : Except Halt Packet := do
  require (pkt.cacheResponding = true) "cacheResponding()"
  require (pkt.responderHadWritable = false) "!responderHadWritable()"
  return { pkt with responderHadWritable := true }

def setSatisfied (pkt : Packet) : Except Halt Packet := do
  require (pkt.cmd.isClean = true) "cmd.isClean()"
  require (pkt.satisfied = false) "!flags.isSet(SATISFIED)"
  return { pkt with satisfied := true }

end Packet

end Gem5
