import Gem5.Packet

/-!
# The snoop filter

`SnoopFilter` of `snoop_filter.cc`. For each line the filter keeps which processor-side ports have
asked for it and which hold it. A request is looked up and then finished, and what the look-up changed
can be undone until then. The entry it found is an iterator.
-/

namespace Gem5

abbrev SnoopMask := BitVec 256

structure SnoopItem where
  requested : SnoopMask
  holder : SnoopMask
  deriving DecidableEq, Repr

def SnoopItem.IsNull (i : SnoopItem) : Prop := i.requested ||| i.holder = 0

instance (i : SnoopItem) : Decidable i.IsNull := inferInstanceAs (Decidable (_ = _))

/-- An iterator of `cachedLocations`. -/
inductive Iter
  | atEnd
  | entry (line : ℕ)
  | dangling
  deriving DecidableEq, Repr

/-- The filter. `snooping` says of each processor-side port whether a snooping cache is behind it. -/
structure SnoopFilter where
  isForL3X : Bool
  linesize : ℕ
  maxEntryCount : ℕ
  snooping : List Bool
  cachedLocations : Finmap fun _ : ℕ => SnoopItem
  it : Iter
  retryItem : SnoopItem

namespace SnoopFilter

variable (f : SnoopFilter)

def init (isForL3X : Bool) (linesize maxEntryCount : ℕ) (snooping : List Bool) : SnoopFilter :=
  ⟨isForL3X, linesize, maxEntryCount, snooping, ∅, .atEnd, ⟨0, 0⟩⟩

def isSnooping (port : ℕ) : Bool := f.snooping.getD port false

def localId (port : ℕ) : ℕ := (f.snooping.take port).count true

def portToMask (port : ℕ) : SnoopMask := if f.isSnooping port then 1 <<< f.localId port else 0

def maskToPortList (mask : SnoopMask) : List ℕ :=
  (List.range f.snooping.length).filter fun p => f.isSnooping p && mask &&& f.portToMask p != 0

/-- The address of a line, with the bit `LineSecure`. -/
def lineAddr (addr : ℕ) (isSecure : Bool) : ℕ :=
  (addr - (addr &&& (f.linesize - 1))) ||| if isSecure then 1 else 0

def lineOf (pkt : Packet) : ℕ := f.lineAddr pkt.addr pkt.isSecure

def erase (line : ℕ) : SnoopFilter :=
  { f with
    cachedLocations := f.cachedLocations.erase line
    it := if f.it = .entry line then .dangling else f.it }

def set (line : ℕ) (item : SnoopItem) : SnoopFilter :=
  { f with cachedLocations := f.cachedLocations.insert line item }

/-- A new value of the entry, and then `eraseIfNullEntry`. -/
def setOrErase (line : ℕ) (item : SnoopItem) : SnoopFilter :=
  if item.IsNull then f.erase line else f.set line item

def noteRequest (item : SnoopItem) (reqPort : SnoopMask) (pkt : Packet) : Except Halt SnoopItem :=
  if pkt.cmd.needsResponse then
    if !pkt.cacheResponding then do
      panicIf (item.requested &&& reqPort ≠ 0) "double request :("
      return { item with requested := item.requested ||| reqPort }
    else do
      panicIf (item.holder &&& reqPort = 0) "Need to hold the value!"
      return item
  else do
    require (pkt.cmd.isEviction = true) "cpkt->isEviction()"
    panicIf (item.holder &&& reqPort = 0 ∧ pkt.blockIO = false) "requester is not a holder :("
    return if pkt.blockCached then item else { item with holder := item.holder &&& ~~~reqPort }

def destMask (pkt : Packet) : SnoopMask :=
  if pkt.isPrefetchHintPkt && f.isForL3X && decide (-1 < pkt.ddioPrefetchDestination) then
    1 <<< pkt.ddioPrefetchDestination.toNat
  else 0

def found (line : ℕ) (item : SnoopItem) : SnoopFilter :=
  { f with
    cachedLocations := f.cachedLocations.insert line item
    it := .entry line
    retryItem := item }

def snoopList (item : SnoopItem) (port : ℕ) (pkt : Packet) : List ℕ :=
  f.maskToPortList (((item.holder ||| item.requested ||| f.destMask pkt) &&& ~~~f.portToMask port)
    ||| f.destMask pkt)

def allocates (port : ℕ) (pkt : Packet) : Bool :=
  !pkt.req.flags.uncacheable && f.isSnooping port && pkt.cmd.fromCache

def lookupRequest (pkt : Packet) (port : ℕ) : Except Halt (SnoopFilter × List ℕ) :=
  match f.cachedLocations.lookup (f.lineOf pkt), f.allocates port pkt with
  | none, false => return ({ f with it := .atEnd }, [])
  | some item, false => return (f.found (f.lineOf pkt) item, f.snoopList item port pkt)
  | entry, true => do
    let item := entry.getD ⟨0, 0⟩
    let item' ← noteRequest item (f.portToMask port) pkt
    return ((f.found (f.lineOf pkt) item).set (f.lineOf pkt) item', f.snoopList item port pkt)

def Interested (pkt : Packet) (port : ℕ) : Prop :=
  ∃ item, f.cachedLocations.lookup (f.lineOf pkt) = some item
    ∧ (item.holder ||| item.requested) &&& f.portToMask port ≠ 0

/-- The request is a prefetch hint for the port it comes from, and it has an entry or makes one. -/
def HintsItself (pkt : Packet) (port : ℕ) : Prop :=
  f.destMask pkt &&& f.portToMask port ≠ 0
    ∧ (f.allocates port pkt = true ∨ (f.cachedLocations.lookup (f.lineOf pkt)).isSome = true)

def finishRequest (willRetry : Bool) (addr : ℕ) (isSecure : Bool) : Except Halt SnoopFilter :=
  match f.it with
  | .atEnd => return f
  | .dangling => .error (.undefined "reqLookupResult.it")
  | .entry line => do
    require (line = f.lineAddr addr isSecure) "reqLookupResult.it->first == line_addr"
    if willRetry then return f.setOrErase line f.retryItem
    else
      match f.cachedLocations.lookup line with
      | none => .error (.undefined "reqLookupResult.it")
      | some item => return f.setOrErase line item

def lookupSnoop (pkt : Packet) : Except Halt (SnoopFilter × List ℕ) := do
  require (pkt.cmd.isRequest = true) "cpkt->isRequest()"
  match f.cachedLocations.lookup (f.lineOf pkt) with
  | none => do
    panicIf (f.maxEntryCount ≤ f.cachedLocations.keys.card) "snoop filter exceeded capacity"
    return (f, [])
  | some item => do
    require (pkt.cmd.isWriteback = true ∨ pkt.req.flags.uncacheable = true
        ∨ pkt.cmd.isInvalidate = pkt.cmd.needsWritable ∨ pkt.req.flags.isCacheMaintenance = true)
      "cpkt->isWriteback() || cpkt->req->isUncacheable() || ..."
    let ports := f.maskToPortList (item.holder ||| item.requested)
    if pkt.cmd.isInvalidate && item.requested == 0 then
      return (f.setOrErase (f.lineOf pkt) { item with holder := 0 }, ports)
    else
      return (f, ports)

/-- A snoop response from the port `rsp` that answers the request of the port `req`. -/
def updateSnoopResponse (pkt : Packet) (rsp req : ℕ) : Except Halt SnoopFilter := do
  require (pkt.cmd.isResponse = true) "cpkt->isResponse()"
  require (pkt.cacheResponding = true) "cpkt->cacheResponding()"
  if pkt.req.flags.uncacheable || !f.isSnooping req then
    return f
  else do
    let item := (f.cachedLocations.lookup (f.lineOf pkt)).getD ⟨0, 0⟩
    panicIf (item.holder &&& f.portToMask rsp = 0) "SF value does not have the line"
    panicIf (item.requested &&& f.portToMask req = 0) "SF value missing the original request"
    require (pkt.cmd.isWriteback = false) "!cpkt->isWriteback()"
    let item' : SnoopItem := {
      holder := (if pkt.hasSharers then item.holder else 0) ||| f.portToMask req
      requested := item.requested &&& ~~~f.portToMask req }
    require (item'.requested ||| item'.holder ≠ 0) "(sf_item.requested | sf_item.holder).any()"
    return f.set (f.lineOf pkt) item'

def updateSnoopForward (pkt : Packet) : Except Halt SnoopFilter := do
  require (pkt.cmd.isResponse = true) "cpkt->isResponse()"
  require (pkt.cacheResponding = true) "cpkt->cacheResponding()"
  match f.cachedLocations.lookup (f.lineOf pkt) with
  | none => return f
  | some item =>
    if pkt.hasSharers then return f
    else return f.setOrErase (f.lineOf pkt) { item with holder := 0 }

def updateResponse (pkt : Packet) (port : ℕ) : Except Halt SnoopFilter := do
  require (pkt.cmd.isResponse = true) "cpkt->isResponse()"
  if pkt.req.flags.uncacheable || !f.isSnooping port then
    return f
  else
    match f.cachedLocations.lookup (f.lineOf pkt) with
    | none => return f
    | some item => do
      let mask := f.portToMask port
      panicIf (item.requested &&& mask = 0) "SF value missing request bit"
      let requested := item.requested &&& ~~~mask
      if pkt.req.flags.isCacheMaintenance then
        return f.setOrErase (f.lineOf pkt)
          ⟨requested, if pkt.cmd.isInvalidate then item.holder &&& ~~~mask else item.holder⟩
      else do
        require ((item.holder ||| mask) ||| requested ≠ 0)
          "(sf_item.holder | sf_item.requested).any()"
        return f.set (f.lineOf pkt) ⟨requested, item.holder ||| mask⟩

inductive Op
  | lookupRequest (pkt : Packet) (port : ℕ)
  | finishRequest (willRetry : Bool) (addr : ℕ) (isSecure : Bool)
  | lookupSnoop (pkt : Packet)
  | updateSnoopResponse (pkt : Packet) (rsp req : ℕ)
  | updateSnoopForward (pkt : Packet)
  | updateResponse (pkt : Packet) (port : ℕ)
  deriving DecidableEq, Repr

end SnoopFilter

/-- A filter in use. `unfinished` says that the last request looked up is not finished yet. -/
structure SnoopFilterUse where
  filter : SnoopFilter
  unfinished : Bool

namespace SnoopFilterUse

def start (f : SnoopFilter) : SnoopFilterUse := ⟨f, false⟩

def step (s : SnoopFilterUse) : SnoopFilter.Op → Except Halt SnoopFilterUse
  | .lookupRequest pkt port => do
    let (f, _) ← s.filter.lookupRequest pkt port
    return ⟨f, true⟩
  | .finishRequest willRetry addr isSecure => do
    let f ← s.filter.finishRequest willRetry addr isSecure
    return ⟨f, false⟩
  | .lookupSnoop pkt => do
    let (f, _) ← s.filter.lookupSnoop pkt
    return { s with filter := f }
  | .updateSnoopResponse pkt rsp req => do
    let f ← s.filter.updateSnoopResponse pkt rsp req
    return { s with filter := f }
  | .updateSnoopForward pkt => do
    let f ← s.filter.updateSnoopForward pkt
    return { s with filter := f }
  | .updateResponse pkt port => do
    let f ← s.filter.updateResponse pkt port
    return { s with filter := f }

/-- A request is looked up when the last one is finished, and finished when it is looked up. -/
def Paired (s : SnoopFilterUse) : SnoopFilter.Op → Prop
  | .lookupRequest .. => s.unfinished = false
  | .finishRequest .. => s.unfinished = true
  | _ => True

instance (s : SnoopFilterUse) (o : SnoopFilter.Op) : Decidable (s.Paired o) :=
  match o with
  | .lookupRequest .. => inferInstanceAs (Decidable (_ = _))
  | .finishRequest .. => inferInstanceAs (Decidable (_ = _))
  | .lookupSnoop _ | .updateSnoopResponse .. | .updateSnoopForward _ | .updateResponse .. =>
    inferInstanceAs (Decidable True)

end SnoopFilterUse

end Gem5
