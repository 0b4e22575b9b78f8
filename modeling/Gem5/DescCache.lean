import Gem5.Basic

/-!
# The NIC's descriptor cache

`IGbE::DescCache<T>` of `i8254xGBe.cc`: descriptors that are fetched and not used yet, and those used
and not written back yet. A fetch and a write-back are each split in three: the request, the DMA it
issues after a delay, and its completion. `seq`, `addr`, `reads`, `writes`, `wb0Used` and `epoch` are
history.
-/

namespace Gem5

/-- A descriptor in the cache, with how many were fetched before it and the address it was fetched
from. -/
structure Cached (T : Type) where
  seq : ℕ
  addr : ℕ
  desc : T
  deriving DecidableEq, Repr

/-- Where a fetch or a write-back stands: none, its delay event scheduled, or its DMA issued. -/
inductive Phase (α : Type)
  | idle
  | delay
  | dma (a : α)
  deriving DecidableEq, Repr

namespace Phase

variable {α : Type}

def isIdle : Phase α → Bool
  | idle => true
  | _ => false

end Phase

structure FetchDma where
  epoch : ℕ
  addr : ℕ
  deriving DecidableEq, Repr

/-- A write-back on the bus: where it writes to, and `wbBuf`. -/
structure WbDma (T : Type) where
  epoch : ℕ
  addr : ℕ
  wbBuf : List (Cached T)
  deriving DecidableEq, Repr

structure DescCache (T : Type) where
  descBase : ℕ
  descHead : ℕ
  descTail : ℕ
  descLen : ℕ
  size : ℕ
  usedCache : List (Cached T)
  unusedCache : List (Cached T)
  cachePnt : ℕ
  curFetching : ℕ
  wbOut : ℕ
  moreToWb : Bool
  wbAlignment : BitVec 64
  fetch : Phase FetchDma
  wb : Phase (WbDma T)
  reads : List (Cached T)
  /-- The descriptors written back so far, each with the address it was written to. -/
  writes : List (ℕ × Cached T)
  /-- The used descriptors at the last call of `writeback(0)`. -/
  wb0Used : List (Cached T)
  epoch : ℕ
  deriving DecidableEq, Repr

namespace DescCache

variable {T : Type}

/-- `sizeof(T)`, 16 for both kinds of descriptor. -/
def descBytes : ℕ := 16

def init (base len size : ℕ) : DescCache T where
  descBase := base
  descHead := 0
  descTail := 0
  descLen := len
  size := size
  usedCache := []
  unusedCache := []
  cachePnt := 0
  curFetching := 0
  wbOut := 0
  moreToWb := false
  wbAlignment := 0
  fetch := .idle
  wb := .idle
  reads := []
  writes := []
  wb0Used := []
  epoch := 0

/-- `n & ~mask`. -/
def alignDown (n : ℕ) (mask : BitVec 64) : ℕ := (BitVec.ofNat 64 n &&& ~~~mask).toNat

/-- `max_to_wb` of `writeback`. Past the end of the ring the source's signed difference is not
positive, and only that is tested. -/
def maxToWb (s : DescCache T) (aMask : BitVec 64) : ℕ :=
  if s.descLen ≤ s.usedCache.length + s.descHead then s.descLen - s.descHead
  else if aMask ≠ 0 then alignDown s.usedCache.length aMask
  else s.usedCache.length

/-- History: a call of `writeback(0)` is noted with the descriptors it finds used. -/
def noteWb0 (s : DescCache T) (aMask : BitVec 64) : DescCache T :=
  { s with wb0Used := if aMask = 0 then s.usedCache else s.wb0Used }

/-- Asks for a write-back. While one is out, this one is remembered only if it is less
restrictive. -/
def writeback (s : DescCache T) (aMask : BitVec 64) : Except Halt (DescCache T) :=
  if s.wbOut ≠ 0 then
    if aMask < s.wbAlignment then
      .ok { s.noteWb0 aMask with moreToWb := true, wbAlignment := aMask }
    else .ok (s.noteWb0 aMask)
  else
    let s' := { s.noteWb0 aMask with
      moreToWb := decide (s.descLen ≤ s.usedCache.length + s.descHead)
      wbAlignment := aMask }
    if s.maxToWb aMask = 0 then .ok s'
    else do
      require (s.wb.isIdle = true) "!wbDelayEvent.scheduled()"
      return { s' with wbOut := s.maxToWb aMask, wb := .delay }

def writeback1 (s : DescCache T) (running : Bool) : Except Halt (DescCache T) :=
  match s.wb with
  | .delay =>
    if running then do
      require (s.wbOut ≠ 0 → s.usedCache ≠ []) "usedCache.size()"
      inBounds (s.wbOut ≤ s.usedCache.length) "usedCache[x]"
      require (s.wbOut ≠ 0) "wbOut"
      return { s with wb := .dma {
        epoch := s.epoch
        addr := s.descBase + s.descHead * descBytes
        wbBuf := s.usedCache.take s.wbOut } }
    else .ok s
  | _ => .error .notScheduled

/-- `max_to_fetch` of `fetchDescriptors`. -/
def maxToFetch (s : DescCache T) : ℕ :=
  min (if s.cachePnt ≤ s.descTail then s.descTail - s.cachePnt else s.descLen - s.cachePnt)
    (s.size - s.usedCache.length - s.unusedCache.length)

def fetchDescriptors (s : DescCache T) : Except Halt (DescCache T) :=
  if s.curFetching ≠ 0 then .ok s
  else if s.maxToFetch = 0 then .ok s
  else do
    require (s.fetch.isIdle = true) "!fetchDelayEvent.scheduled()"
    return { s with curFetching := s.maxToFetch, fetch := .delay }

def fetchDescriptors1 (s : DescCache T) (running : Bool) : Except Halt (DescCache T) :=
  match s.fetch with
  | .delay =>
    if running then do
      require (s.curFetching ≠ 0) "curFetching"
      return { s with fetch := .dma {
        epoch := s.epoch
        addr := s.descBase + s.cachePnt * descBytes } }
    else .ok s
  | _ => .error .notScheduled

def fetched (s : DescCache T) (addr : ℕ) (fetchBuf : List T) : List (Cached T) :=
  fetchBuf.mapIdx fun x d =>
    { seq := s.reads.length + x, addr := addr + x * descBytes, desc := d }

/-- The fetch DMA is done and left `curFetching` descriptors in `fetchBuf`. -/
def fetchComplete (s : DescCache T) (fetchBuf : List T) : Except Halt (DescCache T) :=
  match s.fetch with
  | .dma d =>
    if fetchBuf.length = s.curFetching then do
      let cachePnt := s.cachePnt + s.curFetching
      require (cachePnt ≤ s.descLen) "cachePnt <= descLen()"
      return { s with
        unusedCache := s.unusedCache ++ s.fetched d.addr fetchBuf
        cachePnt := if cachePnt = s.descLen then 0 else cachePnt
        curFetching := 0
        fetch := .idle
        reads := s.reads ++ s.fetched d.addr fetchBuf }
    else .error .notScheduled
  | _ => .error .notScheduled

def written (d : WbDma T) : List (ℕ × Cached T) :=
  d.wbBuf.mapIdx fun x c => (d.addr + x * descBytes, c)

/-- The head `updateHead` stores after `n` descriptors are written back. -/
def headAfter (s : DescCache T) (n : ℕ) : ℕ :=
  if s.descLen ≤ s.descHead + n then s.descHead + n - s.descLen else s.descHead + n

def wbDone (s : DescCache T) (d : WbDma T) : DescCache T :=
  { s with
    usedCache := s.usedCache.drop s.wbOut
    descHead := s.headAfter s.wbOut
    wbOut := 0
    wb := .idle
    writes := s.writes ++ written d }

def wbMore (s : DescCache T) : Except Halt (DescCache T) :=
  if s.moreToWb then writeback { s with moreToWb := false } s.wbAlignment else .ok s

/-- The write-back DMA is done. `fetchAfter` says whether `fetchAfterWb` finds the state machine
stopped and the device running. -/
def wbComplete (s : DescCache T) (fetchAfter : Bool) : Except Halt (DescCache T) :=
  match s.wb with
  | .dma d => do
    require (s.wbOut ≤ s.usedCache.length) "usedCache.size()"
    let s' ← (s.wbDone d).wbMore
    if fetchAfter then s'.fetchDescriptors else .ok s'
  | _ => .error .notScheduled

def reset (s : DescCache T) : DescCache T :=
  { s with
    usedCache := []
    unusedCache := []
    cachePnt := 0
    epoch := s.epoch + 1 }

def areaChanged (s : DescCache T) : Except Halt (DescCache T) :=
  if s.usedCache.length > 0 ∨ s.curFetching ≠ 0 ∨ s.wbOut ≠ 0 then
    .error (.panic "Descriptor Address, Length or Head changed. Bad\n")
  else .ok s.reset

/-- The device is done with the first unused descriptor, which `f` fills in. -/
def useDesc (s : DescCache T) (f : T → T) : Except Halt (DescCache T) :=
  match s.unusedCache with
  | [] => .error (.assertion "unusedCache.size()")
  | c :: rest => .ok { s with
      unusedCache := rest
      usedCache := s.usedCache ++ [{ c with desc := f c.desc }] }

def modifyDesc (s : DescCache T) (f : T → T) : Except Halt (DescCache T) :=
  match s.unusedCache with
  | [] => .error (.assertion "unusedCache.size()")
  | c :: rest => .ok { s with unusedCache := { c with desc := f c.desc } :: rest }

def descLeft (s : DescCache T) : ℕ :=
  s.unusedCache.length +
    if s.descTail < s.cachePnt then s.descLen - s.cachePnt + s.descTail
    else s.descTail - s.cachePnt

/-- What can happen to a descriptor cache: calls from the state machines, its events, and writes to
the ring registers. -/
inductive Op (T : Type)
  | writeTail (val : ℕ) (running : Bool)
  | fetchDescriptors
  | fetchDelayEvent (running : Bool)
  | fetchEvent (fetchBuf : List T)
  | useDesc (f : T → T)
  | modifyDesc (f : T → T)
  | writeback (aMask : BitVec 64)
  | wbDelayEvent (running : Bool)
  | wbEvent (fetchAfter : Bool)
  | reset
  | writeHead (val : ℕ)
  | writeLen (val : ℕ)
  | writeBaseLow (val : ℕ)
  | writeBaseHigh (val : ℕ)

/-- A length is stored as `val & ~mask(7)` bytes, and a base address as `val & ~mask(4)`. -/
def step (s : DescCache T) : Op T → Except Halt (DescCache T)
  | .writeTail val running =>
    let s := { s with descTail := val }
    if running then s.fetchDescriptors else .ok s
  | .fetchDescriptors => s.fetchDescriptors
  | .fetchDelayEvent running => s.fetchDescriptors1 running
  | .fetchEvent buf => s.fetchComplete buf
  | .useDesc f => s.useDesc f
  | .modifyDesc f => s.modifyDesc f
  | .writeback aMask => s.writeback aMask
  | .wbDelayEvent running => s.writeback1 running
  | .wbEvent fetchAfter => s.wbComplete fetchAfter
  | .reset => .ok s.reset
  | .writeHead val => areaChanged { s with descHead := val }
  | .writeLen val => areaChanged { s with descLen := val / 128 * 128 / 16 }
  | .writeBaseLow val =>
    areaChanged { s with descBase := s.descBase / 2 ^ 32 * 2 ^ 32 + val / 16 * 16 }
  | .writeBaseHigh val =>
    areaChanged { s with descBase := val * 2 ^ 32 + s.descBase % 2 ^ 32 }

end DescCache

end Gem5
