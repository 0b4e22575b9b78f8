import Gem5.DmaPort
import Gem5.Bytes

/-!
# The DMA engine of a device in atomic mode

`DmaPort::sendDma` of `dma_device.cc` in atomic mode. The chunks of an action go out as packets
(`sendAtomicReq`) or, when the caches are bypassed, through backdoors (`sendAtomicBdReq`), ranges of
addresses that the engine may access directly. A backdoor is the memory itself. The latency of a
packet and the backdoor that comes with it are given by its number and address.
-/

namespace Gem5

open Machine Bytes

/-- The addresses from `start` on, up to `stop`. -/
structure AddrRange where
  start : ℕ
  stop : ℕ
  bound : stop < 2 ^ 64
  deriving DecidableEq, Repr

namespace AddrRange

def size (r : AddrRange) : ℕ := subAddr r.stop r.start

def Contains (r : AddrRange) (a : ℕ) : Prop := r.start ≤ a ∧ a < r.stop

instance (r : AddrRange) (a : ℕ) : Decidable (r.Contains a) := inferInstanceAs (Decidable (_ ∧ _))

def Intersects (r t : AddrRange) : Prop := r.start < t.stop ∧ t.start < r.stop

instance (r t : AddrRange) : Decidable (r.Intersects t) := inferInstanceAs (Decidable (_ ∧ _))

end AddrRange

/-- `AddrRangeMap::insert`: a range that meets one of the map is not taken. -/
def insertRange (rs : List AddrRange) : Option AddrRange → List AddrRange
  | some r => if ∃ t ∈ rs, r.Intersects t then rs else r :: rs
  | none => rs

def containsAddr (rs : List AddrRange) (a : ℕ) : Option AddrRange :=
  rs.find? fun r => decide (r.Contains a)

structure Store where
  mem : ℕ → Byte
  buf : ℕ → Byte

namespace Store

/-- Copies `n` bytes between the memory from `addr` on and the buffer from `off` on. -/
def copy (m : Store) (read : Bool) (addr off n : ℕ) : Store :=
  if read then
    { m with buf := fun i => if off ≤ i ∧ i < off + n then m.mem (addr + (i - off)) else m.buf i }
  else
    { m with mem := fun x => if addr ≤ x ∧ x < addr + n then m.buf (off + (x - addr)) else m.mem x }

def access (m : Store) (cmd : MemCmd) (addr : ℕ) (data : Option ℕ) (n : ℕ) : Store :=
  match data with
  | some off => m.copy cmd.isRead addr off n
  | none => m

end Store

structure MemSystem where
  latency : ℕ → ℕ
  backdoor : ℕ → ℕ → Option AddrRange

/-- The engine, the memory system, how many packets were sent and how many bytes acknowledged. -/
structure DmaAtomic where
  port : DmaPort
  store : Store
  memBackdoors : List AddrRange
  calls : ℕ
  acked : ℕ

namespace DmaAtomic

variable (env : MemSystem) (s : DmaAtomic)

def setState (j : ℕ) (st : DmaReqState) : DmaAtomic :=
  { s with port := { s.port with heap := Function.update s.port.heap j (some st) } }

def handleResp (j size delay : ℕ) : Except Halt DmaAtomic := do
  let p ← s.port.handleResp j size delay
  return { s with port := p, acked := s.acked + size }

def handleRespPacket (pkt : Packet) (delay : ℕ) : Except Halt DmaAtomic := do
  let p ← s.port.handleRespPacket pkt delay
  return { s with port := p, acked := s.acked + pkt.req.size }

def sendAtomic (pkt : Packet) : DmaAtomic :=
  { s with store := s.store.access pkt.cmd pkt.addr pkt.data pkt.size, calls := s.calls + 1 }

def response (pkt : Packet) : Packet := { pkt with cmd := pkt.cmd.responseCommand }

def sendAtomicReq (j : ℕ) : Except Halt (Bool × DmaAtomic) := do
  let st ← s.port.deref j
  let pkt := st.createPacket j
  let lat := env.latency s.calls
  let s' := (s.sendAtomic pkt).setState j { st with gen := st.gen.next.2 }
  let s'' ← s'.handleRespPacket (response pkt) lat
  return (!st.gen.next.1, s'')

/-- No backdoor for the address: a packet, and the backdoor that comes with the answer is kept. -/
def sendAtomicBackdoor (j : ℕ) (st : DmaReqState) : Except Halt (Bool × DmaAtomic) := do
  let pkt := st.createPacket j
  let lat := env.latency s.calls
  let bd := env.backdoor s.calls pkt.addr
  let s' := (s.sendAtomic pkt).setState j { st with gen := st.gen.next.2 }
  let s'' ← handleRespPacket { s' with memBackdoors := insertRange s.memBackdoors bd }
    (response pkt) lat
  return (!st.gen.next.1, s'')

def accessBackdoor (j : ℕ) (st : DmaReqState) (addr handled : ℕ) :
    Except Halt (Bool × DmaAtomic) := do
  let store := s.store.access st.cmd addr (if st.data then some st.gen.complete else none) handled
  let gen ← st.gen.setNext (addAddr st.gen.addr handled)
  let s' := setState { s with store := store } j { st with gen := gen.next.2 }
  let s'' ← s'.handleResp j handled 0
  return (!gen.next.1, s'')

def useBackdoor (j : ℕ) (st : DmaReqState) (r : AddrRange) : Except Halt (Bool × DmaAtomic) :=
  let offset := subAddr st.gen.addr r.start
  let remaining := subAddr st.totBytes st.gen.complete
  let available := subAddr r.size offset
  s.accessBackdoor j st (r.start + offset) (min remaining available)

def sendAtomicBdReq (j : ℕ) : Except Halt (Bool × DmaAtomic) := do
  let st ← s.port.deref j
  match containsAddr s.memBackdoors st.gen.addr with
  | none => s.sendAtomicBackdoor env j st
  | some r => s.useBackdoor j st r

/-- `while (!done)`. Every turn moves a byte or more, and a turn that moves too many is the last. -/
def sendLoop (bypass : Bool) (j : ℕ) : ℕ → DmaAtomic → Except Halt DmaAtomic
  | 0, _ => .error (.undefined "while (!done)")
  | turns + 1, s => do
    let r ← if bypass then s.sendAtomicBdReq env j else s.sendAtomicReq env j
    if r.1 then return r.2 else sendLoop bypass j turns r.2

/-- `ddioActionAdq` in atomic mode. -/
def dma (bypass : Bool) (a : DmaAction) : Except Halt DmaAtomic := do
  let gen ← ChunkGenerator.create a.addr a.size s.port.cacheLineSize
  let j := s.port.actions.length
  let s' := { s with port := { s.port with
    heap := Function.update s.port.heap j (some (.create a s.port.requestorId gen))
    pendingCount := s.port.pendingCount + 1
    actions := s.port.actions ++ [a] } }
  if gen.done then return s' else sendLoop env bypass j (a.size + 1) s'

/-- The rest of a DMA of `rem` bytes from `addr` on never meets a backdoor that the chunk generator
cannot follow: each one that is used has all the bytes that are left, or it has the whole chunk and
ends at the end of a chunk, or in one that the DMA does not end in. -/
def Usable (c : ℕ) : ℕ → List AddrRange → ℕ → ℕ → ℕ → Prop
  | 0, _, _, _, _ => True
  | turns + 1, rs, calls, addr, rem =>
    match containsAddr rs addr with
    | none =>
      let n := Pieces.first c addr rem
      n < rem → Usable c turns (insertRange rs (env.backdoor calls addr)) (calls + 1) (addr + n)
        (rem - n)
    | some r =>
      let n := r.stop - addr
      n < rem → Pieces.first c addr rem ≤ n
        ∧ ((addr + n) % c = 0 ∨ c - (addr + n) % c ≤ rem - n)
        ∧ Usable c turns rs calls (addr + n) (rem - n)

instance Usable.dec (c : ℕ) : ∀ (turns : ℕ) (rs : List AddrRange) (calls addr rem : ℕ),
    Decidable (Usable env c turns rs calls addr rem)
  | 0, _, _, _, _ => .isTrue trivial
  | turns + 1, rs, calls, addr, rem =>
    match h : containsAddr rs addr with
    | none =>
      let n := Pieces.first c addr rem
      have := Usable.dec c turns (insertRange rs (env.backdoor calls addr)) (calls + 1) (addr + n)
        (rem - n)
      decidable_of_iff (n < rem → Usable env c turns (insertRange rs (env.backdoor calls addr))
        (calls + 1) (addr + n) (rem - n)) (by simp only [Usable, h, n])
    | some r =>
      let n := r.stop - addr
      have := Usable.dec c turns rs calls (addr + n) (rem - n)
      decidable_of_iff (n < rem → Pieces.first c addr rem ≤ n
        ∧ ((addr + n) % c = 0 ∨ c - (addr + n) % c ≤ rem - n)
        ∧ Usable env c turns rs calls (addr + n) (rem - n)) (by simp only [Usable, h, n])

structure Completed (s₀ : DmaAtomic) (a : DmaAction) (lat : ℕ) (s : DmaAtomic) : Prop where
  store : s.store = s₀.store.access a.cmd a.addr (if a.data then some 0 else none) a.size
  acked : s.acked = s₀.acked + a.size
  pending : s.port.pendingCount = s₀.port.pendingCount
  completions : s.port.completions = if a.event then s₀.port.completions
    ++ [(s₀.port.actions.length, s₀.port.curTick + (lat + a.delay))] else s₀.port.completions

/-- The pending count is that before the DMA, and its completion event is scheduled once. -/
def Finished (s₀ : DmaAtomic) (a : DmaAction) (s : DmaAtomic) : Prop :=
  s.port.pendingCount = s₀.port.pendingCount ∧
    ∃ tick, s.port.completions = if a.event then
      s₀.port.completions ++ [(s₀.port.actions.length, tick)] else s₀.port.completions

/-- What a turn of the loop acknowledges, whether the generator goes on, and what comes next. -/
structure ChunkTurn where
  handled : ℕ
  more : Bool
  gen : ChunkGenerator
  memBackdoors : List AddrRange
  calls : ℕ

def chunkTurn (bypass : Bool) (tot : ℕ) (rs : List AddrRange) (calls : ℕ) (g : ChunkGenerator) :
    Except Halt ChunkTurn :=
  match if bypass then containsAddr rs g.addr else none with
  | none => .ok {
      handled := g.size
      more := g.next.1
      gen := g.next.2
      memBackdoors := if bypass then insertRange rs (env.backdoor calls g.addr) else rs
      calls := calls + 1 }
  | some r => do
    let handled := min (subAddr tot g.complete) (subAddr r.size (subAddr g.addr r.start))
    let gen ← g.setNext (addAddr g.addr handled)
    return ⟨handled, gen.next.1, gen.next.2, rs, calls⟩

/-- The bytes that the turns acknowledge, after `n` bytes, are `tot` when the generator has no more
chunk, and not before. -/
def Finishes (bypass : Bool) (tot : ℕ) :
    ℕ → List AddrRange → ℕ → ChunkGenerator → ℕ → Prop
  | 0, _, _, _, _ => False
  | turns + 1, rs, calls, g, n =>
    match chunkTurn env bypass tot rs calls g with
    | .error _ => False
    | .ok t =>
      if t.more then addAddr n t.handled < tot ∧
        Finishes bypass tot turns t.memBackdoors t.calls t.gen (addAddr n t.handled)
      else addAddr n t.handled = tot

def Fits (s : DmaAtomic) (a : DmaAction) : Prop :=
  0 < a.size ∧ a.addr + a.size + s.port.cacheLineSize < 2 ^ 64

/-- The same bytes are moved, the same number is acknowledged, and the same completion events are
scheduled. -/
structure SameTransfer (s t : DmaAtomic) : Prop where
  mem : s.store.mem = t.store.mem
  buf : s.store.buf = t.store.buf
  acked : s.acked = t.acked
  pending : s.port.pendingCount = t.port.pendingCount
  completions : s.port.completions.map Prod.fst = t.port.completions.map Prod.fst

end DmaAtomic

end Gem5
