import Gem5.Basic
import Gem5.ChunkGenerator

/-!
# The prefetch queue

`prefetch::Queued` in `queued.cc`. A prefetch waits in `pfq`, or in `pfqMissingTranslation` until the
TLB has translated its address. The TLB holds a pointer to the entry meanwhile, so a node is its
address in memory, which may be used again (`Allocator`), and the entry that is there. The request
that is translated is a shared object.
-/

namespace Gem5

open Machine

namespace Prefetch

/-- The fields of a `PrefetchInfo` that the queue reads. -/
structure PrefetchInfo where
  address : ℕ
  secure : Bool
  pc : Option ℕ := none
  deriving DecidableEq, Repr

def PrefetchInfo.sameAddr (a b : PrefetchInfo) : Bool := a.address = b.address ∧ a.secure = b.secure

/-- The packet of a prefetch, a `HardPFReq`. -/
structure PrefetchPacket where
  paddr : ℕ
  size : ℕ
  requestorId : ℕ
  secure : Bool
  pc : Option ℕ
  deriving DecidableEq, Repr

structure TranslationRequest where
  vaddr : ℕ
  size : ℕ
  flags : BitVec 64
  requestorId : ℕ
  pc : ℕ
  contextId : ℕ
  paddr : Option ℕ := none
  deriving DecidableEq, Repr

structure DeferredPacket where
  pfInfo : PrefetchInfo
  tick : ℕ
  pkt : Option PrefetchPacket
  priority : ℤ
  translationRequest : Option ℕ
  tc : Option ℕ
  ongoingTranslation : Bool
  deriving DecidableEq, Repr

structure Node where
  node : ℕ
  dp : DeferredPacket
  deriving DecidableEq, Repr

def Node.priority (n : Node) : ℤ := n.dp.priority

structure Config where
  queueSize : ℕ
  latency : ℕ
  queueSquash : Bool
  queueFilter : Bool
  cacheSnoop : Bool
  tagPrefetch : Bool
  useVirtualAddresses : Bool
  blkSize : ℕ
  pageBytes : ℕ
  requestorId : ℕ
  deriving DecidableEq, Repr

structure Allocator where
  address : ℕ → List ℕ → ℕ
  fresh : ∀ k live, address k live ∉ live

def Allocator.behind : Allocator where
  address _ live := live.sum + 1
  fresh _ _ h := Nat.not_succ_le_self _ (List.le_sum_of_mem h)

structure TrainingRequest where
  paddr : ℕ
  vaddr : Option ℕ
  flags : BitVec 64
  contextId : Option ℕ
  deriving DecidableEq, Repr

/-! ## One list -/

/-- The loop over the list: the iterator and `found` when it ends. -/
def search (pfi : PrefetchInfo) : List Node → ℕ → ℕ × Bool
  | [], it => (it, false)
  | n :: ns, it => if n.dp.pfInfo.sameAddr pfi then (it + 1, true) else search pfi ns (it + 1)

def priorityAt (queue : List Node) (i : ℕ) : ℤ := queue[i]?.elim 0 Node.priority

def setPriority (queue : List Node) (i : ℕ) (priority : ℤ) : List Node :=
  queue.modify i fun n => { n with dp := { n.dp with priority } }

/-- `std::swap(*it, *prev)`: the nodes stay where they are. -/
def swapEntries (queue : List Node) (it prev : ℕ) : List Node :=
  match queue[it]?, queue[prev]? with
  | some a, some b => (queue.set it { a with dp := b.dp }).set prev { b with dp := a.dp }
  | _, _ => queue

def moveUp : List Node → ℕ → ℕ → List Node
  | queue, _, 0 => queue
  | queue, it, prev + 1 =>
    if priorityAt queue it > priorityAt queue prev then moveUp (swapEntries queue it prev) prev prev
    else moveUp queue it prev

def alreadyInQueue (queue : List Node) (pfi : PrefetchInfo) (priority : ℤ) : List Node × Bool :=
  let (it, found) := search pfi queue 0
  if it ≠ queue.length ∧ priorityAt queue it < priority then
    (moveUp (setPriority queue it priority) it it, found)
  else (queue, found)

def victim (queue : List Node) : ℕ → ℕ
  | 0 => 0
  | it + 1 => if priorityAt queue it = priorityAt queue (it + 1) then victim queue it else it + 1

def makeRoom (queueSize : ℕ) (queue : List Node) : Except Halt (List Node) :=
  if queue.length = queueSize then do
    panicIf (queue = []) "Prefetch queue is both full and empty!"
    panicIf (queue.length = 1) "Prefetch queue is full with 1 element!"
    return queue.eraseIdx (victim queue (queue.length - 1))
  else return queue

def position (queue : List Node) (priority : ℤ) : ℕ → ℕ
  | 0 => 0
  | it + 1 => if it ≠ 0 ∧ priority > priorityAt queue it then position queue priority it else it

def emplace (queue : List Node) (n : Node) : List Node :=
  if queue = [] ∨ n.priority ≤ priorityAt queue (queue.length - 1) then queue ++ [n]
  else
    let it := position queue n.priority queue.length
    queue.insertIdx (if it = 0 ∧ n.priority ≤ priorityAt queue it then it + 1 else it) n

/-- `alloc` is where the new node is put, by the nodes of this list that are in use. -/
def addToQueue (queueSize : ℕ) (alloc : List Node → ℕ) (queue : List Node) (dpp : DeferredPacket) :
    Except Halt (List Node) := do
  let queue ← makeRoom queueSize queue
  return emplace queue ⟨alloc queue, dpp⟩

/-! ## The prefetcher -/

/-- A call of `translateTiming`: the object to call back, the request, and its virtual address. -/
structure Call where
  node : ℕ
  request : ℕ
  vaddr : ℕ
  deriving DecidableEq, Repr

/-- The prefetcher with the request objects, the translations that the TLB has under way and all
the requests it was ever given, and the number of nodes made so far. -/
structure Queued where
  pfq : List Node
  pfqMissingTranslation : List Node
  requests : List TranslationRequest
  translating : List Call
  started : List ℕ
  allocs : ℕ
  curTick : ℕ
  deriving DecidableEq, Repr

def init : Queued := ⟨[], [], [], [], [], 0, 0⟩

/-- Where the TLB or the queue puts a request: its physical address is known, or its virtual address
is to be translated, or it is dropped. -/
inductive Target
  | paddr (addr : ℕ)
  | vaddr (addr : ℕ)
  | dropped
  deriving DecidableEq, Repr

def Target.isVaddr : Target → Bool
  | .vaddr _ => true
  | _ => false

def samePage (cfg : Config) (a b : ℕ) : Bool :=
  a / cfg.pageBytes * cfg.pageBytes = b / cfg.pageBytes * cfg.pageBytes

def TrainingRequest.getVaddr (req : TrainingRequest) : Except Halt ℕ :=
  match req.vaddr with
  | some a => .ok a
  | none => .error (.assertion "privateFlags.isSet(VALID_VADDR)")

def origAddr (cfg : Config) (req : TrainingRequest) : Except Halt ℕ :=
  if cfg.useVirtualAddresses then req.getVaddr else .ok req.paddr

/-- The address as far from `base` as the target is from `orig`. -/
def stride (base orig target : ℕ) : ℕ :=
  if target ≥ orig then addAddr base (target - orig) else subAddr base (orig - target)

def target (cfg : Config) (req : TrainingRequest) (pfi : PrefetchInfo) : Except Halt Target := do
  let orig ← origAddr cfg req
  if samePage cfg orig pfi.address then
    if cfg.useVirtualAddresses then return .paddr (stride req.paddr orig pfi.address)
    else return .paddr pfi.address
  else if req.contextId = none then return .dropped
  else if cfg.useVirtualAddresses then return .vaddr pfi.address
  else
    match req.vaddr with
    | some v => return .vaddr (stride v orig pfi.address)
    | none => return .dropped

/-- The flag `Request::PREFETCH`. -/
def prefetchFlag : BitVec 64 := 0x01000000

def createPrefetchRequest (cfg : Config) (addr : ℕ) (pfi : PrefetchInfo) (req : TrainingRequest) :
    Except Halt TranslationRequest :=
  match pfi.pc, req.contextId with
  | none, _ => .error (.assertion "hasPC()")
  | _, none => .error (.assertion "hasContextId()")
  | some pc, some contextId =>
    .ok ⟨addr, cfg.blkSize, req.flags ||| prefetchFlag, cfg.requestorId, pc, contextId, none⟩

def DeferredPacket.createPkt (dp : DeferredPacket) (cfg : Config) (paddr tick : ℕ) :
    DeferredPacket :=
  { dp with
    pkt := some ⟨paddr, cfg.blkSize, cfg.requestorId, dp.pfInfo.secure,
      if cfg.tagPrefetch then dp.pfInfo.pc else none⟩
    tick }

namespace Queued

variable (cfg : Config) (al : Allocator) (s : Queued)

def nodes : List ℕ := (s.pfq ++ s.pfqMissingTranslation).map Node.node

def addReady (dpp : DeferredPacket) : Except Halt Queued := do
  let pfq ← addToQueue cfg.queueSize
    (fun q => al.address s.allocs ((q ++ s.pfqMissingTranslation).map Node.node)) s.pfq dpp
  return { s with pfq, allocs := s.allocs + 1 }

def addMissing (dpp : DeferredPacket) : Except Halt Queued := do
  let pfqMissingTranslation ← addToQueue cfg.queueSize
    (fun q => al.address s.allocs ((s.pfq ++ q).map Node.node)) s.pfqMissingTranslation dpp
  return { s with pfqMissingTranslation, allocs := s.allocs + 1 }

def redundant (cached : ℕ → Bool → Bool) (paddr : ℕ) (secure : Bool) : Bool :=
  cfg.cacheSnoop && cached paddr secure

/-- What `insert` does with a request that is in no queue. `cached` is what the cache and its miss
queue answer. -/
def insertNew (cached : ℕ → Bool → Bool) (req : TrainingRequest) (pfi : PrefetchInfo)
    (priority : ℤ) : Except Halt Queued := do
  match ← target cfg req pfi with
  | .dropped => return s
  | .paddr a =>
    if redundant cfg cached a pfi.secure then return s
    else
      let dpp : DeferredPacket := ⟨pfi, 0, none, priority, none, none, false⟩
      s.addReady cfg al (dpp.createPkt cfg a (s.curTick + cfg.latency))
  | .vaddr a =>
    let r ← createPrefetchRequest cfg a pfi req
    let dpp : DeferredPacket := ⟨pfi, 0, none, priority, some s.requests.length, r.contextId, false⟩
    { s with requests := s.requests ++ [r] }.addMissing cfg al dpp

def insert (cached : ℕ → Bool → Bool) (req : TrainingRequest) (pfi : PrefetchInfo)
    (priority : ℤ) : Except Halt Queued :=
  if cfg.queueFilter then
    match alreadyInQueue s.pfq pfi priority with
    | (pfq, true) => return { s with pfq }
    | (_, false) =>
      match alreadyInQueue s.pfqMissingTranslation pfi priority with
      | (pfqMissingTranslation, true) => return { s with pfqMissingTranslation }
      | (_, false) => s.insertNew cfg al cached req pfi priority
  else s.insertNew cfg al cached req pfi priority

def deref (node : ℕ) : Except Halt Node :=
  match (s.pfqMissingTranslation ++ s.pfq).find? (·.node = node) with
  | some n => .ok n
  | none => .error (.undefined "access to a deleted DeferredPacket")

/-- What becomes of an entry whose translation did not fail: the entry to put into `pfq`. -/
def translated (cached : ℕ → Bool → Bool) (n : Node) : Except Halt (Option DeferredPacket) :=
  match n.dp.translationRequest >>= fun r => s.requests[r]? with
  | none => .error (.undefined "access through a null translationRequest")
  | some r =>
    match r.paddr with
    | none => .error (.assertion "hasPaddr()")
    | some a =>
      if redundant cfg cached a n.dp.pfInfo.secure then .ok none
      else .ok (some (n.dp.createPkt cfg a (s.curTick + cfg.latency)))

def land : Option DeferredPacket → Except Halt Queued
  | none => .ok s
  | some dp => s.addReady cfg al dp

def removeMissing (node : ℕ) : Queued :=
  { s with pfqMissingTranslation := s.pfqMissingTranslation.eraseP (·.node = node) }

def translationComplete (cached : ℕ → Bool → Bool) (node : ℕ) (failed : Bool) :
    Except Halt Queued :=
  match s.pfqMissingTranslation.find? (·.node = node) with
  | none => .error (.assertion "it != pfqMissingTranslation.end()")
  | some n =>
    if failed then return s.removeMissing node
    else do
      let dp ← s.translated cfg cached n
      let s ← s.land cfg al dp
      return s.removeMissing node

def setOngoing (node : ℕ) (b : Bool) (queue : List Node) : List Node :=
  queue.map fun n =>
    if n.node = node then { n with dp := { n.dp with ongoingTranslation := b } } else n

def resolve (r : ℕ) (paddr : Option ℕ) : List TranslationRequest :=
  s.requests.modify r fun q => { q with paddr := paddr.or q.paddr }

/-- The TLB is done with a translation and calls `finish`. A fault leaves the request as it is. -/
def finish (call : Call) (paddr : Option ℕ) : Except Halt Queued := do
  let s := { s with
    translating := s.translating.erase call
    requests := s.resolve call.request paddr }
  let n ← s.deref call.node
  require (n.dp.ongoingTranslation = true) "ongoingTranslation"
  return { s with
    pfq := setOngoing call.node false s.pfq
    pfqMissingTranslation := setOngoing call.node false s.pfqMissingTranslation }

def complete (cached : ℕ → Bool → Bool) (call : Call) (paddr : Option ℕ) : Except Halt Queued := do
  let s ← s.finish call paddr
  s.translationComplete cfg al cached call.node paddr.isNone

def call (n : Node) (r : ℕ) : Call := ⟨n.node, r, s.requests[r]?.elim 0 TranslationRequest.vaddr⟩

def translateTiming (c : Call) : Queued :=
  { s with
    pfqMissingTranslation := setOngoing c.node true s.pfqMissingTranslation
    translating := s.translating ++ [c]
    started := s.started ++ [c.request] }

/-- `tlb` is what the TLB does with a request: it takes its time, or it calls `finish` at once, with
the physical address or with a fault. -/
def startTranslation (tlb : ℕ → Option (Option ℕ)) (cached : ℕ → Bool → Bool) (s : Queued)
    (node : ℕ) : Except Halt Queued := do
  let n ← s.deref node
  match n.dp.translationRequest with
  | none => .error (.assertion "translationRequest != nullptr")
  | some r =>
    if n.dp.ongoingTranslation then return s
    else
      let c := s.call n r
      match tlb r with
      | none => return s.translateTiming c
      | some paddr => (s.translateTiming c).complete cfg al cached c paddr

/-- The loop takes the entries from the front. One that is translated at once is erased behind
it. -/
def processMissingTranslations (tlb : ℕ → Option (Option ℕ)) (cached : ℕ → Bool → Bool) (max : ℕ) :
    Except Halt Queued :=
  run (startTranslation cfg al tlb cached) s ((s.pfqMissingTranslation.take max).map Node.node)

def fillIfEmpty (tlb : ℕ → Option (Option ℕ)) (cached : ℕ → Bool → Bool) : Except Halt Queued :=
  if s.pfq = [] then s.processMissingTranslations cfg al tlb cached cfg.queueSize else .ok s

def popFront (rest : List Node) : Queued := { s with pfq := rest }

def getPacket (tlb : ℕ → Option (Option ℕ)) (cached : ℕ → Bool → Bool) :
    Except Halt (Option PrefetchPacket × Queued) := do
  let s ← s.fillIfEmpty cfg al tlb cached
  match s.pfq with
  | [] => return (none, s)
  | n :: rest =>
    match n.dp.pkt with
    | none => .error (.assertion "pkt != nullptr")
    | some pkt =>
      let s ← (s.popFront rest).processMissingTranslations cfg al tlb cached
        (cfg.queueSize - rest.length)
      return (some pkt, s)

/-- A demand access removes the prefetches of its block, in `notify`. -/
def squash (blkAddr : ℕ) (secure : Bool) : Queued :=
  if cfg.queueSquash then
    { s with
      pfq := s.pfq.filter fun n =>
        !(n.dp.pfInfo.address = blkAddr && n.dp.pfInfo.secure = secure) }
  else s

end Queued

inductive Op
  | insert (cached : ℕ → Bool → Bool) (req : TrainingRequest) (pfi : PrefetchInfo) (priority : ℤ)
  | getPacket (tlb : ℕ → Option (Option ℕ)) (cached : ℕ → Bool → Bool)
  | translated (call : Call) (cached : ℕ → Bool → Bool) (paddr : Option ℕ)
  | squash (blkAddr : ℕ) (secure : Bool)
  | advance (ticks : ℕ)

def step (cfg : Config) (al : Allocator) (s : Queued) : Op → Except Halt Queued
  | .insert cached req pfi priority => s.insert cfg al cached req pfi priority
  | .getPacket tlb cached => do
    let (_, s) ← s.getPacket cfg al tlb cached
    return s
  | .translated call cached paddr =>
    if call ∈ s.translating then s.complete cfg al cached call paddr else .error .notScheduled
  | .squash blkAddr secure => .ok (s.squash cfg blkAddr secure)
  | .advance ticks => .ok { s with curTick := s.curTick + ticks }

/-! ## Where the loops end at the right entry -/

def PlaceFits (q : List Node) (p : ℤ) : Prop :=
  (∃ m ∈ q.getLast?, p ≤ m.priority) ∨ ∀ m ∈ q.tail, m.priority < p

instance (q : List Node) (p : ℤ) : Decidable (PlaceFits q p) :=
  inferInstanceAs (Decidable (_ ∨ _))

def NoneRaised (p : ℤ) : List Node → Prop
  | [] => True
  | [n] => p ≤ n.priority
  | _ :: m :: _ => p ≤ m.priority

instance (p : ℤ) : ∀ q, Decidable (NoneRaised p q)
  | [] => .isTrue trivial
  | [n] => inferInstanceAs (Decidable (p ≤ n.priority))
  | _ :: m :: _ => inferInstanceAs (Decidable (p ≤ m.priority))

def RequestFits (q : List Node) (pfi : PrefetchInfo) (p : ℤ) : Prop :=
  NoneRaised p (q.dropWhile fun n => !n.dp.pfInfo.sameAddr pfi)

instance (q : List Node) (pfi : PrefetchInfo) (p : ℤ) : Decidable (RequestFits q pfi p) :=
  inferInstanceAs (Decidable (NoneRaised _ _))

def AddFits (queueSize : ℕ) (q : List Node) (p : ℤ) : Prop :=
  Gives (makeRoom queueSize q) fun q => PlaceFits q p

instance (queueSize : ℕ) (q : List Node) (p : ℤ) : Decidable (AddFits queueSize q p) :=
  inferInstanceAs (Decidable (Gives _ _))

section Fits

variable (cfg : Config) (al : Allocator) (tlb : ℕ → Option (Option ℕ)) (cached : ℕ → Bool → Bool)

def InsertFits (s : Queued) (req : TrainingRequest) (pfi : PrefetchInfo) (p : ℤ) : Prop :=
  RequestFits s.pfq pfi p ∧ RequestFits s.pfqMissingTranslation pfi p
  ∧ ((search pfi s.pfq 0).2 = false → (search pfi s.pfqMissingTranslation 0).2 = false →
    Gives (target cfg req pfi) fun
      | .paddr a => Queued.redundant cfg cached a pfi.secure = false →
        AddFits cfg.queueSize s.pfq p
      | .vaddr _ => AddFits cfg.queueSize s.pfqMissingTranslation p
      | .dropped => True)

instance (s : Queued) (req : TrainingRequest) (pfi : PrefetchInfo) (p : ℤ) :
    Decidable (InsertFits cfg cached s req pfi p) :=
  have : DecidablePred fun t : Target => match t with
      | .paddr a => Queued.redundant cfg cached a pfi.secure = false →
        AddFits cfg.queueSize s.pfq p
      | .vaddr _ => AddFits cfg.queueSize s.pfqMissingTranslation p
      | .dropped => True
    | .paddr _ => inferInstanceAs (Decidable (_ → _))
    | .vaddr _ => inferInstanceAs (Decidable (AddFits _ _ _))
    | .dropped => .isTrue trivial
  inferInstanceAs (Decidable (_ ∧ _ ∧ (_ → _ → Gives _ _)))

/-- The entry that a translation lets into `pfq` fits. -/
def CompleteFits (s : Queued) (call : Call) (paddr : Option ℕ) : Prop :=
  Gives (s.finish call paddr) fun s => ∀ n ∈ s.pfqMissingTranslation.find? (·.node = call.node),
    paddr.isNone = false → Gives (s.translated cfg cached n) fun dp =>
      ∀ d ∈ dp, AddFits cfg.queueSize s.pfq d.priority

instance (s : Queued) (call : Call) (paddr : Option ℕ) :
    Decidable (CompleteFits cfg cached s call paddr) :=
  inferInstanceAs (Decidable (Gives _ _))

def StartFits (s : Queued) (node : ℕ) : Prop :=
  Gives (s.deref node) fun n => ∀ r ∈ n.dp.translationRequest, n.dp.ongoingTranslation = false →
    ∀ paddr ∈ tlb r, CompleteFits cfg cached (s.translateTiming (s.call n r)) (s.call n r) paddr

instance (s : Queued) (node : ℕ) : Decidable (StartFits cfg tlb cached s node) :=
  inferInstanceAs (Decidable (Gives _ _))

def ProcessFits (s : Queued) (max : ℕ) : Prop :=
  Admits (Queued.startTranslation cfg al tlb cached) (StartFits cfg tlb cached) s
    ((s.pfqMissingTranslation.take max).map Node.node)

instance (s : Queued) (max : ℕ) : Decidable (ProcessFits cfg al tlb cached s max) :=
  inferInstanceAs (Decidable (Admits _ _ _ _))

/-- What `getPacket` gets from the TLB at once fits. -/
def GetFits (s : Queued) : Prop :=
  (s.pfq = [] → ProcessFits cfg al tlb cached s cfg.queueSize)
  ∧ Gives (s.fillIfEmpty cfg al tlb cached) fun s => s.pfq ≠ [] →
    ProcessFits cfg al tlb cached (s.popFront s.pfq.tail) (cfg.queueSize - s.pfq.tail.length)

instance (s : Queued) : Decidable (GetFits cfg al tlb cached s) :=
  inferInstanceAs (Decidable (_ ∧ Gives _ _))

def Fits (s : Queued) : Op → Prop
  | .insert cached req pfi p => InsertFits cfg cached s req pfi p
  | .getPacket tlb cached => GetFits cfg al tlb cached s
  | .translated call cached paddr => CompleteFits cfg cached s call paddr
  | .squash _ _ => True
  | .advance _ => True

instance (s : Queued) : ∀ o, Decidable (Fits cfg al s o)
  | .insert .. => inferInstanceAs (Decidable (InsertFits _ _ _ _ _ _))
  | .getPacket .. => inferInstanceAs (Decidable (GetFits _ _ _ _ _))
  | .translated .. => inferInstanceAs (Decidable (CompleteFits _ _ _ _ _))
  | .squash .. => .isTrue trivial
  | .advance .. => .isTrue trivial

end Fits

/-! ## Where a translation is left alone -/

/-- The entry that is raised does not move, or neither it nor one that it moves past is being
translated. -/
def RaiseStill (q : List Node) (pfi : PrefetchInfo) (p : ℤ) : Prop :=
  let it := (search pfi q 0).1
  it ≠ q.length → priorityAt q it < p → ∀ m ∈ q.take it, m.priority < p →
    m.dp.ongoingTranslation = false ∧ ∀ n ∈ q[it]?, n.dp.ongoingTranslation = false

instance (q : List Node) (pfi : PrefetchInfo) (p : ℤ) : Decidable (RaiseStill q pfi p) :=
  inferInstanceAs (Decidable (_ → _ → _))

def RoomStill (queueSize : ℕ) (q : List Node) : Prop :=
  q.length = queueSize → ∀ n ∈ q[victim q (q.length - 1)]?, n.dp.ongoingTranslation = false

instance (queueSize : ℕ) (q : List Node) : Decidable (RoomStill queueSize q) :=
  inferInstanceAs (Decidable (_ → _))

/-- A repeated request, or a new one that is to be translated, disturbs no translation. -/
def Undisturbed (cfg : Config) (s : Queued) : Op → Prop
  | .insert _ req pfi p =>
    (cfg.queueFilter = true → (search pfi s.pfq 0).2 = false →
      RaiseStill s.pfqMissingTranslation pfi p)
    ∧ ((cfg.queueFilter = true →
        (search pfi s.pfq 0).2 = false ∧ (search pfi s.pfqMissingTranslation 0).2 = false) →
      Gives (target cfg req pfi) fun t =>
        t.isVaddr = true → RoomStill cfg.queueSize s.pfqMissingTranslation)
  | _ => True

instance (cfg : Config) (s : Queued) : ∀ o, Decidable (Undisturbed cfg s o)
  | .insert .. => inferInstanceAs (Decidable ((_ → _ → RaiseStill _ _ _) ∧ (_ → Gives _ _)))
  | .getPacket .. => .isTrue trivial
  | .translated .. => .isTrue trivial
  | .squash .. => .isTrue trivial
  | .advance .. => .isTrue trivial

end Prefetch

end Gem5
