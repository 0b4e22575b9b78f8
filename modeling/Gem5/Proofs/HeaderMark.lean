import Gem5.Proofs.CacheStep

/-!
# The header mark of I/O blocks

A block leaves the I/O cache with the header mark of its block object. Nothing takes the mark away,
so a way keeps it for the next block, and a write that hits does not set it.
-/

namespace Gem5

open Machine

/-- The block has the mark just when the last write to it had it. -/
def Marks.Agree (m : Marks) : Prop := m.1 = true ↔ m.2 = some true

instance (m : Marks) : Decidable (Marks.Agree m) := inferInstanceAs (Decidable (_ ↔ _))

namespace Cache

variable {c c' : Cache} {s : Step}

/-- The mark that the block of a step has with what the step adds is that of the last write. -/
def HeaderKept (c : Cache) (s : Step) : Prop :=
  match c.target s with
  | none => True
  | some t => Marks.Agree t.2

instance : Decidable (HeaderKept c s) :=
  match h : c.target s with
  | none => .isTrue (by simp [HeaderKept, h])
  | some t => decidable_of_iff (Marks.Agree t.2) (by simp [HeaderKept, h])

/-- All marks, of the blocks and of the packets that left, are those of the last writes. -/
structure Honest (c : Cache) : Prop where
  isIOCache : c.params.isIOCache = true
  blocks : ∀ l, (c.get l).valid = true → Marks.Agree (c.get l).marks
  left : ∀ d ∈ c.left, d.pkt.isDdioHeader = true ↔ d.lastWrite = some true

theorem Honest.departs (hc : Honest c) {m : Marks} {d : Departure} (h : c.Departs m d)
    (hm : Marks.Agree m) : d.pkt.isDdioHeader = true ↔ d.lastWrite = some true := by
  rwa [h.2 hc.isIOCache, h.1]

theorem Honest.step (hc : Honest c) (hs : HeaderKept c s) (h : c.step s = .ok c') : Honest c' := by
  obtain ⟨put, -, hset⟩ := step_settles h
  have htarget : ∀ l m, c.target s = some (l, m) → Marks.Agree m := by
    intro l m ht
    simpa only [HeaderKept, ht] using hs
  refine ⟨hset.params ▸ hc.isIOCache, fun l hv => ?_, fun d hd => ?_⟩
  · by_cases hl : (c.target s).map Prod.fst = some l
    · obtain ⟨⟨l', m⟩, ht, rfl⟩ := Option.map_eq_some_iff.1 hl
      rw [hset.here l' m ht hv]
      exact htarget l' m ht
    · obtain ⟨hv', hm⟩ := hset.others l hl hv
      rw [hm]
      exact hc.blocks l hv'
  · rcases hset.left d hd with hd | ⟨l, hv, hd⟩ | ⟨l, m, ht, hd⟩
    · exact hc.left d hd
    · exact hc.departs hd (hc.blocks l hv)
    · exact hc.departs hd (htarget l m ht)

def ioCache : Cache where
  params := { blkSize := 64, setOf := fun a => a / 64 % 2, isIOCache := true }
  sets := fun _ => [{}]

def dmaWrite (addr : ℕ) (header : Bool) : Packet :=
  { Packet.ofRequest ⟨addr, 64, {}, 0, 0, 0, 0⟩ .writeLineReq with
    ddioPrefetchDestination := 0, isDdioPkt := true, isDdioHeader := header }

def dmaWriteSteps (addr : ℕ) (header : Bool) : List Step :=
  [{ op := .recvTimingReq (dmaWrite addr header) },
    { op := .recvTimingResp (Packet.ofRequest ⟨addr, 64, {}, 0, 0, 0, 0⟩ .invalidateResp) 0
        { wasWholeLineWrite := true, served := [.fromCPU (dmaWrite addr header)] } }]

def apartSteps : List Step :=
  dmaWriteSteps 0 true ++ dmaWriteSteps 64 false ++ dmaWriteSteps 128 true
    ++ dmaWriteSteps 192 false

theorem apartSteps_left : Ends (run step ioCache apartSteps) fun c =>
    c.left.map (fun d => (d.pkt.addr, d.pkt.isDdioHeader)) = [(0, true), (64, false)] := by
  decide +kernel

theorem apartSteps_kept : Admits step HeaderKept ioCache apartSteps := by
  decide +kernel

/-- The way of a header is used for another line, which leaves with the header mark. -/
def reuseSteps : List Step :=
  dmaWriteSteps 0 true ++ dmaWriteSteps 128 false ++ dmaWriteSteps 256 false

theorem reuseSteps_left : Ends (run step ioCache reuseSteps) fun c =>
    c.left.map (fun d => (d.pkt.addr, d.pkt.isDdioHeader, d.lastWrite))
      = [(0, true, some true), (128, true, some false)] := by
  decide +kernel

end Cache

end Gem5
