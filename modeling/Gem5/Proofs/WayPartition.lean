import Gem5.Proofs.CacheStep
import Gem5.Proofs.Lru

/-!
# The ways of I/O blocks

A block for an I/O packet belongs into a way of the mask, or one that was invalidated for I/O. The
victim is only looked for there when `isBlockIO` is set, which is not the flag of the packet, and a
write-back looks for its victim in the whole set in any case.
-/

namespace Gem5

open Machine List

def Placement.WellPlaced (p : Placement) : Prop :=
  p.io = true → p.selected = true ∨ p.ioInvalidated = true

namespace Cache

variable {c c' : Cache} {w : Wanted} {way : ℕ} {s : Step}

def InPart (c : Cache) (set way : ℕ) : Prop :=
  c.params.ddioWayPart.getLsbD way = true ∨ (c.get (.way set way)).repl.ioInvalidated = true

instance (set way : ℕ) : Decidable (c.InPart set way) := inferInstanceAs (Decidable (_ ∨ _))

/-- A way for I/O is there, if the victim is looked for among these, or else the victim of the whole
set is one. -/
def Fits (c : Cache) (w : Wanted) : Prop :=
  if w.isDdio then ∃ way < (c.sets w.set).length, c.InPart w.set way
  else
    match LRU.getVictim ((c.sets w.set).map (·.repl)) with
    | .error _ => True
    | .ok way => c.InPart w.set way

instance : Decidable (c.Fits w) :=
  if hd : w.isDdio = true then
    decidable_of_iff (∃ way < (c.sets w.set).length, c.InPart w.set way) (by simp [Fits, hd])
  else
    match h : LRU.getVictim ((c.sets w.set).map (·.repl)) with
    | .error _ => .isTrue (by simp [Fits, hd, h])
    | .ok way => decidable_of_iff (c.InPart w.set way) (by simp [Fits, hd, h])

def isRefused (c : Cache) (w : Wanted) : Bool :=
  match c.chooseVictim w.set w.isDdio with
  | .error _ => false
  | .ok way => c.refuses (.way w.set way)

/-- A block that the step puts for an I/O packet gets a way for I/O. -/
def Contained (c : Cache) (s : Step) : Prop :=
  match c.wanted s with
  | none => True
  | some w => w.io = true → c.isRefused w = true ∨ c.Fits w

instance : Decidable (Contained c s) :=
  match h : c.wanted s with
  | none => .isTrue (by simp [Contained, h])
  | some w => decidable_of_iff (w.io = true → c.isRefused w = true ∨ c.Fits w)
      (by simp [Contained, h])

theorem fits_iff (h : c.chooseVictim w.set w.isDdio = .ok way) :
    c.Fits w ↔ c.InPart w.set way := by
  unfold chooseVictim at h
  unfold Fits
  split_ifs at h ⊢ with hd
  · have hrepl : ∀ v d, ((c.sets w.set).map (·.repl))[v]? = some d →
        v < (c.sets w.set).length ∧ (c.get (.way w.set v)).repl = d := by
      intro v d hv
      rw [getElem?_map, Option.map_eq_some_iff] at hv
      obtain ⟨b, hb, rfl⟩ := hv
      exact ⟨(List.getElem?_eq_some_iff.1 hb).1, by simp [get, List.getD_eq_getElem?_getD, hb]⟩
    obtain ⟨hne, ⟨d, hway, hio⟩ | ⟨hnone, v, hleast, rfl⟩⟩ := LRU.getVictimWayPart_cases h
    · obtain ⟨hlt, hget⟩ := hrepl way d hway
      have hin : c.InPart w.set way := .inr (by rw [hget, hio])
      exact ⟨fun _ => hin, fun _ => ⟨way, hlt, hin⟩⟩
    · cases v with
      | some v =>
        obtain ⟨-, hget, hmask, -⟩ := hleast
        exact ⟨fun _ => .inl hmask, fun h => ⟨v.1, (hrepl v.1 v.2 hget).1, h⟩⟩
      | none =>
        -- neither the mask nor an invalidation selects a way of the set
        have hout : ∀ v < (c.sets w.set).length, ¬ c.InPart w.set v := by
          rintro v hv (hmask | hio)
          · rw [hleast v (by simpa using hv)] at hmask
            cases hmask
          · have hv' : v < ((c.sets w.set).map (·.repl)).length := by simpa using hv
            rw [(hrepl v _ (getElem?_eq_getElem hv')).2] at hio
            rw [hnone _ (getElem_mem hv')] at hio
            cases hio
        have hpos : 0 < (c.sets w.set).length :=
          length_pos_iff.2 fun he => hne (by rw [he]; rfl)
        refine ⟨?_, fun hin => absurd hin (hout 0 hpos)⟩
        rintro ⟨v, hv, hin⟩
        exact absurd hin (hout v hv)
  · rw [h]

theorem wellPlaced_placement :
    (c.placement w way).WellPlaced ↔ (w.io = true → c.InPart w.set way) :=
  Iff.rfl

theorem step_contained (h : c.step s = .ok c') :
    (∀ p ∈ c'.placed, p.WellPlaced) ↔ (∀ p ∈ c.placed, p.WellPlaced) ∧ Contained c s := by
  obtain ⟨put, hput, hset⟩ := step_settles h
  rw [hset.placed]
  unfold Contained
  generalize c.wanted s = want at hput ⊢
  cases hput with
  | none => simp [placements]
  | @refused w way hway href =>
    have hr : c.isRefused w = true := by simp [isRefused, hway, href]
    simp [placements, hr]
  | @put w way hway href =>
    have hr : c.isRefused w = false := by simp [isRefused, hway, href]
    simp only [placements, Option.toList_some, map_cons, map_nil, forall_mem_append,
      forall_mem_singleton, wellPlaced_placement, hr, Bool.false_eq_true, false_or,
      fits_iff hway]

theorem run_contained {ops : List Step} (h : run step c ops = .ok c') :
    (∀ p ∈ c'.placed, p.WellPlaced)
      ↔ (∀ p ∈ c.placed, p.WellPlaced) ∧ Admits step Contained c ops := by
  induction ops generalizing c with
  | nil =>
    cases h
    simp [Admits]
  | cons s ops ih =>
    obtain ⟨c₁, hs, h⟩ := run_cons.1 h
    have hrest : (∀ c₂, c.step s = .ok c₂ → Admits step Contained c₂ ops)
        ↔ Admits step Contained c₁ ops := by
      constructor
      · exact fun h => h c₁ hs
      · intro h c₂ hc₂
        rwa [Except.ok.inj (hc₂.symm.trans hs)]
    rw [ih h, step_contained hs, and_assoc]
    exact and_congr_right fun _ => and_congr_right fun _ => hrest.symm

/-- In every run, the blocks for I/O packets are in ways for I/O just when each step meets the
condition. -/
theorem io_contained_iff {c₀ c : Cache} {ops : List Step} (hinit : c₀.placed = [])
    (hrun : run step c₀ ops = .ok c) :
    (∀ p ∈ c.placed, p.io = true → p.selected = true ∨ p.ioInvalidated = true)
      ↔ Admits step Contained c₀ ops := by
  refine (run_contained hrun).trans ?_
  simp [hinit]

/-- A last-level cache with one set of two ways, of which the second is for I/O. -/
def twoWays : Cache where
  params := { blkSize := 64, setOf := fun _ => 0, isLLC := true, ddioWayPart := 2 }
  sets := fun _ => [{}, {}]

def ioPacket (cmd : MemCmd) (addr : ℕ) : Packet :=
  { Packet.ofRequest ⟨addr, 64, {}, 0, 0, 0, 0⟩ cmd with blockIO := true, isBlockIO := true }

/-- A write-clean that misses, and a read that misses with its fill. -/
def ioSteps : List Step :=
  [{ op := .recvTimingReq (ioPacket .writeClean 0), curTick := 1 },
    { op := .recvTimingReq (ioPacket .readSharedReq 64), curTick := 2 },
    { op := .recvTimingResp (ioPacket .readResp 64) 0 {}, curTick := 3 }]

theorem ioSteps_placed : Ends (run step twoWays ioSteps) fun c =>
    c.placed = [⟨true, 1, true, false⟩, ⟨true, 1, true, false⟩] := by
  decide +kernel

theorem ioSteps_contained : Admits step Contained twoWays ioSteps := by
  decide +kernel

theorem io_contained_ioSteps : ∃ c, run step twoWays ioSteps = .ok c ∧ c.placed.length = 2
    ∧ ∀ p ∈ c.placed, p.io = true → p.selected = true ∨ p.ioInvalidated = true := by
  obtain ⟨c, hrun, hplaced⟩ := ioSteps_placed.exists
  exact ⟨c, hrun, by rw [hplaced]; rfl, (io_contained_iff rfl hrun).2 ioSteps_contained⟩

theorem ioWriteback_placed :
    Ends (run step twoWays [{ op := .recvTimingReq (ioPacket .writebackDirty 0) }]) fun c =>
      c.placed = [⟨true, 0, false, false⟩] := by
  decide +kernel

/-- A write-back from the I/O cache is put into the way that the mask leaves out. -/
theorem io_writeback_escapes : ∃ c, twoWays.params.ddioEnabled = true
    ∧ run step twoWays [{ op := .recvTimingReq (ioPacket .writebackDirty 0) }] = .ok c
    ∧ c.placed = [⟨true, 0, false, false⟩] := by
  obtain ⟨c, hrun, hplaced⟩ := ioWriteback_placed.exists
  exact ⟨c, rfl, hrun, hplaced⟩

end Cache

end Gem5
