import Gem5.Proofs.CacheStep

/-!
# Ways that were invalidated for I/O

The mark of such a way is cleared by the search in the part for I/O, and by nothing else. So a block
that is put by the other search can be in a marked way, and is then the first victim for I/O.
-/

namespace Gem5

open Machine

namespace Cache

variable {c c' : Cache} {s : Step}

def VictimUnmarked (c : Cache) (s : Step) : Prop :=
  match c.wanted s with
  | none => True
  | some w => w.isDdio = false →
    match LRU.getVictim ((c.sets w.set).map (·.repl)) with
    | .error _ => True
    | .ok way => (c.get (.way w.set way)).repl.ioInvalidated = false

instance : Decidable (VictimUnmarked c s) :=
  match h : c.wanted s with
  | none => .isTrue (by simp [VictimUnmarked, h])
  | some w =>
    match hv : LRU.getVictim ((c.sets w.set).map (·.repl)) with
    | .error _ => .isTrue (by simp [VictimUnmarked, h, hv])
    | .ok way => decidable_of_iff
        (w.isDdio = false → (c.get (.way w.set way)).repl.ioInvalidated = false)
        (by simp [VictimUnmarked, h, hv])

def MarkedEmpty (c : Cache) : Prop :=
  ∀ set way, (c.get (.way set way)).repl.ioInvalidated = true →
    (c.get (.way set way)).valid = false

theorem findBlock_valid {addr : ℕ} {secure : Bool} {l : Loc}
    (h : c.findBlock addr secure = some l) : (c.get l).valid = true := by
  obtain ⟨way, hway, rfl⟩ := Option.map_eq_some_iff.1 h
  obtain ⟨hlt, hmatch, -⟩ := List.findIdx?_eq_some_iff_getElem.1 hway
  simp only [CacheBlk.matchTag, Bool.and_eq_true] at hmatch
  simpa [get, List.getD_eq_getElem?_getD, hlt] using hmatch.1.1

theorem target_cases {l : Loc} {m : Marks} (h : c.target s = some (l, m)) :
    (c.get l).valid = true ∨ l = .temp ∨ ∃ w, c.wanted s = some w ∧ c.chosen w = some l := by
  obtain ⟨op, tick, above⟩ := s
  unfold target at h
  unfold wanted
  cases op with
  | recvTimingReq pkt =>
    dsimp only at h ⊢
    unfold reqTarget at h
    split at h
    · next l' hblk =>
      split_ifs at h
      obtain ⟨rfl, -⟩ := Prod.mk.inj (Option.some.inj h)
      exact .inl (findBlock_valid hblk)
    · obtain ⟨l', hl', he⟩ := Option.map_eq_some_iff.1 h
      obtain ⟨rfl, -⟩ := Prod.mk.inj he
      exact .inr (.inr (Option.bind_eq_some_iff.1 hl'))
  | recvTimingResp pkt i reply =>
    dsimp only at h ⊢
    unfold respTarget at h
    obtain ⟨mshr, -, h⟩ := Option.bind_eq_some_iff.1 h
    by_cases hwrite : pkt.cmd.isWrite = true
    · simp [if_pos hwrite] at h
    rw [if_neg hwrite] at h
    split at h
    · next l' hblk =>
      obtain ⟨rfl, -⟩ := Prod.mk.inj (Option.some.inj h)
      exact .inl (findBlock_valid hblk)
    · split_ifs at h
      obtain ⟨rfl, -⟩ := Prod.mk.inj (Option.some.inj h)
      cases hch : (c.wantedByResp pkt i reply).bind c.chosen with
      | none => exact .inr (.inl rfl)
      | some l' => exact .inr (.inr (Option.bind_eq_some_iff.1 hch))
  | recvTimingSnoopReq pkt putOff | clean addr secure | sendWrite i => cases h

theorem MarkedEmpty.step (hc : MarkedEmpty c) (hs : VictimUnmarked c s) (h : c.step s = .ok c') :
    MarkedEmpty c' := by
  intro set way hio
  by_contra hv
  rw [Bool.not_eq_false] at hv
  obtain ⟨put, hput, hset⟩ := step_settles h
  obtain ⟨hio', hddio⟩ := hset.io _ hv hio
  have hempty := hc set way hio'
  -- the way was empty, so its block is the one that the step put
  have htarget : (c.target s).map Prod.fst = some (.way set way) := by
    by_contra hne
    simp [(hset.others _ hne hv).1] at hempty
  obtain ⟨⟨l, m⟩, ht, rfl⟩ := Option.map_eq_some_iff.1 htarget
  rcases target_cases ht with hvalid | htemp | ⟨w, hw, hch⟩
  · simp [hempty] at hvalid
  · cases htemp
  · rw [hw] at hput
    unfold chosen at hch
    unfold VictimUnmarked at hs
    rw [hw] at hs
    cases hput with
    | refused hway href => simp [hway, href] at hch
    | @put _ way' hway href =>
      simp only [hway, href, Bool.false_eq_true, if_false, Option.some.injEq] at hch
      have hplain := hddio w way' rfl hch.symm
      have hvictim : LRU.getVictim ((c.sets w.set).map (·.repl)) = .ok way' := by
        simpa [chooseVictim, hplain] using hway
      have hclear := hs hplain
      simp only [hvictim] at hclear
      simp [hch, hio'] at hclear

/-- In every run whose steps all meet the condition, a way that is marked as invalidated for I/O
holds no block. -/
theorem marked_way_empty {c₀ c : Cache} {ops : List Step}
    (hinit : ∀ set way, (c₀.get (.way set way)).repl.ioInvalidated = true →
      (c₀.get (.way set way)).valid = false)
    (hops : Admits step VictimUnmarked c₀ ops) (hrun : run step c₀ ops = .ok c) :
    ∀ set way, (c.get (.way set way)).repl.ioInvalidated = true →
      (c.get (.way set way)).valid = false :=
  Admits.inv (I := MarkedEmpty) (fun _ _ _ hc hs h => hc.step hs h) hops hinit hrun

/-- A last-level cache with one set of two ways, of which the first is for I/O. -/
def llcTwoWays : Cache where
  params := { blkSize := 64, setOf := fun _ => 0, isLLC := true, ddioWayPart := 1 }
  sets := fun _ => [{}, {}]

def linePacket (cmd : MemCmd) (addr : ℕ) (io : Bool) : Packet :=
  { Packet.ofRequest ⟨addr, 64, {}, 0, 0, 0, 0⟩ cmd with blockIO := io, isBlockIO := io }

/-- A line comes, is invalidated for I/O, and the next line comes into the part for I/O. -/
def ioRefillSteps : List Step :=
  [{ op := .recvTimingReq (linePacket .writeClean 0 true), curTick := 1 },
    { op := .recvTimingSnoopReq (linePacket .invalidateReq 0 true) false, curTick := 2 },
    { op := .recvTimingReq (linePacket .writeClean 64 true), curTick := 3 }]

theorem ioRefillSteps_ends : Ends (run step llcTwoWays ioRefillSteps) fun c =>
    (c.sets 0).map (fun b => (b.valid, b.addr, b.repl.ioInvalidated))
      = [(true, 64, false), (false, 0, false)] := by
  decide +kernel

theorem ioRefillSteps_unmarked : Admits step VictimUnmarked llcTwoWays ioRefillSteps := by
  decide +kernel

theorem marked_way_ioRefillSteps : ∃ c, run step llcTwoWays ioRefillSteps = .ok c
    ∧ (c.sets 0).map (fun b => (b.valid, b.addr, b.repl.ioInvalidated))
      = [(true, 64, false), (false, 0, false)]
    ∧ ∀ set way, (c.get (.way set way)).repl.ioInvalidated = true →
      (c.get (.way set way)).valid = false := by
  obtain ⟨c, hrun, hsets⟩ := ioRefillSteps_ends.exists
  refine ⟨c, hrun, hsets, marked_way_empty (fun set way _ => ?_) ioRefillSteps_unmarked hrun⟩
  rcases way with _ | _ | way <;> rfl

/-- A line comes, is invalidated for I/O, and a write-back from a core takes its way. -/
def coreRefillSteps : List Step :=
  [{ op := .recvTimingReq (linePacket .writeClean 0 true), curTick := 1 },
    { op := .recvTimingSnoopReq (linePacket .invalidateReq 0 true) false, curTick := 2 },
    { op := .recvTimingReq (linePacket .writebackDirty 64 false), curTick := 3 }]

theorem coreRefillSteps_ends : Ends (run step llcTwoWays coreRefillSteps) fun c =>
    (c.get (.way 0 0)).valid = true ∧ (c.get (.way 0 0)).repl.ioInvalidated = true := by
  decide +kernel

theorem marked_way_in_use : (∀ set way, (llcTwoWays.get (.way set way)).repl.ioInvalidated = false)
    ∧ ∃ c, run step llcTwoWays coreRefillSteps = .ok c
      ∧ (c.get (.way 0 0)).valid = true ∧ (c.get (.way 0 0)).repl.ioInvalidated = true := by
  refine ⟨fun set way => ?_, coreRefillSteps_ends.exists⟩
  rcases way with _ | _ | way <;> rfl

end Cache

end Gem5
