import Gem5.Proofs.Mshr

/-!
# The flags of a list of targets

An update of the flags depends on the list only through its summary (`addFlags_summary`). So the
flags kept up as targets are added are those computed anew, but for two things: the first write of a
list counts as a write of the whole line even if it is not to be merged, and deferred targets are
moved without an update of the flags.
-/

namespace Gem5

open Machine List

theorem MemCmd.replaceUpgrade_same (c : MemCmd) :
    c.replaceUpgrade.isRequest = c.isRequest ∧ c.replaceUpgrade.needsWritable = c.needsWritable
      ∧ c.replaceUpgrade.fromCache = c.fromCache ∧ c.replaceUpgrade.isWrite = c.isWrite
      ∧ (c.isRequest = true → c.replaceUpgrade.isUpgrade = false
        ∧ c.replaceUpgrade ≠ .storeCondReq) := by
  cases c <;> decide

namespace TargetList

variable {k : TargetList} {n : ℕ}

namespace WriteState

/-- What one more target of the processor side does. -/
def note (blkSize : ℕ) (first : Bool) (pkt : Packet) : WriteState → Except Halt WriteState
  | .whole => .ok .whole
  | .closed => .ok .closed
  | .merging bitmap =>
    if pkt.cmd.isWrite = false then .ok .closed
    else if first = true ∨ pkt.req.flags.noMerge = false then do
      inBounds (pkt.getOffset blkSize + pkt.size ≤ bitmap.length) "writesBitmap"
      return .of (bitmap.mapIdx fun i b => b || (decide (pkt.getOffset blkSize ≤ i)
        && decide (i < pkt.getOffset blkSize + pkt.size))) (!pkt.req.flags.noMerge)
    else .ok (.of bitmap (!pkt.req.flags.noMerge))

end WriteState

/-- What one more target does to the flags. -/
def Summary.note (blkSize : ℕ) (first : Bool) (s : Summary) (t : Target) : Except Halt Summary :=
  if t.source = .fromSnoop then .ok s
  else do
    require (t.pkt.cmd.isRequest = true) "isRequest()"
    let s' : Summary := { s with
      needsWritable := s.needsWritable || t.pkt.cmd.needsWritable
      hasUpgrade := s.hasUpgrade || t.pkt.cmd.isUpgrade || decide (t.pkt.cmd = .storeCondReq)
      allocOnFill := s.allocOnFill || t.allocOnFill }
    if t.source = .fromPrefetcher then return s'
    else do
      let w ← s.writes.note blkSize first t.pkt
      return { s' with hasFromCache := s.hasFromCache || t.pkt.cmd.fromCache, writes := w }

variable {l l' : TargetList} {pkt : Packet} {t : Target} {ts : List Target}

theorem writes_of_whole (h : l.isWholeLineWrite = true) : l.summary.writes = .whole := if_pos h

theorem writes_of_closed (h : l.isWholeLineWrite = false) (hm : l.canMergeWrites = false) :
    l.summary.writes = .closed := by
  rw [isWholeLineWrite] at h
  simp [summary, WriteState.of, h, hm]

theorem writes_of_merging (h : l.isWholeLineWrite = false) (hm : l.canMergeWrites = true) :
    l.summary.writes = .merging l.writesBitmap := by
  rw [isWholeLineWrite] at h
  simp [summary, WriteState.of, h, hm]

theorem whole_iff (l : TargetList) : l.isWholeLineWrite = decide (l.summary.writes = .whole) := by
  cases hw : l.isWholeLineWrite with
  | true => simp [writes_of_whole hw]
  | false =>
    cases hm : l.canMergeWrites with
    | true => simp [writes_of_merging hw hm]
    | false => simp [writes_of_closed hw hm]

theorem updateWriteFlags_summary (l : TargetList) (pkt : Packet) :
    (l.updateWriteFlags pkt).map summary
      = (l.summary.writes.note l.blkSize l.targets.isEmpty pkt).map fun w =>
        { l.summary with writes := w } := by
  unfold updateWriteFlags
  cases hw : l.isWholeLineWrite with
  | true =>
    rw [writes_of_whole hw, if_pos rfl, WriteState.note, ← writes_of_whole hw]
    rfl
  | false =>
    cases hm : l.canMergeWrites with
    | false =>
      rw [writes_of_closed hw hm, if_neg (by simp), if_pos (by rfl), WriteState.note,
        ← writes_of_closed hw hm]
      rfl
    | true =>
      rw [writes_of_merging hw hm, if_neg (by simp), if_neg (by simp), WriteState.note]
      cases hp : pkt.cmd.isWrite with
      | false =>
        rw [isWholeLineWrite] at hw
        simp [Except.map, summary, WriteState.of, hw, pure, Except.pure]
      | true =>
        rw [if_neg (by simp), if_neg (by simp), writeBitmap]
        by_cases hf : l.targets.isEmpty = true ∨ pkt.req.flags.noMerge = false
        · rw [if_pos (by simpa using hf), if_pos hf, fill]
          unfold inBounds
          by_cases hin : pkt.getOffset l.blkSize + pkt.size ≤ l.writesBitmap.length
          · rw [if_pos hin]
            rfl
          · rw [if_neg hin]
            rfl
        · rw [if_neg (by simpa using hf), if_neg hf]
          rfl

theorem addFlags_summary (l : TargetList) (t : Target) :
    (l.addFlags t).map summary = l.summary.note l.blkSize l.targets.isEmpty t := by
  unfold addFlags updateFlags Summary.note
  by_cases hsn : t.source = .fromSnoop
  · rw [if_pos hsn, if_pos hsn]
    rfl
  · rw [if_neg hsn, if_neg hsn]
    unfold require
    by_cases hreq : t.pkt.cmd.isRequest = true
    · rw [if_pos hreq]
      by_cases hpf : t.source = .fromPrefetcher
      · simp only [hpf, if_true]
        rfl
      · simp only [hpf, if_false]
        refine (updateWriteFlags_summary _ _).trans ?_
        show (l.summary.writes.note l.blkSize l.targets.isEmpty t.pkt).map _
          = l.summary.writes.note l.blkSize l.targets.isEmpty t.pkt >>= _
        cases l.summary.writes.note l.blkSize l.targets.isEmpty t.pkt with
        | error e | ok w => rfl
    · rw [if_neg hreq]
      rfl

theorem addFlags_same (h : l.addFlags t = .ok l') :
    l'.targets = l.targets ∧ l'.blkSize = l.blkSize
      ∧ l'.writesBitmap.length = l.writesBitmap.length := by
  unfold addFlags updateFlags at h
  split_ifs at h with hs hp
  · cases h
    exact ⟨rfl, rfl, rfl⟩
  · obtain ⟨_, -, rfl⟩ := bind_pure_ok.1 h
    exact ⟨rfl, rfl, rfl⟩
  · obtain ⟨_, -, h⟩ := bind_ok.1 h
    obtain ⟨rfl, -⟩ | rfl | ⟨-, m, w, hw, rfl⟩ := updateWriteFlags_cases h
    · exact ⟨rfl, rfl, rfl⟩
    · exact ⟨rfl, rfl, rfl⟩
    · exact ⟨rfl, rfl, hw⟩

theorem foldlM_same : ∀ {ts : List Target} {l : TargetList}, ts.foldlM addFlags l = .ok l' →
    l'.targets = l.targets ∧ l'.blkSize = l.blkSize
      ∧ l'.writesBitmap.length = l.writesBitmap.length
  | [], l, h => by
    cases h
    exact ⟨rfl, rfl, rfl⟩
  | t :: ts, l, h => by
    obtain ⟨l₁, h₁, h⟩ := bind_ok.1 h
    obtain ⟨ht, hb, hw⟩ := addFlags_same h₁
    obtain ⟨ht', hb', hw'⟩ := foldlM_same h
    exact ⟨ht'.trans ht, hb'.trans hb, hw'.trans hw⟩

theorem foldlM_summary : ∀ (ts : List Target) (l : TargetList),
    (ts.foldlM addFlags l).map summary
      = ts.foldlM (Summary.note l.blkSize l.targets.isEmpty) l.summary
  | [], l => rfl
  | t :: ts, l => by
    rw [foldlM_cons, foldlM_cons, ← addFlags_summary]
    cases h : l.addFlags t with
    | error e => rfl
    | ok l₁ =>
      obtain ⟨ht, hb, -⟩ := addFlags_same h
      have ih := foldlM_summary ts l₁
      rw [ht, hb] at ih
      exact ih

/-! ## The flags computed anew -/

def Summary.empty (blkSize : ℕ) : Summary :=
  ⟨false, false, false, false, .of (List.replicate blkSize false) true⟩

def recomputed (blkSize : ℕ) (ts : List Target) : Except Halt Summary :=
  ts.foldlM (Summary.note blkSize false) (.empty blkSize)

/-- The flags of the list, and what is kept about writes, are those that its targets give. -/
structure Matches (l : TargetList) : Prop where
  size : l.writesBitmap.length = l.blkSize
  flags : recomputed l.blkSize l.targets = .ok l.summary

theorem populateFlags_summary (hl : l.writesBitmap.length = l.blkSize) :
    l.populateFlags.map summary = recomputed l.blkSize l.targets := by
  have hreset : l.resetFlags.summary = .empty l.blkSize := by
    rw [← hl]
    rfl
  rw [populateFlags, foldlM_summary, hreset]
  -- With no targets there is no update, so it does not matter that the list is empty.
  cases h : l.targets with
  | nil => rfl
  | cons t ts =>
    have he : l.resetFlags.targets.isEmpty = false := by
      rw [resetFlags, h]
      rfl
    rw [he]
    rfl

theorem matches_populateFlags (h : l.populateFlags = .ok l')
    (hl : l.writesBitmap.length = l.blkSize) : l'.Matches ∧ l'.blkSize = l.blkSize := by
  obtain ⟨ht, hb, hw⟩ := foldlM_same h
  have hw : l'.writesBitmap.length = l.writesBitmap.length := by
    rw [hw, resetFlags, length_replicate]
  refine ⟨⟨hw.trans (hl.trans hb.symm), ?_⟩, hb⟩
  rw [ht, hb, resetFlags, ← populateFlags_summary hl, h]
  rfl

namespace Matches

theorem flagsMatch (h : l.Matches) : l.FlagsMatch := by
  have hp := (populateFlags_summary h.size).trans h.flags
  cases hr : l.populateFlags with
  | error e =>
    rw [hr] at hp
    cases hp
  | ok r =>
    rw [hr] at hp
    have hs : r.summary = l.summary := Except.ok.inj hp
    refine Ends.of_ok hr ⟨congrArg (·.needsWritable) hs, congrArg (·.hasUpgrade) hs,
      congrArg (·.allocOnFill) hs, congrArg (·.hasFromCache) hs, ?_⟩
    rw [whole_iff, whole_iff, hs]

theorem init (blkSize : ℕ) : (TargetList.init blkSize).Matches :=
  ⟨length_replicate, rfl⟩

theorem append (h : l.Matches) (ts : List Target) (hb : k.blkSize = l.blkSize)
    (hw : k.writesBitmap.length = l.writesBitmap.length) (ht : k.targets = l.targets ++ ts)
    (hk : ts.foldlM (Summary.note l.blkSize false) l.summary = .ok k.summary) : k.Matches := by
  refine ⟨hw.trans (h.size.trans hb.symm), ?_⟩
  rw [hb, ht, recomputed, foldlM_append]
  exact bind_ok.2 ⟨_, h.flags, hk⟩

theorem of_same (h : l.Matches) (hb : k.blkSize = l.blkSize)
    (hw : k.writesBitmap.length = l.writesBitmap.length)
    (ht : recomputed l.blkSize k.targets = recomputed l.blkSize l.targets)
    (hk : k.summary = l.summary) : k.Matches := by
  refine ⟨hw.trans (h.size.trans hb.symm), ?_⟩
  rw [hb, ht, hk]
  exact h.flags

end Matches

theorem all_mapIdx_false {off k : ℕ} (hk : k < n) :
    ((List.replicate n false).mapIdx fun i b =>
      b || (decide (off ≤ i) && decide (i < off + k))).all id = false := by
  obtain ⟨i, hi, hout⟩ : ∃ i, i < n ∧ ¬ (off ≤ i ∧ i < off + k) := by
    by_cases h0 : off = 0
    · exact ⟨k, hk, by omega⟩
    · exact ⟨0, by omega, by omega⟩
  rw [all_eq_false]
  refine ⟨false, mem_iff_getElem?.2 ⟨i, ?_⟩, by simp⟩
  rw [getElem?_mapIdx, getElem?_replicate, if_pos hi]
  simp only [Option.map_some, Option.some.injEq, Bool.false_or, Bool.and_eq_false_imp,
    decide_eq_true_eq, decide_eq_false_iff_not]
  exact fun h h' => hout ⟨h, h'⟩

theorem writes_note_first {w : WriteState} (hpkt : pkt.wholeSpecialWrite n = false)
    (h : (WriteState.of (List.replicate n false) true).note n true pkt = .ok w) :
    (WriteState.of (List.replicate n false) true).note n false pkt = .ok w := by
  obtain rfl | hn := Nat.eq_zero_or_pos n
  · exact h
  · have hof : WriteState.of (List.replicate n false) true = .merging (List.replicate n false) := by
      rw [WriteState.of, isWholeLineWrite_replicate hn]
      rfl
    rw [hof, WriteState.note] at h ⊢
    by_cases hwr : pkt.cmd.isWrite = false
    · rw [if_pos hwr] at h ⊢
      exact h
    · by_cases hmerge : pkt.req.flags.noMerge = false
      · rw [if_neg hwr, if_pos (.inr hmerge)] at h ⊢
        exact h
      · rw [if_neg hwr, if_pos (.inl rfl)] at h
        rw [if_neg hwr, if_neg (by simpa using hmerge)]
        obtain ⟨_, -, h⟩ := bind_ok.1 h
        rw [← h]
        have hk : pkt.size < n := by
          simp only [Bool.not_eq_false] at hwr hmerge
          simpa [Packet.wholeSpecialWrite, hwr, hmerge] using hpkt
        simp only [Bool.not_eq_false] at hmerge
        rw [WriteState.of, isWholeLineWrite_replicate hn, WriteState.of, all_mapIdx_false hk,
          hmerge]
        rfl

theorem note_first {s : Summary}
    (hpkt : t.source = .fromCPU → t.pkt.wholeSpecialWrite n = false)
    (h : (Summary.empty n).note n true t = .ok s) : (Summary.empty n).note n false t = .ok s := by
  unfold Summary.note at h ⊢
  split_ifs at h ⊢ with hsn hpf
  · exact h
  · exact h
  · obtain ⟨_, hreq, h⟩ := bind_ok.1 h
    obtain ⟨w, hw, h⟩ := bind_ok.1 h
    have hcpu : t.source = .fromCPU := by
      cases hs : t.source with
      | fromCPU => rfl
      | fromSnoop => exact absurd hs hsn
      | fromPrefetcher => exact absurd hs hpf
    exact bind_ok.2 ⟨_, hreq, bind_ok.2 ⟨w, writes_note_first (hpkt hcpu) hw, h⟩⟩

namespace Matches

theorem add (h : l.Matches) {o : ℕ} {source : Source} {b a : Bool} {x : TargetList × List Signal}
    (hpkt : source = .fromCPU → l.targets = [] → pkt.wholeSpecialWrite l.blkSize = false)
    (hadd : l.add pkt n o source b a = .ok x) : x.1.Matches := by
  obtain ⟨l₁, hl₁, m, hx⟩ := add_cases hadd
  have hl₁ : l.addFlags ⟨pkt, n, o, source, m, a⟩ = .ok l₁ := hl₁
  obtain ⟨-, hb, hw⟩ := addFlags_same hl₁
  have hs := addFlags_summary l ⟨pkt, n, o, source, m, a⟩
  rw [hl₁] at hs
  have hnote : l.summary.note l.blkSize false ⟨pkt, n, o, source, m, a⟩ = .ok l₁.summary := by
    cases ht : l.targets with
    | nil =>
      have hempty : l.summary = .empty l.blkSize := by
        have hf := h.flags
        rw [ht] at hf
        exact (Except.ok.inj hf).symm
      rw [ht, hempty] at hs
      rw [hempty]
      exact note_first (fun hcpu => hpkt hcpu ht) hs.symm
    | cons t ts =>
      rw [ht] at hs
      exact hs.symm
  rw [hx]
  refine h.append [⟨pkt, n, o, source, m, a⟩] hb hw rfl ?_
  exact bind_ok.2 ⟨_, hnote, rfl⟩

theorem clearDownstreamPending (h : l.Matches) : l.clearDownstreamPending.1.Matches := by
  refine h.of_same rfl rfl ?_ rfl
  show recomputed l.blkSize (l.targets.map Target.clearPending) = _
  rw [recomputed, foldlM_map]
  rfl

end Matches

theorem add_blkSize {o : ℕ} {source : Source} {b a : Bool} {x : TargetList × List Signal}
    (h : l.add pkt n o source b a = .ok x) : x.1.blkSize = l.blkSize := by
  obtain ⟨l₁, hl₁, m, hx⟩ := add_cases h
  have hl₁ : l.addFlags ⟨pkt, n, o, source, m, a⟩ = .ok l₁ := hl₁
  rw [hx]
  exact (addFlags_same hl₁).2.1

def Summary.noUpgrade (s : Summary) : Summary := { s with hasUpgrade := false }

theorem writes_note_replace (n : ℕ) (first : Bool) (w : WriteState) (pkt : Packet) :
    w.note n first (replaceUpgrade pkt) = w.note n first pkt := by
  have hwr : (replaceUpgrade pkt).cmd.isWrite = pkt.cmd.isWrite :=
    pkt.cmd.replaceUpgrade_same.2.2.2.1
  cases w with
  | whole | closed => rfl
  | merging bitmap =>
    rw [WriteState.note, WriteState.note, hwr]
    rfl

theorem note_replace (n : ℕ) (first : Bool) (s : Summary) (t : Target) :
    s.noUpgrade.note n first { t with pkt := replaceUpgrade t.pkt }
      = (s.note n first t).map Summary.noUpgrade := by
  obtain ⟨hreq, hwr, hcache, -, hup⟩ := t.pkt.cmd.replaceUpgrade_same
  change (replaceUpgrade t.pkt).cmd.isRequest = _ at hreq
  change (replaceUpgrade t.pkt).cmd.needsWritable = _ at hwr
  change (replaceUpgrade t.pkt).cmd.fromCache = _ at hcache
  unfold Summary.note require
  by_cases hsn : t.source = .fromSnoop
  · rw [if_pos hsn, if_pos hsn]
    rfl
  · rw [if_neg hsn, if_neg hsn, hreq]
    by_cases hr : t.pkt.cmd.isRequest = true
    · obtain ⟨hu, hsc⟩ := hup hr
      change (replaceUpgrade t.pkt).cmd.isUpgrade = _ at hu
      change (replaceUpgrade t.pkt).cmd ≠ _ at hsc
      rw [if_pos hr]
      simp only [ok_bind, hwr, hcache, hu, hsc, writes_note_replace, decide_false, Bool.or_false]
      by_cases hpf : t.source = .fromPrefetcher
      · rw [if_pos hpf, if_pos hpf]
        rfl
      · rw [if_neg hpf, if_neg hpf]
        show s.writes.note n first t.pkt >>= _ = Except.map _ (s.writes.note n first t.pkt >>= _)
        cases s.writes.note n first t.pkt with
        | error e | ok w => rfl
    · rw [if_neg hr]
      rfl

theorem foldlM_replace (n : ℕ) (first : Bool) : ∀ (ts : List Target) (s : Summary),
    (ts.map fun t => { t with pkt := replaceUpgrade t.pkt }).foldlM (Summary.note n first)
        s.noUpgrade = (ts.foldlM (Summary.note n first) s).map Summary.noUpgrade
  | [], s => rfl
  | t :: ts, s => by
    rw [map_cons, foldlM_cons, foldlM_cons, note_replace]
    cases s.note n first t with
    | error e => rfl
    | ok s' => exact foldlM_replace n first ts s'

theorem Matches.replaceUpgrades (h : l.Matches) : l.replaceUpgrades.Matches := by
  unfold TargetList.replaceUpgrades
  split_ifs
  · refine ⟨h.size, ?_⟩
    show (l.targets.map fun t => { t with pkt := replaceUpgrade t.pkt }).foldlM
      (Summary.note l.blkSize false) (Summary.empty l.blkSize).noUpgrade = _
    rw [foldlM_replace]
    exact congrArg (Except.map Summary.noUpgrade) h.flags
  · exact h

theorem Matches.gains (h : l.Matches) (hb : k.blkSize = l.blkSize)
    (hw : k.writesBitmap.length = l.writesBitmap.length)
    (ht : k.targets = l.targets ++ ts.map Target.clearPending) (hg : l.Gains ts k.summary) :
    k.Matches := by
  obtain ⟨r, hr, hs⟩ := hg.exists
  have hfold := foldlM_summary ts { l with targets := l.targets ++ ts }
  rw [hr] at hfold
  refine h.append (ts.map Target.clearPending) hb hw ht ?_
  rw [foldlM_map, ← hs]
  cases hts : ts with
  | nil =>
    rw [hts] at hfold
    exact hfold.symm
  | cons t ts' =>
    have hne : (l.targets ++ ts).isEmpty = false := by simp [hts]
    rw [← hts]
    simp only [hne] at hfold
    exact hfold.symm

end TargetList

namespace Mshr

variable {x : Mshr × List Signal} {curTick order : ℕ}

open TargetList

variable {m m' : Mshr} {pkt : Packet}

theorem wholeSpecialWrite_replace (pkt : Packet) (n : ℕ) :
    (replaceUpgrade pkt).wholeSpecialWrite n = pkt.wholeSpecialWrite n := by
  have hwr : (replaceUpgrade pkt).cmd.isWrite = pkt.cmd.isWrite :=
    pkt.cmd.replaceUpgrade_same.2.2.2.1
  rw [Packet.wholeSpecialWrite, hwr]
  rfl

/-- The flags of both lists are those that the targets give. -/
structure FlagsKept (m : Mshr) : Prop where
  targets : m.targets.Matches
  deferred : m.deferredTargets.Matches
  size : m.deferredTargets.blkSize = m.blkSize

theorem FlagsKept.clearDownstreamPending (h : m.FlagsKept)
    (hx : m.clearDownstreamPending = .ok x) : x.1.FlagsKept := by
  obtain ⟨_, -, rfl⟩ := bind_pure_ok.1 hx
  exact ⟨h.targets.clearDownstreamPending, h.deferred, h.size⟩

theorem FlagsKept.markInService (h : m.FlagsKept) {a : Bool}
    (hx : m.markInService a = .ok x) : x.1.FlagsKept := by
  obtain ⟨_, -, rfl⟩ := bind_pure_ok.1 hx
  cases hd : m.downstreamPending with
  | true => exact ⟨h.targets, h.deferred, h.size⟩
  | false => exact ⟨h.targets.clearDownstreamPending, h.deferred, h.size⟩

theorem FlagsKept.allocateTarget (h : m.FlagsKept) {readyTime : ℕ} {a : Bool} (hpkt : m.AddsMergeable pkt)
    (hx : m.allocateTarget pkt readyTime order a = .ok x) : x.1.FlagsKept := by
  obtain ⟨_, -, hx⟩ := bind_ok.1 hx
  split at hx
  · cases hx
  · rename_i front rest hts
    split_ifs at hx with hd
    · obtain ⟨y, hy, rfl⟩ := bind_pure_ok.1 hx
      refine ⟨h.targets, h.deferred.add (fun _ he => ?_) hy, (add_blkSize hy).trans h.size⟩
      have hfirst := hpkt front (by rw [hts]; rfl) hd he
      rw [h.size, deferredPacket]
      split_ifs
      · rwa [wholeSpecialWrite_replace]
      · exact hfirst
    · obtain ⟨y, hy, rfl⟩ := bind_pure_ok.1 hx
      refine ⟨h.targets.add (fun _ he => ?_) hy, h.deferred, h.size⟩
      simp [hts] at he

theorem FlagsKept.snoopAfter (h : m.FlagsKept) {x : Snooped}
    (hx : m.snoopAfter curTick order pkt = .ok x) : x.mshr.FlagsKept := by
  obtain ⟨⟨pkt', l, sig⟩, hl, hx⟩ := bind_ok.1 hx
  cases hx
  unfold keepSnoop at hl
  split_ifs at hl
  · obtain ⟨_, -, hl⟩ := bind_ok.1 hl
    obtain ⟨r, hr, hl⟩ := bind_ok.1 hl
    cases hl
    exact ⟨h.targets.add (fun hs => by cases hs) hr, h.deferred, h.size⟩
  · cases hl
    exact ⟨h.targets, h.deferred, h.size⟩

theorem replaceUpgrades_blkSize (l : TargetList) : l.replaceUpgrades.blkSize = l.blkSize := by
  unfold TargetList.replaceUpgrades
  split_ifs <;> rfl

theorem FlagsKept.loseCopies (h : m.FlagsKept) : (m.loseCopies pkt).FlagsKept := by
  unfold Mshr.loseCopies
  split_ifs
  · exact ⟨h.targets.replaceUpgrades, h.deferred.replaceUpgrades,
      (replaceUpgrades_blkSize _).trans h.size⟩
  · exact h

theorem FlagsKept.loseDeferredCopies (h : m.FlagsKept) : (m.loseDeferredCopies pkt).FlagsKept := by
  unfold Mshr.loseDeferredCopies
  split_ifs
  · exact ⟨h.targets, h.deferred.replaceUpgrades, (replaceUpgrades_blkSize _).trans h.size⟩
  · exact h

theorem FlagsKept.handleSnoop (h : m.FlagsKept) {x : Snooped}
    (hx : m.handleSnoop curTick order pkt = .ok x) : x.mshr.FlagsKept := by
  obtain ⟨_, -, hx⟩ := bind_ok.1 hx
  obtain ⟨_, -, hx⟩ := bind_ok.1 hx
  split_ifs at hx
  · cases hx
    exact h.loseCopies
  · unfold snoopInService at hx
    split at hx
    · cases hx
    · split_ifs at hx
      · cases hx
        exact h.loseDeferredCopies
      · exact h.loseDeferredCopies.snoopAfter hx

theorem FlagsKept.extract (h : m.FlagsKept) {cmd : MemCmd} {x : TargetList × Mshr}
    (hx : m.extractServiceableTargets cmd = .ok x) : x.1.Matches ∧ x.2.FlagsKept := by
  unfold extractServiceableTargets at hx
  split_ifs at hx
  · split at hx
    · cases hx
    · simp only [bind_ok] at hx
      obtain ⟨_, -, _, -, ready, hready, l, hl, hx⟩ := hx
      cases hx
      exact ⟨(matches_populateFlags hready length_replicate).1,
        (matches_populateFlags hl h.targets.size).1, h.deferred, h.size⟩
  · obtain ⟨l, hl, rfl⟩ := bind_pure_ok.1 hx
    exact ⟨h.targets, (matches_populateFlags hl length_replicate).1, h.deferred, h.size⟩

theorem FlagsKept.promoteDeferredTargets (h : m.FlagsKept) {x : Bool × Mshr}
    (hx : m.promoteDeferredTargets curTick = .ok x) : x.2.FlagsKept := by
  unfold Mshr.promoteDeferredTargets at hx
  split_ifs at hx
  · cases hx
    exact h
  · obtain ⟨d, hd, hx⟩ := bind_ok.1 hx
    obtain ⟨l, hl, hx⟩ := bind_ok.1 hx
    obtain ⟨hdm, hdb⟩ := matches_populateFlags hd h.deferred.size
    split at hx
    · cases hx
    · cases hx
      exact ⟨(matches_populateFlags hl h.targets.size).1, hdm, hdb.trans h.size⟩

theorem splitFront_fst {pred : Target → Bool} :
    ∀ {ts : List Target} {x : List Target × List Target},
    splitFront pred ts = .ok x → x.1 = ts.takeWhile pred
  | [], x, h => by
    cases h
    rfl
  | t :: ts, x, h => by
    obtain ⟨_, -, h⟩ := bind_ok.1 h
    split_ifs at h with hp
    · obtain ⟨y, hy, rfl⟩ := bind_pure_ok.1 h
      rw [takeWhile_cons, if_pos hp]
      exact congrArg (t :: ·) (splitFront_fst hy)
    · cases h
      rw [takeWhile_cons, if_neg hp]

theorem FlagsKept.promoteIf (h : m.FlagsKept) {b : Bool} {pred : Target → Bool}
    (hg : m.targets.Gains (m.deferredTargets.targets.takeWhile pred)
      { m.targets.summary with needsWritable := b })
    (hx : Mshr.promoteIf { m with targets := { m.targets with needsWritable := b } } pred = .ok x) :
    x.1.FlagsKept := by
  obtain ⟨_, -, hx⟩ := bind_ok.1 hx
  obtain ⟨⟨front, back⟩, hsplit, hx⟩ := bind_ok.1 hx
  obtain ⟨d, hd, rfl⟩ := bind_pure_ok.1 hx
  obtain ⟨hdm, hdb⟩ := matches_populateFlags hd h.deferred.size
  rw [← splitFront_fst hsplit] at hg
  exact ⟨h.targets.gains rfl rfl rfl hg, hdm, hdb.trans h.size⟩

theorem FlagsKept.promoteReadable (h : m.FlagsKept)
    (hg : m.targets.Gains m.readableFront m.targets.summary) (hx : m.promoteReadable = .ok x) :
    x.1.FlagsKept := by
  unfold Mshr.promoteReadable at hx
  split_ifs at hx
  · cases hx
    exact h
  · obtain ⟨b, hb, hx⟩ := bind_ok.1 hx
    obtain ⟨_, -, rfl⟩ := bind_pure_ok.1 hb
    split_ifs at hx with hpost
    · cases hx
      exact h
    · rw [readableFront, if_neg hpost] at hg
      exact h.promoteIf hg hx

theorem FlagsKept.promoteWritable (h : m.FlagsKept)
    (hg : m.writableFront = [] ∨ m.targets.Gains m.writableFront
      { m.targets.summary with needsWritable := true })
    (hx : m.promoteWritable = .ok x) : x.1.FlagsKept := by
  unfold Mshr.promoteWritable at hx
  split_ifs at hx with hn
  · cases hx
    exact h
  · obtain ⟨b, hb, hx⟩ := bind_ok.1 hx
    obtain ⟨_, -, rfl⟩ := bind_pure_ok.1 hb
    obtain ⟨c, hc, hx⟩ := bind_ok.1 hx
    obtain ⟨_, -, rfl⟩ := bind_pure_ok.1 hc
    split_ifs at hx with hpost
    · cases hx
      exact h
    · split at hx
      · cases hx
      · rename_i front rest hts
        split_ifs at hx with hinv
        · cases hx
          exact h
        · obtain ⟨_, -, hx⟩ := bind_ok.1 hx
          have hfront : m.writableFront
              = m.deferredTargets.targets.takeWhile fun t => !t.pkt.req.flags.invalidate := by
            simp only [Bool.not_eq_true, Bool.not_eq_false', Bool.or_eq_true, not_or] at hn hpost
            simp [writableFront, hn, hpost]
          have hne : m.writableFront ≠ [] := by
            rw [hfront, hts, takeWhile_cons, if_pos (by simpa using hinv)]
            simp
          exact h.promoteIf (hfront ▸ hg.resolve_left hne) hx

end Mshr

namespace MshrUse

open TargetList

variable {s s' : MshrUse} {op : Op}

theorem step_flags (hs : s.mshr.FlagsKept) (ho : s.Refreshed op) (h : s.step op = .ok s') :
    s'.mshr.FlagsKept := by
  cases op with
  | allocateTarget pkt readyTime allocOnFill =>
    obtain ⟨x, hx, rfl⟩ := bind_pure_ok.1 h
    exact hs.allocateTarget ho hx
  | handleSnoop pkt =>
    obtain ⟨x, hx, rfl⟩ := bind_pure_ok.1 h
    exact hs.handleSnoop hx
  | setForward isForward =>
    cases h
    exact ⟨hs.targets, hs.deferred, hs.size⟩
  | markInService pendingModifiedResp =>
    obtain ⟨x, hx, rfl⟩ := bind_pure_ok.1 h
    exact hs.markInService hx
  | markPending =>
    obtain ⟨x, hx, h⟩ := bind_ok.1 h
    obtain ⟨_, -, rfl⟩ := bind_pure_ok.1 hx
    cases h
    exact ⟨hs.targets, hs.deferred, hs.size⟩
  | extractServiceableTargets cmd =>
    obtain ⟨x, hx, rfl⟩ := bind_pure_ok.1 h
    exact (hs.extract hx).2
  | promoteDeferredTargets =>
    obtain ⟨x, hx, rfl⟩ := bind_pure_ok.1 h
    exact hs.promoteDeferredTargets hx
  | promoteReadable =>
    obtain ⟨x, hx, rfl⟩ := bind_pure_ok.1 h
    exact hs.promoteReadable ho hx
  | promoteWritable =>
    obtain ⟨x, hx, rfl⟩ := bind_pure_ok.1 h
    exact hs.promoteWritable ho hx
  | setDownstreamPending =>
    obtain ⟨_, -, rfl⟩ := bind_pure_ok.1 h
    exact ⟨hs.targets, hs.deferred, hs.size⟩
  | clearDownstreamPending =>
    obtain ⟨x, hx, rfl⟩ := bind_pure_ok.1 h
    exact hs.clearDownstreamPending hx
  | advance ticks =>
    cases h
    exact hs

section Run

variable {blkAddr blkSize readyTime order curTick : ℕ} {target : Packet} {a : Bool}
  {s₀ : MshrUse} {ops : List Op}

theorem start_flags (hpkt : target.wholeSpecialWrite blkSize = false)
    (h : start blkAddr blkSize target readyTime order curTick a = .ok s) : s.mshr.FlagsKept := by
  obtain ⟨x, hx, h⟩ := bind_ok.1 h
  obtain ⟨y, hy, rfl⟩ := bind_pure_ok.1 hx
  cases h
  exact ⟨(Matches.init blkSize).add (fun _ _ => hpkt) hy, Matches.init blkSize, rfl⟩

/-- In every run of a register that is not allocated for a write of the whole block that is not
merged, and whose operations neither defer such a write as the first target nor move targets whose
flags the list that is served does not have, the flags of both lists are those that their targets
give, and so are those of the targets extracted. -/
theorem flags_recomputed (hpkt : target.wholeSpecialWrite blkSize = false)
    (hstart : start blkAddr blkSize target readyTime order curTick a = .ok s₀)
    (hadm : Admits step Refreshed s₀ ops) (hrun : run step s₀ ops = .ok s) :
    s.mshr.targets.FlagsMatch ∧ s.mshr.deferredTargets.FlagsMatch
      ∧ ∀ cmd x, s.mshr.extractServiceableTargets cmd = .ok x → x.1.FlagsMatch := by
  have hs : s.mshr.FlagsKept :=
    Admits.inv (I := fun s => s.mshr.FlagsKept) (fun _ _ _ hs ho h => step_flags hs ho h) hadm
      (start_flags hpkt hstart) hrun
  refine ⟨hs.targets.flagsMatch, hs.deferred.flagsMatch, fun cmd x hx => ?_⟩
  exact (hs.extract hx).1.flagsMatch

end Run

/-- A write waits behind a read that does not make the block writable and is served after it. -/
def servedOps : List Op :=
  [.markInService false, .allocateTarget (packet .writeReq) 5 true, .handleSnoop (packet .readReq),
    .extractServiceableTargets .readResp, .promoteDeferredTargets]

theorem servedOps_refreshed : Ends (start 4096 64 (packet .readReq) 0 7 0 true) fun s₀ =>
    Admits step Refreshed s₀ servedOps ∧ Ends (run step s₀ servedOps) fun s =>
      s.mshr.targets.needsWritable = true := by
  decide +kernel

theorem flags_recomputed_servedOps : ∃ s₀ s,
    start 4096 64 (packet .readReq) 0 7 0 true = .ok s₀ ∧ run step s₀ servedOps = .ok s
    ∧ s.mshr.targets.needsWritable = true ∧ s.mshr.targets.FlagsMatch := by
  obtain ⟨s₀, h₀, hadm, hend⟩ := servedOps_refreshed.exists
  obtain ⟨s, h, hw⟩ := hend.exists
  exact ⟨s₀, s, h₀, h, hw, (flags_recomputed (by decide) h₀ hadm h).1⟩

def flaggedPacket (flags : RequestFlags) (cmd : MemCmd) : Packet :=
  .ofRequest ⟨4096, 64, flags, 1, 0, 0, 0⟩ cmd

/-- A read of a cache waits behind a clean request, and is moved ahead when the block is there. -/
def promotedOps : List Op :=
  [.allocateTarget (packet .readSharedReq) 5 true, .markInService false, .promoteReadable]

/-- A write of a whole line that is not merged counts as one when it is added and not when the flags
are computed anew, and a read that is moved ahead leaves the flags as they were. -/
theorem flags_differ :
    (Ends (start 4096 64 (flaggedPacket { secure := true } .writeLineReq) 0 7 0 true) fun s =>
      s.mshr.targets.isWholeLineWrite = true ∧ Ends s.mshr.targets.populateFlags fun l =>
        l.isWholeLineWrite = false)
    ∧ Ends (start 4096 64 (flaggedPacket { clean := true } .cleanSharedReq) 0 7 0 false) fun s₀ =>
      Ends (run step s₀ promotedOps) fun s => s.mshr.targets.allocOnFill = false
        ∧ Ends s.mshr.targets.populateFlags fun l => l.allocOnFill = true := by
  decide +kernel

end MshrUse

end Gem5
