import Gem5.Mshr

/-!
# Targets of a miss register

Promotions and extractions only move targets. A snoop goes to the end of the list that is served,
ahead of deferred targets, and a response that takes the block away serves snoops first, so the order
is kept for each of the two sides by itself. The flags of the deferred list show whether it is empty
(`Deferred.seen`).
-/

namespace Gem5

open Machine List

theorem MemCmd.needsWritable_of_isUpgrade (c : MemCmd) : c.isRequest = true →
    c.isUpgrade = true ∨ c = .storeCondReq → c.needsWritable = true := by
  cases c <;> decide

theorem MemCmd.needsWritable_of_isWrite (c : MemCmd) : c.isRequest = true → c.isWrite = true →
    c.needsWritable = true ∨ c.fromCache = true := by
  cases c <;> decide

namespace TargetList

variable {l l' : TargetList} {pkt : Packet} {source : Source} {a b : Bool} {n o : ℕ}
  {t : TargetList × List Signal}

/-- The flags of upgrades and whole-line writes come with another one. -/
structure Flagged (l : TargetList) : Prop where
  bitmap : 0 < l.writesBitmap.length
  upgrade : l.hasUpgrade = true → l.needsWritable = true
  whole : l.isWholeLineWrite = true → l.needsWritable = true ∨ l.hasFromCache = true

def Seen (l : TargetList) : Prop :=
  l.needsWritable = true ∨ l.hasFromCache = true ∨ l.canMergeWrites = false

theorem Seen.not_isReset (h : l.Seen) : l.isReset = false := by
  rcases h with h | h | h <;> simp [isReset, h]

theorem isWholeLineWrite_replicate (hn : 0 < n) : (List.replicate n false).all id = false := by
  obtain ⟨k, rfl⟩ : ∃ k, n = k + 1 := ⟨n - 1, by omega⟩
  rfl

theorem flagged_init (hn : 0 < n) : (init n).Flagged where
  bitmap := by
    rwa [init, length_replicate]
  upgrade h := by cases h
  whole h := by
    simp [isWholeLineWrite, init, isWholeLineWrite_replicate hn] at h

theorem flagged_resetFlags (hl : 0 < l.writesBitmap.length) : l.resetFlags.Flagged where
  bitmap := by
    rwa [resetFlags, length_replicate]
  upgrade h := by cases h
  whole h := by
    simp [isWholeLineWrite, resetFlags, isWholeLineWrite_replicate hl] at h

theorem writeBitmap_length {w : List Bool} (h : l.writeBitmap pkt = .ok w) :
    w.length = l.writesBitmap.length := by
  unfold writeBitmap at h
  split_ifs at h
  · obtain ⟨_, -, h⟩ := bind_ok.1 h
    rw [← Except.ok.inj h, length_mapIdx]
  · cases h
    rfl

theorem updateWriteFlags_cases (h : l.updateWriteFlags pkt = .ok l') :
    (l' = l ∧ (l.isWholeLineWrite = true ∨ l.canMergeWrites = false))
    ∨ l' = { l with canMergeWrites := false }
    ∨ pkt.cmd.isWrite = true ∧ ∃ m w, w.length = l.writesBitmap.length
      ∧ l' = { l with writesBitmap := w, canMergeWrites := m } := by
  unfold updateWriteFlags at h
  split_ifs at h with hw hm hpkt
  · exact .inl ⟨(Except.ok.inj h).symm, .inl hw⟩
  · exact .inl ⟨(Except.ok.inj h).symm, .inr (by simpa using hm)⟩
  · exact .inr (.inl (Except.ok.inj h).symm)
  · obtain ⟨w, hw', h⟩ := bind_ok.1 h
    exact .inr (.inr ⟨by simpa using hpkt, _, w, writeBitmap_length hw', (Except.ok.inj h).symm⟩)

theorem updateWriteFlags_flagged (h : l.updateWriteFlags pkt = .ok l') (hl : l.Flagged)
    (hreq : pkt.cmd.isRequest = true) (hwr : pkt.cmd.needsWritable = true → l.needsWritable = true)
    (hcache : pkt.cmd.fromCache = true → l.hasFromCache = true) : l'.Flagged ∧ l'.Seen := by
  rcases updateWriteFlags_cases h with ⟨rfl, hwhole | hmerge⟩ | rfl | ⟨hwrite, m, w, hw, rfl⟩
  · exact ⟨hl, (hl.whole hwhole).elim .inl fun h => .inr (.inl h)⟩
  · exact ⟨hl, .inr (.inr hmerge)⟩
  · exact ⟨⟨hl.bitmap, hl.upgrade, hl.whole⟩, .inr (.inr rfl)⟩
  · have hflag : l.needsWritable = true ∨ l.hasFromCache = true :=
      (pkt.cmd.needsWritable_of_isWrite hreq hwrite).imp hwr hcache
    refine ⟨⟨?_, hl.upgrade, fun _ => hflag⟩, hflag.elim .inl fun h => .inr (.inl h)⟩
    show 0 < w.length
    rw [hw]
    exact hl.bitmap

theorem updateFlags_targets (h : l.updateFlags pkt source a = .ok l') : l'.targets = l.targets := by
  unfold updateFlags at h
  split_ifs at h with hs hp
  · cases h
    rfl
  · obtain ⟨_, -, rfl⟩ := bind_pure_ok.1 h
    rfl
  · obtain ⟨_, -, h⟩ := bind_ok.1 h
    rcases updateWriteFlags_cases h with ⟨rfl, -⟩ | rfl | ⟨-, m, w, -, rfl⟩ <;> rfl

theorem Flagged.updateFlags (hl : l.Flagged) (h : l.updateFlags pkt .fromCPU a = .ok l') :
    l'.Flagged ∧ l'.Seen := by
  unfold TargetList.updateFlags at h
  rw [if_neg (by decide), if_neg (by decide)] at h
  obtain ⟨_, hreq, h⟩ := bind_ok.1 h
  rw [require_ok] at hreq
  refine updateWriteFlags_flagged h ⟨hl.bitmap, ?_, ?_⟩ hreq ?_ ?_
  · intro hup
    simp only [noteRequest, Bool.or_eq_true, decide_eq_true_eq] at hup ⊢
    rcases hup with (hup | hup) | hup
    · exact .inl (hl.upgrade hup)
    · exact .inr (pkt.cmd.needsWritable_of_isUpgrade hreq (.inl hup))
    · exact .inr (pkt.cmd.needsWritable_of_isUpgrade hreq (.inr hup))
  · intro hwhole
    simp only [noteRequest, Bool.or_eq_true]
    exact (hl.whole hwhole).imp .inl .inl
  · intro h
    simp only [noteRequest, h, Bool.or_true]
  · intro h
    simp only [h, Bool.or_true]

theorem add_cases (h : l.add pkt n o source b a = .ok t) :
    ∃ l₁, l.updateFlags pkt source a = .ok l₁
      ∧ ∃ m, t.1 = { l₁ with targets := l.targets ++ [⟨pkt, n, o, source, m, a⟩] } := by
  obtain ⟨l₁, hl₁, rfl⟩ := bind_pure_ok.1 h
  rw [← updateFlags_targets hl₁]
  exact ⟨l₁, hl₁, _, rfl⟩

theorem add_tags (h : l.add pkt n o source b a = .ok t) :
    t.1.targets.map Target.tag = l.targets.map Target.tag ++ [(o, source)] := by
  obtain ⟨l₁, -, m, ht⟩ := add_cases h
  rw [ht, map_append]
  rfl

theorem populateFlags_targets (h : l.populateFlags = .ok l') : l'.targets = l.targets := by
  have key : ∀ (ts : List Target) {k k' : TargetList},
      ts.foldlM addFlags k = .ok k' →
      k'.targets = k.targets := by
    intro ts
    induction ts with
    | nil =>
      intro k k' h
      cases h
      rfl
    | cons t ts ih =>
      intro k k' h
      obtain ⟨k₁, h₁, h⟩ := bind_ok.1 h
      rw [ih h, updateFlags_targets h₁]
  exact (key l.targets h).trans rfl

/-- The deferred targets come from the processor side, and if there are any a flag is set. -/
structure Deferred (l : TargetList) : Prop where
  cpu : ∀ t ∈ l.targets, t.source = .fromCPU
  flagged : l.Flagged
  seen : l.targets ≠ [] → l.Seen

theorem deferred_init (hn : 0 < n) : (init n).Deferred :=
  ⟨fun _ ht => (by cases ht), flagged_init hn, fun h => absurd rfl h⟩

theorem Deferred.add (hl : l.Deferred)
    (h : l.add pkt n o .fromCPU b a = .ok t) : t.1.Deferred := by
  obtain ⟨l₁, hl₁, m, ht⟩ := add_cases h
  obtain ⟨hflag, hseen⟩ := hl.flagged.updateFlags hl₁
  rw [ht]
  refine ⟨fun x hx => ?_, ⟨hflag.bitmap, hflag.upgrade, hflag.whole⟩, fun _ => hseen⟩
  rcases mem_append.1 hx with hx | hx
  · exact hl.cpu x hx
  · rw [mem_singleton.1 hx]

theorem Deferred.replaceUpgrades (hl : l.Deferred) : l.replaceUpgrades.Deferred := by
  unfold TargetList.replaceUpgrades
  split_ifs with hup
  · refine ⟨fun x hx => ?_, ⟨hl.flagged.bitmap, fun h => (by cases h), hl.flagged.whole⟩, fun hne => ?_⟩
    · obtain ⟨t, ht, rfl⟩ := mem_map.1 hx
      exact hl.cpu t ht
    · exact .inl (hl.flagged.upgrade hup)
  · exact hl

theorem deferred_populateFlags (h : l.populateFlags = .ok l')
    (hcpu : ∀ t ∈ l.targets, t.source = .fromCPU) (hl : 0 < l.writesBitmap.length) :
    l'.Deferred := by
  have key : ∀ (ts : List Target) {k k' : TargetList}, (∀ t ∈ ts, t.source = .fromCPU) → k.Flagged →
      ts.foldlM addFlags k = .ok k' →
      k'.Flagged ∧ (ts ≠ [] ∨ k.Seen → k'.Seen) := by
    intro ts
    induction ts with
    | nil =>
      intro k k' _ hk h
      cases h
      exact ⟨hk, fun h => h.resolve_left fun hne => hne rfl⟩
    | cons t ts ih =>
      intro k k' hts hk h
      obtain ⟨k₁, h₁, h⟩ := bind_ok.1 h
      rw [addFlags, hts t mem_cons_self] at h₁
      obtain ⟨hk₁, hseen⟩ := hk.updateFlags h₁
      obtain ⟨hk', hs⟩ := ih (fun x hx => hts x (mem_cons_of_mem _ hx)) hk₁ h
      exact ⟨hk', fun _ => hs (.inr hseen)⟩
  obtain ⟨hflag, hseen⟩ := key _ hcpu (flagged_resetFlags hl) h
  have ht := populateFlags_targets h
  exact ⟨ht ▸ hcpu, hflag, fun hne => hseen (.inl (ht ▸ hne))⟩

@[simp] theorem replaceUpgrades_tags :
    l.replaceUpgrades.targets.map Target.tag = l.targets.map Target.tag := by
  unfold replaceUpgrades
  split_ifs
  · rw [map_map]
    rfl
  · rfl

end TargetList

@[simp] theorem map_tag_clearPending (ts : List Target) :
    (ts.map Target.clearPending).map Target.tag = ts.map Target.tag := by
  rw [map_map]
  rfl

namespace Mshr

variable {m m' : Mshr} {pkt : Packet} {cmd : MemCmd} {r o t : ℕ} {a : Bool} {sig : List Signal}

def served (m : Mshr) : List (ℕ × Source) := m.targets.targets.map Target.tag

def later (m : Mshr) : List (ℕ × Source) := m.deferredTargets.targets.map Target.tag

/-- Both lists hold the same targets as before, and the flags of the deferred list are still right. -/
structure SameTargets (m m' : Mshr) : Prop where
  served : m'.served = m.served
  later : m'.later = m.later
  deferred : m.deferredTargets.Deferred → m'.deferredTargets.Deferred

theorem clearDownstreamPending_same {x : Mshr × List Signal}
    (h : m.clearDownstreamPending = .ok x) : SameTargets m x.1 := by
  obtain ⟨_, -, rfl⟩ := bind_pure_ok.1 h
  exact ⟨map_tag_clearPending _, rfl, id⟩

theorem markInService_same {x : Mshr × List Signal} (h : m.markInService a = .ok x) :
    SameTargets m x.1 := by
  obtain ⟨_, -, rfl⟩ := bind_pure_ok.1 h
  refine ⟨?_, rfl, id⟩
  show List.map Target.tag (if m.downstreamPending = true then _ else _ : TargetList × _).1.targets = _
  split_ifs
  · rfl
  · exact map_tag_clearPending _

theorem markPending_same (h : m.markPending = .ok m') : SameTargets m m' := by
  obtain ⟨_, -, rfl⟩ := bind_pure_ok.1 h
  exact ⟨rfl, rfl, id⟩

theorem allocateTarget_adds {x : Mshr × List Signal} (hd : m.deferredTargets.Deferred)
    (h : m.allocateTarget pkt r o a = .ok x) : x.1.deferredTargets.Deferred
    ∧ x.1.served ++ x.1.later = m.served ++ m.later ++ [(o, .fromCPU)] := by
  obtain ⟨_, -, h⟩ := bind_ok.1 h
  split at h
  · cases h
  · rename_i front rest htargets
    split_ifs at h with hdefer
    · obtain ⟨⟨l, s⟩, hl, h⟩ := bind_ok.1 h
      cases h
      refine ⟨hd.add hl, ?_⟩
      show m.served ++ l.targets.map Target.tag = _
      rw [TargetList.add_tags hl, ← append_assoc]
      rfl
    · obtain ⟨⟨l, s⟩, hl, h⟩ := bind_ok.1 h
      cases h
      refine ⟨hd, ?_⟩
      have hnil : m.later = [] := by
        simp only [defers, Bool.or_eq_true, not_or, Bool.not_eq_true, Bool.not_eq_false',
          List.isEmpty_iff] at hdefer
        rw [later, hdefer.1.2]
        rfl
      show l.targets.map Target.tag ++ m.later = _
      rw [TargetList.add_tags hl, hnil, List.append_nil, List.append_nil]
      rfl

theorem snoopAfter_adds {x : Snooped} (h : m.snoopAfter t o pkt = .ok x) :
    x.mshr.deferredTargets = m.deferredTargets
    ∧ x.mshr.served = m.served ++ if x.added then [(o, .fromSnoop)] else [] := by
  obtain ⟨⟨pkt', l, sig⟩, hl, h⟩ := bind_ok.1 h
  cases h
  refine ⟨rfl, ?_⟩
  show l.targets.map Target.tag = m.served ++ if m.keeps pkt = true then _ else _
  unfold keepSnoop at hl
  split_ifs at hl ⊢ with hkept
  · obtain ⟨_, -, hl⟩ := bind_ok.1 hl
    obtain ⟨r, hr, hl⟩ := bind_ok.1 hl
    cases hl
    exact TargetList.add_tags hr
  · cases hl
    exact (List.append_nil _).symm

theorem snoopInService_adds {x : Snooped} (h : m.snoopInService t o pkt = .ok x) :
    x.mshr.deferredTargets = m.deferredTargets
    ∧ x.mshr.served = m.served ++ if x.added then [(o, .fromSnoop)] else [] := by
  unfold snoopInService at h
  split at h
  · cases h
  · split_ifs at h
    · cases h
      exact ⟨rfl, (List.append_nil _).symm⟩
    · exact snoopAfter_adds h

theorem loseCopies_same : SameTargets m (m.loseCopies pkt) := by
  unfold loseCopies
  split_ifs
  · exact ⟨TargetList.replaceUpgrades_tags, TargetList.replaceUpgrades_tags,
      TargetList.Deferred.replaceUpgrades⟩
  · exact ⟨rfl, rfl, id⟩

theorem loseDeferredCopies_same : SameTargets m (m.loseDeferredCopies pkt) := by
  unfold loseDeferredCopies
  split_ifs
  · exact ⟨rfl, TargetList.replaceUpgrades_tags, TargetList.Deferred.replaceUpgrades⟩
  · exact ⟨rfl, rfl, id⟩

theorem handleSnoop_adds {x : Snooped} (hd : m.deferredTargets.Deferred)
    (h : m.handleSnoop t o pkt = .ok x) : x.mshr.deferredTargets.Deferred
    ∧ x.mshr.later = m.later
    ∧ x.mshr.served = m.served ++ if x.added then [(o, .fromSnoop)] else [] := by
  obtain ⟨_, -, h⟩ := bind_ok.1 h
  obtain ⟨_, -, h⟩ := bind_ok.1 h
  split_ifs at h
  · cases h
    have hsame : SameTargets m (m.loseCopies pkt) := loseCopies_same
    exact ⟨hsame.deferred hd, hsame.later, hsame.served.trans (List.append_nil _).symm⟩
  · have hsame : SameTargets m (m.loseDeferredCopies pkt) := loseDeferredCopies_same
    obtain ⟨hdef, hserved⟩ := snoopInService_adds h
    rw [hsame.served] at hserved
    refine ⟨hdef ▸ hsame.deferred hd, ?_, hserved⟩
    rw [later, hdef]
    exact hsame.later

theorem ofSide_append (snoop : Bool) (l l' : List (ℕ × Source)) :
    ofSide snoop (l ++ l') = ofSide snoop l ++ ofSide snoop l' := filter_append ..

theorem ofSide_map (snoop : Bool) (ts : List Target) : ofSide snoop (ts.map Target.tag)
    = (ts.filter fun t => decide (t.source = .fromSnoop) == snoop).map Target.tag :=
  filter_map

theorem ofSide_split {ts : List Target} (h : ∀ t ∈ ts, t.source = .fromCPU ∨ t.source = .fromSnoop)
    (snoop : Bool) :
    ofSide snoop ((ts.filter fun t => t.source ≠ .fromCPU).map Target.tag)
      ++ ofSide snoop ((ts.filter fun t => t.source = .fromCPU).map Target.tag)
      = ofSide snoop (ts.map Target.tag) := by
  simp only [ofSide_map, filter_filter, ← map_append]
  cases snoop with
  | false =>
    rw [filter_eq_nil_iff.2 (fun t ht => ?_), nil_append,
      filter_congr fun t ht => ?_]
    · rcases h t ht with h | h <;> simp [h]
    · rcases h t ht with h | h <;> simp [h]
  | true =>
    rw [filter_eq_nil_iff (p := fun t : Target => _ && decide (t.source = .fromCPU)).2
      (fun t ht => ?_), List.append_nil, filter_congr fun t ht => ?_]
    · rcases h t ht with h | h <;> simp [h]
    · rcases h t ht with h | h <;> simp [h]

theorem extractServiceableTargets_splits {x : TargetList × Mshr}
    (h : m.extractServiceableTargets cmd = .ok x) :
    x.2.deferredTargets = m.deferredTargets ∧ ∀ snoop,
      ofSide snoop (x.1.targets.map Target.tag ++ x.2.served) = ofSide snoop m.served := by
  unfold extractServiceableTargets at h
  split_ifs at h
  · split at h
    · cases h
    · rename_i front rest htargets
      simp only [bind_ok] at h
      obtain ⟨_, hfront, _, hrest, ready, hready, l, hl, h⟩ := h
      cases h
      rw [require_ok] at hrest
      refine ⟨rfl, fun snoop => ?_⟩
      rw [TargetList.populateFlags_targets hready, served, TargetList.populateFlags_targets hl,
        Mshr.served, htargets, map_cons, map_cons, ← singleton_append,
        ← singleton_append (l := rest.map _), append_assoc, ofSide_append, ofSide_append,
        ofSide_append, ofSide_split hrest]
  · obtain ⟨l, hl, rfl⟩ := bind_pure_ok.1 h
    refine ⟨rfl, fun snoop => ?_⟩
    rw [served, TargetList.populateFlags_targets hl]
    exact congrArg _ (List.append_nil _)

theorem splitFront_append {pred : Target → Bool} : ∀ {ts : List Target} {x : List Target × List Target},
    splitFront pred ts = .ok x → x.1 ++ x.2 = ts
  | [], x, h => by
    cases h
    rfl
  | t :: ts, x, h => by
    obtain ⟨_, -, h⟩ := bind_ok.1 h
    split_ifs at h
    · obtain ⟨y, hy, rfl⟩ := bind_pure_ok.1 h
      exact congrArg (t :: ·) (splitFront_append hy)
    · cases h
      rfl

/-- A promotion moves deferred targets to the end of those that are served next. -/
structure Promotes (m m' : Mshr) : Prop where
  deferred : m'.deferredTargets.Deferred
  waiting : m'.served ++ m'.later = m.served ++ m.later

theorem promotes_refl (hd : m.deferredTargets.Deferred) : Promotes m m := ⟨hd, rfl⟩

theorem promoteIf_promotes {pred : Target → Bool} {x : Mshr × List Signal}
    (h : m.promoteIf pred = .ok x) (hd : m.deferredTargets.Deferred) : Promotes m x.1 := by
  obtain ⟨_, -, h⟩ := bind_ok.1 h
  obtain ⟨⟨front, back⟩, hsplit, h⟩ := bind_ok.1 h
  obtain ⟨l, hl, rfl⟩ := bind_pure_ok.1 h
  have happ := splitFront_append hsplit
  refine ⟨TargetList.deferred_populateFlags hl (fun t ht => hd.cpu t ?_) hd.flagged.bitmap, ?_⟩
  · rw [← happ]
    exact mem_append_right front ht
  · rw [served, later, TargetList.populateFlags_targets hl]
    show List.map Target.tag (m.targets.targets ++ front.map Target.clearPending) ++ back.map Target.tag
      = m.served ++ m.deferredTargets.targets.map Target.tag
    rw [← happ, map_append, map_append, map_tag_clearPending, append_assoc]
    rfl

theorem promoteReadable_promotes {x : Mshr × List Signal} (hd : m.deferredTargets.Deferred)
    (h : m.promoteReadable = .ok x) : Promotes m x.1 := by
  unfold promoteReadable at h
  split_ifs at h
  · cases h
    exact promotes_refl hd
  · obtain ⟨b, -, h⟩ := bind_ok.1 h
    split_ifs at h
    · cases h
      exact promotes_refl hd
    · exact promoteIf_promotes h hd

theorem promoteWritable_promotes {x : Mshr × List Signal} (hd : m.deferredTargets.Deferred)
    (h : m.promoteWritable = .ok x) : Promotes m x.1 := by
  unfold promoteWritable at h
  split_ifs at h
  · cases h
    exact promotes_refl hd
  · obtain ⟨b, -, h⟩ := bind_ok.1 h
    obtain ⟨c, -, h⟩ := bind_ok.1 h
    split_ifs at h
    · cases h
      exact promotes_refl hd
    · split at h
      · cases h
      · split_ifs at h
        · cases h
          exact promotes_refl hd
        · obtain ⟨_, -, h⟩ := bind_ok.1 h
          obtain ⟨hdef, hwait⟩ := promoteIf_promotes h hd
          exact ⟨hdef, hwait⟩

theorem promoted_append : m.promoted ++ m.deferredTargets.targets.drop m.promoted.length
    = m.deferredTargets.targets := by
  have hpre : m.promoted <+: m.deferredTargets.targets := by
    unfold promoted
    split
    · exact nil_prefix
    · rename_i t ts hts
      rw [hts]
      split_ifs
      · exact ⟨ts, rfl⟩
      · exact nil_prefix
      · exact cons_prefix_cons.2 ⟨rfl, takeWhile_prefix _⟩
  obtain ⟨rest, hrest⟩ := hpre
  rw [← hrest, drop_left]

theorem promoteDeferredTargets_promotes {x : Bool × Mshr} (hd : m.deferredTargets.Deferred)
    (h : m.promoteDeferredTargets t = .ok x) : Promotes m x.2 := by
  unfold promoteDeferredTargets at h
  split_ifs at h
  · cases h
    exact promotes_refl hd
  · obtain ⟨d, hdef, h⟩ := bind_ok.1 h
    obtain ⟨l, hl, h⟩ := bind_ok.1 h
    split at h
    · cases h
    · cases h
      refine ⟨TargetList.deferred_populateFlags hdef (fun t ht => hd.cpu t (mem_of_mem_drop ht))
        hd.flagged.bitmap, ?_⟩
      rw [served, later, TargetList.populateFlags_targets hl, TargetList.populateFlags_targets hdef]
      show List.map Target.tag (m.targets.targets ++ m.promoted)
        ++ (m.deferredTargets.targets.drop _).map Target.tag = _
      rw [map_append, append_assoc, ← map_append, promoted_append]
      rfl

end Mshr

namespace MshrUse

open Mshr

variable {s s' : MshrUse} {op : Op}

/-- The tags of the targets added so far and of those still known. -/
structure Inv (s : MshrUse) : Prop where
  deferred : s.mshr.deferredTargets.Deferred
  side : ∀ snoop, ofSide snoop (s.extracted.map Target.tag ++ s.mshr.served ++ s.mshr.later)
    = ofSide snoop s.added
  sorted : (s.added.map Prod.fst).Pairwise (· < ·)
  below : ∀ x ∈ s.added, x.1 < s.nextOrder

theorem Inv.moves (hs : s.Inv) (hd : s'.mshr.deferredTargets.Deferred)
    (hside : ∀ snoop, ofSide snoop (s'.extracted.map Target.tag ++ s'.mshr.served ++ s'.mshr.later)
      = ofSide snoop (s.extracted.map Target.tag ++ s.mshr.served ++ s.mshr.later))
    (hadded : s'.added = s.added) (hnext : s.nextOrder ≤ s'.nextOrder) : s'.Inv := by
  refine ⟨hd, fun snoop => ?_, hadded ▸ hs.sorted, fun x hx => ?_⟩
  · rw [hside, hs.side, hadded]
  · exact (hs.below x (hadded ▸ hx)).trans_le hnext

theorem Inv.same (hs : s.Inv) {x : Mshr × List Signal} (h : SameTargets s.mshr x.1) :
    (s.moved x).Inv := by
  refine hs.moves (h.deferred hs.deferred) (fun snoop => ?_) rfl le_rfl
  show ofSide snoop (s.extracted.map Target.tag ++ x.1.served ++ x.1.later) = _
  rw [h.served, h.later]

theorem Inv.promotes (hs : s.Inv) {x : Mshr × List Signal} (h : Promotes s.mshr x.1) :
    (s.moved x).Inv := by
  refine hs.moves h.deferred (fun snoop => ?_) rfl le_rfl
  show ofSide snoop (s.extracted.map Target.tag ++ x.1.served ++ x.1.later) = _
  rw [append_assoc, h.waiting, append_assoc]

theorem Inv.adds (hs : s.Inv) {source : Source} (hd : s'.mshr.deferredTargets.Deferred)
    (hside : ∀ snoop, ofSide snoop (s'.extracted.map Target.tag ++ s'.mshr.served ++ s'.mshr.later)
      = ofSide snoop (s.extracted.map Target.tag ++ s.mshr.served ++ s.mshr.later)
        ++ ofSide snoop [(s.nextOrder, source)])
    (hadded : s'.added = s.added ++ [(s.nextOrder, source)]) (hnext : s'.nextOrder = s.nextOrder + 1) :
    s'.Inv := by
  refine ⟨hd, fun snoop => ?_, ?_, fun x hx => ?_⟩
  · rw [hside, hs.side, hadded, ofSide_append]
  · rw [hadded, map_append, map_singleton, pairwise_append]
    refine ⟨hs.sorted, pairwise_singleton _ _, fun x hx y hy => ?_⟩
    obtain ⟨z, hz, rfl⟩ := mem_map.1 hx
    rw [mem_singleton.1 hy]
    exact hs.below z hz
  · rw [hnext]
    rw [hadded, mem_append, mem_singleton] at hx
    rcases hx with hx | rfl
    · exact (hs.below x hx).trans (Nat.lt_succ_self _)
    · exact Nat.lt_succ_self _

theorem ofSide_later {m : Mshr} (hd : m.deferredTargets.Deferred) : ofSide true m.later = [] := by
  rw [later, ofSide_map, filter_eq_nil_iff.2 fun t ht => ?_]
  · rfl
  · rw [hd.cpu t ht]
    decide

theorem Inv.snooped (hs : s.Inv) {pkt : Packet} {x : Snooped}
    (h : s.mshr.handleSnoop s.curTick s.nextOrder pkt = .ok x) :
    { s.moved (x.mshr, x.signals) with
      nextOrder := s.nextOrder + 1
      added := if x.added then s.added ++ [(s.nextOrder, Source.fromSnoop)] else s.added }.Inv := by
  obtain ⟨hd, hlater, hserved⟩ := handleSnoop_adds hs.deferred h
  cases hadd : x.added with
  | false =>
    rw [hadd, if_neg Bool.false_ne_true, List.append_nil] at hserved
    refine hs.moves hd (fun snoop => ?_) rfl (Nat.le_succ _)
    show ofSide snoop (s.extracted.map Target.tag ++ x.mshr.served ++ x.mshr.later) = _
    rw [hserved, hlater]
  | true =>
    rw [hadd, if_pos rfl] at hserved
    refine hs.adds hd (fun snoop => ?_) rfl rfl
    show ofSide snoop (s.extracted.map Target.tag ++ x.mshr.served ++ x.mshr.later) = _
    rw [hserved, hlater]
    simp only [ofSide_append]
    cases snoop with
    | false =>
      rw [show ofSide false [(s.nextOrder, Source.fromSnoop)] = [] from rfl, List.append_nil,
        List.append_nil]
    | true =>
      rw [ofSide_later hs.deferred, List.append_nil, List.append_nil, append_assoc]

theorem Inv.step (hs : s.Inv) (h : s.step op = .ok s') : s'.Inv := by
  cases op with
  | allocateTarget pkt readyTime allocOnFill =>
    obtain ⟨x, hx, rfl⟩ := bind_pure_ok.1 h
    obtain ⟨hd, hwait⟩ := allocateTarget_adds hs.deferred hx
    refine hs.adds hd (fun snoop => ?_) rfl rfl
    show ofSide snoop (s.extracted.map Target.tag ++ x.1.served ++ x.1.later) = _
    rw [append_assoc, hwait, ← ofSide_append]
    simp only [append_assoc]
  | handleSnoop pkt =>
    obtain ⟨x, hx, rfl⟩ := bind_pure_ok.1 h
    exact hs.snooped hx
  | setForward isForward | advance ticks =>
    cases h
    exact hs.moves hs.deferred (fun _ => rfl) rfl le_rfl
  | markInService pendingModifiedResp =>
    obtain ⟨x, hx, rfl⟩ := bind_pure_ok.1 h
    exact hs.same (markInService_same hx)
  | markPending =>
    obtain ⟨m, hm, rfl⟩ := bind_pure_ok.1 h
    exact hs.same (markPending_same hm)
  | extractServiceableTargets cmd =>
    obtain ⟨x, hx, rfl⟩ := bind_pure_ok.1 h
    obtain ⟨hd, hsplit⟩ := extractServiceableTargets_splits hx
    refine hs.moves (hd ▸ hs.deferred) (fun snoop => ?_) rfl le_rfl
    show ofSide snoop ((s.extracted ++ x.1.targets).map Target.tag ++ x.2.served
      ++ x.2.deferredTargets.targets.map Target.tag) = _
    rw [hd, map_append, append_assoc (s.extracted.map _), ofSide_append, ofSide_append,
      hsplit, ← ofSide_append, ← ofSide_append]
    rfl
  | promoteDeferredTargets =>
    obtain ⟨x, hx, rfl⟩ := bind_pure_ok.1 h
    exact hs.promotes (promoteDeferredTargets_promotes hs.deferred hx)
  | promoteReadable =>
    obtain ⟨x, hx, rfl⟩ := bind_pure_ok.1 h
    exact hs.promotes (promoteReadable_promotes hs.deferred hx)
  | promoteWritable =>
    obtain ⟨x, hx, rfl⟩ := bind_pure_ok.1 h
    exact hs.promotes (promoteWritable_promotes hs.deferred hx)
  | setDownstreamPending =>
    obtain ⟨_, -, rfl⟩ := bind_pure_ok.1 h
    exact hs.moves hs.deferred (fun _ => rfl) rfl le_rfl
  | clearDownstreamPending =>
    obtain ⟨x, hx, rfl⟩ := bind_pure_ok.1 h
    exact hs.same (clearDownstreamPending_same hx)

theorem Inv.of_start {blkAddr blkSize readyTime order curTick : ℕ} {target : Packet} {a : Bool}
    (hblk : 0 < blkSize) (h : start blkAddr blkSize target readyTime order curTick a = .ok s) :
    s.Inv := by
  obtain ⟨x, hx, rfl⟩ := bind_pure_ok.1 h
  obtain ⟨l, hl, rfl⟩ := bind_pure_ok.1 hx
  have htags := TargetList.add_tags hl
  refine ⟨TargetList.deferred_init hblk, fun snoop => ?_, ?_, fun y hy => ?_⟩
  · exact congrArg _ (List.append_nil _)
  · change ((l.1.targets.map Target.tag).map Prod.fst).Pairwise (· < ·)
    rw [htags]
    exact pairwise_singleton _ _
  · change y ∈ l.1.targets.map Target.tag at hy
    rw [htags] at hy
    rw [mem_singleton.1 hy]
    exact Nat.lt_succ_self _

theorem perm_of_ofSide {l l' : List (ℕ × Source)} (h : ∀ snoop, ofSide snoop l = ofSide snoop l') :
    l.Perm l' := by
  have key : ∀ l : List (ℕ × Source), (ofSide true l ++ ofSide false l).Perm l := fun l => by
    simpa [ofSide] using filter_append_perm (fun x : ℕ × Source => decide (x.2 = .fromSnoop)) l
  have hl := key l
  rw [h, h] at hl
  exact hl.symm.trans (key l')

theorem Inv.known_perm (hs : s.Inv) : (s.known.map Target.tag).Perm s.added := by
  refine perm_of_ofSide fun snoop => ?_
  rw [known, map_append, map_append]
  exact hs.side snoop

/-- In every state of a register in use, the targets extracted and those in its two lists are those
added, each once, and on each side the extracted ones are the first that were added, in order. A
register that is deallocated has no target left. -/
theorem targets_conserved {blkAddr blkSize readyTime order curTick : ℕ} {target : Packet} {a : Bool}
    {ops : List Op} {s₀ : MshrUse} (hblk : 0 < blkSize)
    (h₀ : start blkAddr blkSize target readyTime order curTick a = .ok s₀)
    (h : run step s₀ ops = .ok s) :
    (s.known.map Target.tag).Perm s.added ∧ (s.known.map Target.order).Nodup
    ∧ (∀ snoop, ofSide snoop (s.extracted.map Target.tag) <+: ofSide snoop s.added)
    ∧ ∀ m, s.mshr.deallocate = .ok m → s.known = s.extracted := by
  have hs : s.Inv := run_inv (fun _ _ _ hs h => hs.step h) (Inv.of_start hblk h₀) h
  refine ⟨hs.known_perm, ?_, fun snoop => ?_, fun m hm => ?_⟩
  · have hperm := hs.known_perm.map Prod.fst
    rw [map_map] at hperm
    exact hperm.nodup_iff.2 (hs.sorted.imp fun hlt => hlt.ne)
  · rw [← hs.side snoop, append_assoc, ofSide_append]
    exact prefix_append _ _
  · obtain ⟨_, htargets, hm⟩ := bind_ok.1 hm
    obtain ⟨_, hreset, -⟩ := bind_ok.1 hm
    rw [require_ok] at htargets hreset
    have hdef : s.mshr.deferredTargets.targets = [] := by
      by_contra hne
      simp [(hs.deferred.seen hne).not_isReset] at hreset
    rw [known, htargets, hdef, List.append_nil, List.append_nil]

def packet (cmd : MemCmd) : Packet := .ofRequest ⟨4096, 64, {}, 1, 0, 0, 0⟩ cmd

/-- Two reads wait when a snoop invalidates the block. The response takes the block away. -/
def snoopedOps : List Op :=
  [.markInService false, .allocateTarget (packet .readReq) 5 true, .handleSnoop (packet .readExReq),
    .extractServiceableTargets .readRespWithInvalidate]

theorem targets_conserved_snoopedOps : ∃ s₀ s,
    start 4096 64 (packet .readReq) 0 7 0 true = .ok s₀ ∧ run step s₀ snoopedOps = .ok s
    ∧ (s.known.map Target.tag).Perm [(7, .fromCPU), (8, .fromCPU), (9, .fromSnoop)] := by
  have hend : Ends (start 4096 64 (packet .readReq) 0 7 0 true) fun s₀ =>
      Ends (run step s₀ snoopedOps) fun s =>
        s.added = [(7, .fromCPU), (8, .fromCPU), (9, .fromSnoop)] := by decide
  obtain ⟨s₀, h₀, hend⟩ := hend.exists
  obtain ⟨s, h, hadded⟩ := hend.exists
  exact ⟨s₀, s, h₀, h, hadded ▸ (targets_conserved (by decide) h₀ h).1⟩

/-- The snoop is extracted before the read that was added before it. -/
theorem snoop_overtakes : Ends (start 4096 64 (packet .readReq) 0 7 0 true) fun s₀ =>
    Ends (run step s₀ (snoopedOps ++ [.promoteDeferredTargets, .extractServiceableTargets .readResp]))
      fun s => s.added = [(7, .fromCPU), (8, .fromCPU), (9, .fromSnoop)]
        ∧ s.extracted.map Target.order = [7, 9, 8] := by
  decide

end MshrUse

end Gem5
