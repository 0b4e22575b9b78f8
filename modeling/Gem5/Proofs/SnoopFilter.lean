import Gem5.SnoopFilter

/-!
# The entries of the snoop filter

Every operation erases the entry that it leaves without a requester and a holder, except the look-up
of a request, which leaves that to its end (`Tidy`). When there is none, a request that is to be sent
again leaves the filter as it was (`retry_restores`). A request snoops every other port that has to
do with its line (`mem_snoopList`).
-/

namespace Gem5

open Machine

namespace SnoopFilter

variable {f f' : SnoopFilter} {pkt : Packet} {line : ℕ} {item : SnoopItem} {p port : ℕ}
  {ports : List ℕ}

def Tidy (f : SnoopFilter) (unfinished : Bool) : Prop :=
  ∀ line item, f.cachedLocations.lookup line = some item → item.IsNull →
    unfinished = true ∧ f.it = .entry line

theorem lookup_set (l : ℕ) : (f.set line item).cachedLocations.lookup l
    = if l = line then some item else f.cachedLocations.lookup l := by
  split_ifs with h
  · subst h
    exact Finmap.lookup_insert _
  · exact Finmap.lookup_insert_of_ne _ h

theorem lookup_erase (l : ℕ) : (f.erase line).cachedLocations.lookup l
    = if l = line then none else f.cachedLocations.lookup l := by
  split_ifs with h
  · subst h
    exact Finmap.lookup_erase _ _
  · exact Finmap.lookup_erase_ne h

theorem lookup_setOrErase (l : ℕ) : (f.setOrErase line item).cachedLocations.lookup l
    = if l = line then (if item.IsNull then none else some item)
      else f.cachedLocations.lookup l := by
  unfold setOrErase
  split_ifs with hn hl hl
  · simp [lookup_erase, hl]
  · simp [lookup_erase, hl]
  · simp [lookup_set, hl]
  · simp [lookup_set, hl]

theorem lookup_found (l : ℕ) : (f.found line item).cachedLocations.lookup l
    = if l = line then some item else f.cachedLocations.lookup l :=
  lookup_set (f := f) l

theorem setOrErase_it (h : f.it ≠ .entry line) : (f.setOrErase line item).it = f.it := by
  unfold setOrErase
  split_ifs
  · exact if_neg h
  · rfl

namespace Tidy

variable {b : Bool}

theorem set (h : f.Tidy b) (hi : ¬ item.IsNull) : (f.set line item).Tidy b := by
  intro l i hl hn
  rw [lookup_set] at hl
  split_ifs at hl with he
  · obtain rfl := Option.some.inj hl
    exact absurd hn hi
  · exact h l i hl hn

theorem setOrErase (h : f.Tidy b) : (f.setOrErase line item).Tidy b := by
  intro l i hl hn
  rw [lookup_setOrErase] at hl
  split_ifs at hl with he hi
  · obtain rfl := Option.some.inj hl
    exact absurd hn hi
  · obtain ⟨hb, hit⟩ := h l i hl hn
    refine ⟨hb, (setOrErase_it ?_).trans hit⟩
    rw [hit]
    exact fun h => he (Iter.entry.inj h)

theorem finish (h : f.Tidy true) (hit : f.it = .entry line) :
    (f.setOrErase line item).Tidy false := by
  intro l i hl hn
  rw [lookup_setOrErase] at hl
  split_ifs at hl with he hi
  · obtain rfl := Option.some.inj hl
    exact absurd hn hi
  · obtain ⟨-, hit'⟩ := h l i hl hn
    exact absurd (Iter.entry.inj (hit'.symm.trans hit)) he

theorem not_null (h : f.Tidy false) (hl : f.cachedLocations.lookup line = some item) :
    ¬ item.IsNull := fun hn => by simpa using (h line item hl hn).1

theorem found (h : f.Tidy false) : (f.found line item).Tidy true := by
  intro l i hl hn
  rw [lookup_found] at hl
  split_ifs at hl with he
  · exact ⟨rfl, by rw [he]; rfl⟩
  · exact absurd hn (h.not_null hl)

theorem found_set {item' : SnoopItem} (h : f.Tidy false) :
    ((f.found line item).set line item').Tidy true := by
  intro l i hl hn
  rw [lookup_set] at hl
  split_ifs at hl with he
  · exact ⟨rfl, by rw [he]; rfl⟩
  · rw [lookup_found, if_neg he] at hl
    exact absurd hn (h.not_null hl)

end Tidy

/-! ## One operation -/

theorem lookupRequest_cases
    (h : f.lookupRequest pkt port = .ok (f', ports)) :
    (f.cachedLocations.lookup (f.lineOf pkt) = none ∧ f' = { f with it := .atEnd })
      ∨ (∃ item, f.cachedLocations.lookup (f.lineOf pkt) = some item
        ∧ f' = f.found (f.lineOf pkt) item)
      ∨ ∃ item', f' = (f.found (f.lineOf pkt)
          ((f.cachedLocations.lookup (f.lineOf pkt)).getD ⟨0, 0⟩)).set (f.lineOf pkt) item' := by
  unfold lookupRequest at h
  split at h
  · rename_i hl _
    cases h
    exact .inl ⟨hl, rfl⟩
  · rename_i hl _
    cases h
    exact .inr (.inl ⟨_, hl, rfl⟩)
  · obtain ⟨item', -, h⟩ := bind_ok.1 h
    cases h
    exact .inr (.inr ⟨item', rfl⟩)

theorem lookupRequest_tidy (hf : f.Tidy false)
    (h : f.lookupRequest pkt port = .ok (f', ports)) : f'.Tidy true := by
  obtain ⟨-, rfl⟩ | ⟨item, -, rfl⟩ | ⟨item', rfl⟩ := lookupRequest_cases h
  · exact fun l i hl hn => absurd hn (hf.not_null hl)
  · exact hf.found
  · exact hf.found_set

theorem finishRequest_cases {willRetry isSecure : Bool} {addr : ℕ}
    (h : f.finishRequest willRetry addr isSecure = .ok f') :
    (f.it = .atEnd ∧ f' = f)
      ∨ ∃ line item, f.it = .entry line ∧ f' = f.setOrErase line item := by
  unfold finishRequest at h
  split at h
  · rename_i hit
    cases h
    exact .inl ⟨hit, rfl⟩
  · cases h
  · rename_i line hit
    obtain ⟨_, -, h⟩ := bind_ok.1 h
    split at h
    · cases h
      exact .inr ⟨line, _, hit, rfl⟩
    · split at h
      · cases h
      · cases h
        exact .inr ⟨line, _, hit, rfl⟩

theorem finishRequest_tidy {willRetry isSecure : Bool} {addr : ℕ} (hf : f.Tidy true)
    (h : f.finishRequest willRetry addr isSecure = .ok f') : f'.Tidy false := by
  obtain ⟨hit, rfl⟩ | ⟨line, item, hit, rfl⟩ := finishRequest_cases h
  · intro l i hl hn
    obtain ⟨-, hit'⟩ := hf l i hl hn
    simp [hit] at hit'
  · exact hf.finish hit

variable {b : Bool}

theorem lookupSnoop_tidy (hf : f.Tidy b)
    (h : f.lookupSnoop pkt = .ok (f', ports)) : f'.Tidy b := by
  obtain ⟨_, -, h⟩ := bind_ok.1 h
  split at h
  · obtain ⟨_, -, h⟩ := bind_ok.1 h
    cases h
    exact hf
  · obtain ⟨_, -, h⟩ := bind_ok.1 h
    split_ifs at h
    · cases h
      exact hf.setOrErase
    · cases h
      exact hf

theorem updateSnoopResponse_tidy {rsp req : ℕ} (hf : f.Tidy b)
    (h : f.updateSnoopResponse pkt rsp req = .ok f') : f'.Tidy b := by
  obtain ⟨_, -, h⟩ := bind_ok.1 h
  obtain ⟨_, -, h⟩ := bind_ok.1 h
  split at h
  · cases h
    exact hf
  · simp only [bind_ok] at h
    obtain ⟨_, -, _, -, _, -, _, hany, h⟩ := h
    cases h
    exact hf.set (require_ok.1 hany)

theorem updateSnoopForward_tidy (hf : f.Tidy b) (h : f.updateSnoopForward pkt = .ok f') :
    f'.Tidy b := by
  obtain ⟨_, -, h⟩ := bind_ok.1 h
  obtain ⟨_, -, h⟩ := bind_ok.1 h
  split at h
  · cases h
    exact hf
  · split_ifs at h
    · cases h
      exact hf
    · cases h
      exact hf.setOrErase

theorem updateResponse_tidy (hf : f.Tidy b) (h : f.updateResponse pkt port = .ok f') :
    f'.Tidy b := by
  obtain ⟨_, -, h⟩ := bind_ok.1 h
  split at h
  · cases h
    exact hf
  · split at h
    · cases h
      exact hf
    · obtain ⟨_, -, h⟩ := bind_ok.1 h
      split at h
      · cases h
        exact hf.setOrErase
      · obtain ⟨_, hany, rfl⟩ := bind_pure_ok.1 h
        refine hf.set fun hn => require_ok.1 hany ?_
        rwa [BitVec.or_comm]

/-- Without a null entry, a request that is looked up and is to be sent again leaves the entries as
they were. -/
theorem retry_restores (hf : f.Tidy false)
    (h : f.lookupRequest pkt port = .ok (f', ports)) :
    ∃ f'', f'.finishRequest true pkt.addr pkt.isSecure = .ok f''
      ∧ f''.cachedLocations = f.cachedLocations := by
  obtain ⟨-, rfl⟩ | ⟨item, hl, rfl⟩ | ⟨item', rfl⟩ := lookupRequest_cases h
  · exact ⟨_, rfl, rfl⟩
  · refine ⟨_, bind_ok.2 ⟨(), require_ok.2 rfl, rfl⟩, Finmap.ext_lookup fun l => ?_⟩
    have hn : ¬ item.IsNull := hf.not_null hl
    show ((f.found _ item).setOrErase _ item).cachedLocations.lookup l = _
    rw [lookup_setOrErase, lookup_found, if_neg hn]
    split_ifs with he
    · rw [he, hl]
    · rfl
  · refine ⟨_, bind_ok.2 ⟨(), require_ok.2 rfl, rfl⟩, Finmap.ext_lookup fun l => ?_⟩
    cases hl : f.cachedLocations.lookup (f.lineOf pkt) with
    | none =>
      show (((f.found _ ⟨0, 0⟩).set _ item').setOrErase _ ⟨0, 0⟩).cachedLocations.lookup l = _
      have hn : SnoopItem.IsNull ⟨0, 0⟩ := by decide
      rw [lookup_setOrErase, lookup_set, lookup_found, if_pos hn]
      split_ifs with he
      · rw [he, hl]
      · rfl
    | some item =>
      have hn : ¬ item.IsNull := hf.not_null hl
      show (((f.found _ item).set _ item').setOrErase _ item).cachedLocations.lookup l = _
      rw [lookup_setOrErase, lookup_set, lookup_found, if_neg hn]
      split_ifs with he
      · rw [he, hl]
      · rfl

/-! ## The ports to snoop -/

theorem localId_lt {q : ℕ} (hp : f.isSnooping p = true) (hpq : p < q) :
    f.localId p < f.localId q := by
  have hget : f.snooping[p]? = some true := by
    rw [isSnooping, List.getD_eq_getElem?_getD] at hp
    cases h : f.snooping[p]? with
    | none => simp [h] at hp
    | some b => simpa [h] using hp
  have hsucc : f.localId (p + 1) = f.localId p + 1 := by
    rw [localId, localId, List.take_add_one, hget]
    simp
  have hle : f.localId (p + 1) ≤ f.localId q :=
    (List.take_sublist_take_left hpq).count_le true
  omega

theorem localId_inj {q : ℕ} (hp : f.isSnooping p = true) (hq : f.isSnooping q = true)
    (h : f.localId p = f.localId q) : p = q := by
  obtain hlt | heq | hlt := lt_trichotomy p q
  · exact absurd h (localId_lt hp hlt).ne
  · exact heq
  · exact absurd h (localId_lt hq hlt).ne'

theorem portToMask_eq (hp : f.isSnooping p = true) :
    f.portToMask p = BitVec.twoPow 256 (f.localId p) := by
  rw [portToMask, if_pos hp, BitVec.twoPow_eq]
  rfl

theorem and_portToMask (hp : f.isSnooping p = true) (mask : SnoopMask) :
    mask &&& f.portToMask p ≠ 0 ↔ mask.getLsbD (f.localId p) = true := by
  rw [portToMask_eq hp, BitVec.and_twoPow]
  constructor
  · intro h
    by_contra hb
    exact h (if_neg hb)
  · intro h h0
    have hlt : f.localId p < 256 := BitVec.lt_of_getLsbD h
    rw [if_pos h] at h0
    have hbit := congrArg (fun m : SnoopMask => m.getLsbD (f.localId p)) h0
    simp [hlt] at hbit

theorem mem_maskToPortList {mask : SnoopMask} :
    p ∈ f.maskToPortList mask ↔ f.isSnooping p = true ∧ mask &&& f.portToMask p ≠ 0 := by
  have hlen : f.isSnooping p = true → p < f.snooping.length := by
    intro h
    by_contra hp
    rw [isSnooping, List.getD_eq_default _ _ (not_lt.1 hp)] at h
    cases h
  simp only [maskToPortList, List.mem_filter, List.mem_range, Bool.and_eq_true, bne_iff_ne]
  exact and_iff_right_of_imp fun h => hlen h.1

/-- The ports to snoop are those that asked for the line or hold it or that a hint is for, but not
the one of the request unless the hint is for it. -/
theorem mem_snoopList (hport : f.isSnooping port = true) :
    p ∈ f.snoopList item port pkt ↔ f.isSnooping p = true
      ∧ (f.destMask pkt &&& f.portToMask p ≠ 0
        ∨ p ≠ port ∧ (item.holder ||| item.requested) &&& f.portToMask p ≠ 0) := by
  rw [snoopList, mem_maskToPortList]
  refine and_congr_right fun hp => ?_
  rw [and_portToMask hp, and_portToMask hp, and_portToMask hp]
  have hmask : (f.portToMask port).getLsbD (f.localId p) = true → p = port := by
    rw [portToMask_eq hport, BitVec.getLsbD_twoPow]
    intro h
    simp only [Bool.and_eq_true, decide_eq_true_eq] at h
    exact localId_inj hp hport h.2.symm
  have hself : p = port → f.localId p < 256 → (f.portToMask port).getLsbD (f.localId p) = true := by
    rintro rfl hlt
    rw [portToMask_eq hport, BitVec.getLsbD_twoPow]
    simp [hlt]
  simp only [BitVec.getLsbD_or, BitVec.getLsbD_and, BitVec.getLsbD_not, Bool.or_eq_true,
    Bool.and_eq_true, Bool.not_eq_true', decide_eq_true_eq]
  constructor
  · rintro (⟨(h | h), hlt, hn⟩ | h)
    · refine .inr ⟨fun he => ?_, h⟩
      simp [hself he hlt] at hn
    · exact .inl h
    · exact .inl h
  · rintro (h | ⟨hne, h⟩)
    · exact .inr h
    · have hlt : f.localId p < 256 :=
        h.elim (fun h => BitVec.lt_of_getLsbD h) (fun h => BitVec.lt_of_getLsbD h)
      refine .inl ⟨.inl h, hlt, ?_⟩
      by_contra hb
      exact hne (hmask (Bool.not_eq_false _ ▸ hb))

theorem lookupRequest_ports
    (h : f.lookupRequest pkt port = .ok (f', ports)) :
    (f.cachedLocations.lookup (f.lineOf pkt) = none ∧ f.allocates port pkt = false ∧ ports = [])
      ∨ ((f.allocates port pkt = true ∨ (f.cachedLocations.lookup (f.lineOf pkt)).isSome = true)
        ∧ ports
          = f.snoopList ((f.cachedLocations.lookup (f.lineOf pkt)).getD ⟨0, 0⟩) port pkt) := by
  unfold lookupRequest at h
  split at h
  · rename_i hl ha
    cases h
    exact .inl ⟨hl, ha, rfl⟩
  · rename_i hl _
    cases h
    rw [hl]
    exact .inr ⟨.inr rfl, rfl⟩
  · rename_i ha
    obtain ⟨item', -, h⟩ := bind_ok.1 h
    cases h
    exact .inr ⟨.inl ha, rfl⟩

/-- Whatever the entries are, the ports to snoop for a request of a snooping port are every other
port that asked for the line or holds it, and the port of the request is one of them just when the
request is a prefetch hint for it. -/
theorem snoop_targets_iff {port : ℕ} {ports : List ℕ} (hport : f.isSnooping port = true)
    (h : f.lookupRequest pkt port = .ok (f', ports)) :
    (∀ p, f.Interested pkt p → p ≠ port → p ∈ ports)
      ∧ (port ∉ ports ↔ ¬ f.HintsItself pkt port) := by
  obtain ⟨hl, ha, rfl⟩ | ⟨hsome, rfl⟩ := lookupRequest_ports h
  · refine ⟨fun p ⟨item, hi, _⟩ => ?_, iff_of_true (by simp) fun ⟨_, hs⟩ => ?_⟩
    · simp [hl] at hi
    · simp [hl, ha] at hs
  · refine ⟨fun p ⟨item, hi, hm⟩ hp => ?_, not_congr ?_⟩
    · have hsn : f.isSnooping p = true := by
        by_contra hn
        rw [portToMask, if_neg hn] at hm
        simp at hm
      rw [mem_snoopList hport, hi]
      exact ⟨hsn, .inr ⟨hp, hm⟩⟩
    · rw [mem_snoopList hport, HintsItself]
      simp [hport, hsome]

end SnoopFilter

/-! ## A run -/

namespace SnoopFilterUse

open SnoopFilter

variable {s s' : SnoopFilterUse} {o : Op}

theorem step_tidy (hs : s.filter.Tidy s.unfinished) (hp : s.Paired o) (h : s.step o = .ok s') :
    s'.filter.Tidy s'.unfinished := by
  cases o with
  | lookupRequest pkt port =>
    obtain ⟨⟨f, ports⟩, hf, h⟩ := bind_ok.1 h
    cases h
    have hp : s.unfinished = false := hp
    exact lookupRequest_tidy (hp ▸ hs) hf
  | finishRequest willRetry addr isSecure =>
    obtain ⟨f, hf, rfl⟩ := bind_pure_ok.1 h
    have hp : s.unfinished = true := hp
    exact finishRequest_tidy (hp ▸ hs) hf
  | lookupSnoop pkt =>
    obtain ⟨⟨f, ports⟩, hf, h⟩ := bind_ok.1 h
    cases h
    exact lookupSnoop_tidy hs hf
  | updateSnoopResponse pkt rsp req =>
    obtain ⟨f, hf, rfl⟩ := bind_pure_ok.1 h
    exact updateSnoopResponse_tidy hs hf
  | updateSnoopForward pkt =>
    obtain ⟨f, hf, rfl⟩ := bind_pure_ok.1 h
    exact updateSnoopForward_tidy hs hf
  | updateResponse pkt port =>
    obtain ⟨f, hf, rfl⟩ := bind_pure_ok.1 h
    exact updateResponse_tidy hs hf

theorem start_tidy (isForL3X : Bool) (linesize maxEntryCount : ℕ) (snooping : List Bool) :
    (start (init isForL3X linesize maxEntryCount snooping)).filter.Tidy false := by
  intro l i hl
  simp [start, init, Finmap.lookup_empty] at hl

/-- From an empty filter, in every run that finishes each request it looks up before the next one,
an entry without a requester and a holder is that of the request that is not finished. When there is
none, looking up any request and finishing it to be sent again leaves the entries as they were. -/
theorem filter_transactional {isForL3X : Bool} {linesize maxEntryCount : ℕ} {snooping : List Bool}
    {ops : List Op} {s : SnoopFilterUse}
    (hadm : Admits step Paired (start (init isForL3X linesize maxEntryCount snooping)) ops)
    (hrun : run step (start (init isForL3X linesize maxEntryCount snooping)) ops = .ok s) :
    (∀ line item, s.filter.cachedLocations.lookup line = some item →
        item.requested ||| item.holder = 0 → s.unfinished = true ∧ s.filter.it = .entry line)
      ∧ (s.unfinished = false → ∀ pkt port f ports,
        s.filter.lookupRequest pkt port = .ok (f, ports) →
        ∃ f', f.finishRequest true pkt.addr pkt.isSecure = .ok f'
          ∧ f'.cachedLocations = s.filter.cachedLocations) := by
  have hs : s.filter.Tidy s.unfinished :=
    Admits.inv (I := fun s => s.filter.Tidy s.unfinished) (fun _ _ _ hs hp h => step_tidy hs hp h)
      hadm (start_tidy isForL3X linesize maxEntryCount snooping) hrun
  exact ⟨hs, fun hb pkt port f ports h => retry_restores (hb ▸ hs) h⟩

def linePacket (cmd : MemCmd) : Packet :=
  Packet.ofRequest { paddr := 64, size := 64, flags := {}, requestorId := 0, taskId := 0 } cmd

def readOps : List Op :=
  [.lookupRequest (linePacket .readExReq) 0, .finishRequest false 64 false,
    .updateResponse (linePacket .readExResp) 0]

theorem filter_transactional_readOps : ∃ s,
    run step (start (init false 64 16 [true])) readOps = .ok s
      ∧ s.filter.cachedLocations.lookup 64 = some ⟨0, 1⟩ ∧ s.unfinished = false
      ∧ ∀ pkt port f ports, s.filter.lookupRequest pkt port = .ok (f, ports) →
        ∃ f', f.finishRequest true pkt.addr pkt.isSecure = .ok f'
          ∧ f'.cachedLocations = s.filter.cachedLocations := by
  refine ⟨_, rfl, rfl, rfl, ?_⟩
  exact (@filter_transactional false 64 16 [true] readOps _ (by decide) rfl).2 rfl

theorem snoop_targets_readOps : ∃ s,
    run step (start (init true 64 16 [true, true])) readOps = .ok s
      ∧ s.filter.Interested (linePacket .readSharedReq) 0
      ∧ ∃ f ports, s.filter.lookupRequest (linePacket .readSharedReq) 1 = .ok (f, ports)
        ∧ 0 ∈ ports ∧ 1 ∉ ports := by
  have hi : ∃ item : SnoopItem, some (⟨0, 1⟩ : SnoopItem) = some item
      ∧ (item.holder ||| item.requested) &&& 1 ≠ 0 := ⟨_, rfl, by decide⟩
  obtain ⟨s, hrun, hi, hport, f, ports, h, hn⟩ : ∃ s,
      run step (start (init true 64 16 [true, true])) readOps = .ok s
        ∧ s.filter.Interested (linePacket .readSharedReq) 0 ∧ s.filter.isSnooping 1 = true
        ∧ ∃ f ports, s.filter.lookupRequest (linePacket .readSharedReq) 1 = .ok (f, ports)
          ∧ ¬ s.filter.HintsItself (linePacket .readSharedReq) 1 :=
    ⟨_, rfl, hi, rfl, _, _, rfl, fun h => h.1 rfl⟩
  exact ⟨s, hrun, hi, f, ports, h, (snoop_targets_iff hport h).1 0 hi (by decide),
    (snoop_targets_iff hport h).2.2 hn⟩

/-- The cache that holds the line evicts it with a prefetch hint for its own port, and the port is
one to snoop. -/
theorem hint_snoops_itself : ∃ s f,
    run step (start (init true 64 16 [true, true])) readOps = .ok s
      ∧ s.filter.lookupRequest { linePacket .writebackDirty with
          isPrefetchHintPkt := true, ddioPrefetchDestination := 0 } 0 = .ok (f, [0]) :=
  ⟨_, _, rfl, rfl⟩

/-- The look-up of a write-back by the only holder leaves an entry with no requester and no holder,
until it is finished. -/
theorem lookup_leaves_null : ∃ s,
    run step (start (init false 64 16 [true]))
        (readOps ++ [.lookupRequest (linePacket .writebackDirty) 0]) = .ok s
      ∧ s.filter.cachedLocations.lookup 64 = some ⟨0, 0⟩ :=
  ⟨_, rfl, rfl⟩

end SnoopFilterUse

end Gem5
