import Gem5.Proofs.DistAsked

/-!
# When an exit is ordered

The switch has counted as many collective requests as there are nodes that made one, and it orders
an exit at the first barrier by which all nodes, or one that does not wait for the others, have
asked for it.
-/

namespace Gem5

open List

namespace DistSync

open Machine

variable {ι : Type}

/-- Among the requests `c` is one that does not wait for the others, or one of every node. -/
def Due (c : List (ι × Header)) : Prop :=
  (∃ p ∈ c, p.2.needExit = .immediate) ∨ ∀ i, ∃ p ∈ c, p.1 = i ∧ p.2.needExit = .collective

theorem count_requesters [DecidableEq ι] (c : List (ι × Header)) (i : ι) :
    (requesters .exit c).count i = c.countP fun p => p.1 = i ∧ p.2.needExit = .collective := by
  rw [requesters, count_eq_countP, countP_map, countP_filter]
  refine countP_congr fun p _ => ?_
  simp only [beq_iff_eq, Function.comp_apply, Bool.and_eq_true, decide_eq_true_eq]
  exact Iff.rfl

theorem Due.mono {c c' : List (ι × Header)} (h : c ⊆ c') : Due c → Due c'
  | .inl ⟨p, hp, himm⟩ => .inl ⟨p, h hp, himm⟩
  | .inr hall => .inr fun i => by
    obtain ⟨p, hp, hi⟩ := hall i
    exact ⟨p, h hp, hi⟩

/-- What the switch knows of the exit requests that it has counted. -/
structure ExitInv (w : SyncSwitch ι) : Prop where
  count : w.numExitReq = (requesters .exit w.arrived).length
  nodup : (requesters .exit w.arrived).Nodup
  immediate : (∃ p ∈ w.arrived, p.2.needExit = .immediate) → w.doExit = true
  due : w.doExit = true → Due w.arrived
  log : ∀ (b : ℕ) R, w.log[b]? = some R → (R.decision.doExit = true ↔ Due (w.reached b))

theorem ExitInv.init (numNodes nextAt nextRepeat : ℕ) :
    ExitInv (SyncSwitch.init (ι := ι) numNodes nextAt nextRepeat) where
  count := rfl
  nodup := nodup_nil
  immediate := by rintro ⟨p, hp, -⟩; cases hp
  due := nofun
  log := nofun

theorem ExitInv.progress {w w' : SyncSwitch ι} {i : ι} {h : Header} (hw : ExitInv w)
    (hfirst : h.needExit = .collective → i ∉ requesters .exit w.arrived)
    (hp : w.progress i h = .ok w') : ExitInv w' := by
  rcases SyncSwitch.progress_cases hp with ⟨-, rfl⟩ | ⟨-, -, hw'⟩
  · exact hw
  have harr : w'.arrived = w.arrived ++ [(i, h)] := by
    rw [hw', SyncSwitch.arrived, SyncSwitch.arrived, append_assoc]
  have hdo : w'.doExit = true ↔ w.doExit = true ∨ h.needExit = .immediate := by
    rw [hw', Bool.or_eq_true, beq_iff_eq]
  have hreq : requesters .exit [(i, h)] = if h.needExit = .collective then [i] else [] :=
    requesters_singleton h
  exact {
    count := by
      rw [harr, requesters_append, List.length_append, hreq, ← hw.count, hw']
      split_ifs <;> simp
    nodup := by
      rw [harr, requesters_append, hreq]
      split_ifs with hc
      · exact concat_eq_append ▸ hw.nodup.concat (hfirst hc)
      · rw [append_nil]
        exact hw.nodup
    immediate := by
      rw [harr, hdo]
      rintro ⟨p, hp, himm⟩
      rcases mem_append.1 hp with hp | hp
      · exact .inl (hw.immediate ⟨p, hp, himm⟩)
      · rw [mem_singleton.1 hp] at himm
        exact .inr himm
    due := by
      rw [harr, hdo]
      rintro (hd | himm)
      · exact (hw.due hd).mono (subset_append_left _ _)
      · exact .inl ⟨(i, h), by simp, himm⟩
    log := by
      rw [hw']
      exact hw.log }

section Finite

variable [Fintype ι]

theorem ExitInv.run {w w' : SyncSwitch ι} (hw : ExitInv w) (hnodes : w.numNodes = Fintype.card ι)
    {sameTick : Bool} {curTick : ℕ} (h : w.run sameTick curTick = .ok w') : ExitInv w' := by
  have hw' := SyncSwitch.run_cases h
  have hdue : w.decision.doExit = true ↔ Due w.arrived := by
    simp only [SyncSwitch.decision, Bool.or_eq_true, beq_iff_eq, hw.count, hnodes,
      length_requesters hw.nodup]
    constructor
    · rintro (hd | hall)
      · exact hw.due hd
      · exact .inr hall
    · rintro (himm | hall)
      · exact .inl (hw.immediate himm)
      · exact .inr hall
  have harr : w'.arrived = w.arrived := by
    simp [SyncSwitch.arrived, hw', SyncSwitch.toBarrier]
  have hdo : w'.doExit = w.decision.doExit := by rw [hw']
  have hlog : w'.log = w.log ++ [w.toBarrier] := by rw [hw']
  exact {
    count := by
      rw [harr, ← hw.count, hw']
    nodup := harr ▸ hw.nodup
    immediate := by
      rw [harr, hdo]
      exact fun himm => hdue.2 (.inl himm)
    due := by
      rw [harr, hdo]
      exact hdue.1
    log := fun b R hR => by
      rw [hlog] at hR
      rw [SyncSwitch.reached, hlog]
      rcases lt_or_ge b w.log.length with hb | hb
      · rw [getElem?_append_left hb] at hR
        rw [hw.log b R hR, SyncSwitch.reached, take_append_of_le_length (by omega)]
      · have hb' : b = w.log.length := by
          have := (List.getElem?_eq_some_iff.1 hR).1
          simp only [List.length_append, List.length_singleton] at this
          omega
        rw [hb', List.getElem?_concat_length] at hR
        obtain rfl := Option.some.inj hR
        have hreached : (w.log ++ [w.toBarrier]).take (b + 1) = w.log ++ [w.toBarrier] :=
          take_of_length_le (by simp [hb'])
        rw [hreached]
        simpa [SyncSwitch.toBarrier, SyncSwitch.arrived] using hdue }

section Steps

variable [DecidableEq ι] {s s' : DistSync ι} {o : Op ι}

theorem ExitInv.step {ops : List (Op ι)} (hs : SyncInv s)
    (hn : ∀ i, NodeAsked .exit i ops (s.link i).node) (hw : ExitInv s.switch)
    (h : s.step o = .ok s') : ExitInv s'.switch := by
  cases o with
  | switchRun sameTick curTick =>
    obtain ⟨-, ⟨-, rfl⟩ | ⟨-, w, hrun, rfl⟩⟩ := switchRun_cases h
    · exact hw
    · exact hw.run hs.switch.numNodes hrun
  | switchRecv i =>
    obtain ⟨m, rest, w, hup, hp, rfl⟩ := switchRecv_cases h
    obtain ⟨-, hm, hgot⟩ := (hs.link i).requested hup
    exact hw.progress (not_mem_requesters hs (hn i) hgot hm) hp
  | nodeRun i sameTick curTick =>
    obtain ⟨-, n, -, rfl⟩ := nodeRun_cases h
    exact hw
  | nodeRecv i =>
    obtain ⟨a, rest, n, -, -, -, rfl⟩ := nodeRecv_cases h
    exact hw
  | nodeFinish i | requestCkpt i req | requestExit i req =>
    simp only [DistSync.step, bind_ok] at h
    obtain ⟨n, -, h⟩ := h
    cases h
    exact hw
  | nodeClearCkpt i | nodeClearStopSync i =>
    simp only [DistSync.step, DistSync.outside] at h
    split_ifs at h
    cases h
    exact hw
  | requestStopSync i req | nodeAbort i =>
    cases h
    exact hw
  | switchAbort | switchClearCkpt | switchClearStopSync =>
    cases h
    exact { hw with }

theorem exit_inv {nextAt nextRepeat : ℕ} {nodeAt nodeRepeat : ι → ℕ} {ops : List (Op ι)}
    (hkind : ∀ i req, .requestExit i req ∈ ops → req = .collective ∨ req = .immediate)
    (h : run step (init nextAt nextRepeat nodeAt nodeRepeat) ops = .ok s) :
    (∀ i, NodeAsked .exit i ops (s.link i).node) ∧ ExitInv s.switch := by
  refine run_hist (I := fun ops s =>
    (∀ i req, .requestExit i req ∈ ops → req = .collective ∨ req = .immediate) →
      (∀ i, NodeAsked .exit i ops (s.link i).node) ∧ ExitInv s.switch) (fun _ => ?_) ?_ h hkind
  · exact ⟨fun i => .init .exit i _ _, .init _ _ _⟩
  · intro ops u o u' hu ih hst hkind
    obtain ⟨hn, hw⟩ := ih fun i req hm => hkind i req (mem_append_left _ hm)
    refine ⟨fun i => (hn i).step (fun req ho => ?_) hst, hw.step (SyncInv.run hu) hn hst⟩
    obtain rfl := mem_asks_exit ho
    exact hkind i req (mem_append_right _ (mem_singleton_self _))

theorem NodeAsked.due_iff {ops : List (Op ι)} (hs : SyncInv s)
    (hn : ∀ i, NodeAsked .exit i ops (s.link i).node) {b : ℕ} (hb : b < s.switch.log.length) :
    Due (s.switch.reached b) ↔ (∃ i, .immediate ∈ requests .exit i b ops)
      ∨ ∀ i, .collective ∈ requests .exit i b ops := by
  have hmem : ∀ i r, (∃ p ∈ s.switch.reached b, p.1 = i ∧ p.2.needExit = r)
      ↔ r ∈ ((s.link i).node.needs .exit).take (b + 1) := by
    intro i r
    have hlt : b < (s.link i).node.sent.length := lt_of_lt_of_le hb (hs.link i).sent_ge
    rw [SyncNode.take_needs hlt, mem_map]
    constructor
    · rintro ⟨⟨j, m⟩, hp, rfl, hr⟩
      exact ⟨m, (mem_reached hs hb).1 hp, hr⟩
    · rintro ⟨m, hm, hr⟩
      exact ⟨(i, m), (mem_reached hs hb).2 hm, rfl, hr⟩
  constructor
  · rintro (⟨p, hp, himm⟩ | hall)
    · exact .inl ⟨p.1, ((hn p.1).asked.immediate b).2 ((hmem _ _).1 ⟨p, hp, rfl, himm⟩)⟩
    · exact .inr fun i => (hn i).asked.asked b ((hmem _ _).1 (hall i))
  · rintro (⟨i, himm⟩ | hall)
    · obtain ⟨p, hp, -, hr⟩ := (hmem i _).2 (((hn i).asked.immediate b).1 himm)
      exact .inl ⟨p, hp, hr⟩
    · by_cases hone : ∃ i, .immediate ∈ ((s.link i).node.needs .exit).take (b + 1)
      · obtain ⟨i, hi⟩ := hone
        obtain ⟨p, hp, -, hr⟩ := (hmem i _).2 hi
        exact .inl ⟨p, hp, hr⟩
      · refine .inr fun i => (hmem i _).2 ?_
        exact ((hn i).asked.collective b (hall i)).resolve_right fun hi => hone ⟨i, hi⟩

end Steps

/-- In every run, the `b`-th barrier orders an exit exactly if by then some node was asked for an
immediate one or all nodes for a collective one, and the nodes hold the order at its end. A node's
collective request is counted once, and the switch's counter is the number of nodes with one. -/
theorem exit_ordered [DecidableEq ι] {nextAt nextRepeat : ℕ} {nodeAt nodeRepeat : ι → ℕ}
    {ops : List (Op ι)} {s : DistSync ι}
    (hkind : ∀ i req, .requestExit i req ∈ ops → req = .collective ∨ req = .immediate)
    (h : run step (init nextAt nextRepeat nodeAt nodeRepeat) ops = .ok s) :
    (∀ (b : ℕ) R, s.switch.log[b]? = some R →
      (R.decision.doExit = true ↔ (∃ i, .immediate ∈ exitRequests i b ops)
        ∨ ∀ i, .collective ∈ exitRequests i b ops)
      ∧ (∀ i d, (s.link i).node.log[b]? = some d → d.doExit = R.decision.doExit)
      ∧ ∀ i, .collective ∈ exitRequests i b ops → .immediate ∉ exitRequests i b ops →
        (s.switch.reached b).countP (fun p => p.1 = i ∧ p.2.needExit = .collective) = 1)
    ∧ s.switch.numExitReq = (Finset.univ.filter fun i =>
        ∃ p ∈ s.switch.arrived, p.1 = i ∧ p.2.needExit = .collective).card := by
  obtain ⟨hn, hw⟩ := exit_inv hkind h
  have hs := SyncInv.run h
  simp only [exitRequests_eq]
  refine ⟨fun b R hR => ?_, ?_⟩
  · have hb := (List.getElem?_eq_some_iff.1 hR).1
    refine ⟨(hw.log b R hR).trans (NodeAsked.due_iff hs hn hb), fun i d hd => ?_,
      fun i hcol himm => ?_⟩
    · obtain ⟨R', hR', rfl⟩ := (hs.link i).agree b d hd
      obtain rfl := Option.some.inj (hR.symm.trans hR')
      rfl
    · rw [← count_requesters]
      have hnd := hw.nodup
      rw [arrived_eq _ b, requesters_append] at hnd
      refine count_eq_one_of_mem (nodup_append.1 hnd).1 ?_
      have hlt : b < (s.link i).node.sent.length := lt_of_lt_of_le hb (hs.link i).sent_ge
      have hsent := ((hn i).asked.collective b hcol).resolve_right fun hi =>
        himm (((hn i).asked.immediate b).2 hi)
      rw [SyncNode.take_needs hlt, mem_map] at hsent
      obtain ⟨m, hm, hr⟩ := hsent
      exact mem_requesters.2 ⟨(i, m), (mem_reached hs hb).2 hm, rfl, hr⟩
  · rw [hw.count, ← toFinset_card_of_nodup hw.nodup]
    congr 1
    ext i
    rw [mem_toFinset, mem_requesters, Finset.mem_filter]
    exact ⟨fun hp => ⟨Finset.mem_univ i, hp⟩, And.right⟩

/-- Both nodes ask for a collective exit, the second one barrier after the first, and go on to the
barrier that orders it. -/
def lateOps : List (Op (Fin 2)) :=
  [.requestExit n₀ .collective, .nodeRun n₀ false 10, .nodeRun n₁ false 10, .switchRecv n₀,
    .switchRecv n₁, .switchRun false 0, .nodeRecv n₀, .nodeFinish n₀, .nodeRecv n₁, .nodeFinish n₁,
    .requestExit n₁ .collective, .nodeRun n₀ true 10, .nodeRun n₁ true 10, .switchRecv n₁,
    .switchRecv n₀, .switchRun true 10, .nodeRecv n₀, .nodeFinish n₀]

theorem exit_ordered_lateOps : ∃ s : DistSync (Fin 2), run step twoNodes lateOps = .ok s
    ∧ s.switch.log.map (fun R => R.decision.doExit) = [false, true]
    ∧ (∀ i, .collective ∈ exitRequests i 1 lateOps)
    ∧ s.switch.numExitReq = (Finset.univ.filter fun i =>
        ∃ p ∈ s.switch.arrived, p.1 = i ∧ p.2.needExit = .collective).card := by
  have hend : Ends (run step twoNodes lateOps)
      fun s => s.switch.log.map (fun R => R.decision.doExit) = [false, true] := by
    decide
  have hkind : ∀ i req, .requestExit i req ∈ lateOps → req = .collective ∨ req = .immediate := by
    intro i req hm
    have hm' : (i = 0 ∧ req = .collective) ∨ (i = 1 ∧ req = .collective) := by
      simpa [lateOps] using hm
    exact .inl (hm'.elim And.right And.right)
  obtain ⟨s, hs, hlog⟩ := hend.exists
  exact ⟨s, hs, hlog, by decide, (exit_ordered hkind hs).2⟩

end Finite

end DistSync

end Gem5
