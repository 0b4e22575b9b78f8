import Gem5.Proofs.DistAsked

/-!
# When a checkpoint is ordered again

Nothing resets the `needCkpt` of a node: from its first request on it stays pending. The switch
starts to count anew after each checkpoint it has ordered, so it never again counts as many
collective requests as there are nodes.
-/

namespace Gem5

open List

namespace DistSync

open Machine

variable {ι : Type}

def SyncSwitch.Ordered (w : SyncSwitch ι) : Prop := ∃ R ∈ w.log, R.decision.doCkpt = true

/-- What the switch knows of the checkpoint requests before its first order, and after it: the node
`i` had a request counted by then, and `c` are the requests counted since. -/
structure CkptInv (w : SyncSwitch ι) : Prop where
  nodup : (requesters .ckpt w.arrived).Nodup
  count : ¬ w.Ordered → w.numCkptReq = (requesters .ckpt w.arrived).length
  immediate : ¬ w.Ordered → (w.doCkpt = true ↔ ∃ p ∈ w.arrived, p.2.needCkpt = .immediate)
  ordered : w.Ordered → ∃ i m c, (i, m) ∈ w.log.flatMap Barrier.counted ∧ m.needCkpt ≠ .none
    ∧ c.Sublist w.arrived ∧ w.numCkptReq = (requesters .ckpt c).length
    ∧ i ∉ requesters .ckpt c

theorem CkptInv.init (numNodes nextAt nextRepeat : ℕ) :
    CkptInv (SyncSwitch.init (ι := ι) numNodes nextAt nextRepeat) where
  nodup := nodup_nil
  count _ := rfl
  immediate _ := by simp [SyncSwitch.init, SyncSwitch.arrived]
  ordered h := by
    obtain ⟨R, hR, -⟩ := h
    cases hR

theorem sublist_requesters {c c' : List (ι × Header)} (h : c.Sublist c') :
    (requesters .ckpt c).Sublist (requesters .ckpt c') :=
  (h.filter _).map _

/-- The request `h` of node `i` is counted. It is the first collective one of the node, and no
request of the node was counted before. -/
theorem CkptInv.progress {w w' : SyncSwitch ι} {i : ι} {h : Header} (hw : CkptInv w)
    (hfirst : h.needCkpt = .collective → i ∉ requesters .ckpt w.arrived)
    (honce : ∀ m, (i, m) ∈ w.log.flatMap Barrier.counted → m.needCkpt ≠ .none →
      h.needCkpt ≠ .collective)
    (hp : w.progress i h = .ok w') : CkptInv w' := by
  rcases SyncSwitch.progress_cases hp with ⟨-, rfl⟩ | ⟨-, -, hw'⟩
  · exact hw
  have harr : w'.arrived = w.arrived ++ [(i, h)] := by
    rw [hw', SyncSwitch.arrived, SyncSwitch.arrived, append_assoc]
  have hlog : w'.log = w.log := by rw [hw']
  have hord : w'.Ordered ↔ w.Ordered := by rw [SyncSwitch.Ordered, hlog, SyncSwitch.Ordered]
  have hdo : w'.doCkpt = true ↔ w.doCkpt = true ∨ h.needCkpt = .immediate := by
    rw [hw', Bool.or_eq_true, beq_iff_eq]
  have hnum : w'.numCkptReq = w.numCkptReq + (requesters .ckpt [(i, h)]).length := by
    rw [hw', requesters_singleton]
    change _ = _ + (if h.needCkpt = .collective then [i] else []).length
    split_ifs <;> rfl
  exact {
    nodup := by
      rw [harr, requesters_append, requesters_singleton]
      split_ifs with hc
      · exact concat_eq_append ▸ hw.nodup.concat (hfirst hc)
      · rw [append_nil]
        exact hw.nodup
    count := fun hno => by
      rw [harr, requesters_append, length_append, hnum, hw.count (mt hord.2 hno)]
    immediate := fun hno => by
      rw [harr, hdo, hw.immediate (mt hord.2 hno)]
      constructor
      · rintro (⟨p, hp, himm⟩ | himm)
        · exact ⟨p, mem_append_left _ hp, himm⟩
        · exact ⟨(i, h), by simp, himm⟩
      · rintro ⟨p, hp, himm⟩
        rcases mem_append.1 hp with hp | hp
        · exact .inl ⟨p, hp, himm⟩
        · rw [mem_singleton.1 hp] at himm
          exact .inr himm
    ordered := fun ho => by
      obtain ⟨j, m, c, hm, hne, hsub, hlen, hj⟩ := hw.ordered (hord.1 ho)
      refine ⟨j, m, c ++ [(i, h)], hlog ▸ hm, hne, ?_, ?_, ?_⟩
      · rw [harr]
        exact hsub.append_right _
      · rw [hnum, hlen, requesters_append, length_append]
      · rw [requesters_append, mem_append, requesters_singleton]
        rintro (hmem | hmem)
        · exact hj hmem
        · split_ifs at hmem with hc
          · obtain rfl := mem_singleton.1 hmem
            exact honce m hm hne hc
          · cases hmem }

section Finite

variable [Fintype ι]

theorem CkptInv.lt_card {w : SyncSwitch ι} (hw : CkptInv w) (ho : w.Ordered) :
    w.numCkptReq < Fintype.card ι := by
  classical
  obtain ⟨i, m, c, -, -, hsub, hlen, hi⟩ := hw.ordered ho
  have hnd : (requesters .ckpt c).Nodup := hw.nodup.sublist (sublist_requesters hsub)
  have hle : (i :: requesters .ckpt c).length ≤ Fintype.card ι :=
    (nodup_cons.2 ⟨hi, hnd⟩).length_le_card
  rw [length_cons] at hle
  omega

variable [Nonempty ι]

theorem CkptInv.requester {w : SyncSwitch ι} (hw : CkptInv w) (hnodes : w.numNodes = Fintype.card ι)
    (hd : w.decision.doCkpt = true) : ∃ i m, (i, m) ∈ w.arrived ∧ m.needCkpt ≠ .none := by
  by_cases ho : w.Ordered
  · obtain ⟨i, m, c, hm, hne, -⟩ := hw.ordered ho
    exact ⟨i, m, mem_append_left _ hm, hne⟩
  · simp only [SyncSwitch.decision, Bool.or_eq_true, beq_iff_eq, hw.immediate ho, hw.count ho,
      hnodes, length_requesters hw.nodup] at hd
    rcases hd with ⟨⟨i, m⟩, hp, himm⟩ | hall
    · refine ⟨i, m, hp, ?_⟩
      rw [show m.needCkpt = .immediate from himm]
      decide
    · obtain ⟨⟨i, m⟩, hp, -, hcol⟩ := hall (Classical.arbitrary ι)
      refine ⟨i, m, hp, ?_⟩
      rw [show m.needCkpt = .collective from hcol]
      decide

theorem CkptInv.run {w w' : SyncSwitch ι} (hw : CkptInv w) (hnodes : w.numNodes = Fintype.card ι)
    {sameTick : Bool} {curTick : ℕ} (h : w.run sameTick curTick = .ok w') : CkptInv w' := by
  have hw' := SyncSwitch.run_cases h
  have harr : w'.arrived = w.arrived := by
    simp [SyncSwitch.arrived, hw', SyncSwitch.toBarrier]
  have hlog : w'.log.flatMap Barrier.counted = w.arrived := by
    simp [SyncSwitch.arrived, hw', SyncSwitch.toBarrier]
  have hord : w'.Ordered ↔ w.Ordered ∨ w.decision.doCkpt = true := by
    simp [SyncSwitch.Ordered, hw', SyncSwitch.toBarrier, or_and_right, exists_or]
  have hdo : w'.doCkpt = w.decision.doCkpt := by rw [hw']
  have hnum : w'.numCkptReq = if w.decision.doCkpt then 0 else w.numCkptReq := by rw [hw']
  rcases hd : w.decision.doCkpt with _ | _
  · rw [hd] at hord hdo hnum
    have hord : w'.Ordered ↔ w.Ordered := by simpa using hord
    have hdo' : w.doCkpt = false := by
      simp only [SyncSwitch.decision, Bool.or_eq_false_iff] at hd
      exact hd.1
    exact {
      nodup := harr ▸ hw.nodup
      count := fun hno => by
        rw [harr, hnum]
        exact hw.count (mt hord.2 hno)
      immediate := fun hno => by
        rw [harr, hdo, ← hdo']
        exact hw.immediate (mt hord.2 hno)
      ordered := fun ho => by
        obtain ⟨i, m, c, hm, hne, hsub, hlen, hi⟩ := hw.ordered (hord.1 ho)
        refine ⟨i, m, c, ?_, hne, harr ▸ hsub, hnum.trans hlen, hi⟩
        rw [hlog]
        exact mem_append_left _ hm }
  · have hord' : w'.Ordered := hord.2 (.inr hd)
    obtain ⟨i, m, hm, hne⟩ := hw.requester hnodes hd
    rw [hd] at hnum
    exact {
      nodup := harr ▸ hw.nodup
      count := fun hno => absurd hord' hno
      immediate := fun hno => absurd hord' hno
      ordered := fun _ =>
        ⟨i, m, [], hlog ▸ hm, hne, nil_sublist _, hnum, by simp [requesters]⟩ }

section Steps

variable [DecidableEq ι] {s s' : DistSync ι} {o : Op ι}

theorem CkptInv.step {ops : List (Op ι)} (hs : SyncInv s)
    (hn : ∀ i, NodeAsked .ckpt i ops (s.link i).node) (hw : CkptInv s.switch)
    (hC : s.ClearsOrdered o) (h : s.step o = .ok s') : CkptInv s'.switch := by
  cases o with
  | switchRun sameTick curTick =>
    obtain ⟨-, ⟨-, rfl⟩ | ⟨-, w, hrun, rfl⟩⟩ := switchRun_cases h
    · exact hw
    · exact hw.run hs.switch.numNodes hrun
  | switchRecv i =>
    obtain ⟨m, rest, w, hup, hp, rfl⟩ := switchRecv_cases h
    obtain ⟨-, hm, hgot⟩ := (hs.link i).requested hup
    exact hw.progress (not_mem_requesters hs (hn i) hgot hm)
      (fun _ hm' hne => not_collective hs (hn i) hm' hne hm) hp
  | nodeRun i sameTick curTick =>
    obtain ⟨-, n, -, rfl⟩ := nodeRun_cases h
    exact hw
  | nodeRecv i =>
    obtain ⟨a, rest, n, -, -, -, rfl⟩ := nodeRecv_cases h
    exact hw
  | nodeFinish i | requestCkpt i req | requestExit i req =>
    simp only [DistSync.step, bind_ok] at h
    obtain ⟨n, -, h⟩ := h
    cases h
    exact hw
  | nodeClearCkpt i | nodeClearStopSync i =>
    simp only [DistSync.step, DistSync.outside] at h
    split_ifs at h
    cases h
    exact hw
  | requestStopSync i req | nodeAbort i =>
    cases h
    exact hw
  | switchAbort | switchClearStopSync =>
    cases h
    exact { hw with }
  | switchClearCkpt =>
    cases h
    obtain ⟨R, hR, hd⟩ := hC rfl
    have ho : s.switch.Ordered := ⟨R, mem_of_getLast? hR, hd⟩
    exact { hw with
      immediate := fun hno => absurd ho hno }

theorem ckpt_inv {nextAt nextRepeat : ℕ} {nodeAt nodeRepeat : ι → ℕ} {ops : List (Op ι)}
    (hkind : ∀ i req, .requestCkpt i req ∈ ops → req = .collective ∨ req = .immediate)
    (hadm : Admits step ClearsOrdered (init nextAt nextRepeat nodeAt nodeRepeat) ops)
    (h : run step (init nextAt nextRepeat nodeAt nodeRepeat) ops = .ok s) :
    (∀ i, NodeAsked .ckpt i ops (s.link i).node) ∧ CkptInv s.switch := by
  refine run_hist (I := fun ops s =>
    (∀ i req, .requestCkpt i req ∈ ops → req = .collective ∨ req = .immediate) →
      Admits step ClearsOrdered (init nextAt nextRepeat nodeAt nodeRepeat) ops →
      (∀ i, NodeAsked .ckpt i ops (s.link i).node) ∧ CkptInv s.switch)
    (fun _ _ => ?_) ?_ h hkind hadm
  · exact ⟨fun i => .init .ckpt i _ _, .init _ _ _⟩
  · intro ops u o u' hu ih hst hkind hadm
    obtain ⟨hpre, hlast⟩ := admits_append hadm
    obtain ⟨hn, hw⟩ := ih (fun i req hm => hkind i req (mem_append_left _ hm)) hpre
    refine ⟨fun i => (hn i).step (fun req ho => ?_) hst,
      hw.step (SyncInv.run hu) hn (hlast u hu).1 hst⟩
    obtain rfl := mem_asks_ckpt ho
    exact hkind i req (mem_append_right _ (mem_singleton_self _))

omit [Nonempty ι] in
theorem CkptInv.orders_first {ops : List (Op ι)} (hs : SyncInv s)
    (hn : ∀ i, NodeAsked .ckpt i ops (s.link i).node) (hw : CkptInv s.switch)
    (h0 : s.switch.waitNum = 0) (ha : s.switch.isAbort = false) (ho : ¬ s.switch.Ordered)
    (hall : ∀ i, .collective ∈ requests .ckpt i s.switch.log.length ops) :
    s.switch.decision.doCkpt = true := by
  simp only [SyncSwitch.decision, Bool.or_eq_true, beq_iff_eq, hw.immediate ho, hw.count ho,
    hs.switch.numNodes, length_requesters hw.nodup]
  have hmem : ∀ i r, r ∈ ((s.link i).node.needs .ckpt).take (s.switch.log.length + 1) →
      ∃ p ∈ s.switch.arrived, p.1 = i ∧ p.2.needCkpt = r := by
    intro i r hr
    obtain ⟨hsent, harr⟩ := mem_arrived hs h0 ha i
    rw [SyncNode.take_needs hsent, mem_map] at hr
    obtain ⟨m, hm, hr⟩ := hr
    exact ⟨(i, m), (harr m).2 hm, rfl, hr⟩
  by_cases hone : ∃ i, .immediate ∈ ((s.link i).node.needs .ckpt).take (s.switch.log.length + 1)
  · obtain ⟨i, hi⟩ := hone
    obtain ⟨p, hp, -, hr⟩ := hmem i _ hi
    exact .inl ⟨p, hp, hr⟩
  · refine .inr fun i => hmem i _ ?_
    exact ((hn i).asked.collective _ (hall i)).resolve_right fun hi => hone ⟨i, hi⟩

end Steps

/-- In every run, a barrier before which all nodes were asked for a collective checkpoint orders one
exactly if the switch's flag is set, by an immediate request or an order that is not carried out
yet, or no checkpoint was ordered before. -/
theorem ckpt_ordered_again_iff [DecidableEq ι] {nextAt nextRepeat : ℕ} {nodeAt nodeRepeat : ι → ℕ}
    {ops : List (Op ι)} {s s' : DistSync ι} {sameTick : Bool} {curTick : ℕ}
    (hkind : ∀ i req, .requestCkpt i req ∈ ops → req = .collective ∨ req = .immediate)
    (hadm : Admits step ClearsOrdered (init nextAt nextRepeat nodeAt nodeRepeat) ops)
    (h : run step (init nextAt nextRepeat nodeAt nodeRepeat) ops = .ok s)
    (hall : ∀ i, .collective ∈ requests .ckpt i s.switch.log.length ops)
    (ha : s.switch.isAbort = false) (hrun : s.step (.switchRun sameTick curTick) = .ok s') :
    ∃ R, s'.switch.log = s.switch.log ++ [R]
      ∧ (R.decision.doCkpt = true ↔
        s.switch.doCkpt = true ∨ ∀ R' ∈ s.switch.log, R'.decision.doCkpt = false) := by
  obtain ⟨hn, hw⟩ := ckpt_inv hkind hadm h
  have hs := SyncInv.run h
  obtain ⟨h0, ⟨ha', -⟩ | ⟨-, w, hw', rfl⟩⟩ := switchRun_cases hrun
  · simp [ha] at ha'
  obtain rfl := SyncSwitch.run_cases hw'
  refine ⟨s.switch.toBarrier, rfl, ?_⟩
  have hnot : ¬ s.switch.Ordered ↔ ∀ R' ∈ s.switch.log, R'.decision.doCkpt = false := by
    simp [SyncSwitch.Ordered]
  rw [← hnot]
  constructor
  · intro hd
    simp only [SyncSwitch.toBarrier, SyncSwitch.decision, Bool.or_eq_true, beq_iff_eq] at hd
    refine hd.imp_right fun hnum ho => ?_
    have hlt := hw.lt_card ho
    have hnodes := hs.switch.numNodes
    omega
  · rintro (hflag | ho)
    · simp [SyncSwitch.toBarrier, SyncSwitch.decision, hflag]
    · exact hw.orders_first hs hn h0 ha ho hall

end Finite

/-- Both nodes send their next message, and the switch counts it. -/
def meet (curTick : ℕ) : List (Op (Fin 2)) :=
  [.nodeRun n₀ false curTick, .nodeRun n₁ false curTick, .switchRecv n₀, .switchRecv n₁]

def leave : List (Op (Fin 2)) :=
  [.switchRun false 0, .nodeRecv n₀, .nodeFinish n₀, .nodeRecv n₁, .nodeFinish n₁]

def askBoth : List (Op (Fin 2)) := [.requestCkpt n₀ .collective, .requestCkpt n₁ .collective]

/-- Both nodes ask for a checkpoint, it is ordered and carried out, and both ask for another one. -/
def againOps : List (Op (Fin 2)) :=
  askBoth ++ meet 10 ++ leave ++ meet 20 ++ leave
    ++ [.nodeClearCkpt n₀, .nodeClearCkpt n₁, .switchClearCkpt] ++ askBoth

theorem kind_againOps {ops : List (Op (Fin 2))}
    (h : ∀ o ∈ ops, ∀ i, ∀ req ∈ o.asks .ckpt i, req = .collective ∨ req = .immediate) :
    ∀ i req, .requestCkpt i req ∈ ops → req = .collective ∨ req = .immediate :=
  fun i req hm => h _ hm i req (by simp [Op.asks])

theorem run_againOps : Ends (run step twoNodes (againOps ++ .requestCkpt 0 .immediate :: meet 30))
    fun s => (∀ i, .collective ∈ requests .ckpt i s.switch.log.length
        (againOps ++ .requestCkpt 0 .immediate :: meet 30))
      ∧ s.switch.isAbort = false ∧ s.switch.doCkpt = true
      ∧ Ends (s.step (.switchRun false 0)) fun _ => True := by
  decide +kernel

theorem ckpt_ordered_again_immediate : ∃ s s' : DistSync (Fin 2),
    run step twoNodes (againOps ++ .requestCkpt 0 .immediate :: meet 30) = .ok s
      ∧ s.step (.switchRun false 0) = .ok s'
      ∧ ∃ R, s'.switch.log = s.switch.log ++ [R] ∧ R.decision.doCkpt = true := by
  obtain ⟨s, hs, hall, ha, hflag, hstep⟩ := run_againOps.exists
  obtain ⟨s', hs', -⟩ := hstep.exists
  obtain ⟨R, hR, hiff⟩ := ckpt_ordered_again_iff (kind_againOps (by decide)) (by decide +kernel)
    hs hall ha hs'
  exact ⟨s, s', hs, hs', R, hR, hiff.2 (.inl hflag)⟩

/-- Without a further immediate request the second checkpoint of both nodes is not ordered. -/
theorem ckpt_not_ordered_again : Ends (run step twoNodes (againOps ++ meet 30)) fun s =>
    (∀ i, .collective ∈ requests .ckpt i s.switch.log.length (againOps ++ meet 30))
      ∧ (∀ i, .requestCkpt i .collective ∈ askBoth) ∧ s.switch.isAbort = false
      ∧ Ends (s.step (.switchRun false 0)) fun s' =>
        s'.switch.log.map (fun R => R.decision.doCkpt) = [true, true, false] := by
  decide +kernel

end DistSync

end Gem5
