import Gem5.Proofs.DistSync

/-!
# The period of the barriers

No barrier decides on a period above what a participant has started with.
-/

namespace Gem5

namespace DistSync

open Machine

variable {ι : Type}

structure RepeatInv (own : ℕ) (nodeOwn : ι → ℕ) (s : DistSync ι) : Prop where
  switch : s.switch.nextRepeat ≤ own
  node : ∀ i, (s.link i).node.nextRepeat ≤ nodeOwn i
  sent : ∀ i, ∀ m ∈ (s.link i).node.sent, m.syncRepeat ≤ nodeOwn i
  log : ∀ R ∈ s.switch.log, R.decision.nextRepeat ≤ own ∧ ∀ i, R.decision.nextRepeat ≤ nodeOwn i

theorem RepeatInv.init [Fintype ι] (nextAt nextRepeat : ℕ) (nodeAt nodeRepeat : ι → ℕ) :
    RepeatInv nextRepeat nodeRepeat (DistSync.init nextAt nextRepeat nodeAt nodeRepeat) where
  switch := le_rfl
  node _ := le_rfl
  sent _ _ hm := nomatch hm
  log _ hR := nomatch hR

variable {own : ℕ} {nodeOwn : ι → ℕ} {s s' : DistSync ι} {i : ι}

theorem RepeatInv.switchRun [Fintype ι] (h : RepeatInv own nodeOwn s) (hs : SyncInv s) {sameTick : Bool}
    {curTick : ℕ} (hst : s.switchRun sameTick curTick = .ok s') : RepeatInv own nodeOwn s' := by
  obtain ⟨h0, ⟨-, rfl⟩ | ⟨ha, w, hw, rfl⟩⟩ := switchRun_cases hst
  · exact h
  · obtain rfl := SyncSwitch.run_cases hw
    have hlen := hs.switch.length_counted ha h0
    refine ⟨h.switch, h.node, h.sent, fun R hR => ?_⟩
    rcases List.mem_append.1 hR with hR | hR
    · exact h.log R hR
    · rw [List.mem_singleton.1 hR]
      refine ⟨h.switch, fun i => ?_⟩
      obtain ⟨m, hm⟩ := hs.switch.counted.exists_mem hlen i
      have hle : s.switch.nextRepeat ≤ m.syncRepeat :=
        hs.switch.counted.nextRepeat.2 (.inr ⟨(i, m), hm, rfl⟩)
      exact hle.trans (h.sent i m (List.mem_of_getElem? ((hs.link i).got_sent m hm)))

variable [DecidableEq ι]

theorem RepeatInv.setLink (h : RepeatInv own nodeOwn s) {l : Link}
    (hnode : l.node.nextRepeat ≤ nodeOwn i) (hsent : ∀ m ∈ l.node.sent, m.syncRepeat ≤ nodeOwn i) :
    RepeatInv own nodeOwn (s.setLink i l) where
  switch := h.switch
  log := h.log
  node j := by
    by_cases hj : j = i
    · subst hj
      simpa [DistSync.setLink] using hnode
    · simpa [DistSync.setLink, Function.update_of_ne hj] using h.node j
  sent j := by
    by_cases hj : j = i
    · subst hj
      simpa [DistSync.setLink] using hsent
    · simpa [DistSync.setLink, Function.update_of_ne hj] using h.sent j

theorem RepeatInv.outside (h : RepeatInv own nodeOwn s) {n : SyncNode}
    (hrep : n.nextRepeat = (s.link i).node.nextRepeat) (hsent : n.sent = (s.link i).node.sent)
    (hst : s.outside i n = .ok s') : RepeatInv own nodeOwn s' := by
  unfold DistSync.outside at hst
  split_ifs at hst
  cases hst
  exact h.setLink (hrep ▸ h.node i) (hsent ▸ h.sent i)

theorem RepeatInv.nodeRecv [Fintype ι] (h : RepeatInv own nodeOwn s) (hs : SyncInv s)
    (hst : s.nodeRecv i = .ok s') : RepeatInv own nodeOwn s' := by
  obtain ⟨a, rest, n, hdown, -, hn, rfl⟩ := nodeRecv_cases hst
  rcases SyncNode.progress_cases hn with ⟨-, rfl⟩ | ⟨ha, rfl⟩
  · exact h.setLink (h.node i) (h.sent i)
  · obtain ⟨-, -, -, -, R, hR, rfl⟩ := (hs.link i).acked ha hdown
    exact h.setLink ((h.log R (List.mem_of_getLast? hR)).2 i) (h.sent i)

theorem RepeatInv.switchRecv (h : RepeatInv own nodeOwn s) (hst : s.switchRecv i = .ok s') :
    RepeatInv own nodeOwn s' := by
  obtain ⟨m, rest, w, -, hw, rfl⟩ := switchRecv_cases hst
  rcases SyncSwitch.progress_cases hw with ⟨-, rfl⟩ | ⟨-, -, rfl⟩
  · exact h.setLink (h.node i) (h.sent i)
  · refine RepeatInv.setLink ?_ (h.node i) (h.sent i)
    exact ⟨(min_le_right _ _).trans h.switch, h.node, h.sent, h.log⟩

theorem RepeatInv.step [Fintype ι] (h : RepeatInv own nodeOwn s) (hs : SyncInv s) {o : Op ι}
    (hst : s.step o = .ok s') : RepeatInv own nodeOwn s' := by
  cases o with
  | nodeRun i sameTick curTick =>
    obtain ⟨-, n, hn, rfl⟩ := nodeRun_cases hst
    obtain ⟨-, -, rfl⟩ := SyncNode.run_cases hn
    refine h.setLink (h.node i) fun m hm => ?_
    rcases List.mem_append.1 hm with hm | hm
    · exact h.sent i m hm
    · rw [List.mem_singleton.1 hm]
      exact h.node i
  | nodeFinish i =>
    simp only [DistSync.step, bind_ok] at hst
    obtain ⟨n, hn, hst⟩ := hst
    cases hst
    obtain ⟨-, -, rfl⟩ := SyncNode.finish_cases hn
    exact h.setLink (h.node i) (h.sent i)
  | nodeRecv i => exact h.nodeRecv hs hst
  | switchRun sameTick curTick => exact h.switchRun hs hst
  | switchRecv i => exact h.switchRecv hst
  | requestCkpt i req =>
    obtain rfl := requestCkpt_cases hst
    exact h.setLink (h.node i) (h.sent i)
  | requestExit i req =>
    obtain rfl := requestExit_cases hst
    exact h.setLink (h.node i) (h.sent i)
  | requestStopSync i req | nodeAbort i =>
    cases hst
    exact h.setLink (h.node i) (h.sent i)
  | nodeClearCkpt i | nodeClearStopSync i => exact RepeatInv.outside h (by rfl) (by rfl) hst
  | switchAbort | switchClearCkpt | switchClearStopSync =>
    cases hst
    exact { h with }

end DistSync

end Gem5
