import Gem5.DistSync

/-!
# The participants of a barrier agree

When the switch has completed `b` barriers, a node has sent `b` requests, or `b + 1` if it is in the
barrier the switch counts for, and has been sent `b` acknowledgements. So what the switch counts is
the `b`-th request of each node, once (`SwitchInv`, `LinkInv`).
-/

namespace Gem5

open List Function

namespace DistSync

variable {sameTick : Bool} {curTick nextAt nextRepeat : ℕ} {a : Header}

open Machine

variable {ι : Type}

/-- A node that is not aborted: it is in a barrier exactly if it has sent one more request than it
has completed barriers, and all acknowledgements it was sent are completed, on the channel, or
handled with the node about to wake up. -/
structure Live (log : List (Barrier ι)) (l : Link) : Prop where
  sent_length : l.node.sent.length = l.node.log.length + if l.node.waiting.isSome then 1 else 0
  waitNum_le : l.node.waitNum ≤ 1
  waiting : l.node.waitNum ≠ 0 → l.node.waiting.isSome
  acks : log.length = l.node.log.length + l.down.length
    + if l.node.waiting.isSome ∧ l.node.waitNum = 0 then 1 else 0
  down : ∀ a ∈ l.down, ∃ R, log.getLast? = some R ∧ a = SyncSwitch.ack R.decision (log.length - 1)
  handled : l.node.waiting.isSome → l.node.waitNum = 0 →
    ∃ R, log.getLast? = some R ∧ l.node.decision = R.decision

/-- A node and its channels, when the switch has completed the barriers `log` and counted the
requests `got` of the node since. -/
structure LinkInv (log : List (Barrier ι)) (got : Set Header) (l : Link) : Prop where
  sent_ge : log.length ≤ l.node.sent.length
  sent_le : l.node.sent.length ≤ log.length + 1
  seq : ∀ (k : ℕ) m, l.node.sent[k]? = some m → m.seq = k
  up : l.up = [] ∨ ∃ m, l.up = [m] ∧ l.node.sent[log.length]? = some m ∧ got = ∅
  got_sent : ∀ m ∈ got, l.node.sent[log.length]? = some m
  agree : ∀ (k : ℕ) d, l.node.log[k]? = some d → ∃ R, log[k]? = some R ∧ d = R.decision
  live : l.node.isAbort = false → Live log l

section Node

variable {n n' : SyncNode}

theorem SyncNode.run_cases (h : n.run sameTick curTick = .ok n') :
    n.waitNum = 0 ∧ n.isAbort = false ∧ n' = { n with
      waitNum := 1
      needCkpt := SyncNode.afterSend n.needCkpt
      needExit := SyncNode.afterSend n.needExit
      needStopSync := SyncNode.afterSend n.needStopSync
      waiting := some (sameTick, curTick)
      sent := n.sent ++ [n.request curTick] } := by
  simp only [SyncNode.run, bind_ok, require_ok] at h
  obtain ⟨_, hw, _, ha, h⟩ := h
  exact ⟨hw, ha, (Except.ok.inj h).symm⟩

theorem SyncNode.finish_cases (h : n.finish = .ok n') :
    n.waiting.isSome ∧ n.waitNum = 0 ∧ n' = { n with
      waiting := none
      log := if n.isAbort then n.log else n.log ++ [n.decision] } := by
  unfold SyncNode.finish at h
  split at h
  · rename_i st t hw
    split at h
    · rename_i h0
      obtain ⟨_, -, h⟩ := bind_ok.1 h
      exact ⟨by rw [hw]; rfl, h0, (Except.ok.inj h).symm⟩
    · cases h
  · cases h

theorem SyncNode.progress_cases (h : n.progress a = .ok n') :
    (n.isAbort = true ∧ n' = { n with recvThread := false })
      ∨ (n.isAbort = false ∧ n' = { n with
        nextAt := a.sendTick
        nextRepeat := a.syncRepeat
        doCkpt := decide (a.needCkpt ≠ .none)
        doExit := decide (a.needExit ≠ .none)
        doStopSync := decide (a.needStopSync ≠ .none)
        waitNum := n.waitNum - 1
        recvThread := decide (a.needExit = .none) }) := by
  unfold SyncNode.progress at h
  split_ifs at h with ha
  · exact .inl ⟨ha, (Except.ok.inj h).symm⟩
  · obtain ⟨_, -, h⟩ := bind_ok.1 h
    exact .inr ⟨by simpa using ha, (Except.ok.inj h).symm⟩

theorem decision_ack (d : Decision) (k : ℕ) :
    (⟨(SyncSwitch.ack d k).sendTick, (SyncSwitch.ack d k).syncRepeat,
      decide ((SyncSwitch.ack d k).needCkpt ≠ .none),
      decide ((SyncSwitch.ack d k).needExit ≠ .none),
      decide ((SyncSwitch.ack d k).needStopSync ≠ .none)⟩ : Decision) = d := by
  rcases d with ⟨_, _, _ | _, _ | _, _ | _⟩ <;> rfl

end Node

section Links

variable {log : List (Barrier ι)} {g : Set Header} {l : Link} {n' : SyncNode} {rest : List Header}
  {m : Header}

theorem LinkInv.outside (hl : LinkInv log g l) (ha : l.node.isAbort = false)
    (hw : l.node.waiting = none) :
    l.node.sent.length = log.length ∧ l.node.log.length = log.length ∧ l.down = []
      ∧ l.up = [] ∧ g = ∅ := by
  have hv := hl.live ha
  have hsent := hv.sent_length
  have hacks := hv.acks
  have hge := hl.sent_ge
  simp only [hw, Option.isSome_none, Bool.false_eq_true, if_false, false_and, Nat.add_zero]
    at hsent hacks
  have hnone : l.node.sent[log.length]? = none := getElem?_eq_none (by omega)
  refine ⟨by omega, by omega, length_eq_zero_iff.1 (by omega), ?_, ?_⟩
  · rcases hl.up with h | ⟨m, -, hm, -⟩
    · exact h
    · simp [hnone] at hm
  · refine Set.eq_empty_iff_forall_notMem.2 fun m hm => ?_
    have := hl.got_sent m hm
    simp [hnone] at this

theorem LinkInv.run (hl : LinkInv log g l)
    (hw : l.node.waiting = none) (h : l.node.run sameTick curTick = .ok n') :
    LinkInv log g { l with node := n', up := l.up ++ [l.node.request curTick] } := by
  obtain ⟨-, ha, rfl⟩ := SyncNode.run_cases h
  obtain ⟨hsent, hlog, hdown, hup, hg⟩ := hl.outside ha hw
  have hlast : (l.node.sent ++ [l.node.request curTick])[log.length]?
      = some (l.node.request curTick) := by
    rw [← hsent, List.getElem?_concat_length]
  exact {
    sent_ge := by
      simp only [List.length_append]
      omega
    sent_le := by
      simp only [List.length_append, List.length_singleton]
      omega
    seq := fun k m hm => by
      rcases lt_or_ge k l.node.sent.length with hk | hk
      · rw [List.getElem?_append_left hk] at hm
        exact hl.seq k m hm
      · have hk' : k = l.node.sent.length := by
          have := (List.getElem?_eq_some_iff.1 hm).1
          simp only [List.length_append, List.length_singleton] at this
          omega
        rw [hk', List.getElem?_concat_length] at hm
        rw [← Option.some.inj hm, hk']
        rfl
    up := .inr ⟨l.node.request curTick, by rw [hup]; rfl, hlast, hg⟩
    got_sent := by simp [hg]
    agree := hl.agree
    live := fun _ => {
      sent_length := by
        simp only [List.length_append, List.length_singleton, Option.isSome_some, if_true]
        omega
      waitNum_le := le_rfl
      waiting := fun _ => rfl
      acks := by simp [hlog, hdown]
      down := by simp [hdown]
      handled := fun _ h0 => by simp at h0 } }

theorem LinkInv.acked (hl : LinkInv log g l) (ha : l.node.isAbort = false) (hd : l.down = a :: rest) :
    rest = [] ∧ l.node.waiting.isSome ∧ l.node.waitNum = 1
      ∧ log.length = l.node.log.length + 1
      ∧ ∃ R, log.getLast? = some R ∧ a = SyncSwitch.ack R.decision (log.length - 1) := by
  have hv := hl.live ha
  have hsent := hv.sent_length
  have hacks := hv.acks
  have hge := hl.sent_ge
  have hle := hv.waitNum_le
  rw [hd, length_cons] at hacks
  have hw : l.node.waiting.isSome := by
    by_contra hw
    rw [if_neg hw] at hsent
    omega
  rw [if_pos hw] at hsent
  have h0 : l.node.waitNum ≠ 0 := fun h0 => by
    rw [if_pos ⟨hw, h0⟩] at hacks
    omega
  rw [if_neg fun h => h0 h.2] at hacks
  refine ⟨length_eq_zero_iff.1 (by omega), hw, by omega, by omega, ?_⟩
  exact hv.down a (by simp [hd])

theorem LinkInv.recv (hl : LinkInv log g l)
    (hd : l.down = a :: rest) (h : l.node.progress a = .ok n') :
    LinkInv log g { l with node := n', down := rest } := by
  rcases SyncNode.progress_cases h with ⟨ha, rfl⟩ | ⟨ha, rfl⟩
  · exact { hl with live := fun h => by simp [ha] at h }
  · obtain ⟨rfl, hw, hw1, hlog, R, hR, rfl⟩ := hl.acked ha hd
    have hv := hl.live ha
    exact { hl with
      live := fun _ => {
        sent_length := hv.sent_length
        waitNum_le := by
          show l.node.waitNum - 1 ≤ 1
          omega
        waiting := fun _ => hw
        acks := by simp [hw, hw1, hlog]
        down := by simp
        handled := fun _ _ => ⟨R, hR, decision_ack R.decision _⟩ } }

theorem LinkInv.finish (hl : LinkInv log g l) (h : l.node.finish = .ok n') :
    LinkInv log g { l with node := n' } := by
  obtain ⟨hw, h0, rfl⟩ := SyncNode.finish_cases h
  rcases ha : l.node.isAbort with _ | _
  · have hv := hl.live ha
    have hsent := hv.sent_length
    have hacks := hv.acks
    have hge := hl.sent_ge
    rw [if_pos hw] at hsent
    rw [if_pos ⟨hw, h0⟩] at hacks
    obtain ⟨R, hR, hdec⟩ := hv.handled hw h0
    exact { hl with
      agree := fun k d hd => by
        simp only [Bool.false_eq_true, if_false] at hd
        rcases lt_or_ge k l.node.log.length with hk | hk
        · rw [List.getElem?_append_left hk] at hd
          exact hl.agree k d hd
        · have hk' : k = l.node.log.length := by
            have := (List.getElem?_eq_some_iff.1 hd).1
            simp only [List.length_append, List.length_singleton] at this
            omega
          rw [hk', List.getElem?_concat_length] at hd
          refine ⟨R, ?_, ?_⟩
          · rw [← hR, getLast?_eq_getElem?]
            congr 1
            omega
          · rw [← hdec, Option.some.inj hd]
      live := fun _ => {
        sent_length := by
          simp only [Bool.false_eq_true, if_false, List.length_append, List.length_singleton,
            Option.isSome_none]
          omega
        waitNum_le := by
          show l.node.waitNum ≤ 1
          omega
        waiting := fun hne => absurd h0 hne
        acks := by
          simp only [Bool.false_eq_true, if_false, List.length_append, List.length_singleton,
            Option.isSome_none, false_and]
          omega
        down := hv.down
        handled := fun hs => by simp at hs } }
  · exact { hl with live := fun h => by simp at h }

theorem LinkInv.requested (hl : LinkInv log g l)
    (hup : l.up = m :: rest) : rest = [] ∧ l.node.sent[log.length]? = some m ∧ g = ∅ := by
  rcases hl.up with h0 | ⟨m', h1, hm', hg⟩
  · simp [h0] at hup
  · rw [h1, List.cons.injEq] at hup
    obtain ⟨rfl, rfl⟩ := hup
    exact ⟨rfl, hm', hg⟩

theorem LinkInv.abort (hl : LinkInv log g l) :
    LinkInv log g { l with node := { l.node.abort with recvThread := false } } :=
  { hl with live := fun h => by simp [SyncNode.abort] at h }

theorem LinkInv.waits (hl : LinkInv log g l) (hm : m ∈ g)
    (ha : l.node.isAbort = false) : l.node.waiting.isSome ∧ l.node.waitNum ≠ 0 ∧ l.down = []
      ∧ l.node.log.length = log.length := by
  have hlt := (List.getElem?_eq_some_iff.1 (hl.got_sent m hm)).1
  have hv := hl.live ha
  have hlen := hv.sent_length
  have hacks := hv.acks
  have hw : l.node.waiting.isSome := by
    by_contra hw
    rw [if_neg hw] at hlen
    omega
  rw [if_pos hw] at hlen
  have h0 : l.node.waitNum ≠ 0 := fun h0 => by
    rw [if_pos ⟨hw, h0⟩] at hacks
    omega
  rw [if_neg fun h => h0 h.2] at hacks
  exact ⟨hw, h0, length_eq_zero_iff.1 (by omega), by omega⟩

theorem LinkInv.complete (hl : LinkInv log g l) (hm : m ∈ g) (R : Barrier ι) :
    LinkInv (log ++ [R]) ∅
      { l with down := l.down ++ [SyncSwitch.ack R.decision log.length] } := by
  have hsent : l.node.sent.length = log.length + 1 := by
    have hlt := (List.getElem?_eq_some_iff.1 (hl.got_sent m hm)).1
    have hle := hl.sent_le
    omega
  have hup : l.up = [] := by
    rcases hl.up with h | ⟨m', -, -, hg⟩
    · exact h
    · rw [hg] at hm
      exact hm.elim
  exact {
    sent_ge := by
      rw [List.length_append, List.length_singleton]
      exact hsent.ge
    sent_le := by
      rw [List.length_append]
      exact hsent.le.trans (by omega)
    seq := hl.seq
    up := .inl hup
    got_sent := fun m hm => hm.elim
    agree := fun k d hd => by
      obtain ⟨R', hR', hdec⟩ := hl.agree k d hd
      refine ⟨R', ?_, hdec⟩
      rwa [List.getElem?_append_left (List.getElem?_eq_some_iff.1 hR').1]
    live := fun ha => by
      have hv := hl.live ha
      obtain ⟨-, h0, hdown, hlog⟩ := hl.waits hm ha
      exact {
        sent_length := hv.sent_length
        waitNum_le := hv.waitNum_le
        waiting := hv.waiting
        acks := by
          rw [if_neg fun h => h0 h.2, hdown, List.length_append, List.length_singleton]
          simp only [nil_append, List.length_singleton]
          omega
        down := by simp [hdown]
        handled := fun _ h => absurd h h0 } }

end Links

def got (c : List (ι × Header)) (i : ι) : Set Header := {m | (i, m) ∈ c}

theorem got_concat_self (c : List (ι × Header)) (i : ι) (h : Header) :
    got (c ++ [(i, h)]) i = insert h (got c i) := by
  ext m
  simp [got, or_comm]

theorem got_concat_ne (c : List (ι × Header)) {i j : ι} (hj : j ≠ i) (h : Header) :
    got (c ++ [(i, h)]) j = got c j := by
  ext m
  simp [got, hj]

def values (f : Header → ℕ) (c : List (ι × Header)) : Set ℕ := {x | ∃ p ∈ c, f p.2 = x}

/-- The switch has counted at most one request of each node, and holds the largest tick and the
smallest period of what it held before and these. -/
structure Counted (ownAt ownRepeat : ℕ) (c : List (ι × Header))
    (nextAt nextRepeat : ℕ) : Prop where
  nodup : (c.map Prod.fst).Nodup
  nextAt : IsGreatest (insert ownAt (values Header.sendTick c)) nextAt
  nextRepeat : IsLeast (insert ownRepeat (values Header.syncRepeat c)) nextRepeat

theorem values_concat (f : Header → ℕ) (c : List (ι × Header)) (i : ι) (h : Header) :
    values f (c ++ [(i, h)]) = insert (f h) (values f c) := by
  ext x
  simp only [values, mem_append, mem_singleton, Set.mem_ofPred_eq, Set.mem_insert_iff]
  constructor
  · rintro ⟨p, hp | rfl, rfl⟩
    · exact .inr ⟨p, hp, rfl⟩
    · exact .inl rfl
  · rintro (rfl | ⟨p, hp, rfl⟩)
    · exact ⟨(i, h), .inr rfl, rfl⟩
    · exact ⟨p, .inl hp, rfl⟩

theorem Counted.concat {ownAt ownRepeat : ℕ} {c : List (ι × Header)}
    (hc : Counted ownAt ownRepeat c nextAt nextRepeat) {i : ι} {h : Header}
    (hi : i ∉ c.map Prod.fst) :
    Counted ownAt ownRepeat (c ++ [(i, h)]) (max h.sendTick nextAt)
      (min h.syncRepeat nextRepeat) where
  nodup := by
    rw [map_append, map_singleton]
    exact concat_eq_append ▸ hc.nodup.concat hi
  nextAt := by
    rw [values_concat, Set.insert_comm]
    exact hc.nextAt.insert h.sendTick
  nextRepeat := by
    rw [values_concat, Set.insert_comm]
    exact hc.nextRepeat.insert h.syncRepeat

theorem SyncSwitch.progress_cases {w w' : SyncSwitch ι} {i : ι} {h : Header} (hw : w.progress i h = .ok w') :
    (w.isAbort = true ∧ w' = w)
      ∨ (w.isAbort = false ∧ 0 < w.waitNum ∧ w' = { w with
        nextAt := max h.sendTick w.nextAt
        nextRepeat := min h.syncRepeat w.nextRepeat
        numCkptReq := w.numCkptReq + if h.needCkpt = .collective then 1 else 0
        doCkpt := w.doCkpt || h.needCkpt == .immediate
        numExitReq := w.numExitReq + if h.needExit = .collective then 1 else 0
        doExit := w.doExit || h.needExit == .immediate
        numStopSyncReq := w.numStopSyncReq + if h.needStopSync = .collective then 1 else 0
        doStopSync := w.doStopSync || h.needStopSync == .immediate
        waitNum := w.waitNum - 1
        counted := w.counted ++ [(i, h)] }) := by
  unfold SyncSwitch.progress at hw
  split at hw
  · rename_i ha
    exact .inl ⟨ha, (Except.ok.inj hw).symm⟩
  · rename_i ha
    simp only [bind_ok, require_ok] at hw
    obtain ⟨_, hpos, hw⟩ := hw
    exact .inr ⟨by simpa using ha, hpos, (Except.ok.inj hw).symm⟩

theorem SyncSwitch.run_cases {w w' : SyncSwitch ι}
    (h : w.run sameTick curTick = .ok w') : w' = { w with
      waitNum := w.numNodes
      doCkpt := w.decision.doCkpt
      numCkptReq := if w.decision.doCkpt then 0 else w.numCkptReq
      doExit := w.decision.doExit
      doStopSync := w.decision.doStopSync
      numStopSyncReq := if w.decision.doStopSync then 0 else w.numStopSyncReq
      ownAt := w.nextAt
      ownRepeat := w.nextRepeat
      counted := []
      log := w.log ++ [w.toBarrier] } := by
  simp only [SyncSwitch.run, bind_ok] at h
  obtain ⟨_, -, h⟩ := h
  exact (Except.ok.inj h).symm

section Cases

variable {s s' : DistSync ι} {i : ι}

theorem requestExit_cases [DecidableEq ι] {req : ReqType}
    (h : s.step (.requestExit i req) = .ok s') : s' = s.setNode i { (s.link i).node with
      needExit := if (s.link i).node.needExit = .none ∨ req = .immediate then req
        else (s.link i).node.needExit } := by
  simp only [DistSync.step, SyncNode.requestExit, SyncNode.addRequest, bind_ok, require_ok] at h
  obtain ⟨n, ⟨r, ⟨_, -, hr⟩, hn⟩, h⟩ := h
  cases hr
  cases hn
  exact (Except.ok.inj h).symm

theorem requestCkpt_cases [DecidableEq ι] {req : ReqType}
    (h : s.step (.requestCkpt i req) = .ok s') : s' = s.setNode i { (s.link i).node with
      needCkpt := if (s.link i).node.needCkpt = .none ∨ req = .immediate then req
        else (s.link i).node.needCkpt } := by
  simp only [DistSync.step, SyncNode.requestCkpt, SyncNode.addRequest, bind_ok, require_ok] at h
  obtain ⟨n, ⟨r, ⟨_, -, hr⟩, hn⟩, h⟩ := h
  cases hr
  cases hn
  exact (Except.ok.inj h).symm

theorem switchRun_cases (h : s.switchRun sameTick curTick = .ok s') :
    s.switch.waitNum = 0 ∧ ((s.switch.isAbort = true ∧ s' = s)
      ∨ (s.switch.isAbort = false ∧ ∃ w, s.switch.run sameTick curTick = .ok w ∧ s' = {
        switch := w
        link := fun i => { s.link i with down := (s.link i).down
          ++ [SyncSwitch.ack s.switch.decision s.switch.log.length] } })) := by
  simp only [DistSync.switchRun] at h
  split_ifs at h with h0 ha
  · exact ⟨h0, .inl ⟨ha, (Except.ok.inj h).symm⟩⟩
  · obtain ⟨w, hw, h⟩ := bind_ok.1 h
    exact ⟨h0, .inr ⟨by simpa using ha, w, hw, (Except.ok.inj h).symm⟩⟩

variable [DecidableEq ι]

theorem nodeRun_cases (h : s.nodeRun i sameTick curTick = .ok s') :
    (s.link i).node.waiting = none ∧ ∃ n, (s.link i).node.run sameTick curTick = .ok n
      ∧ s' = s.setLink i { s.link i with
        node := n, up := (s.link i).up ++ [(s.link i).node.request curTick] } := by
  simp only [DistSync.nodeRun] at h
  split_ifs at h with hw
  obtain ⟨n, hn, h⟩ := bind_ok.1 h
  exact ⟨hw, n, hn, (Except.ok.inj h).symm⟩

theorem nodeRecv_cases (h : s.nodeRecv i = .ok s') : ∃ a rest n, (s.link i).down = a :: rest
    ∧ (s.link i).node.recvThread = true ∧ (s.link i).node.progress a = .ok n
    ∧ s' = s.setLink i { s.link i with node := n, down := rest } := by
  simp only [DistSync.nodeRecv] at h
  split at h
  · rename_i a rest hd
    split_ifs at h with hr
    obtain ⟨n, hn, h⟩ := bind_ok.1 h
    exact ⟨a, rest, n, hd, hr, hn, (Except.ok.inj h).symm⟩
  · cases h

theorem switchRecv_cases (h : s.switchRecv i = .ok s') : ∃ m rest w, (s.link i).up = m :: rest
    ∧ s.switch.progress i m = .ok w
    ∧ s' = DistSync.setLink { s with switch := w } i { s.link i with up := rest } := by
  simp only [DistSync.switchRecv] at h
  split at h
  · rename_i m rest hup
    obtain ⟨w, hw, h⟩ := bind_ok.1 h
    exact ⟨m, rest, w, hup, hw, (Except.ok.inj h).symm⟩
  · cases h

end Cases

variable [Fintype ι]

structure SwitchInv (w : SyncSwitch ι) : Prop where
  numNodes : w.numNodes = Fintype.card ι
  counted : Counted w.ownAt w.ownRepeat w.counted w.nextAt w.nextRepeat
  waitNum : w.isAbort = false → w.waitNum + w.counted.length = Fintype.card ι

theorem SwitchInv.length_counted {w : SyncSwitch ι} (hw : SwitchInv w) (ha : w.isAbort = false)
    (h0 : w.waitNum = 0) : w.counted.length = Fintype.card ι := by
  have := hw.waitNum ha
  omega

/-- A completed barrier counted the `b`-th request of every node and nothing else. -/
structure BarrierInv (link : ι → Link) (b : ℕ) (R : Barrier ι) : Prop where
  counted : Counted R.ownAt R.ownRepeat R.counted R.decision.nextAt R.decision.nextRepeat
  length : R.counted.length = Fintype.card ι
  sent : ∀ i m, (i, m) ∈ R.counted → (link i).node.sent[b]? = some m

structure SyncInv (s : DistSync ι) : Prop where
  link : ∀ i, LinkInv s.switch.log (got s.switch.counted i) (s.link i)
  switch : SwitchInv s.switch
  barrier : ∀ (b : ℕ) R, s.switch.log[b]? = some R → BarrierInv s.link b R

theorem init_inv (nextAt nextRepeat : ℕ) (nodeAt nodeRepeat : ι → ℕ) :
    SyncInv (init nextAt nextRepeat nodeAt nodeRepeat) where
  link i := {
    sent_ge := by simp [init, SyncSwitch.init]
    sent_le := by simp [init, SyncNode.init]
    seq := by simp [init, SyncNode.init]
    up := .inl rfl
    got_sent := by simp [init, SyncSwitch.init, got]
    agree := by simp [init, SyncNode.init]
    live := fun _ => {
      sent_length := by simp [init, SyncNode.init]
      waitNum_le := by simp [init, SyncNode.init]
      waiting := by simp [init, SyncNode.init]
      acks := by simp [init, SyncSwitch.init, SyncNode.init]
      down := by simp [init]
      handled := by simp [init, SyncNode.init] } }
  switch := {
    numNodes := rfl
    counted := {
      nodup := by simp [init, SyncSwitch.init]
      nextAt := by simp [init, SyncSwitch.init, values]
      nextRepeat := by simp [init, SyncSwitch.init, values] }
    waitNum := by simp [init, SyncSwitch.init] }
  barrier b R h := by simp [init, SyncSwitch.init] at h

theorem Counted.exists_mem {ownAt ownRepeat : ℕ} {c : List (ι × Header)}
    (hc : Counted ownAt ownRepeat c nextAt nextRepeat) (hlen : c.length = Fintype.card ι) (i : ι) :
    ∃ m, (i, m) ∈ c := by
  classical
  have huniv : (c.map Prod.fst).toFinset = Finset.univ := by
    refine Finset.eq_univ_of_card _ ?_
    rw [toFinset_card_of_nodup hc.nodup, length_map, hlen]
  have hi : i ∈ (c.map Prod.fst).toFinset := by
    rw [huniv]
    exact Finset.mem_univ i
  rw [mem_toFinset, mem_map] at hi
  obtain ⟨⟨j, m⟩, hm, rfl⟩ := hi
  exact ⟨m, hm⟩

theorem SyncInv.switchRun {s s' : DistSync ι} (hs : SyncInv s)
    (h : s.switchRun sameTick curTick = .ok s') : SyncInv s' := by
  obtain ⟨h0, ⟨-, rfl⟩ | ⟨ha, w, hw, rfl⟩⟩ := switchRun_cases h
  · exact hs
  · obtain rfl := SyncSwitch.run_cases hw
    have hlen := hs.switch.length_counted ha h0
    exact {
      link := fun i => by
        obtain ⟨m, hm⟩ := hs.switch.counted.exists_mem hlen i
        have hc := (hs.link i).complete (m := m) hm s.switch.toBarrier
        simpa [got, SyncSwitch.toBarrier] using hc
      switch := {
        numNodes := hs.switch.numNodes
        counted := {
          nodup := nodup_nil
          nextAt := by simp [values]
          nextRepeat := by simp [values] }
        waitNum := fun _ => by simp [hs.switch.numNodes] }
      barrier := fun b R hR => by
        rcases lt_or_ge b s.switch.log.length with hb | hb
        · rw [List.getElem?_append_left hb] at hR
          have hold := hs.barrier b R hR
          exact ⟨hold.counted, hold.length, hold.sent⟩
        · have hb' : b = s.switch.log.length := by
            have := (List.getElem?_eq_some_iff.1 hR).1
            simp only [List.length_append, List.length_singleton] at this
            omega
          rw [hb', List.getElem?_concat_length] at hR
          obtain rfl := Option.some.inj hR
          exact ⟨hs.switch.counted, hlen, fun i m hm => hb' ▸ (hs.link i).got_sent m hm⟩ }

section Steps

variable [DecidableEq ι] {s s' : DistSync ι} {i : ι}

theorem SyncInv.setLink (hs : SyncInv s) {l : Link}
    (hl : LinkInv s.switch.log (got s.switch.counted i) l) (hp : (s.link i).node.sent <+: l.node.sent) :
    SyncInv (s.setLink i l) where
  link j := by
    by_cases hj : j = i
    · subst hj
      simpa [DistSync.setLink] using hl
    · simpa [DistSync.setLink, update_of_ne hj] using hs.link j
  switch := hs.switch
  barrier b R hR := by
    have hb := hs.barrier b R hR
    refine { hb with sent := fun j m hm => ?_ }
    have hsent := hb.sent j m hm
    by_cases hj : j = i
    · subst hj
      obtain ⟨t, ht⟩ := hp
      have hlt := (List.getElem?_eq_some_iff.1 hsent).1
      simp only [DistSync.setLink, update_self]
      rwa [← ht, List.getElem?_append_left hlt]
    · simpa [DistSync.setLink, update_of_ne hj] using hsent

theorem SyncInv.setNode (hs : SyncInv s) {n : SyncNode}
    (hl : LinkInv s.switch.log (got s.switch.counted i) { s.link i with node := n })
    (hp : n.sent = (s.link i).node.sent) : SyncInv (s.setNode i n) :=
  hs.setLink hl (hp ▸ prefix_rfl)

theorem SyncInv.outside (hs : SyncInv s) {n : SyncNode}
    (hl : (s.link i).node.waiting = none →
      LinkInv s.switch.log (got s.switch.counted i) { s.link i with node := n })
    (hp : n.sent = (s.link i).node.sent) (h : s.outside i n = .ok s') : SyncInv s' := by
  unfold DistSync.outside at h
  split_ifs at h with hw
  cases h
  exact hs.setNode (hl hw) hp

theorem SyncInv.nodeRun (hs : SyncInv s)
    (h : s.nodeRun i sameTick curTick = .ok s') : SyncInv s' := by
  obtain ⟨hw, n, hn, rfl⟩ := nodeRun_cases h
  refine hs.setLink ((hs.link i).run hw hn) ?_
  obtain ⟨-, -, rfl⟩ := SyncNode.run_cases hn
  exact prefix_append _ _

theorem SyncInv.nodeRecv (hs : SyncInv s) (h : s.nodeRecv i = .ok s') : SyncInv s' := by
  obtain ⟨a, rest, n, hd, -, hn, rfl⟩ := nodeRecv_cases h
  refine hs.setLink ((hs.link i).recv hd hn) ?_
  rcases SyncNode.progress_cases hn with ⟨-, rfl⟩ | ⟨-, rfl⟩ <;> exact prefix_rfl

theorem SyncInv.switchRecv (hs : SyncInv s) (h : s.switchRecv i = .ok s') : SyncInv s' := by
  obtain ⟨m, rest, w, hup, hw, rfl⟩ := switchRecv_cases h
  have hl := hs.link i
  obtain ⟨rfl, hsent, hgot⟩ := hl.requested hup
  rcases SyncSwitch.progress_cases hw with ⟨-, rfl⟩ | ⟨ha, hpos, rfl⟩
  · refine SyncInv.setLink hs ?_ prefix_rfl
    exact { hl with
      up := .inl rfl
      live := fun h => { hl.live h with } }
  · have hi : i ∉ s.switch.counted.map Prod.fst := by
      intro hi
      obtain ⟨⟨j, m'⟩, hm', rfl⟩ := mem_map.1 hi
      have : m' ∈ got s.switch.counted j := hm'
      rw [hgot] at this
      exact this
    have hwait := hs.switch.waitNum ha
    exact {
      link := fun j => by
        by_cases hj : j = i
        · subst hj
          simp only [DistSync.setLink, update_self, got_concat_self, hgot]
          exact { hl with
            up := .inl rfl
            got_sent := fun m' hm' => by
              have hm : m' = m := by simpa using hm'
              rwa [hm]
            live := fun h => { hl.live h with } }
        · simp only [DistSync.setLink, update_of_ne hj, got_concat_ne _ hj]
          exact hs.link j
      switch := {
        numNodes := hs.switch.numNodes
        counted := hs.switch.counted.concat hi
        waitNum := fun _ => by
          simp only [DistSync.setLink, List.length_append, List.length_singleton]
          omega }
      barrier := fun b R hR => by
        have hb := hs.barrier b R hR
        refine { hb with sent := fun j m hm => ?_ }
        have hj := hb.sent j m hm
        by_cases hji : j = i
        · subst hji
          simpa [DistSync.setLink] using hj
        · simpa [DistSync.setLink, update_of_ne hji] using hj }

theorem SyncInv.step (hs : SyncInv s) {o : Op ι} (h : s.step o = .ok s') : SyncInv s' := by
  cases o with
  | nodeRun i sameTick curTick => exact hs.nodeRun h
  | nodeFinish i =>
    simp only [DistSync.step, bind_ok] at h
    obtain ⟨n, hn, h⟩ := h
    cases h
    refine hs.setNode ((hs.link i).finish hn) ?_
    obtain ⟨-, -, rfl⟩ := SyncNode.finish_cases hn
    rfl
  | nodeRecv i => exact hs.nodeRecv h
  | switchRun sameTick curTick => exact hs.switchRun h
  | switchRecv i => exact hs.switchRecv h
  | requestCkpt i req =>
    obtain rfl := requestCkpt_cases h
    have hl := hs.link i
    exact hs.setNode { hl with live := fun ha => { hl.live ha with } } rfl
  | requestExit i req =>
    obtain rfl := requestExit_cases h
    have hl := hs.link i
    exact hs.setNode { hl with live := fun ha => { hl.live ha with } } rfl
  | requestStopSync i req =>
    cases h
    have hl := hs.link i
    exact hs.setNode { hl with live := fun ha => { hl.live ha with } } rfl
  | nodeAbort i =>
    cases h
    exact hs.setNode (hs.link i).abort rfl
  | switchAbort =>
    cases h
    exact { hs with
      switch := { hs.switch with waitNum := fun ha => by simp [SyncSwitch.abort] at ha } }
  | nodeClearCkpt i | nodeClearStopSync i =>
    have hl := hs.link i
    refine SyncInv.outside hs (fun hw => ?_) ?_ h
    · exact { hl with live := fun ha => { hl.live ha with
        handled := fun hs => by simp [hw] at hs } }
    · rfl
  | switchClearCkpt | switchClearStopSync =>
    cases h
    exact { hs with switch := { hs.switch with } }

theorem SyncInv.run {nodeAt nodeRepeat : ι → ℕ} {ops : List (Op ι)}
    (h : run DistSync.step (init nextAt nextRepeat nodeAt nodeRepeat) ops = .ok s) : SyncInv s :=
  run_inv (fun _ _ _ hi hst => hi.step hst) (init_inv nextAt nextRepeat nodeAt nodeRepeat) h

end Steps

theorem BarrierInv.exists_request {link : ι → Link} {b : ℕ} {R : Barrier ι}
    (hR : BarrierInv link b R) : ∃ m : ι → Header, (∀ i, (link i).node.sent[b]? = some (m i))
      ∧ (∀ i x, (i, x) ∈ R.counted ↔ x = m i)
      ∧ ∀ f, values f R.counted = Set.range fun i => f (m i) := by
  choose m hm using hR.counted.exists_mem hR.length
  have huniq : ∀ i x, (i, x) ∈ R.counted ↔ x = m i := by
    refine fun i x => ⟨fun hx => ?_, fun hx => hx ▸ hm i⟩
    exact Option.some.inj ((hR.sent i x hx).symm.trans (hR.sent i (m i) (hm i)))
  refine ⟨m, fun i => hR.sent i (m i) (hm i), huniq, fun f => ?_⟩
  ext v
  constructor
  · rintro ⟨⟨i, x⟩, hx, rfl⟩
    exact ⟨i, by rw [(huniq i x).1 hx]⟩
  · rintro ⟨i, rfl⟩
    exact ⟨(i, m i), hm i, rfl⟩

/-- In every run, the `b`-th barrier of the switch counted the `b`-th request of every node, once,
and no other message. Its next tick is the largest of theirs and the switch's own, its period the
smallest. What a node holds at the end of its `b`-th barrier is what the switch held at the end of
its own. -/
theorem barrier_agreement [DecidableEq ι] {nextAt nextRepeat : ℕ} {nodeAt nodeRepeat : ι → ℕ}
    {ops : List (Op ι)} {s : DistSync ι}
    (h : run step (init nextAt nextRepeat nodeAt nodeRepeat) ops = .ok s) :
    (∀ (b : ℕ) R, s.switch.log[b]? = some R → ∃ m : ι → Header,
      (∀ i, (s.link i).node.sent[b]? = some (m i) ∧ (m i).seq = b)
        ∧ (∀ i x, (i, x) ∈ R.counted ↔ x = m i) ∧ R.counted.length = Fintype.card ι
        ∧ IsGreatest (insert R.ownAt (Set.range fun i => (m i).sendTick)) R.decision.nextAt
        ∧ IsLeast (insert R.ownRepeat (Set.range fun i => (m i).syncRepeat)) R.decision.nextRepeat)
      ∧ ∀ i (b : ℕ) d, (s.link i).node.log[b]? = some d →
        ∃ R, s.switch.log[b]? = some R ∧ d = R.decision := by
  have hs := SyncInv.run h
  refine ⟨fun b R hR => ?_, fun i b d hd => (hs.link i).agree b d hd⟩
  have hb := hs.barrier b R hR
  obtain ⟨m, hsent, hmem, hval⟩ := hb.exists_request
  refine ⟨m, fun i => ⟨hsent i, (hs.link i).seq b _ (hsent i)⟩, hmem, hb.length, ?_, ?_⟩
  · rw [← hval Header.sendTick]
    exact hb.counted.nextAt
  · rw [← hval Header.syncRepeat]
    exact hb.counted.nextRepeat

abbrev n₀ : Fin 2 := 0

abbrev n₁ : Fin 2 := 1

def twoNodes : DistSync (Fin 2) := init 5 100 (fun _ => 0) fun i => 50 + i.val

/-- Two nodes go through a barrier, and the first is in the next one before the second is out. -/
def twoNodesOps : List (Op (Fin 2)) :=
  [.nodeRun 0 false 10, .requestExit 1 .immediate, .nodeRun 1 false 20, .switchRecv 1,
    .switchRecv 0, .switchRun false 0, .nodeRecv 0, .nodeFinish 0, .nodeRun 0 false 40,
    .switchRecv 0, .nodeRecv 1, .nodeFinish 1]

theorem barrier_agreement_twoNodesOps : ∃ s : DistSync (Fin 2),
    run step twoNodes twoNodesOps = .ok s
    ∧ ((s.link 1).node.log = [⟨20, 50, false, true, false⟩] ∧ s.switch.nextAt = 40)
    ∧ (∀ (b : ℕ) R, s.switch.log[b]? = some R → ∃ m : Fin 2 → Header,
      (∀ i, (s.link i).node.sent[b]? = some (m i) ∧ (m i).seq = b)
        ∧ (∀ i x, (i, x) ∈ R.counted ↔ x = m i) ∧ R.counted.length = Fintype.card (Fin 2)
        ∧ IsGreatest (insert R.ownAt (Set.range fun i => (m i).sendTick)) R.decision.nextAt
        ∧ IsLeast (insert R.ownRepeat (Set.range fun i => (m i).syncRepeat)) R.decision.nextRepeat)
    ∧ ∀ i (b : ℕ) d, (s.link i).node.log[b]? = some d →
      ∃ R, s.switch.log[b]? = some R ∧ d = R.decision := by
  have hend : Ends (run step twoNodes twoNodesOps)
      fun s => (s.link 1).node.log = [⟨20, 50, false, true, false⟩] ∧ s.switch.nextAt = 40 := by
    decide
  obtain ⟨s, hs, hlog⟩ := hend.exists
  exact ⟨s, hs, hlog, barrier_agreement hs⟩

end DistSync

end Gem5
