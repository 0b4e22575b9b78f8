import Gem5.Proofs.DistChannel
import Gem5.Proofs.DistRepeat

/-!
# Packets arrive in time

A packet is on the wire before the message with which its sender enters the next barrier, and behind
the one with which the last barrier ended. So when it arrives, the receiver has left as many barriers
as the sender had, or is about to leave the last of them (`Follows.arrives`).
-/

namespace Gem5

open List Function

namespace DistNet

variable {rest : List (Option Desc)} {p' x : Proc} {n : DistSync.SyncNode} {w : Wait} {d : Dir}

open Machine
open DistSync (Decision Header Link SyncSwitch SyncInv RepeatInv Barrier got LinkInv)
open RecvScheduler (Desc subTick)

variable {ι : Type}

/-- The channel to the switch: packets of this period, and then the request of the node. -/
def UpInv (ds : List Decision) (l : Link) (g : Set Header) (wire : List (Option Desc)) : Prop :=
  (∃ xs : List Desc, wire = xs.map some ++ l.up.map (fun _ => none) ∧ ∀ x ∈ xs, InPeriod ds x)
    ∧ (g.Nonempty → wire = [])

/-- The channel to a node: packets of the period before, the acknowledgement, and packets of this
period. -/
def DownInv (ds : List Decision) (l : Link) (wire : List (Option Desc)) : Prop :=
  ∃ xs ys : List Desc, wire = xs.map some ++ l.down.map (fun _ => none) ++ ys.map some
    ∧ (∀ x ∈ xs, InPeriod ds.dropLast x) ∧ (l.down = [] → xs = []) ∧ ∀ y ∈ ys, InPeriod ds y

/-- A node with its channels, when the switch has counted its requests `g`. -/
structure NodeInv (ds : List Decision) (g : Set Header) (l : Link) (p : Proc)
    (up down : List (Option Desc)) : Prop where
  follows : Follows ds p
  passed : p.passed = l.node.log.length
  wait : p.wait.isSome = l.node.waiting.isSome
  abort : l.node.isAbort = true → p.exited = true ∧ l.node.recvThread = false
  up : UpInv ds l g up
  down : l.node.isAbort = false → DownInv ds l down

/-- The switch, `released` from its last barrier or not. -/
structure SwitchAt (ds : List Decision) (w : SyncSwitch ι) (p : Proc) (released : Bool) : Prop where
  follows : Follows ds p
  passed : p.passed + (if released then 1 else 0) = ds.length
  wait : released = true → p.wait.isSome
  ckpt : p.draining = true → released = false → w.doCkpt = true

section Node

variable {ds : List Decision} {g : Set Header} {l : Link} {p : Proc} {up down : List (Option Desc)}
  {log : List (Barrier ι)} {x : Desc}

theorem NodeInv.live_of_exited (h : NodeInv ds g l p up down) (hx : p.exited = false) :
    l.node.isAbort = false :=
  Bool.eq_false_iff.2 fun ha => Bool.noConfusion (hx.symm.trans (h.abort ha).1)

theorem NodeInv.live_of_recvThread (h : NodeInv ds g l p up down)
    (hr : l.node.recvThread = true) : l.node.isAbort = false :=
  Bool.eq_false_iff.2 fun ha => Bool.noConfusion (hr.symm.trans (h.abort ha).2)

theorem NodeInv.outside (h : NodeInv ds g l p up down) (hl : LinkInv log g l) (hp : p.Simulates) :
    l.node.waiting = none ∧ l.node.isAbort = false ∧ l.node.log.length = log.length ∧ l.down = []
      ∧ l.up = [] ∧ g = ∅ := by
  have hw : l.node.waiting = none := by
    have := h.wait
    rw [hp.1] at this
    simpa using this.symm
  have ha := h.live_of_exited hp.2
  obtain ⟨-, hlog, hdown, hup, hg⟩ := hl.outside ha hw
  exact ⟨hw, ha, hlog, hdown, hup, hg⟩

theorem SwitchAt.outside {w : SyncSwitch ι} {released : Bool} (h : SwitchAt ds w p released)
    (hp : p.Simulates) : released = false ∧ p.passed = ds.length := by
  have hrel : released = false := by
    rcases hr : released with _ | _
    · rfl
    · have := h.wait hr
      simp [hp.1] at this
  have hall := h.passed
  rw [hrel] at hall
  exact ⟨hrel, hall⟩

theorem Follows.inPeriod (h : Follows ds p) (hp : p.Simulates) (hall : p.passed = ds.length)
    (hsched : p.scheduled = true) (hsync : p.synced = true)
    (hx : p.syncWhen < x.sendTick + p.syncRepeat) : InPeriod ds x := by
  have hscheduled := h.scheduled hp.2 (by rw [hp.1]; simp)
  have hs := h.synced
  have hr := h.syncRepeat
  have hw := h.syncWhen
  rw [hall, take_length] at hscheduled hs hr hw
  rw [hsched] at hscheduled
  have hsy := hs hscheduled.symm
  rw [hsync] at hsy
  refine ⟨hscheduled.symm, hsy.symm, ?_⟩
  rwa [← hw, ← hr hscheduled.symm hsy.symm]

theorem UpInv.transmit {wire : List (Option Desc)} (h : UpInv ds l g wire) (hup : l.up = [])
    (hg : g = ∅) (hx : InPeriod ds x) : UpInv ds l g (wire ++ [some x]) := by
  obtain ⟨⟨xs, hwire, hxs⟩, -⟩ := h
  refine ⟨⟨xs ++ [x], by simp [hwire, hup], fun y hy => ?_⟩, fun hne => ?_⟩
  · rcases mem_append.1 hy with hy | hy
    · exact hxs y hy
    · rwa [mem_singleton.1 hy]
  · rw [hg] at hne
    exact absurd hne Set.not_nonempty_empty

theorem DownInv.transmit {wire : List (Option Desc)} (h : DownInv ds l wire) (hx : InPeriod ds x) :
    DownInv ds l (wire ++ [some x]) := by
  obtain ⟨xs, ys, hwire, hxs, hnil, hys⟩ := h
  refine ⟨xs, ys ++ [x], by simp [hwire], hxs, hnil, fun y hy => ?_⟩
  rcases mem_append.1 hy with hy | hy
  · exact hys y hy
  · rwa [mem_singleton.1 hy]

theorem UpInv.data (h : UpInv ds l g (some x :: rest)) :
    InPeriod ds x ∧ UpInv ds l g rest := by
  obtain ⟨⟨xs, hwire, hxs⟩, hgot⟩ := h
  rcases xs with _ | ⟨y, xs⟩
  · rcases hup : l.up with _ | ⟨m, ms⟩ <;> rw [hup] at hwire <;> cases hwire
  · obtain ⟨hx, hrest⟩ := List.cons.inj hwire
    obtain rfl := Option.some.inj hx
    refine ⟨hxs x (by simp), ⟨xs, hrest, fun y hy => hxs y (mem_cons_of_mem _ hy)⟩, fun hne => ?_⟩
    have := hgot hne
    cases this

theorem UpInv.request (h : UpInv ds l g (none :: rest)) :
    rest = l.up.tail.map fun _ => none := by
  obtain ⟨⟨xs, hwire, -⟩, -⟩ := h
  rcases xs with _ | ⟨y, xs⟩
  · rcases hup : l.up with _ | ⟨m, ms⟩ <;> rw [hup] at hwire
    · cases hwire
    · exact (List.cons.inj hwire).2
  · cases (List.cons.inj hwire).1

theorem DownInv.data (h : DownInv ds l (some x :: rest)) :
    (l.down ≠ [] ∧ InPeriod ds.dropLast x ∨ l.down = [] ∧ InPeriod ds x) ∧ DownInv ds l rest := by
  obtain ⟨xs, ys, hwire, hxs, hnil, hys⟩ := h
  rcases xs with _ | ⟨z, xs⟩
  · rcases hdown : l.down with _ | ⟨a, as⟩
    · rw [hdown] at hwire
      rcases ys with _ | ⟨z, ys⟩
      · cases hwire
      · obtain ⟨hx, rfl⟩ := List.cons.inj hwire
        obtain rfl := Option.some.inj hx
        refine ⟨.inr ⟨rfl, hys x (by simp)⟩, [], ys, by rw [hdown]; rfl, by simp, fun _ => rfl,
          fun y hy => hys y (mem_cons_of_mem _ hy)⟩
    · simp [hdown] at hwire
  · obtain ⟨hx, hrest⟩ := List.cons.inj hwire
    obtain rfl := Option.some.inj hx
    have hne : l.down ≠ [] := fun hd => by cases hnil hd
    exact ⟨.inl ⟨hne, hxs x (by simp)⟩, xs, ys, hrest,
      fun y hy => hxs y (mem_cons_of_mem _ hy), fun hd => absurd hd hne, hys⟩

theorem DownInv.ack (h : DownInv ds l (none :: rest)) {a : Header}
    (ha : l.down = [a]) : ∃ ys : List Desc, rest = ys.map some ∧ ∀ y ∈ ys, InPeriod ds y := by
  obtain ⟨xs, ys, hwire, -, -, hys⟩ := h
  rw [ha] at hwire
  rcases xs with _ | ⟨z, xs⟩
  · exact ⟨ys, (List.cons.inj hwire).2, hys⟩
  · cases (List.cons.inj hwire).1

theorem NodeInv.enter (h : NodeInv ds g l p up down) (hl : LinkInv log g l) (hp : p.Simulates) (hf : Follows ds p') (hpassed : p'.passed = p.passed) (hwait : p'.wait.isSome)
    {sameTick : Bool} {curTick : ℕ} (hn : l.node.run sameTick curTick = .ok n) :
    NodeInv ds g { l with node := n, up := l.up ++ [l.node.request curTick] } p' (up ++ [none])
      down := by
  obtain ⟨-, ha, -, -, hup, hgot⟩ := h.outside hl hp
  obtain ⟨-, -, rfl⟩ := DistSync.SyncNode.run_cases hn
  exact {
    follows := hf
    passed := hpassed.trans h.passed
    wait := by rw [hwait]; rfl
    abort := fun h' => by simp [ha] at h'
    up := by
      obtain ⟨⟨xs, hwire, hxs⟩, -⟩ := h.up
      refine ⟨⟨xs, by simp [hwire, hup], hxs⟩, fun hne => ?_⟩
      rw [hgot] at hne
      exact absurd hne Set.not_nonempty_empty
    down := h.down }

theorem NodeInv.counted {g' : Set Header} (h : NodeInv ds g l p (none :: up) down)
    (hl : LinkInv log g l) {m : Header} {rest : List Header} (hup : l.up = m :: rest) :
    NodeInv ds g' { l with up := rest } p up down := by
  obtain ⟨rfl, -⟩ := hl.requested hup
  have hnil : up = [] := by
    have := h.up.request
    rw [hup] at this
    exact this
  exact { h with
    up := ⟨⟨[], by simp [hnil], by simp⟩, fun _ => hnil⟩
    down := h.down }

theorem NodeInv.ack (h : NodeInv ds g l p up (none :: down)) (hl : LinkInv log g l)
    (hr : l.node.recvThread = true) {a : Header} {rest : List Header} (hdown : l.down = a :: rest) (hn : l.node.progress a = .ok n) :
    NodeInv ds g { l with node := n, down := rest } p up down := by
  have ha := h.live_of_recvThread hr
  obtain ⟨rfl, -⟩ := hl.acked ha hdown
  rcases DistSync.SyncNode.progress_cases hn with ⟨ha', -⟩ | ⟨-, rfl⟩
  · simp [ha] at ha'
  · obtain ⟨ys, rfl, hys⟩ := (h.down ha).ack hdown
    exact { h with
      abort := fun h' => by simp [ha] at h'
      up := h.up
      down := fun _ => ⟨[], ys, by simp, by simp, fun _ => rfl, hys⟩ }

theorem NodeInv.finish (h : NodeInv ds g l p up down) (hx : p.exited = false)
    (hf : Follows ds p') (hpassed : p'.passed = p.passed + 1) (hwait : p'.wait = none) (hn : l.node.finish = .ok n) :
    NodeInv ds g { l with node := n } p' up down := by
  have ha := h.live_of_exited hx
  obtain ⟨-, -, rfl⟩ := DistSync.SyncNode.finish_cases hn
  exact { h with
    follows := hf
    passed := by
      rw [hpassed, h.passed]
      simp [ha]
    wait := by rw [hwait]; rfl
    abort := fun h' => by simp [ha] at h'
    up := h.up
    down := h.down }

theorem NodeInv.congr (h : NodeInv ds g l p up down)
    (hlog : n.log = l.node.log) (hwait : n.waiting = l.node.waiting)
    (habort : n.isAbort = l.node.isAbort) (hrecv : n.recvThread = l.node.recvThread) :
    NodeInv ds g { l with node := n } p up down where
  follows := h.follows
  passed := hlog ▸ h.passed
  wait := hwait ▸ h.wait
  abort := by
    rw [habort, hrecv]
    exact h.abort
  up := h.up
  down := by
    rw [habort]
    exact h.down

theorem NodeInv.complete (h : NodeInv ds g l p up down) (hl : LinkInv log g l) {m : Header}
    (hm : m ∈ g) (d : Decision) (a : Header) :
    NodeInv (ds ++ [d]) ∅ { l with down := l.down ++ [a] } p up (down ++ [none]) where
  follows := h.follows.append [d]
  passed := h.passed
  wait := h.wait
  abort := h.abort
  up := by
    have hnil := h.up.2 ⟨m, hm⟩
    obtain ⟨⟨xs, hwire, -⟩, -⟩ := h.up
    rw [hnil] at hwire
    obtain ⟨-, hup⟩ := append_eq_nil_iff.1 hwire.symm
    exact ⟨⟨[], by rw [hnil, hup]; rfl, by simp⟩, fun _ => hnil⟩
  down ha := by
    obtain ⟨-, -, hdown, -⟩ := hl.waits hm ha
    obtain ⟨xs, ys, hwire, -, hnil, hys⟩ := h.down ha
    refine ⟨ys, [], ?_, ?_, fun hd => ?_, by simp⟩
    · rw [hwire, hnil hdown, hdown]
      simp
    · rwa [dropLast_concat]
    · simp at hd

end Node

section Update

variable [DecidableEq ι] (s : DistNet ι)

theorem chan_setChan (i : ι) (d : Dir) (c : Channel) (j : ι) (e : Dir) :
    (s.setChan i d c).chan j e = if j = i ∧ e = d then c else s.chan j e := by
  unfold setChan
  by_cases hj : j = i
  · subst hj
    by_cases he : e = d
    · subst he
      simp
    · simp [he]
  · simp [hj]

theorem proc_setProc (p : Party ι) (x : Proc) (q : Party ι) :
    (s.setProc p x).proc q = if q = p then x else s.proc q := by
  unfold setProc
  by_cases hq : q = p
  · subst hq
    simp
  · simp [hq]

end Update

section Leaving

variable [DecidableEq ι]

theorem Proc.leave_frame {p : Proc} {d : Decision} (h : p.leave d w = .ok p') :
    p'.passed = p.passed + 1 ∧ p'.wait = none := by
  cases w with
  | process =>
    cases h
    split_ifs <;> exact ⟨rfl, rfl⟩
  | start =>
    simp only [Proc.leave, Proc.resume, bind_ok] at h
    obtain ⟨_, -, _, -, _, -, _, -, _, -, h⟩ := h
    cases h
    exact ⟨rfl, rfl⟩
  | drainComplete =>
    cases h
    exact ⟨rfl, rfl⟩

theorem clear_node {i : ι} {y y' : DistSync ι} {d : Decision}
    (h : clear y (.node i) d w = .ok y') : ∃ n, y' = y.setNode i n ∧ n.log = (y.link i).node.log
      ∧ n.waiting = (y.link i).node.waiting ∧ n.isAbort = (y.link i).node.isAbort
      ∧ n.recvThread = (y.link i).node.recvThread ∧ (y' = y ∨ ∃ o, y.step o = .ok y') := by
  have hself : y = y.setNode i (y.link i).node := by
    simp [DistSync.setNode, DistSync.setLink]
  cases w with
  | process =>
    simp only [clear] at h
    split_ifs at h
    · have h' := h
      simp only [DistSync.step, DistSync.outside] at h
      split_ifs at h
      exact ⟨_, (Except.ok.inj h).symm, rfl, rfl, rfl, rfl, .inr ⟨_, h'⟩⟩
    · cases h
      exact ⟨_, hself, rfl, rfl, rfl, rfl, .inl rfl⟩
  | start =>
    cases h
    exact ⟨_, hself, rfl, rfl, rfl, rfl, .inl rfl⟩
  | drainComplete =>
    have h' : y.step (.nodeClearCkpt i) = .ok y' := h
    simp only [clear, DistSync.step, DistSync.outside] at h
    split_ifs at h
    exact ⟨_, (Except.ok.inj h).symm, rfl, rfl, rfl, rfl, .inr ⟨_, h'⟩⟩

theorem clear_switch {y y' : DistSync ι} {d : Decision}
    (h : clear y .switch d w = .ok y') : y'.link = y.link ∧ y'.switch.log = y.switch.log
      ∧ y'.switch.counted = y.switch.counted
      ∧ (w ≠ .drainComplete → y'.switch.doCkpt = y.switch.doCkpt)
      ∧ (y' = y ∨ ∃ o, y.step o = .ok y') := by
  cases w with
  | process =>
    simp only [clear] at h
    split_ifs at h
    · have h' := h
      cases h
      exact ⟨rfl, rfl, rfl, fun _ => rfl, .inr ⟨_, h'⟩⟩
    · cases h
      exact ⟨rfl, rfl, rfl, fun _ => rfl, .inl rfl⟩
  | start =>
    cases h
    exact ⟨rfl, rfl, rfl, fun _ => rfl, .inl rfl⟩
  | drainComplete =>
    have h' : y.step .switchClearCkpt = .ok y' := h
    cases h
    exact ⟨rfl, rfl, rfl, fun hne => absurd rfl hne, .inr ⟨_, h'⟩⟩

end Leaving

variable [Fintype ι]

structure NetInv (own : ℕ) (nodeOwn : ι → ℕ) (linkDelay : ι → Dir → ℕ) (s : DistNet ι) : Prop where
  sync : SyncInv s.sync
  repeats : RepeatInv own nodeOwn s.sync
  chan : ∀ i d, ChanInv (linkDelay i d) (s.chan i d)
  node : ∀ i, NodeInv s.decisions (got s.sync.switch.counted i) (s.sync.link i)
    (s.proc (.node i)) (s.chan i .up).wire (s.chan i .down).wire
  switch : SwitchAt s.decisions s.sync.switch (s.proc .switch) s.released
  decided : ∀ k d, s.decisions[k]? = some d → (plan (s.decisions.take k)).ckpt = true →
    d.doCkpt = true

variable [DecidableEq ι] {own : ℕ} {nodeOwn : ι → ℕ} {linkDelay : ι → Dir → ℕ} {s s' : DistNet ι}
  {i : ι}

theorem NetInv.setChan (h : NetInv own nodeOwn linkDelay s) {c : Channel}
    (hc : ChanInv (linkDelay i d) c)
    (hn : NodeInv s.decisions (got s.sync.switch.counted i) (s.sync.link i) (s.proc (.node i))
      (if .up = d then c else s.chan i .up).wire (if .down = d then c else s.chan i .down).wire) :
    NetInv own nodeOwn linkDelay (s.setChan i d c) :=
  { h with
    chan := fun j e => by
      rw [chan_setChan]
      split_ifs with he
      · obtain ⟨rfl, rfl⟩ := he
        exact hc
      · exact h.chan j e
    node := fun j => by
      rw [chan_setChan, chan_setChan]
      by_cases hj : j = i
      · subst hj
        simp only [true_and]
        exact hn
      · simp only [hj, false_and, if_false]
        exact h.node j }

theorem NetInv.transmit (h : NetInv own nodeOwn linkDelay s) {packet : EthPacket}
    {delay : ℕ} (hC : Allowed s (.transmit i d packet delay))
    (hst : s.transmit i d packet delay = .ok s') : NetInv own nodeOwn linkDelay s' := by
  simp only [DistNet.transmit] at hst
  split_ifs at hst with hg
  cases hst
  obtain ⟨hp, hbusy⟩ := hg
  obtain ⟨hsched, hsync, hsent⟩ := hC
  have hn := h.node i
  refine h.setChan ((h.chan i d).transmit hbusy (Nat.succ_pos delay)) ?_
  cases d with
  | up =>
    have hl := h.sync.link i
    obtain ⟨-, -, hlog, -, hup, hgot⟩ := hn.outside hl hp
    have hx := hn.follows.inPeriod hp
      (by rw [hn.passed, hlog, decisions, length_map]) hsched hsync
      (x := ⟨packet, (s.proc (.node i)).curTick, delay + 1⟩) hsent
    exact { hn with up := hn.up.transmit hup hgot hx }
  | down =>
    have hw := h.switch
    obtain ⟨-, hall⟩ := hw.outside hp
    have hx := hw.follows.inPeriod hp hall hsched hsync
      (x := ⟨packet, (s.proc .switch).curTick, delay + 1⟩) hsent
    exact { hn with down := fun ha => (hn.down ha).transmit hx }

omit [DecidableEq ι] in
theorem NetInv.period_le (h : NetInv own nodeOwn linkDelay s) {e : ℕ}
    (hsync : (plan (s.decisions.take e)).synced = true) (p : Party ι) :
    (plan (s.decisions.take e)).period ≤ ownRepeat own nodeOwn p := by
  obtain ⟨d, hd, hp⟩ := plan_period _ hsync
  obtain ⟨R, hR, rfl⟩ := mem_map.1 (mem_of_mem_take hd)
  rw [hp]
  cases p with
  | switch => exact (h.repeats.log R hR).1
  | node i => exact (h.repeats.log R hR).2 i

omit [DecidableEq ι] in
/-- The packet at the head of a wire was sent after as many barriers as the receiver has left, or is
about to leave. -/
theorem NetInv.head_inPeriod (h : NetInv own nodeOwn linkDelay s) {x : Desc} (hw : (s.chan i d).wire = some x :: rest)
    (ht : s.recvThread i d = true) : ∃ e ≤ s.decisions.length, InPeriod (s.decisions.take e) x
      ∧ (e = (s.proc (d.receiver i)).passed ∨ e = (s.proc (d.receiver i)).passed + 1) := by
  have hn := h.node i
  cases d with
  | up =>
    have hup := hn.up
    rw [hw] at hup
    refine ⟨s.decisions.length, le_rfl, by rw [take_length]; exact hup.data.1, ?_⟩
    have hp := h.switch.passed
    show _ = (s.proc .switch).passed ∨ _ = (s.proc .switch).passed + 1
    split_ifs at hp <;> omega
  | down =>
    have ha := hn.live_of_recvThread ht
    have hl := h.sync.link i
    have hlen : s.decisions.length = s.sync.switch.log.length := length_map _
    have hpassed := hn.passed
    have hdown := hn.down ha
    rw [hw] at hdown
    show ∃ e ≤ _, _ ∧ (e = (s.proc (.node i)).passed ∨ e = (s.proc (.node i)).passed + 1)
    rcases hdown.data.1 with ⟨hne, hx⟩ | ⟨hnil, hx⟩
    · obtain ⟨a, as, hd⟩ := exists_cons_of_ne_nil hne
      obtain ⟨-, -, -, hlog, -⟩ := hl.acked ha hd
      refine ⟨s.decisions.length - 1, Nat.sub_le _ _, ?_, .inl (by omega)⟩
      rwa [← dropLast_eq_take]
    · refine ⟨s.decisions.length, le_rfl, by rw [take_length]; exact hx, ?_⟩
      have hacks := (hl.live ha).acks
      rw [hnil, length_nil] at hacks
      split_ifs at hacks <;> omega

omit [DecidableEq ι] in
theorem NetInv.arrives (h : NetInv own nodeOwn linkDelay s)
    (hdelay : ∀ i d, ownRepeat own nodeOwn (Dir.receiver i d) ≤ linkDelay i d) {x : Desc} (hw : (s.chan i d).wire = some x :: rest)
    (ht : s.recvThread i d = true) :
    (s.proc (d.receiver i)).syncWhen < recvTick (linkDelay i d) x
      ∧ (s.proc (d.receiver i)).curTick < recvTick (linkDelay i d) x
      ∧ ((s.proc (d.receiver i)).syncRepeat ≤ (s.proc (d.receiver i)).syncWhen →
        (s.proc (d.receiver i)).syncWhen - (s.proc (d.receiver i)).syncRepeat < x.sendTick) := by
  obtain ⟨e, he, hx, hp⟩ := h.head_inPeriod hw ht
  have hf : Follows s.decisions (s.proc (d.receiver i)) := by
    cases d with
    | up => exact h.switch.follows
    | down => exact (h.node i).follows
  exact hf.arrives hx he hp ((h.period_le hx.synced _).trans (hdelay i d))

omit [Fintype ι] [DecidableEq ι] in
theorem decisions_congr {t : DistNet ι} (h : t.sync.switch.log = s.sync.switch.log) :
    t.decisions = s.decisions :=
  congrArg (List.map Barrier.decision) h

/-- What is changed at one node leaves the others alone. -/
theorem NetInv.update (h : NetInv own nodeOwn linkDelay s) {y : DistSync ι} {l : Link}
    {c : Dir → Channel} (hsync : SyncInv y) (hrep : RepeatInv own nodeOwn y)
    (hlog : y.switch.log = s.sync.switch.log)
    (hgot : ∀ j, j ≠ i → got y.switch.counted j = got s.sync.switch.counted j)
    (hlink : y.link = Function.update s.sync.link i l)
    (hck : s.sync.switch.doCkpt = true → y.switch.doCkpt = true)
    (hc : ∀ d, ChanInv (linkDelay i d) (c d))
    (hn : NodeInv s.decisions (got y.switch.counted i) l x (c .up).wire (c .down).wire) :
    NetInv own nodeOwn linkDelay
      ⟨y, Function.update s.proc (.node i) x, Function.update s.chan i c, s.released⟩ := by
  have hds := fun {p c r} => decisions_congr (s := s) (t := ⟨y, p, c, r⟩) hlog
  refine ⟨hsync, hrep, fun j d => ?_, fun j => ?_, ?_, hds ▸ h.decided⟩
  · by_cases hj : j = i
    · subst hj
      simpa only [Function.update_self] using hc d
    · simpa only [update_of_ne hj] using h.chan j d
  · simp only [hds, hlink]
    by_cases hj : j = i
    · subst hj
      simpa only [Function.update_self] using hn
    · have hne : Party.node j ≠ .node i := fun he => hj (Party.node.inj he)
      simpa only [update_of_ne hj, update_of_ne hne, hgot j hj] using h.node j
  · simp only [hds, update_of_ne (show Party.switch ≠ .node i by simp)]
    exact { h.switch with ckpt := fun hd hr => hck (h.switch.ckpt hd hr) }

theorem NetInv.receive (h : NetInv own nodeOwn linkDelay s)
    (hst : s.receive i d = .ok s') : NetInv own nodeOwn linkDelay s' := by
  have hn := h.node i
  simp only [DistNet.receive] at hst
  split at hst
  · rename_i x rest hw
    split_ifs at hst
    obtain ⟨r, hr, rfl⟩ := bind_pure_ok.1 hst
    refine h.setChan ((h.chan i d).push hw hr) ?_
    cases d with
    | up => exact { hn with up := (hw ▸ hn.up : UpInv _ _ _ (some x :: rest)).data.2 }
    | down =>
      exact { hn with down := fun ha => (hw ▸ hn.down ha : DownInv _ _ (some x :: rest)).data.2 }
  · rename_i rest hw
    obtain ⟨y, hy, rfl⟩ := bind_pure_ok.1 hst
    have hc : ∀ e, ChanInv (linkDelay i e)
        (Function.update (s.chan i) d { s.chan i d with wire := rest } e) := by
      intro e
      by_cases he : e = d
      · subst he
        rw [Function.update_self]
        exact (h.chan i e).sync (by rw [hw]; rfl)
      · rw [update_of_ne he]
        exact h.chan i e
    simp only [DistNet.setChan]
    rw [← update_eq_self (.node i) s.proc]
    cases d with
    | up =>
      have hst' : s.sync.step (.switchRecv i) = .ok y := hy
      obtain ⟨m, rest', w, hup, hp, rfl⟩ := DistSync.switchRecv_cases hy
      obtain ⟨hlog, hgot, hck⟩ : w.log = s.sync.switch.log
          ∧ (∀ j, j ≠ i → got w.counted j = got s.sync.switch.counted j)
          ∧ (s.sync.switch.doCkpt = true → w.doCkpt = true) := by
        rcases SyncSwitch.progress_cases hp with ⟨-, rfl⟩ | ⟨-, -, rfl⟩
        · exact ⟨rfl, fun _ _ => rfl, id⟩
        · exact ⟨rfl, fun j hj => DistSync.got_concat_ne _ hj m, fun hc => by simp [hc]⟩
      exact h.update (h.sync.step hst') (h.repeats.step h.sync hst') hlog hgot rfl hck hc
        ((hw ▸ hn).counted (h.sync.link i) hup)
    | down =>
      have hst' : s.sync.step (.nodeRecv i) = .ok y := hy
      obtain ⟨a, rest', n, hdown, hr, hp, rfl⟩ := DistSync.nodeRecv_cases hy
      exact h.update (h.sync.step hst') (h.repeats.step h.sync hst') rfl (fun _ _ => rfl) rfl id hc
        ((hw ▸ hn).ack (h.sync.link i) hr hdown hp)
  · cases hst

theorem NetInv.rxDone (h : NetInv own nodeOwn linkDelay s)
    (hst : s.rxDone i d = .ok s') : NetInv own nodeOwn linkDelay s' := by
  have hn := h.node i
  simp only [DistNet.rxDone] at hst
  split_ifs at hst
  obtain ⟨⟨x, r⟩, hr, hst⟩ := bind_ok.1 hst
  cases hst
  refine h.setChan ((h.chan i d).rxDone hr) ?_
  cases d with
  | up | down => exact hn

theorem NetInv.setNode (h : NetInv own nodeOwn linkDelay s)
    (hx : NodeInv s.decisions (got s.sync.switch.counted i) (s.sync.link i) x
      (s.chan i .up).wire (s.chan i .down).wire) :
    NetInv own nodeOwn linkDelay (s.setProc (.node i) x) := by
  rw [DistNet.setProc, ← update_eq_self i s.chan]
  exact h.update h.sync h.repeats rfl (fun _ _ => rfl) (update_eq_self i _).symm id
    (h.chan i) hx

theorem NetInv.setSwitch (h : NetInv own nodeOwn linkDelay s) {y : DistSync ι}
    {released : Bool} (hsync : SyncInv y) (hrep : RepeatInv own nodeOwn y)
    (hlog : y.switch.log = s.sync.switch.log) (hcounted : y.switch.counted = s.sync.switch.counted)
    (hlink : y.link = s.sync.link) (hx : SwitchAt s.decisions y.switch x released) :
    NetInv own nodeOwn linkDelay
      (DistNet.setProc { s with sync := y, released := released } .switch x) := by
  have hds := fun {p c r} => decisions_congr (s := s) (t := ⟨y, p, c, r⟩) hlog
  refine ⟨hsync, hrep, h.chan, fun j => ?_, ?_, hds ▸ h.decided⟩
  · simp only [DistNet.setProc, hds, hcounted, hlink,
      update_of_ne (show Party.node j ≠ .switch by simp)]
    exact h.node j
  · simpa only [DistNet.setProc, hds, Function.update_self] using hx

theorem Follows.advance {ds : List Decision} {p : Proc} (h : Follows ds p) (hp : p.Simulates)
    {tick : ℕ} (hlt : p.curTick < tick) (htick : p.scheduled = true → tick ≤ p.syncWhen) :
    Follows ds { p with curTick := tick } := by
  have hsched := h.scheduled hp.2 (by rw [hp.1]; simp)
  exact { h with
    tick := fun hon => htick (hsched.trans hon)
    lastSync := h.lastSync.trans hlt.le
    wait := fun w hw => by
      cases hp.1.symm.trans hw }

theorem NetInv.advance (h : NetInv own nodeOwn linkDelay s) {p : Party ι} {tick : ℕ}
    (hst : s.advance p tick = .ok s') : NetInv own nodeOwn linkDelay s' := by
  simp only [DistNet.advance] at hst
  split_ifs at hst with hg
  cases hst
  obtain ⟨hp, hlt, hsched, -⟩ := hg
  cases p with
  | switch =>
    have hs := h.switch
    exact h.setSwitch h.sync h.repeats rfl rfl rfl { hs with
      follows := hs.follows.advance hp hlt hsched }
  | node i =>
    have hn := h.node i
    exact h.setNode { hn with follows := hn.follows.advance hp hlt hsched }

theorem NetInv.enter (h : NetInv own nodeOwn linkDelay s) {p : Party ι} (hp : (s.proc p).Simulates) (hst : (s.setProc p x).enter p w = .ok s')
    (hpassed : x.passed = (s.proc p).passed) (hdrain : x.draining = (s.proc p).draining)
    (hf : Follows s.decisions { x with wait := some w }) : NetInv own nodeOwn linkDelay s' := by
  cases p with
  | switch =>
    cases hst
    have hs := h.switch
    obtain ⟨hrel, -⟩ := hs.outside hp
    have hset : (s.setProc .switch x).setProc .switch { x with wait := some w }
        = s.setProc .switch { x with wait := some w } := by
      simp [DistNet.setProc]
    rw [proc_setProc, if_pos rfl, hset]
    exact h.setSwitch h.sync h.repeats rfl rfl rfl {
      follows := hf
      passed := hpassed ▸ hs.passed
      wait := fun _ => rfl
      ckpt := hdrain ▸ hs.ckpt }
  | node i =>
    simp only [DistNet.enter, bind_ok, proc_setProc, if_pos] at hst
    obtain ⟨y, hy, hst⟩ := hst
    cases hst
    have hn := h.node i
    have hy' : s.sync.step (.nodeRun i (w == .process) x.curTick) = .ok y := hy
    obtain ⟨hw, n, hrun, rfl⟩ := DistSync.nodeRun_cases hy
    simp only [DistNet.setChan, DistNet.setProc, update_idem]
    refine h.update (h.sync.step hy') (h.repeats.step h.sync hy') rfl (fun _ _ => rfl) rfl id
      (fun d => ?_) (hn.enter (h.sync.link i) hp hf hpassed rfl hrun)
    by_cases hd : d = .up
    · subst hd
      rw [Function.update_self]
      exact (h.chan i .up).sync (by rw [reduceOption_append]; exact append_nil _)
    · rw [update_of_ne hd]
      exact h.chan i d

section Entering

variable {ds : List Decision} {p : Proc}

theorem Follows.process (h : Follows ds p) (hp : p.Simulates) (hsched : p.scheduled = true)
    (htick : p.curTick = p.syncWhen) (hdrain : p.draining = false) :
    Follows ds { p with scheduled := false, wait := some .process } :=
  { h with
    scheduled := fun _ hne => absurd rfl hne
    wait := fun w hw => by
      obtain rfl := Option.some.inj hw
      exact ⟨(h.scheduled hp.2 (by rw [hp.1]; simp)).symm.trans hsched,
        h.draining.symm.trans hdrain, htick, rfl⟩ }

theorem Follows.start (h : Follows ds p) (hp : p.Simulates) (hsched : p.scheduled = false)
    (syncRepeat : ℕ) : Follows ds { p with syncRepeat := syncRepeat, wait := some .start } := by
  have hoff := (h.scheduled hp.2 (by rw [hp.1]; simp)).symm.trans hsched
  exact { h with
    scheduled := fun _ _ => hsched.trans hoff.symm
    syncRepeat := fun hon => by
      cases hoff.symm.trans hon
    wait := fun w hw => by
      obtain rfl := Option.some.inj hw
      exact hoff }

theorem Follows.drainComplete (h : Follows ds p) (hp : p.Simulates) (hdrain : p.draining = true) :
    Follows ds { p with wait := some .drainComplete } :=
  { h with
    scheduled := fun hx _ => h.scheduled hx (by rw [hp.1]; simp)
    wait := fun w hw => by
      obtain rfl := Option.some.inj hw
      exact h.draining.symm.trans hdrain }

end Entering

omit [DecidableEq ι] in
theorem NetInv.follows (h : NetInv own nodeOwn linkDelay s) : ∀ p, Follows s.decisions (s.proc p)
  | .switch => h.switch.follows
  | .node i => (h.node i).follows

theorem NetInv.process (h : NetInv own nodeOwn linkDelay s) {p : Party ι}
    (hst : s.process p = .ok s') : NetInv own nodeOwn linkDelay s' := by
  simp only [DistNet.process] at hst
  split_ifs at hst with hg
  obtain ⟨hp, hsched, htick, -⟩ := hg
  obtain ⟨_, hdrain, hst⟩ := bind_ok.1 hst
  have hd : (s.proc p).draining = false := by simpa using hdrain
  exact h.enter hp hst rfl rfl ((h.follows p).process hp hsched htick hd)

theorem NetInv.start (h : NetInv own nodeOwn linkDelay s) {p : Party ι}
    (hst : s.start p = .ok s') : NetInv own nodeOwn linkDelay s' := by
  simp only [DistNet.start] at hst
  split_ifs at hst with hg
  exact h.enter hg.1 hst rfl rfl ((h.follows p).start hg.1 hg.2 _)

theorem NetInv.drainComplete (h : NetInv own nodeOwn linkDelay s) {p : Party ι}
    (hst : s.drainComplete p = .ok s') : NetInv own nodeOwn linkDelay s' := by
  simp only [DistNet.drainComplete] at hst
  split_ifs at hst with hg
  have hself : s.setProc p (s.proc p) = s := by simp [DistNet.setProc]
  exact h.enter hg.1 (hself.symm ▸ hst) rfl rfl ((h.follows p).drainComplete hg.1 hg.2)

theorem NetInv.switchRun (h : NetInv own nodeOwn linkDelay s) (hst : s.switchRun = .ok s') :
    NetInv own nodeOwn linkDelay s' := by
  simp only [DistNet.switchRun] at hst
  split at hst
  · rename_i w hw
    split_ifs at hst with hg
    obtain ⟨-, hrel, hab⟩ := hg
    obtain ⟨y, hy, hst⟩ := bind_ok.1 hst
    have hy' : s.sync.step (.switchRun (w == .process) (s.proc .switch).curTick) = .ok y := hy
    have hsync := h.sync.step hy'
    have hrep := h.repeats.step h.sync hy'
    obtain ⟨h0, ⟨hab', -⟩ | ⟨-, w', hrun, rfl⟩⟩ := DistSync.switchRun_cases hy
    · simp [hab] at hab'
    · cases hst
      obtain rfl := SyncSwitch.run_cases hrun
      have hlen := h.sync.switch.length_counted hab h0
      have hs := h.switch
      have hpassed : (s.proc .switch).passed = s.decisions.length := by
        have := hs.passed
        rwa [hrel] at this
      have hds : (s.sync.switch.log ++ [s.sync.switch.toBarrier]).map Barrier.decision
          = s.decisions ++ [s.sync.switch.decision] := by
        rw [map_append]
        rfl
      refine ⟨hsync, hrep, fun i d => ?_, fun i => ?_, ?_, ?_⟩
      · cases d with
        | up => exact h.chan i .up
        | down =>
          exact (h.chan i .down).sync (by rw [reduceOption_append]; exact append_nil _)
      · obtain ⟨m, hm⟩ := h.sync.switch.counted.exists_mem hlen i
        show NodeInv ((s.sync.switch.log ++ [s.sync.switch.toBarrier]).map Barrier.decision) (got [] i)
          _ _ _ _
        have hgot : got ([] : List (ι × Header)) i = ∅ := by simp [got]
        rw [hds, hgot]
        exact (h.node i).complete (h.sync.link i) hm _ _
      · show SwitchAt ((s.sync.switch.log ++ [s.sync.switch.toBarrier]).map Barrier.decision) _ _ _
        rw [hds]
        refine ⟨hs.follows.append _, ?_, fun _ => by rw [hw]; rfl, by simp⟩
        rw [hpassed, List.length_append]
        rfl
      · show ∀ k d, ((s.sync.switch.log ++ [s.sync.switch.toBarrier]).map Barrier.decision)[k]? = some d →
          (plan (((s.sync.switch.log ++ [s.sync.switch.toBarrier]).map Barrier.decision).take k)).ckpt
            = true → d.doCkpt = true
        rw [hds]
        intro k d hk hck
        rcases lt_or_ge k s.decisions.length with hlt | hge
        · rw [getElem?_append_left hlt] at hk
          rw [take_append_of_le_length hlt.le] at hck
          exact h.decided k d hk hck
        · have hk' : k = s.decisions.length := by
            have := (List.getElem?_eq_some_iff.1 hk).1
            simp only [List.length_append, List.length_singleton] at this
            omega
          subst hk'
          rw [List.getElem?_concat_length] at hk
          obtain rfl := Option.some.inj hk
          rw [take_append_of_le_length le_rfl, ← hpassed, ← hs.follows.draining] at hck
          simp [SyncSwitch.decision, hs.ckpt hck hrel]
  · cases hst

theorem NetInv.synced {y y' : DistSync ι} (hs : SyncInv y) (hr : RepeatInv own nodeOwn y)
    (h : y' = y ∨ ∃ o, y.step o = .ok y') : SyncInv y' ∧ RepeatInv own nodeOwn y' := by
  rcases h with rfl | ⟨o, ho⟩
  · exact ⟨hs, hr⟩
  · exact ⟨hs.step ho, hr.step hs ho⟩

omit [DecidableEq ι] in
theorem NetInv.handled (h : NetInv own nodeOwn linkDelay s)
    (hx : (s.proc (.node i)).exited = false) (hw : (s.sync.link i).node.waiting.isSome)
    (h0 : (s.sync.link i).node.waitNum = 0) :
    s.decisions[(s.proc (.node i)).passed]? = some (s.sync.link i).node.decision := by
  have hn := h.node i
  have ha := hn.live_of_exited hx
  have hv := (h.sync.link i).live ha
  have hacks := hv.acks
  have hge := (h.sync.link i).sent_ge
  have hlen := hv.sent_length
  rw [if_pos hw] at hlen
  rw [if_pos ⟨hw, h0⟩] at hacks
  obtain ⟨R, hR, hdec⟩ := hv.handled hw h0
  rw [getLast?_eq_getElem?] at hR
  rw [hn.passed, decisions, getElem?_map, hdec,
    show (s.sync.link i).node.log.length = s.sync.switch.log.length - 1 by omega, hR]
  rfl

theorem NetInv.leaveNode (h : NetInv own nodeOwn linkDelay s)
    (hst : s.leave (.node i) = .ok s') : NetInv own nodeOwn linkDelay s' := by
  simp only [DistNet.leave] at hst
  split at hst
  · rename_i w hw
    split_ifs at hst with hx
    simp only [bind_ok] at hst
    obtain ⟨y, hy, x', hx', y', hy', hst⟩ := hst
    cases hst
    have hx : (s.proc (.node i)).exited = false := by simpa using hx
    have hn := h.node i
    have hsy := NetInv.synced h.sync h.repeats (.inr ⟨_, hy⟩)
    simp only [DistSync.step, bind_ok] at hy
    obtain ⟨n, hfin, hy⟩ := hy
    cases hy
    obtain ⟨n', rfl, hlog, hwait, hab, hrt, hor⟩ := clear_node hy'
    obtain ⟨hsync, hrep⟩ := NetInv.synced hsy.1 hsy.2 hor
    simp only [DistSync.setNode, DistSync.setLink, Function.update_self] at hx' hlog hwait hab hrt
    obtain ⟨hws, h0, hn'⟩ := DistSync.SyncNode.finish_cases hfin
    have hdec : n.decision = (s.sync.link i).node.decision := by rw [hn']; rfl
    rw [hdec] at hx'
    have hd := h.handled hx hws h0
    have hf := hn.follows.leave hx hw hd (h.decided _ _ hd) hx'
    obtain ⟨hp, hwn⟩ := Proc.leave_frame hx'
    rw [DistNet.setProc, ← update_eq_self i s.chan]
    refine h.update hsync hrep rfl (fun _ _ => rfl) ?_ id (h.chan i)
      ((hn.finish hx hf hp hwn hfin).congr hlog hwait hab hrt)
    simp [DistSync.setNode, DistSync.setLink]
  · cases hst

theorem NetInv.leaveSwitch (h : NetInv own nodeOwn linkDelay s) (hC : Allowed s (.leave .switch))
    (hst : s.leave .switch = .ok s') : NetInv own nodeOwn linkDelay s' := by
  simp only [DistNet.leave] at hst
  split at hst
  · rename_i w hw
    have hx : (s.proc .switch).exited = false := by
      rcases hx : (s.proc .switch).exited with _ | _
      · rfl
      · simp [if_pos hx] at hst
    have hrel : s.released = true := by
      rcases hrel : s.released with _ | _
      · simp [hx, hrel] at hst
      · rfl
    rw [if_neg (by simp [hx]), if_pos hrel] at hst
    simp only [bind_ok] at hst
    obtain ⟨x', hx', y', hy', hst⟩ := hst
    have hs := h.switch
    obtain ⟨hlink, hlog, hcounted, hck, hor⟩ := clear_switch hy'
    obtain ⟨hsync, hrep⟩ := NetInv.synced h.sync h.repeats hor
    have hpassed : (s.proc .switch).passed + 1 = s.decisions.length := by
      have := hs.passed
      rwa [hrel] at this
    have hd : s.decisions[(s.proc .switch).passed]? = some (held s.sync.switch) := by
      have hlast : s.decisions.getLast? = some (held s.sync.switch) := hC
      rwa [getLast?_eq_getElem?, ← hpassed, Nat.add_sub_cancel] at hlast
    have hf := hs.follows.leave hx hw hd (h.decided _ _ hd) hx'
    obtain ⟨hp, hwn⟩ := Proc.leave_frame hx'
    have hx'' : SwitchAt s.decisions y'.switch x' false := by
      refine ⟨hf, by rw [hp]; exact hpassed, by simp, fun hdr _ => ?_⟩
      cases w with
      | process =>
        rw [hck (by simp)]
        obtain rfl := Except.ok.inj hx'
        split_ifs at hdr <;> exact hdr
      | start =>
        simp only [Proc.leave, Proc.resume, bind_ok, require_ok] at hx'
        obtain ⟨_, hnck, _, -, _, -, _, -, _, -, hx'⟩ := hx'
        obtain rfl := Except.ok.inj hx'
        have hplan := h.decided _ _ hd (hs.follows.draining.symm.trans hdr)
        simp [hnck] at hplan
      | drainComplete =>
        obtain rfl := Except.ok.inj hx'
        cases hdr
    have hnet := h.setSwitch hsync hrep hlog hcounted hlink hx''
    split_ifs at hst
    · exact hnet.start hst
    · cases hst
      exact hnet
  · cases hst

theorem NetInv.request (h : NetInv own nodeOwn linkDelay s)
    {o : DistSync.Op ι} (ho : s.sync.step o = .ok (s.sync.setNode i n))
    (hlog : n.log = (s.sync.link i).node.log) (hwait : n.waiting = (s.sync.link i).node.waiting)
    (hab : n.isAbort = (s.sync.link i).node.isAbort)
    (hrt : n.recvThread = (s.sync.link i).node.recvThread) :
    NetInv own nodeOwn linkDelay { s with sync := s.sync.setNode i n } := by
  rw [← update_eq_self i s.chan, ← update_eq_self (.node i) s.proc]
  exact h.update (h.sync.step ho) (h.repeats.step h.sync ho) rfl (fun _ _ => rfl) rfl id (h.chan i)
    ((h.node i).congr hlog hwait hab hrt)

theorem NetInv.abort (h : NetInv own nodeOwn linkDelay s) {p : Party ι}
    (hst : s.abort p = .ok s') : NetInv own nodeOwn linkDelay s' := by
  have hexit : ∀ {x : Proc}, Follows s.decisions x → Follows s.decisions { x with exited := true } :=
    fun hf => { hf with scheduled := by simp }
  cases p with
  | switch =>
    cases hst
    have hs := h.switch
    exact h.setSwitch (y := { s.sync with switch := s.sync.switch.abort })
      (h.sync.step (o := .switchAbort) rfl) (h.repeats.step h.sync (o := .switchAbort) rfl) rfl rfl rfl
      { hs with follows := hexit hs.follows }
  | node i =>
    cases hst
    have hn := h.node i
    have ho : s.sync.step (.nodeAbort i) = .ok (s.sync.setNode i
      { (s.sync.link i).node.abort with recvThread := false }) := rfl
    rw [DistNet.setProc, ← update_eq_self i s.chan]
    exact h.update (h.sync.step ho) (h.repeats.step h.sync ho) rfl (fun _ _ => rfl) rfl id (h.chan i)
      { follows := hexit hn.follows
        passed := hn.passed
        wait := hn.wait
        abort := fun _ => ⟨rfl, rfl⟩
        up := hn.up
        down := fun h => by cases h }

theorem NetInv.step (h : NetInv own nodeOwn linkDelay s) {o : Op ι} (hC : Allowed s o)
    (hst : s.step o = .ok s') : NetInv own nodeOwn linkDelay s' := by
  cases o with
  | transmit i d packet delay => exact h.transmit hC hst
  | receive i d => exact h.receive hst
  | rxDone i d => exact h.rxDone hst
  | advance p tick => exact h.advance hst
  | process p => exact h.process hst
  | start p => exact h.start hst
  | drainComplete p => exact h.drainComplete hst
  | switchRun => exact h.switchRun hst
  | leave p =>
    cases p with
    | switch => exact h.leaveSwitch hC hst
    | node i => exact h.leaveNode hst
  | requestCkpt i req =>
    simp only [DistNet.step, bind_ok] at hst
    obtain ⟨y, hy, hst⟩ := hst
    cases hst
    obtain rfl := DistSync.requestCkpt_cases hy
    exact h.request hy rfl rfl rfl rfl
  | requestExit i req =>
    simp only [DistNet.step, bind_ok] at hst
    obtain ⟨y, hy, hst⟩ := hst
    cases hst
    obtain rfl := DistSync.requestExit_cases hy
    exact h.request hy rfl rfl rfl rfl
  | requestStopSync i req =>
    cases hst
    exact h.request (o := .requestStopSync i req) rfl rfl rfl rfl rfl
  | abort p => exact h.abort hst

omit [DecidableEq ι] in
theorem NetInv.init (nextAt nextRepeat : ℕ) (nodeAt nodeRepeat : ι → ℕ) (tick : Party ι → ℕ)
    (linkDelay : ι → Dir → ℕ) : NetInv nextRepeat nodeRepeat linkDelay
      (DistNet.init nextAt nextRepeat nodeAt nodeRepeat tick linkDelay) where
  sync := DistSync.init_inv nextAt nextRepeat nodeAt nodeRepeat
  repeats := .init nextAt nextRepeat nodeAt nodeRepeat
  chan i d := .init (linkDelay i d)
  node i := {
    follows := .init _ _
    passed := rfl
    wait := rfl
    abort := nofun
    up := ⟨⟨[], rfl, by simp⟩, fun _ => rfl⟩
    down := fun _ => ⟨[], [], rfl, by simp, fun _ => rfl, by simp⟩ }
  switch := ⟨.init _ _, rfl, nofun, nofun⟩
  decided _ _ h := nomatch h

theorem subTick_le {a b : ℕ} (h : b ≤ a) : subTick a b ≤ a - b := by
  unfold subTick
  rw [show a + 2 ^ 64 - b = (a - b) + 2 ^ 64 by omega, Nat.add_mod_right]
  exact Nat.mod_le _ _

/-- In every run in which packets are only sent between two periodic barriers, on links with a delay
of at least the period of the receiver, packets are handed over in the order they were sent in. A
packet that arrives, and the one that is next, have a receive tick later than the last barrier and
the current tick of the receiver. No check of the receive scheduler fails, except that of the send
tick when the first periodic barrier is earlier than a period. -/
theorem packet_causality {nextAt nextRepeat : ℕ} {nodeAt nodeRepeat : ι → ℕ} {tick : Party ι → ℕ}
    {linkDelay : ι → Dir → ℕ} {ops : List (Op ι)}
    (hdelay : ∀ i d, ownRepeat nextRepeat nodeRepeat (Dir.receiver i d) ≤ linkDelay i d)
    (hC : Admits step Allowed (init nextAt nextRepeat nodeAt nodeRepeat tick linkDelay) ops)
    (h : run step (init nextAt nextRepeat nodeAt nodeRepeat tick linkDelay) ops = .ok s) (i : ι)
    (d : Dir) :
    (s.chan i d).sent
        = (s.chan i d).handed ++ (s.chan i d).recv.descQueue ++ (s.chan i d).wire.reduceOption
    ∧ ((s.chan i d).recv.recvDone.isSome ↔ (s.chan i d).recv.descQueue ≠ [])
    ∧ (∀ x rest, (s.chan i d).wire = some x :: rest → s.recvThread i d = true →
      (s.chan i d).recv.calcReceiveTick (s.proc (d.receiver i)).curTick x.sendTick x.sendDelay
          (s.chan i d).recv.prevRecvTick = .ok (recvTick (linkDelay i d) x)
        ∧ (s.proc (d.receiver i)).lastSync < recvTick (linkDelay i d) x
        ∧ (s.proc (d.receiver i)).curTick < recvTick (linkDelay i d) x
        ∧ ((s.proc (d.receiver i)).syncRepeat ≤ (s.proc (d.receiver i)).syncWhen →
          ∃ s', s.step (.receive i d) = .ok s'))
    ∧ ((s.proc (d.receiver i)).Simulates →
      (s.chan i d).recv.recvDone = some (s.proc (d.receiver i)).curTick →
        ∃ s', s.step (.rxDone i d) = .ok s' ∧ ∀ t, (s'.chan i d).recv.recvDone = some t →
          (s.proc (d.receiver i)).lastSync < t ∧ (s.proc (d.receiver i)).curTick < t) := by
  have hnet : NetInv nextRepeat nodeRepeat linkDelay s :=
    Admits.inv (fun _ _ _ hs hC h => hs.step hC h) hC (.init ..) h
  have hc := hnet.chan i d
  have hlast := (hnet.follows (d.receiver i)).lastSync
  refine ⟨hc.order, ?_, fun x rest hw ht => ?_, fun hq hrec => ?_⟩
  · rw [hc.recvDone]
    cases (s.chan i d).recv.descQueue <;> simp
  · obtain ⟨hwhen, hcur, hsend⟩ := hnet.arrives hdelay hw ht
    refine ⟨hc.calcReceiveTick hw hcur, lt_of_le_of_lt hlast hcur, hcur, fun hle => ?_⟩
    obtain ⟨r, hr⟩ := hc.push_ok hw hcur hwhen (lt_of_le_of_lt (subTick_le hle) (hsend hle))
    refine ⟨s.setChan i d { s.chan i d with wire := rest, recv := r }, ?_⟩
    simp only [step, DistNet.receive, hw, ht, if_true, hr]
    rfl
  · obtain ⟨y, q, r, hr, -, -, -, hnext⟩ := hc.rxDone_ok hrec
    refine ⟨s.setChan i d { s.chan i d with recv := r, handed := (s.chan i d).handed ++ [y] }, ?_,
      fun t ht => ?_⟩
    · simp only [step, DistNet.rxDone, hq, hrec, and_self, if_true, hr]
      rfl
    · rw [chan_setChan, if_pos ⟨rfl, rfl⟩] at ht
      exact ⟨lt_of_le_of_lt hlast (hnext t ht), hnext t ht⟩

/-- A node and the switch, with a period and link delays of 10 ticks and the first barrier at 20. -/
def oneNode : DistNet (Fin 1) := init 20 10 (fun _ => 20) (fun _ => 10) (fun _ => 0) fun _ _ => 10

def startOps : List (Op (Fin 1)) :=
  [.start .switch, .start (.node 0), .receive 0 .up, .switchRun, .leave .switch, .receive 0 .down,
    .leave (.node 0)]

/-- The first periodic barrier, after which the node sends a packet. The switch still has to leave
the barrier. -/
def periodicOps : List (Op (Fin 1)) :=
  startOps ++ [.advance (.node 0) 20, .advance .switch 20, .process .switch, .process (.node 0),
    .receive 0 .up, .switchRun, .receive 0 .down, .leave (.node 0), .advance (.node 0) 25,
    .transmit 0 .up (.alloc 64) 0]

theorem packet_causality_periodicOps : ∃ s : DistNet (Fin 1),
    run step oneNode periodicOps = .ok s
    ∧ (s.proc .switch).curTick = 20 ∧ (s.chan 0 .up).wire = [some ⟨.alloc 64, 25, 1⟩]
    ∧ ∃ s', s.step (.receive 0 .up) = .ok s' := by
  have hend : Ends (run step oneNode periodicOps) fun s => (s.proc .switch).curTick = 20
      ∧ (s.chan 0 .up).wire = [some ⟨.alloc 64, 25, 1⟩]
      ∧ (s.proc .switch).syncRepeat ≤ (s.proc .switch).syncWhen := by
    decide
  obtain ⟨s, hs, htick, hwire, hle⟩ := hend.exists
  have hC : Admits step Allowed oneNode periodicOps := by decide
  have hdelay : ∀ i d, ownRepeat 10 (fun _ : Fin 1 => 10) (Dir.receiver i d) ≤ 10 := by decide
  obtain ⟨-, -, hpush, -⟩ := packet_causality hdelay hC hs 0 .up
  exact ⟨s, hs, htick, hwire, (hpush _ [] hwire rfl).2.2.2 hle⟩

/-- Before the first periodic barrier the switch is ahead of the node, and a packet comes too late. -/
theorem early_packet_missed :
    (∀ i d, ownRepeat 10 (fun _ : Fin 1 => 10) (Dir.receiver i d) ≤ 10)
    ∧ run step oneNode (startOps ++ [.advance .switch 19, .transmit 0 .up (.alloc 64) 0,
        .receive 0 .up]) = .error (.panic "Simulators out of sync - missed packet receive") := by
  exact ⟨by decide, rfl⟩

end DistNet

end Gem5
