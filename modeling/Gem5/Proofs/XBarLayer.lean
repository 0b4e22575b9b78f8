import Gem5.XBarLayer

/-!
# The layer of the crossbar forgets no port

A port that is refused is put on the waiting list, or waits for the peer, and leaves that place only
to be told to retry (`records`). A layer that becomes idle retries the first port of its list at once
unless one waits for the peer.
-/

namespace Gem5

namespace XBarLayer

open Machine
open Function (update)

variable {P : Type} [DecidableEq P] {l l' : XBarLayer P} {port : P}

def records (l : XBarLayer P) (port : P) : ℕ :=
  l.waitingForLayer.count port + if l.waitingForPeer = some port then 1 else 0

/-- What holds of the layer at every point, also inside its calls. -/
structure Inv (l : XBarLayer P) : Prop where
  period : 0 < l.clockPeriod
  forwards : ∀ p, l.forwarding = some p → (l.state = .busy ∧ l.releaseEvent = none)
    ∧ l.waitingForPeer = none ∧ l.refused p = false
  busy : l.forwarding = none → (l.state = .busy ↔ l.releaseEvent.isSome = true)
  event : ∀ w, l.releaseEvent = some w → l.curTick ≤ w ∧ 0 < w
  retry : l.state = .retry → l.retrying = true ∧ l.waitingForPeer = none
  retrying : l.retrying = true → l.state ≠ .idle ∧ 0 < l.curTick
  idle : l.state = .idle → l.waitingForPeer = none → l.waitingForLayer = []
  started : l.waitingForPeer.isSome = true → l.releaseEvent = none → 0 < l.curTick
  recorded : ∀ p, l.records p = if l.refused p = true then 1 else 0

omit [DecidableEq P] in
theorem lt_clockEdge (hp : 0 < l.clockPeriod) (cycles : ℕ) (hc : 0 < cycles) :
    l.curTick < l.clockEdge cycles := by
  have hle := le_clockEdge hp l.curTick cycles
  have hpos := Nat.mul_pos hp hc
  unfold clockEdge
  omega

omit [DecidableEq P] in
theorem busyTime_eq_zero (hp : 0 < l.clockPeriod) (payloadDelay : ℕ) :
    l.clockEdge l.headerLatency + payloadDelay = 0 ↔
      l.headerLatency = 0 ∧ l.curTick = 0 ∧ payloadDelay = 0 := by
  constructor
  · intro h
    have hle := le_clockEdge hp l.curTick l.headerLatency
    unfold clockEdge at h
    have hmul : l.clockPeriod * l.headerLatency = 0 := by omega
    exact ⟨(Nat.mul_eq_zero.1 hmul).resolve_left hp.ne', by omega, by omega⟩
  · rintro ⟨hh, hc, rfl⟩
    have hlt : l.clockPeriod - 1 < l.clockPeriod := by omega
    simp [clockEdge, Gem5.clockEdge, hh, hc, Nat.div_eq_of_lt hlt]

omit [DecidableEq P] in
theorem occupyLayer_eq (tick : ℕ) (hs : l.state = .busy) (hev : l.releaseEvent = none)
    (h₀ : tick ≠ 0) (hle : l.curTick ≤ tick) :
    l.occupyLayer tick = .ok { l with releaseEvent := some tick } := by
  rw [occupyLayer, require_of hs, require_of h₀, schedule_ok.2 ⟨hle, hev, rfl⟩]
  rfl

/-! ## The steps -/

theorem tryTiming_spec (hl : l.Inv) (hport : l.refused port = false)
    (hfree : l.forwarding ≠ some port) : ∃ l', l.tryTiming port = .ok l' ∧ l'.Inv := by
  have hzero : l.records port = 0 := by simp [hl.recorded, hport]
  have hnot : port ∉ l.waitingForLayer := by
    refine List.count_eq_zero.1 ?_
    unfold records at hzero
    omega
  unfold tryTiming
  split_ifs with hbusy
  · refine ⟨_, by rw [require_of hnot]; rfl, ?_⟩
    refine ⟨hl.period, fun p hp => ?_, hl.busy, hl.event, hl.retry, hl.retrying,
      fun hidle hpeer => ?_, hl.started, fun p => ?_⟩
    · obtain ⟨h₁, h₂, h₃⟩ := hl.forwards p hp
      have hne : p ≠ port := fun h => hfree (h ▸ hp)
      refine ⟨h₁, h₂, ?_⟩
      simpa [Function.update_of_ne hne] using h₃
    · have hidle' : l.state = .idle := hidle
      have hpeer' : l.waitingForPeer = none := hpeer
      simp [hidle', hpeer'] at hbusy
    · have hrec := hl.recorded p
      by_cases hp : p = port
      · subst hp
        simp only [records, List.count_append, List.count_singleton_self, Function.update_self,
          if_true] at hzero ⊢
        omega
      · simpa [records, Function.update_of_ne hp, List.count_singleton, Ne.symm hp] using hrec
  · rw [not_or] at hbusy
    have hpeer : l.waitingForPeer = none := by simpa using hbusy.2
    have hnone : l.forwarding = none := by
      cases hf : l.forwarding with
      | none => rfl
      | some p => exact absurd (hl.forwards p hf).1.1 hbusy.1
    have hev : l.releaseEvent = none := by
      have := (hl.busy hnone).not.1 hbusy.1
      simpa using this
    refine ⟨_, rfl, hl.period, ?_, ?_, hl.event, ?_, fun hr => ?_, ?_, hl.started,
      hl.recorded⟩
    · rintro p ⟨⟩
      exact ⟨⟨rfl, hev⟩, hpeer, hport⟩
    · rintro ⟨⟩
    · rintro ⟨⟩
    · exact ⟨by simp, (hl.retrying hr).2⟩
    · rintro ⟨⟩

theorem forwardSucceeded_spec {payloadDelay : ℕ} (hl : l.Inv) (hf : l.forwarding.isSome = true)
    (h₀ : l.clockEdge l.headerLatency + payloadDelay ≠ 0) :
    ∃ l', l.forwardSucceeded payloadDelay = .ok l' ∧ l'.Inv := by
  obtain ⟨p, hp⟩ := Option.isSome_iff_exists.1 hf
  obtain ⟨⟨hs, hev⟩, hpeer, -⟩ := hl.forwards p hp
  have hedge := le_clockEdge hl.period l.curTick l.headerLatency
  have hle : l.curTick ≤ l.clockEdge l.headerLatency + payloadDelay := by
    unfold clockEdge
    omega
  have hocc := occupyLayer_eq (l := { l with forwarding := none }) _ hs hev h₀ hle
  refine ⟨{ l with
      forwarding := none, releaseEvent := some (l.clockEdge l.headerLatency + payloadDelay) },
    ?_, hl.period, ?_, ?_, ?_, hl.retry, hl.retrying, ?_, ?_, hl.recorded⟩
  · rw [forwardSucceeded, hp]
    exact bind_ok.2 ⟨(), require_of hs _, hocc⟩
  · rintro q ⟨⟩
  · simpa using hs
  · rintro w ⟨⟩
    exact ⟨hle, by omega⟩
  · intro hidle
    simp [show l.state = .idle from hidle] at hs
  · rintro - ⟨⟩

omit [DecidableEq P] in
theorem forwardSucceeded_ne_zero {payloadDelay : ℕ} (h : l.forwardSucceeded payloadDelay = .ok l') :
    l.clockEdge l.headerLatency + payloadDelay ≠ 0 := by
  unfold forwardSucceeded at h
  split at h
  · cases h
  · obtain ⟨_, -, h⟩ := bind_ok.1 h
    obtain ⟨_, -, h⟩ := bind_ok.1 h
    obtain ⟨_, h₀, -⟩ := bind_ok.1 h
    exact require_ok.1 h₀

theorem forwardFailed_spec (hl : l.Inv) (hf : l.forwarding.isSome = true) :
    ∃ l', l.forwardFailed = .ok l' ∧ l'.Inv := by
  obtain ⟨p, hp⟩ := Option.isSome_iff_exists.1 hf
  obtain ⟨⟨hs, hev⟩, hpeer, hrefused⟩ := hl.forwards p hp
  have hlt := lt_clockEdge hl.period 1 Nat.one_pos
  have hocc := occupyLayer_eq (l := { l with
      forwarding := none, waitingForPeer := some p, refused := update l.refused p true })
    (l.clockEdge 1) hs hev (by omega) hlt.le
  refine ⟨{ l with
      forwarding := none, waitingForPeer := some p, refused := update l.refused p true
      releaseEvent := some (l.clockEdge 1) },
    ?_, hl.period, ?_, ?_, ?_, ?_, hl.retrying, ?_, ?_, fun q => ?_⟩
  · rw [forwardFailed, hp]
    exact bind_ok.2 ⟨(), require_of hpeer _, bind_ok.2 ⟨(), require_of hs _, hocc⟩⟩
  · rintro q ⟨⟩
  · simpa using hs
  · rintro w ⟨⟩
    exact ⟨hlt.le, by omega⟩
  · intro hr
    simp [show l.state = .retry from hr] at hs
  · rintro - ⟨⟩
  · rintro - ⟨⟩
  · have hrec := hl.recorded q
    by_cases hq : q = p
    · subst hq
      simp only [records, hpeer, hrefused] at hrec
      simp only [records, Function.update_self, if_true]
      simpa using hrec
    · simpa [records, hpeer, Function.update_of_ne hq, Ne.symm hq] using hrec

theorem retryWaiting_spec {ports : List P} (hp : 0 < l.clockPeriod) (hnone : l.forwarding = none)
    (hs : l.state = .idle) (hlist : l.waitingForLayer = port :: ports)
    (hpeer : l.waitingForPeer = none) (hev : l.releaseEvent = none) (hpos : 0 < l.curTick)
    (hrec : ∀ p, l.records p = if l.refused p = true then 1 else 0) :
    ∃ l', l.retryWaiting = .ok l' ∧ l'.Inv := by
  have hne : l.waitingForLayer ≠ [] := by simp [hlist]
  refine ⟨{ l with
    state := .retry, waitingForLayer := ports, retrying := true, refused := update l.refused port false },
    ?_, hp, ?_, ?_, ?_, ?_, ?_, ?_, ?_, fun p => ?_⟩
  · rw [retryWaiting, require_of hne, require_of hs, hlist]
    rfl
  · intro p hf
    simp [show l.forwarding = some p from hf] at hnone
  · simp [hev]
  · simp [hev]
  · exact fun _ => ⟨rfl, hpeer⟩
  · exact fun _ => ⟨by simp, hpos⟩
  · rintro ⟨⟩
  · simp [hpeer]
  · have hp' := hrec p
    simp only [records, hlist, hpeer, List.count_cons] at hp' ⊢
    by_cases hpp : p = port
    · subst hpp
      simp only [Function.update_self]
      split_ifs at hp' <;> simp_all
    · simpa [Function.update_of_ne hpp, Ne.symm hpp] using hp'

theorem sendRetryReturned_spec (hl : l.Inv) (hr : l.retrying = true) (hnone : l.forwarding = none) :
    ∃ l', l.sendRetryReturned = .ok l' ∧ l'.Inv := by
  obtain ⟨hidle, hpos⟩ := hl.retrying hr
  have hev : l.state = .retry → l.releaseEvent = none := by
    intro hs
    have := (hl.busy hnone).not.1 (by simp [hs])
    simpa using this
  have hle : l.curTick ≤ l.clockEdge 0 := le_clockEdge hl.period l.curTick 0
  rw [sendRetryReturned, if_pos hr]
  split_ifs with hs
  · have hocc := occupyLayer_eq (l := { l with retrying := false, state := .busy }) (l.clockEdge 0)
      rfl (hev hs) (by omega) hle
    refine ⟨_, hocc, hl.period, ?_, ?_, ?_, ?_, ?_, ?_, ?_, hl.recorded⟩
    · intro p hf
      simp [show l.forwarding = some p from hf] at hnone
    · simp
    · rintro w ⟨⟩
      exact ⟨hle, by omega⟩
    · rintro ⟨⟩
    · rintro ⟨⟩
    · rintro ⟨⟩
    · rintro - ⟨⟩
  · refine ⟨_, rfl, hl.period, hl.forwards, hl.busy, hl.event, ?_, ?_, hl.idle, hl.started,
      hl.recorded⟩
    · exact fun h => absurd h hs
    · rintro ⟨⟩

theorem releaseLayer_spec (hl : l.Inv) (hnone : l.forwarding = none) (hr : l.retrying = false)
    (hdue : l.releaseEvent = some l.curTick) : ∃ l', l.releaseLayer = .ok l' ∧ l'.Inv := by
  have hs : l.state = .busy := (hl.busy hnone).2 (by simp [hdue])
  have hpos := (hl.event _ hdue).2
  have hreleased : (l.waitingForPeer = none → l.waitingForLayer = []) → ∀ d,
      Inv { l with releaseEvent := none, state := .idle, drainState := d } := by
    intro hidle d
    refine ⟨hl.period, ?_, by simp, by simp, ?_, ?_, fun _ => hidle, fun _ _ => hpos,
      hl.recorded⟩
    · intro p hf
      simp [show l.forwarding = some p from hf] at hnone
    · rintro ⟨⟩
    · intro h
      simp [show l.retrying = true from h] at hr
  rw [releaseLayer, if_pos hdue]
  simp only [require_of hs, require_of, ok_bind]
  cases hlist : l.waitingForLayer with
  | nil =>
    simp only [ne_eq, not_true_eq_false, if_false]
    rw [← hlist]
    split_ifs <;> exact ⟨_, rfl, hreleased (fun _ => hlist) _⟩
  | cons port ports =>
    rw [if_pos (by simp)]
    split_ifs with hpeer
    · rw [← hlist]
      exact retryWaiting_spec (l := { l with releaseEvent := none, state := .idle }) hl.period
        hnone rfl hlist hpeer rfl hpos hl.recorded
    · rw [← hlist]
      exact ⟨_, rfl, hreleased (fun h => absurd h hpeer) _⟩

theorem recvRetry_spec (hl : l.Inv) (hpeer : l.waitingForPeer.isSome = true) :
    ∃ l', l.recvRetry = .ok l' ∧ l'.Inv := by
  obtain ⟨p, hp⟩ := Option.isSome_iff_exists.1 hpeer
  have hnone : l.forwarding = none := by
    cases hf : l.forwarding with
    | none => rfl
    | some q =>
      have := (hl.forwards q hf).2.1
      simp [hp] at this
  have hrec : ∀ q, records
      { l with waitingForLayer := p :: l.waitingForLayer, waitingForPeer := none } q =
        if l.refused q = true then 1 else 0 := by
    intro q
    rw [← hl.recorded q]
    simp only [records, hp, List.count_cons, Option.some.injEq, beq_iff_eq]
    simp
  rw [recvRetry, hp]
  simp only
  split_ifs with hs
  · have hev : l.releaseEvent = none := by
      have := (hl.busy hnone).not.1 (by simp [hs])
      simpa using this
    exact retryWaiting_spec (l := { l with
        waitingForLayer := p :: l.waitingForLayer, waitingForPeer := none }) hl.period hnone
      hs rfl rfl hev (hl.started hpeer hev) hrec
  · have hbusy : l.state = .busy := by
      cases hst : l.state with
      | idle => exact absurd hst hs
      | busy => rfl
      | retry =>
        have := (hl.retry hst).2
        simp [hp] at this
    refine ⟨{ l with waitingForLayer := p :: l.waitingForLayer, waitingForPeer := none }, ?_, hl.period,
      ?_, hl.busy, hl.event, ?_, hl.retrying, fun h => absurd h hs, ?_, hrec⟩
    · exact bind_ok.2 ⟨(), require_of hbusy _, rfl⟩
    · intro q hf
      simp [show l.forwarding = some q from hf] at hnone
    · intro h
      simp [show l.state = .retry from h] at hbusy
    · rintro ⟨⟩

/-- A packet without payload is forwarded at tick 0 and the header takes no time. -/
def Instant (l : XBarLayer P) (o : Op P) : Prop :=
  l.headerLatency = 0 ∧ l.curTick = 0 ∧ o = .forwardSucceeded 0

theorem step_spec {o : Op P} (hl : l.Inv) (ho : l.Respects o) (hi : ¬l.Instant o) :
    ∃ l', l.step o = .ok l' ∧ l'.Inv := by
  cases o with
  | advance tick =>
    obtain ⟨-, hle, hev⟩ := ho
    refine ⟨_, if_pos ⟨hle, hev⟩, hl.period, hl.forwards, hl.busy, fun w hw => ?_, hl.retry,
      fun hr => ?_, hl.idle, fun h₁ h₂ => ?_, hl.recorded⟩
    · exact ⟨hev w hw, (hl.event w hw).2⟩
    · exact ⟨(hl.retrying hr).1, (hl.retrying hr).2.trans_le hle⟩
    · exact (hl.started h₁ h₂).trans_le hle
  | tryTiming port => exact tryTiming_spec hl ho.1 ho.2
  | forwardSucceeded payloadDelay =>
    refine forwardSucceeded_spec hl ho fun h₀ => hi ?_
    obtain ⟨hh, hc, rfl⟩ := (busyTime_eq_zero hl.period payloadDelay).1 h₀
    exact ⟨hh, hc, rfl⟩
  | forwardFailed => exact forwardFailed_spec hl ho
  | sendRetryReturned => exact sendRetryReturned_spec hl ho.1 ho.2
  | releaseLayer => exact releaseLayer_spec hl ho.1.1 ho.1.2 ho.2
  | recvRetry => exact recvRetry_spec hl ho
  | drain =>
    exact ⟨_, rfl, hl.period, hl.forwards, hl.busy, hl.event, hl.retry, hl.retrying, hl.idle,
      hl.started, hl.recorded⟩

theorem step_not_instant {o : Op P} (hl : l.Inv) (h : l.step o = .ok l') : ¬l.Instant o := by
  rintro ⟨hh, hc, rfl⟩
  exact forwardSucceeded_ne_zero h ((busyTime_eq_zero hl.period 0).2 ⟨hh, hc, rfl⟩)

theorem init_inv {clockPeriod : ℕ} (hp : 0 < clockPeriod) (headerLatency : ℕ) :
    Inv (P := P) { clockPeriod, headerLatency } :=
  ⟨hp, by simp, by simp, by simp, by simp, by simp, by simp, by simp, by simp [records]⟩

/-- In every run of ports that follow the retry protocol the layer is busy exactly while its release
event is scheduled, unless a packet is just being forwarded. A port is recorded in one place if it is
owed a retry, and else in none, and an idle layer that waits for no peer has an empty waiting list.
Every step is made, except that a forward until tick 0 ends in an assertion. -/
theorem layer_arbitration {clockPeriod headerLatency : ℕ} (hp : 0 < clockPeriod) {ops : List (Op P)}
    (hops : Admits step Respects { clockPeriod, headerLatency } ops)
    (hrun : run step { clockPeriod, headerLatency } ops = .ok l) :
    (l.forwarding = none → (l.state = .busy ↔ l.releaseEvent.isSome = true))
      ∧ (∀ p, l.waitingForLayer.count p + (if l.waitingForPeer = some p then 1 else 0) =
        if l.refused p = true then 1 else 0)
      ∧ (l.state = .idle → l.waitingForPeer = none → l.waitingForLayer = [])
      ∧ ∀ o, l.Respects o → ((∃ l', l.step o = .ok l') ↔
        ¬(l.headerLatency = 0 ∧ l.curTick = 0 ∧ o = .forwardSucceeded 0)) := by
  have hinv : l.Inv := by
    refine hops.inv (I := Inv) (fun u o u' hu ho h => ?_) (init_inv hp headerLatency) hrun
    obtain ⟨w, hw, hinv⟩ := step_spec hu ho (step_not_instant hu h)
    obtain rfl := Except.ok.inj (hw.symm.trans h)
    exact hinv
  refine ⟨hinv.busy, hinv.recorded, hinv.idle, fun o ho => ⟨?_, fun hi => ?_⟩⟩
  · rintro ⟨l', h⟩
    exact step_not_instant hinv h
  · obtain ⟨l', h, -⟩ := step_spec hinv ho hi
    exact ⟨l', h⟩

/-- Port 1 comes while the packet of port 0 is being forwarded. The peer refuses that packet and asks
for it after the layer was released. Port 0 sends it then, and port 1 does not come back when it is
told to. -/
def contendedOps : List (Op ℕ) :=
  [.tryTiming 0, .tryTiming 1, .forwardFailed, .advance 2, .releaseLayer, .recvRetry, .tryTiming 0,
    .forwardSucceeded 4, .sendRetryReturned, .advance 8, .releaseLayer, .sendRetryReturned]

theorem layer_arbitration_contendedOps : ∃ l : XBarLayer ℕ,
    run step { clockPeriod := 2, headerLatency := 1 } contendedOps = .ok l
      ∧ l.waitingForLayer = [] ∧ ∃ l', l.step .releaseLayer = .ok l' := by
  obtain ⟨l, hrun, hlist, hdue⟩ : ∃ l : XBarLayer ℕ,
      run step { clockPeriod := 2, headerLatency := 1 } contendedOps = .ok l
        ∧ l.waitingForLayer = [] ∧ l.Respects .releaseLayer := ⟨_, rfl, rfl, by decide⟩
  refine ⟨l, hrun, hlist, ?_⟩
  exact ((layer_arbitration (by decide) (by decide) hrun).2.2.2 .releaseLayer hdue).2 (by simp)

/-- A header that takes no time at tick 0. -/
theorem instant_forward : (run step { clockPeriod := 2, headerLatency := 0 }
    [.tryTiming 0, .forwardSucceeded 0] : Except Halt (XBarLayer ℕ))
      = .error (.assertion "until != 0") :=
  rfl

end XBarLayer

end Gem5
