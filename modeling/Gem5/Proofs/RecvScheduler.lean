import Gem5.RecvScheduler

/-!
# Packets that a checkpoint finds in the queue

`resumeRecvTicks` gives every packet of the queue the current tick as its send tick and its length as
its send delay. The first two are received. The check of `calcReceiveTick` fails for the third unless
the second packet has no length.
-/

namespace Gem5

namespace RecvScheduler

open Machine

variable {r : RecvScheduler} {curTick sendTick sendDelay prev t : ℕ}

theorem calcReceiveTick_ok : r.calcReceiveTick curTick sendTick sendDelay prev = .ok t ↔
    t = sendTick + sendDelay + r.linkDelay ∧ prev + sendDelay ≤ t ∧ curTick < t := by
  simp only [calcReceiveTick, bind_ok, require_ok, panicIf_ok, not_lt, not_le]
  constructor
  · rintro ⟨_, hprev, _, -, _, hcur, h⟩
    cases h
    exact ⟨rfl, hprev, hcur⟩
  · rintro ⟨rfl, hprev, hcur⟩
    exact ⟨(), hprev, (), hprev, (), hcur, rfl⟩

theorem popPacket_cons (t : ℕ) {d next : Desc} {rest : List Desc} (hq : r.descQueue = d :: next :: rest)
    (he : r.recvDone = none) {x : Desc × RecvScheduler} :
    r.popPacket t = .ok x ↔
      t ≤ next.sendTick + r.linkDelay
        ∧ t < next.sendTick + next.sendDelay + r.linkDelay
        ∧ x = (d, { r with
          descQueue := next :: rest
          recvDone := some (next.sendTick + next.sendDelay + r.linkDelay)
          prevRecvTick := t }) := by
  simp only [popPacket, hq, bind_ok, calcReceiveTick_ok, schedule_ok, he]
  constructor
  · rintro ⟨_, ⟨rfl, hprev, hcur⟩, _, ⟨-, -, rfl⟩, h⟩
    exact ⟨by omega, hcur, (Except.ok.inj h).symm⟩
  · rintro ⟨hprev, hcur, rfl⟩
    exact ⟨_, ⟨rfl, by omega, hcur⟩, _, ⟨by omega, trivial, rfl⟩, rfl⟩

theorem pushPacket_cases {syncWhen syncRepeat : ℕ} {d : Desc} {r' : RecvScheduler}
    (h : r.pushPacket curTick syncWhen syncRepeat d = .ok r') : r' = { r with
      descQueue := r.descQueue ++ [d]
      recvDone := if r.descQueue = [] then some (d.sendTick + d.sendDelay + r.linkDelay)
        else r.recvDone } := by
  simp only [pushPacket, bind_ok, calcReceiveTick_ok, require_ok] at h
  obtain ⟨_, ⟨rfl, -, -⟩, _, -, _, -, h⟩ := h
  split at h
  · rename_i hq
    obtain ⟨e, he, h⟩ := bind_ok.1 h
    obtain ⟨-, -, rfl⟩ := schedule_ok.1 he
    rw [← Except.ok.inj h, if_pos hq, hq]
    rfl
  · rename_i hq
    simp only [bind_ok] at h
    obtain ⟨_, -, _, -, h⟩ := h
    rw [← Except.ok.inj h, if_neg (by rw [hq]; nofun)]

theorem pushPacket_ok {syncWhen syncRepeat : ℕ} {d : Desc}
    (hcalc : r.calcReceiveTick curTick d.sendTick d.sendDelay r.prevRecvTick = .ok t)
    (hsend : subTick syncWhen syncRepeat < d.sendTick) (hwhen : syncWhen < t)
    (hnone : r.descQueue = [] → r.recvDone = none)
    (hfront : ∀ x rest, r.descQueue = x :: rest →
      r.recvDone.isSome ∧ x.sendTick + x.sendDelay ≤ t) :
    ∃ r', r.pushPacket curTick syncWhen syncRepeat d = .ok r' := by
  obtain ⟨ht, -, hcur⟩ := calcReceiveTick_ok.1 hcalc
  rcases hq : r.descQueue with _ | ⟨x, rest⟩
  · refine ⟨{ r with descQueue := [d], recvDone := some t }, ?_⟩
    simp only [pushPacket, bind_ok, require_ok]
    refine ⟨t, hcalc, (), hsend, (), ht ▸ hwhen, ?_⟩
    rw [hq]
    exact bind_ok.2 ⟨some t, schedule_ok.2 ⟨hcur.le, hnone hq, rfl⟩, rfl⟩
  · obtain ⟨hsome, hle⟩ := hfront x rest hq
    refine ⟨{ r with descQueue := r.descQueue ++ [d] }, ?_⟩
    simp only [pushPacket, bind_ok, require_ok]
    refine ⟨t, hcalc, (), hsend, (), ht ▸ hwhen, ?_⟩
    rw [hq]
    simp only [bind_ok, require_ok, panicIf_ok, not_lt]
    exact ⟨(), hsome, (), hle, rfl⟩

/-- The packets of a restored link can all be received. -/
def Resumable (linkDelay : ℕ) : List Desc → Prop
  | [] | [_] => True
  | [_, d] => 0 < d.packet.simLength + linkDelay
  | [_, d, d'] => d.packet.simLength = 0 ∧ 0 < d'.packet.simLength ∧ 0 < linkDelay
  | _ => False

instance (linkDelay : ℕ) : ∀ q, Decidable (Resumable linkDelay q)
  | [] | [_] => .isTrue trivial
  | [_, _] => inferInstanceAs (Decidable (_ < _))
  | [_, _, _] => inferInstanceAs (Decidable (_ ∧ _))
  | _ :: _ :: _ :: _ :: _ => .isFalse id

/-- What `resumeRecvTicks` makes of a queue. -/
def asap (curTick : ℕ) (q : List Desc) : List Desc :=
  q.map fun d => { d with sendTick := curTick, sendDelay := d.packet.simLength }

/-- A resumed link with the packets `q`, of which the first is received at tick `t`. -/
def resumed (linkDelay curTick prev t : ℕ) (q : List Desc) : RecvScheduler where
  descQueue := asap curTick q
  prevRecvTick := prev
  recvDone := if q = [] then none else some t
  linkDelay := linkDelay
  ckptRestore := false

theorem restore_eq {saved : RecvScheduler} (linkDelay : ℕ)
    (hq : saved.recvDone.isSome ↔ saved.descQueue ≠ [])
    (hfuture : ∀ t, saved.recvDone = some t → curTick ≤ t) :
    saved.restore linkDelay curTick
      = .ok (resumed linkDelay curTick saved.prevRecvTick curTick saved.descQueue) := by
  rcases hd : saved.recvDone with _ | t
  · have hnil : saved.descQueue = [] := by
      by_contra hne
      have := hq.2 hne
      simp [hd] at this
    simp [restore, unserialize, init, restoreEvent, resumeRecvTicks, resumed, hd, hnil, asap, require,
      bind, Except.bind, pure, Except.pure]
  · have hne : saved.descQueue ≠ [] := hq.1 (by rw [hd]; rfl)
    simp [restore, unserialize, init, restoreEvent, resumeRecvTicks, resumed, hd, hne, asap, require,
      schedule, reschedule, hfuture t hd, bind, Except.bind, pure, Except.pure]

variable {linkDelay n : ℕ} {d d' : Desc} {q : List Desc} {ps : List EthPacket}

theorem deliver_one :
    deliver 1 (resumed linkDelay curTick prev t [d]) = .ok [d.packet] := rfl

theorem deliver_cons : deliver (n + 1) (resumed linkDelay curTick prev t (d :: d' :: q)) = .ok ps ↔
    t ≤ curTick + linkDelay ∧ t < curTick + d'.packet.simLength + linkDelay
      ∧ ∃ ps', ps = d.packet :: ps'
        ∧ deliver n (resumed linkDelay curTick t (curTick + d'.packet.simLength + linkDelay)
          (d' :: q)) = .ok ps' := by
  have hqueue : { resumed linkDelay curTick prev t (d :: d' :: q) with recvDone := none }.descQueue
      = { d with sendTick := curTick, sendDelay := d.packet.simLength }
        :: { d' with sendTick := curTick, sendDelay := d'.packet.simLength } :: asap curTick q := rfl
  have hpop := fun x => popPacket_cons t hqueue rfl (x := x)
  simp only [deliver, bind_ok]
  constructor
  · rintro ⟨x, hx, ps', hps', h⟩
    obtain ⟨hle, hlt, rfl⟩ := (hpop _).1 hx
    exact ⟨hle, hlt, ps', (Except.ok.inj h).symm, hps'⟩
  · rintro ⟨hle, hlt, ps', rfl, hps'⟩
    exact ⟨_, (hpop _).2 ⟨hle, hlt, rfl⟩, ps', hps', rfl⟩

theorem deliver_resumed : ∀ q : List Desc,
    deliver q.length (resumed linkDelay curTick prev curTick q) = .ok (q.map Desc.packet)
      ↔ Resumable linkDelay q
  | [] | [_] => iff_of_true rfl trivial
  | [d₀, d₁] => by
    rw [List.length_cons, deliver_cons]
    constructor
    · rintro ⟨-, hlt, -⟩
      show 0 < d₁.packet.simLength + linkDelay
      omega
    · intro (h : 0 < d₁.packet.simLength + linkDelay)
      exact ⟨by omega, by omega, _, rfl, deliver_one⟩
  | [d₀, d₁, d₂] => by
    rw [List.length_cons, deliver_cons]
    constructor
    · rintro ⟨-, hlt, ps, -, h⟩
      obtain ⟨hle, hlt', -⟩ := deliver_cons.1 h
      exact ⟨by omega, by omega, by omega⟩
    · rintro ⟨h0, hpos, hdelay⟩
      refine ⟨by omega, by omega, _, rfl, deliver_cons.2 ⟨by omega, by omega, _, rfl, deliver_one⟩⟩
  | d₀ :: d₁ :: d₂ :: d₃ :: q => by
    refine iff_of_false (fun h => ?_) id
    obtain ⟨-, -, ps, -, h⟩ := deliver_cons.1 h
    obtain ⟨-, hlt, ps', -, h⟩ := deliver_cons.1 h
    obtain ⟨hle, -⟩ := deliver_cons.1 h
    omega

/-- The packets in a link's queue at a checkpoint are all received after it is restored, in order,
exactly if they are at most one, or two and the second takes some time, or three of which the second
has no length. -/
theorem restored_delivered {saved : RecvScheduler}
    (hq : saved.recvDone.isSome ↔ saved.descQueue ≠ [])
    (hfuture : ∀ t, saved.recvDone = some t → curTick ≤ t) :
    (∃ r, saved.restore linkDelay curTick = .ok r
        ∧ deliver saved.descQueue.length r = .ok (saved.descQueue.map Desc.packet))
      ↔ Resumable linkDelay saved.descQueue := by
  simp only [restore_eq linkDelay hq hfuture, Except.ok.injEq, exists_eq_left']
  exact deliver_resumed saved.descQueue

def smallPacket : EthPacket := ⟨List.replicate 60 0, 60, 60⟩

/-- A link with `n` packets in its queue, sent 100 ticks after each other with a delay of 61 ticks on
a link with a delay of 1000. -/
def pendingLink (n : ℕ) : RecvScheduler where
  descQueue := (List.range n).map fun k => ⟨smallPacket, 5000 + 100 * k, 61⟩
  prevRecvTick := 5961
  recvDone := if n = 0 then none else some 6061
  linkDelay := 1000
  ckptRestore := false

theorem restored_delivered_pendingLink : ∃ r, (pendingLink 2).restore 1000 6000 = .ok r
    ∧ deliver 2 r = .ok [smallPacket, smallPacket] :=
  (restored_delivered (show (pendingLink 2).recvDone.isSome ↔ (pendingLink 2).descQueue ≠ [] by decide)
    (fun t ht => by cases ht; decide)).2 (by decide)

/-- The third of three packets is not received. -/
theorem restored_stops : ∃ r, (pendingLink 3).restore 1000 6000 = .ok r
    ∧ deliver 3 r = .error (.assertion "recv_tick >= prev_recv_tick + send_delay") :=
  ⟨_, rfl, rfl⟩

end RecvScheduler

end Gem5
