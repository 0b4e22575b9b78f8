import Gem5.Bridge

/-!
# The bridge forwards in order and loses no retry

A port with a packet in its queue has its send event scheduled, or is in a call of the peer, or was
refused, and its first packet is due by then (`Steady`). A retry is owed only while one of the two
limits is reached.
-/

namespace Gem5

open Machine List

namespace SendPort

variable {p p' : SendPort} {curTick tick : ℕ}

/-- What sends the first packet of the queue, and that it is due then. -/
structure Steady (p : SendPort) (curTick : ℕ) : Prop where
  empty : p.transmitList = [] → p.sendEvent = none
  event : ∀ w, p.sendEvent = some w → curTick ≤ w ∧ (p.sending = false ∧ p.refused = false)
    ∧ ∃ d rest, p.transmitList = d :: rest ∧ d.tick ≤ w
  tried : p.sending = true ∨ p.refused = true →
    ∃ d rest, p.transmitList = d :: rest ∧ d.tick ≤ curTick
  one : p.sending = true → p.refused = false

theorem Steady.no_event (h : p.Steady curTick) (ht : p.sending = true ∨ p.refused = true) :
    p.sendEvent = none := by
  cases hs : p.sendEvent with
  | none => rfl
  | some w =>
    obtain ⟨-, ⟨h₁, h₂⟩, -⟩ := h.event w hs
    simp [h₁, h₂] at ht

theorem Steady.push (h : p.Steady curTick) (hle : curTick ≤ tick) (id : ℕ) (pkt : Packet) :
    ∃ event, p.arm curTick tick = .ok event ∧ (p.push event ⟨tick, id, pkt⟩).Steady curTick := by
  cases hl : p.transmitList with
  | nil =>
    have hidle : p.sending = false ∧ p.refused = false := by
      by_contra hne
      obtain ⟨d, rest, hd, -⟩ := h.tried (by
        rw [not_and_or] at hne
        simpa using hne)
      simp [hl] at hd
    refine ⟨some tick, ?_, by simp [SendPort.push], ?_, ?_, h.one⟩
    · rw [arm, if_pos hl]
      exact schedule_ok.2 ⟨hle, h.empty hl, rfl⟩
    · rintro w ⟨⟩
      exact ⟨hle, hidle, ⟨tick, id, pkt⟩, [], by simp [SendPort.push, hl], le_rfl⟩
    · rintro (hs | hs)
      · exact absurd hs (by simp [SendPort.push, hidle.1])
      · exact absurd hs (by simp [SendPort.push, hidle.2])
  | cons d rest =>
    have hfront : (p.push p.sendEvent ⟨tick, id, pkt⟩).transmitList = d :: (rest ++ [⟨tick, id, pkt⟩]) := by
      simp [SendPort.push, hl]
    refine ⟨p.sendEvent, by rw [arm, if_neg (by simp [hl])], by simp [hfront], fun w hw => ?_,
      fun ht => ?_, h.one⟩
    · obtain ⟨h₁, h₂, d', rest', hl', hd⟩ := h.event w hw
      rw [hl] at hl'
      obtain ⟨rfl, -⟩ := List.cons.inj hl'
      exact ⟨h₁, h₂, d, _, hfront, hd⟩
    · obtain ⟨d', rest', hl', hd⟩ := h.tried ht
      rw [hl] at hl'
      obtain ⟨rfl, -⟩ := List.cons.inj hl'
      exact ⟨d, _, hfront, hd⟩

/-- What a port keeps while it sends: its packets. -/
structure SamePackets (p p' : SendPort) : Prop where
  transmitList : p'.transmitList = p.transmitList
  sent : p'.sent = p.sent

theorem trySendTiming_spec {d : BridgePacket} {rest : List BridgePacket}
    (hl : p.transmitList = d :: rest) (hd : d.tick ≤ curTick) (hev : p.sendEvent = none) :
    ∃ p', p.trySendTiming curTick = .ok p' ∧ p'.Steady curTick ∧ SamePackets p p' := by
  refine ⟨{ p with sending := true, refused := false }, ?_, ⟨?_, ?_, ?_, fun _ => rfl⟩, ⟨rfl, rfl⟩⟩
  · rw [trySendTiming, hl]
    simp only [require_of hd, ok_bind]
    rfl
  · exact fun _ => hev
  · intro w hw
    simp [show p.sendEvent = some w from hw] at hev
  · exact fun _ => ⟨d, rest, hl, hd⟩

theorem retry_spec (h : p.Steady curTick) (hr : p.refused = true) :
    ∃ p', p.trySendTiming curTick = .ok p' ∧ p'.Steady curTick ∧ SamePackets p p' := by
  obtain ⟨d, rest, hl, hd⟩ := h.tried (.inr hr)
  exact trySendTiming_spec hl hd (h.no_event (.inr hr))

theorem processSendEvent_spec (h : p.Steady curTick) (hdue : p.sendEvent = some curTick) :
    ∃ p', p.processSendEvent curTick = .ok p' ∧ p'.Steady curTick ∧ SamePackets p p' := by
  obtain ⟨-, -, d, rest, hl, hd⟩ := h.event _ hdue
  obtain ⟨p', hp', hs, hsame⟩ := trySendTiming_spec (p := { p with sendEvent := none }) hl hd rfl
  exact ⟨p', by rw [processSendEvent, if_pos hdue]; exact hp', hs, ⟨hsame.transmitList, hsame.sent⟩⟩

theorem sendRefused_spec (h : p.Steady curTick) (hs : p.sending = true) :
    ∃ p', p.sendRefused = .ok p' ∧ p'.Steady curTick ∧ SamePackets p p' := by
  have hev := h.no_event (.inl hs)
  refine ⟨_, if_pos hs, ⟨fun _ => hev, ?_, fun _ => h.tried (.inl hs), by simp⟩, ⟨rfl, rfl⟩⟩
  intro w hw
  simp [show p.sendEvent = some w from hw] at hev

theorem sendAccepted_spec {edge : ℕ} (h : p.Steady curTick) (hs : p.sending = true)
    (hle : curTick ≤ edge) : ∃ p' d, p.sendAccepted curTick edge = .ok p' ∧ p'.Steady curTick
      ∧ p.transmitList = d :: p'.transmitList ∧ p'.sent = p.sent ++ [d] := by
  have hone := h.one hs
  obtain ⟨d, rest, hl, -⟩ := h.tried (.inl hs)
  have hev := h.no_event (.inl hs)
  cases rest with
  | nil =>
    refine ⟨{ p with sending := false, transmitList := [], sent := p.sent ++ [d] }, d, ?_, ?_, hl, rfl⟩
    · rw [sendAccepted, hl]
      simp only [hs, if_true]
    · refine ⟨fun _ => hev, fun w hw => ?_, ?_, by simp⟩
      · simp [show p.sendEvent = some w from hw] at hev
      · simp [hone]
  | cons next rest =>
    refine ⟨{ p with
      sending := false, transmitList := next :: rest, sent := p.sent ++ [d],
      sendEvent := some (max next.tick edge) }, d, ?_, ?_, hl, rfl⟩
    · rw [sendAccepted, hl]
      simp only [hs, if_true, schedule_ok.2 ⟨hle.trans (le_max_right _ _), hev, rfl⟩, ok_bind]
      rfl
    · refine ⟨by simp, ?_, by simp [hone], by simp⟩
      rintro w ⟨⟩
      exact ⟨hle.trans (le_max_right _ _), ⟨rfl, hone⟩, next, rest, rfl, le_max_left _ _⟩

theorem Steady.advance (h : p.Steady curTick) (hle : curTick ≤ tick)
    (hev : ∀ w ∈ p.sendEvent, tick ≤ w) : p.Steady tick := by
  refine ⟨h.empty, fun w hw => ⟨hev w hw, (h.event w hw).2⟩, fun ht => ?_, h.one⟩
  obtain ⟨d, rest, hl, hd⟩ := h.tried ht
  exact ⟨d, rest, hl, hd.trans hle⟩

end SendPort

namespace Bridge

variable {b b' : Bridge} {pkt : Packet} {tick receiveDelay : ℕ}

/-! ## Outstanding responses -/

/-- How many requests need a response and have not had it delivered. -/
def pending (accepted delivered : List BridgePacket) : ℕ :=
  accepted.countP fun r => r.pkt.cmd.needsResponse && decide (r.id ∉ delivered.map (·.id))

theorem pending_accept {accepted delivered : List BridgePacket} {r : BridgePacket}
    (hnew : r.id ∉ delivered.map (·.id)) : pending (accepted ++ [r]) delivered =
      pending accepted delivered + if r.pkt.cmd.needsResponse = true then 1 else 0 := by
  simp only [pending, countP_append, countP_singleton, hnew, not_false_eq_true, decide_true,
    Bool.and_true]

theorem pending_deliver {accepted delivered : List BridgePacket} {r d : BridgePacket}
    (hids : (accepted.map (·.id)).Nodup) (hr : r ∈ accepted) (hneeds : r.pkt.cmd.needsResponse = true)
    (hid : r.id = d.id) (hnew : d.id ∉ delivered.map (·.id)) :
    pending accepted (delivered ++ [d]) + 1 = pending accepted delivered := by
  obtain ⟨l₁, l₂, rfl⟩ := append_of_mem hr
  rw [map_append, map_cons, nodup_middle, nodup_cons] at hids
  have hother : ∀ x ∈ l₁ ++ l₂, x.id ≠ d.id := by
    intro x hx heq
    refine hids.1 ?_
    rw [hid, ← heq, ← map_append]
    exact mem_map_of_mem hx
  have hsame : ∀ l ⊆ l₁ ++ l₂, pending l (delivered ++ [d]) = pending l delivered := by
    intro l hl
    refine countP_congr fun x hx => ?_
    have := hother x (hl hx)
    simp [this]
  have h₁ := hsame l₁ (subset_append_left _ _)
  have h₂ := hsame l₂ (subset_append_right _ _)
  simp only [pending, countP_append, countP_cons] at h₁ h₂ ⊢
  rw [h₁, h₂, hid, if_neg (by simp), if_pos (by simp only [hneeds, hnew]; rfl)]
  omega

/-- What holds of the bridge at every point. -/
structure Inv (b : Bridge) : Prop where
  period : 0 < b.clockPeriod
  reqs : b.reqs.Steady b.curTick
  resps : b.resps.Steady b.curTick
  forwarded : b.reqs.sent ++ b.reqs.transmitList = b.accepted
  delivered : b.resps.sent ++ b.resps.transmitList = b.answered
  ids : b.accepted.map (·.id) = List.range b.accepted.length
  answers : ∀ a ∈ b.answered, ∃ r ∈ b.reqs.sent, r.id = a.id ∧ r.pkt.cmd.needsResponse = true
  once : (b.answered.map (·.id)).Nodup
  count : b.outstandingResponses = pending b.accepted b.resps.sent
  reqLimit : b.reqs.transmitList.length ≤ b.reqQueueLimit
  respLimit : b.outstandingResponses ≤ b.respQueueLimit
  owed : b.owed = b.retryReq
  full : b.retryReq = true → b.reqs.transmitList.length = b.reqQueueLimit
    ∨ b.outstandingResponses = b.respQueueLimit

theorem Inv.ids_nodup (hb : b.Inv) : (b.accepted.map (·.id)).Nodup := by
  rw [hb.ids]
  exact nodup_range

theorem Inv.answered_accepted (hb : b.Inv) {id : ℕ} (h : id ∈ b.answered.map (·.id)) :
    id < b.accepted.length := by
  obtain ⟨a, ha, rfl⟩ := mem_map.1 h
  obtain ⟨r, hr, hid, -⟩ := hb.answers a ha
  have hmem : r.id ∈ b.accepted.map (·.id) := by
    rw [← hb.forwarded]
    exact mem_map_of_mem (mem_append_left _ hr)
  rwa [hb.ids, mem_range, hid] at hmem

/-! ## The steps -/

theorem Inv.accept {n : ℕ} (hb : b.Inv) (hle : b.curTick ≤ tick) (hfree : b.retryReq = false)
    (hreq : b.reqs.transmitList.length ≠ b.reqQueueLimit)
    (hn : n = b.outstandingResponses + if pkt.cmd.needsResponse = true then 1 else 0)
    (hresp : n ≤ b.respQueueLimit) :
    ∃ b', { b with outstandingResponses := n }.schedTimingReq pkt tick = .ok b' ∧ b'.Inv := by
  obtain ⟨event, harm, hsteady⟩ := hb.reqs.push hle b.accepted.length pkt
  have hlt : b.reqs.transmitList.length < b.reqQueueLimit := lt_of_le_of_ne hb.reqLimit hreq
  have hnew : b.accepted.length ∉ b.resps.sent.map (·.id) := by
    intro hmem
    have : b.accepted.length ∈ b.answered.map (·.id) := by
      rw [← hb.delivered, map_append]
      exact mem_append_left _ hmem
    exact lt_irrefl _ (hb.answered_accepted this)
  refine ⟨{ b with
      outstandingResponses := n
      reqs := b.reqs.push event ⟨tick, b.accepted.length, pkt⟩
      accepted := b.accepted ++ [⟨tick, b.accepted.length, pkt⟩] },
    bind_ok.2 ⟨event, harm, bind_ok.2 ⟨(), require_of hreq _, rfl⟩⟩,
    ⟨hb.period, hsteady, hb.resps, ?_, hb.delivered, ?_, hb.answers, hb.once, ?_, ?_, hresp, hb.owed, ?_⟩⟩
  · show b.reqs.sent ++ (b.reqs.transmitList ++ _) = _
    rw [← append_assoc, hb.forwarded]
  · simp [range_succ, hb.ids]
  · show n = _
    rwa [pending_accept hnew, ← hb.count]
  · simpa [SendPort.push] using hlt
  · intro h
    simp [show b.retryReq = true from h] at hfree

theorem Inv.stall (hb : b.Inv) (hfull : b.reqs.transmitList.length = b.reqQueueLimit
    ∨ b.outstandingResponses = b.respQueueLimit) : b.stall.Inv :=
  { hb with owed := rfl, full := fun _ => hfull }

theorem recvTimingReq_spec (hb : b.Inv) (hpkt : pkt.cacheResponding = false) (receiveDelay : ℕ) :
    ∃ b', b.recvTimingReq pkt receiveDelay = .ok b' ∧ b'.Inv := by
  have hpanic : ¬pkt.cacheResponding = true := by simp [hpkt]
  have hedge : b.curTick ≤ b.clockEdge b.delay + receiveDelay := by
    have := le_clockEdge hb.period b.curTick b.delay
    unfold clockEdge
    omega
  rw [recvTimingReq, (panicIf_ok (u := ())).2 hpanic, ok_bind]
  split_ifs with hretry hreq hneeds hresp
  · refine ⟨_, rfl, hb.period, hb.reqs, hb.resps, hb.forwarded, hb.delivered, hb.ids, hb.answers,
      hb.once, hb.count, hb.reqLimit, hb.respLimit, ?_, hb.full⟩
    exact hretry.symm
  · exact ⟨_, rfl, hb.stall (.inl (by simpa [reqQueueFull] using hreq))⟩
  · exact ⟨_, rfl, hb.stall (.inr (by simpa [respQueueFull] using hresp))⟩
  · have hresp' : b.outstandingResponses ≠ b.respQueueLimit := by simpa [respQueueFull] using hresp
    have hlt := lt_of_le_of_ne hb.respLimit hresp'
    have hcount : b.outstandingResponses + 1 =
        b.outstandingResponses + if pkt.cmd.needsResponse = true then 1 else 0 := by simp [hneeds]
    obtain ⟨b', h, hb'⟩ := hb.accept hedge (by simpa using hretry)
      (by simpa [reqQueueFull] using hreq) hcount hlt
    exact ⟨b', bind_ok.2 ⟨(), require_of hresp' _, h⟩, hb'⟩
  · exact hb.accept hedge (by simpa using hretry) (by simpa [reqQueueFull] using hreq)
      (by simp [hneeds]) hb.respLimit

theorem recvTimingResp_spec {id : ℕ} (hb : b.Inv)
    (hreq : ∃ r ∈ b.reqs.sent, r.id = id ∧ r.pkt.cmd.needsResponse = true)
    (hnew : id ∉ b.answered.map (·.id)) :
    ∃ b', b.recvTimingResp id pkt receiveDelay = .ok b' ∧ b'.Inv := by
  have hedge : b.curTick ≤ b.clockEdge b.delay + receiveDelay := by
    have := le_clockEdge hb.period b.curTick b.delay
    unfold clockEdge
    omega
  obtain ⟨event, harm, hsteady⟩ := hb.resps.push hedge id pkt
  refine ⟨_, bind_ok.2 ⟨event, harm, rfl⟩, ⟨hb.period, hb.reqs, hsteady, hb.forwarded, ?_, hb.ids, ?_, ?_,
    hb.count, hb.reqLimit, hb.respLimit, hb.owed, hb.full⟩⟩
  · show b.resps.sent ++ (b.resps.transmitList ++ _) = _
    rw [← append_assoc, hb.delivered]
  · intro a ha
    rcases mem_append.1 ha with ha | ha
    · exact hb.answers a ha
    · obtain rfl := mem_singleton.1 ha
      exact hreq
  · show ((b.answered ++ [_]).map _).Nodup
    rw [map_append, nodup_append_comm]
    exact nodup_cons.2 ⟨hnew, hb.once⟩

theorem Inv.reqs_same {p : SendPort} (hb : b.Inv) (hp : p.Steady b.curTick)
    (hsame : SendPort.SamePackets b.reqs p) : { b with reqs := p }.Inv := by
  refine { hb with reqs := hp, forwarded := ?_, answers := ?_, reqLimit := ?_, full := ?_ }
  · simpa [hsame.sent, hsame.transmitList] using hb.forwarded
  · simpa [hsame.sent] using hb.answers
  · simpa [hsame.transmitList] using hb.reqLimit
  · simpa [hsame.transmitList] using hb.full

theorem Inv.resps_same {p : SendPort} (hb : b.Inv) (hp : p.Steady b.curTick)
    (hsame : SendPort.SamePackets b.resps p) : { b with resps := p }.Inv := by
  refine { hb with resps := hp, delivered := ?_, count := ?_ }
  · simpa [hsame.sent, hsame.transmitList] using hb.delivered
  · simpa [hsame.sent] using hb.count

theorem reqAccepted_spec (hb : b.Inv) (hs : b.reqs.sending = true) :
    ∃ b', b.reqAccepted = .ok b' ∧ b'.Inv := by
  obtain ⟨p, d, hp, hsteady, hl, hsent⟩ :=
    SendPort.sendAccepted_spec hb.reqs hs (le_clockEdge hb.period b.curTick 0)
  have hforwarded : p.sent ++ p.transmitList = b.accepted := by
    rw [hsent, ← hb.forwarded, hl, append_assoc, singleton_append]
  have hanswers : ∀ a ∈ b.answered, ∃ r ∈ p.sent, r.id = a.id ∧ r.pkt.cmd.needsResponse = true := by
    intro a ha
    obtain ⟨r, hr, h⟩ := hb.answers a ha
    exact ⟨r, by rw [hsent]; exact mem_append_left _ hr, h⟩
  have hlimit : p.transmitList.length ≤ b.reqQueueLimit := by
    have := hb.reqLimit
    rw [hl, length_cons] at this
    omega
  refine ⟨_, bind_ok.2 ⟨p, hp, rfl⟩, ?_⟩
  unfold retryStalledReq
  split_ifs with hretry
  · exact ⟨hb.period, hsteady, hb.resps, hforwarded, hb.delivered, hb.ids, hanswers, hb.once, hb.count,
      hlimit, hb.respLimit, rfl, by rintro ⟨⟩⟩
  · exact ⟨hb.period, hsteady, hb.resps, hforwarded, hb.delivered, hb.ids, hanswers, hb.once, hb.count,
      hlimit, hb.respLimit, hb.owed, fun h => absurd h hretry⟩

theorem respAccepted_spec (hb : b.Inv) (hs : b.resps.sending = true) :
    ∃ b', b.respAccepted = .ok b' ∧ b'.Inv := by
  obtain ⟨p, d, hp, hsteady, hl, hsent⟩ :=
    SendPort.sendAccepted_spec hb.resps hs (le_clockEdge hb.period b.curTick 0)
  have hanswered : b.resps.sent ++ d :: p.transmitList = b.answered := by rw [← hb.delivered, hl]
  have hd : d ∈ b.answered := by
    rw [← hanswered]
    simp
  obtain ⟨r, hr, hid, hneeds⟩ := hb.answers d hd
  have hracc : r ∈ b.accepted := by
    rw [← hb.forwarded]
    exact mem_append_left _ hr
  have hnew : d.id ∉ b.resps.sent.map (·.id) := by
    have hn := hb.once
    rw [← hanswered, map_append, map_cons, nodup_middle, nodup_cons] at hn
    exact fun h => hn.1 (mem_append_left _ h)
  have hcount := pending_deliver hb.ids_nodup hracc hneeds hid hnew
  rw [← hb.count, ← hsent] at hcount
  have hpos : b.outstandingResponses ≠ 0 := by omega
  have hleft : b.outstandingResponses - 1 = pending b.accepted p.sent := by omega
  have hdelivered : p.sent ++ p.transmitList = b.answered := by
    rw [hsent, append_assoc, singleton_append, hanswered]
  have hle : b.outstandingResponses - 1 ≤ b.respQueueLimit := by
    have := hb.respLimit
    omega
  refine ⟨_, bind_ok.2 ⟨(), require_of hpos _, bind_ok.2 ⟨p, hp, rfl⟩⟩, ?_⟩
  split_ifs with hretry
  · exact ⟨hb.period, hb.reqs, hsteady, hb.forwarded, hdelivered, hb.ids, hb.answers, hb.once, hleft,
      hb.reqLimit, hle, rfl, by rintro ⟨⟩⟩
  · refine ⟨hb.period, hb.reqs, hsteady, hb.forwarded, hdelivered, hb.ids, hb.answers, hb.once, hleft,
      hb.reqLimit, hle, hb.owed, fun h => .inl ?_⟩
    have h' : b.retryReq = true := h
    by_contra hne
    have hne' : ¬b.reqs.transmitList.length = b.reqQueueLimit := hne
    exact hretry (by simp [reqQueueFull, h', hne'])

theorem step_spec {o : Op} (hb : b.Inv) (ho : b.Respects o) : ∃ b', b.step o = .ok b' ∧ b'.Inv := by
  cases o with
  | advance tick =>
    obtain ⟨-, hle, hreqs, hresps⟩ := ho
    exact ⟨_, if_pos ⟨hle, hreqs, hresps⟩, hb.period, hb.reqs.advance hle hreqs,
      hb.resps.advance hle hresps, hb.forwarded, hb.delivered, hb.ids, hb.answers, hb.once, hb.count,
      hb.reqLimit, hb.respLimit, hb.owed, hb.full⟩
  | recvTimingReq pkt receiveDelay => exact recvTimingReq_spec hb ho receiveDelay
  | recvTimingResp id pkt receiveDelay => exact recvTimingResp_spec hb ho.1 ho.2
  | sendReq =>
    obtain ⟨p, h, hp, hsame⟩ := SendPort.processSendEvent_spec hb.reqs ho
    exact ⟨_, bind_ok.2 ⟨p, h, rfl⟩, hb.reqs_same hp hsame⟩
  | recvReqRetry =>
    obtain ⟨p, h, hp, hsame⟩ := SendPort.retry_spec hb.reqs ho
    exact ⟨_, bind_ok.2 ⟨p, h, rfl⟩, hb.reqs_same hp hsame⟩
  | reqAccepted => exact reqAccepted_spec hb ho
  | reqRefused =>
    obtain ⟨p, h, hp, hsame⟩ := SendPort.sendRefused_spec hb.reqs ho
    exact ⟨_, bind_ok.2 ⟨p, h, rfl⟩, hb.reqs_same hp hsame⟩
  | sendResp =>
    obtain ⟨p, h, hp, hsame⟩ := SendPort.processSendEvent_spec hb.resps ho
    exact ⟨_, bind_ok.2 ⟨p, h, rfl⟩, hb.resps_same hp hsame⟩
  | recvRespRetry =>
    obtain ⟨p, h, hp, hsame⟩ := SendPort.retry_spec hb.resps ho
    exact ⟨_, bind_ok.2 ⟨p, h, rfl⟩, hb.resps_same hp hsame⟩
  | respAccepted => exact respAccepted_spec hb ho
  | respRefused =>
    obtain ⟨p, h, hp, hsame⟩ := SendPort.sendRefused_spec hb.resps ho
    exact ⟨_, bind_ok.2 ⟨p, h, rfl⟩, hb.resps_same hp hsame⟩

def init (clockPeriod delay reqQueueLimit respQueueLimit : ℕ) : Bridge :=
  { clockPeriod, delay, reqQueueLimit, respQueueLimit }

theorem init_inv {clockPeriod : ℕ} (hp : 0 < clockPeriod) (delay reqQueueLimit respQueueLimit : ℕ) :
    (init clockPeriod delay reqQueueLimit respQueueLimit).Inv := by
  have hport : ({} : SendPort).Steady 0 := ⟨by simp, by simp, by simp, by simp⟩
  exact ⟨hp, hport, hport, rfl, rfl, rfl, by simp [init], by simp [init], rfl, by simp [init],
    by simp [init], rfl, by simp [init]⟩

/-- In every run the accepted requests are the ones that were forwarded and the ones in the queue, in
their order, and the same holds of the responses, of which no request has two. The outstanding
responses are counted right, both limits are kept, and while a retry is owed one of them is reached.
Every step of the protocol is made. -/
theorem bridge_flow_control {clockPeriod delay reqQueueLimit respQueueLimit : ℕ}
    (hp : 0 < clockPeriod) {ops : List Op}
    (hops : Admits step Respects (init clockPeriod delay reqQueueLimit respQueueLimit) ops)
    (hrun : run step (init clockPeriod delay reqQueueLimit respQueueLimit) ops = .ok b) :
    (b.reqs.sent ++ b.reqs.transmitList = b.accepted ∧ (b.accepted.map (·.id)).Nodup)
      ∧ (b.resps.sent ++ b.resps.transmitList = b.answered ∧ (b.answered.map (·.id)).Nodup)
      ∧ b.outstandingResponses = (b.accepted.countP fun r =>
        r.pkt.cmd.needsResponse && decide (r.id ∉ b.resps.sent.map (·.id)))
      ∧ b.outstandingResponses ≤ b.respQueueLimit
      ∧ b.reqs.transmitList.length ≤ b.reqQueueLimit
      ∧ (b.owed = true → b.reqs.transmitList.length = b.reqQueueLimit
        ∨ b.outstandingResponses = b.respQueueLimit)
      ∧ ∀ o, b.Respects o → ∃ b', b.step o = .ok b' := by
  have hb : b.Inv := by
    refine hops.inv (I := Inv) (fun u o u' hu ho h => ?_) (init_inv hp _ _ _) hrun
    obtain ⟨w, hw, hinv⟩ := step_spec hu ho
    obtain rfl := Except.ok.inj (hw.symm.trans h)
    exact hinv
  refine ⟨⟨hb.forwarded, hb.ids_nodup⟩, ⟨hb.delivered, hb.once⟩, hb.count, hb.respLimit, hb.reqLimit,
    fun h => hb.full (hb.owed.symm.trans h), fun o ho => ?_⟩
  obtain ⟨b', h, -⟩ := step_spec hb ho
  exact ⟨b', h⟩

/-- A bridge with one place for a request and one for a response. The second request is refused for the
queue and again for the response, and is accepted when the first response was delivered. -/
def stalledOps (read : Packet) : List Op :=
  [.recvTimingReq read 0, .recvTimingReq read 0, .advance 1, .sendReq, .reqAccepted,
    .recvTimingReq read 0, .recvTimingResp 0 read 0, .advance 2, .sendResp, .respRefused, .recvRespRetry,
    .respAccepted, .recvTimingReq read 3]

def readPacket : Packet :=
  .ofRequest { paddr := 0, size := 64, flags := {}, requestorId := 0, taskId := 0 } .readReq

theorem bridge_flow_control_stalledOps : ∃ b,
    run step (init 1 1 1 1) (stalledOps readPacket) = .ok b ∧ b.accepted.length = 2
      ∧ b.outstandingResponses ≤ b.respQueueLimit := by
  obtain ⟨b, hrun, hlen⟩ : ∃ b, run step (init 1 1 1 1) (stalledOps readPacket) = .ok b
      ∧ b.accepted.length = 2 := ⟨_, rfl, rfl⟩
  exact ⟨b, hrun, hlen, (bridge_flow_control Nat.one_pos (by decide) hrun).2.2.2.1⟩

end Bridge

end Gem5
