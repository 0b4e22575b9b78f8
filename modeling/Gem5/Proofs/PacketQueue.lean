import Gem5.PacketQueue

/-!
# The packet queue sends every packet once

The send event is never before the tick of the first packet, and a packet that was refused stays at
the front (`Timely`). Inside a send the queue may be without an event, but the call that ends the
send arms it (`Armed`).
-/

namespace Gem5

open List

namespace PacketQueue

open Machine

variable {q q' : PacketQueue} {dp : DeferredPacket} {reply : Reply}

/-- The packets put in are the ones that were sent and the ones on the list, and for each address in
the same order when the order is forced. -/
structure Kept (q : PacketQueue) : Prop where
  perm : q.enqueued.Perm (q.sent ++ q.transmitList)
  order : q.forceOrder = true → ∀ pkt : Packet, q.enqueued.filter (·.pkt.matchAddr pkt) =
    (q.sent ++ q.transmitList).filter (·.pkt.matchAddr pkt)

/-- What holds of the queue also inside a send. -/
structure Timely (q : PacketQueue) : Prop where
  kept : q.Kept
  now : q.curTick < maxTick
  ticks : ∀ dp ∈ q.transmitList, dp.tick < maxTick
  event : ∀ w, q.sendEvent = some w → q.curTick ≤ w ∧ q.waitingOnRetry = false
    ∧ ∃ dp rest, q.transmitList = dp :: rest ∧ dp.tick ≤ w
  waiting : q.waitingOnRetry = true →
    ∃ dp rest, q.transmitList = dp :: rest ∧ dp.tick ≤ q.curTick

/-- A queue that has something to send waits for a retry or for its send event. -/
def Armed (q : PacketQueue) : Prop :=
  q.transmitList ≠ [] → q.waitingOnRetry = true ∨ q.sendEvent.isSome = true

/-- What the calls inside a send leave alone. -/
structure SameSettings (q q' : PacketQueue) : Prop where
  curTick : q'.curTick = q.curTick
  waitingOnRetry : q'.waitingOnRetry = q.waitingOnRetry

/-! ## Putting a packet in -/

theorem emplace_spec (stop : DeferredPacket → Bool) (dp : DeferredPacket) :
    ∀ (before after : List DeferredPacket),
    (∀ x ∈ after, stop x = false) → ∃ l r, before.reverse ++ after = l ++ r
      ∧ (∀ x ∈ r, stop x = false) ∧ (emplace stop dp before after).1 = l ++ dp :: r
      ∧ ((emplace stop dp before after).2 = true ↔ l = [])
  | [], after, h => ⟨[], after, rfl, h, rfl, by simp [emplace]⟩
  | x :: before, after, h => by
    unfold emplace
    split_ifs with hx
    · exact ⟨(x :: before).reverse, after, rfl, h, rfl, by simp⟩
    · obtain ⟨l, r, heq, hr, hplaced, hfront⟩ := emplace_spec stop dp before (x :: after) (by
        rintro y (_ | ⟨_, hy⟩)
        · simpa using hx
        · exact h y hy)
      exact ⟨l, r, by simpa using heq, hr, hplaced, hfront⟩

theorem matchAddr_trans {p₁ p₂ p₃ : Packet} (h₁ : p₁.matchAddr p₂ = true)
    (h₂ : p₃.matchAddr p₂ = true) : p₁.matchAddr p₃ = true := by
  simp only [Packet.matchAddr, Bool.and_eq_true, beq_iff_eq] at h₁ h₂ ⊢
  exact ⟨h₁.1.trans h₂.1.symm, h₁.2.trans h₂.2.symm⟩

theorem filter_emplace (sent l : List DeferredPacket) {r : List DeferredPacket} (pkt : Packet)
    (hr : ∀ x ∈ r, x.pkt.matchAddr dp.pkt = false) :
    (sent ++ (l ++ dp :: r)).filter (·.pkt.matchAddr pkt) =
      (sent ++ (l ++ r)).filter (·.pkt.matchAddr pkt)
        ++ [dp].filter (·.pkt.matchAddr pkt) := by
  simp only [filter_append, filter_cons, filter_nil, append_assoc]
  split_ifs with hd
  · have hnone : r.filter (·.pkt.matchAddr pkt) = [] := by
      refine filter_eq_nil_iff.2 fun x hx hm => ?_
      have hsame := matchAddr_trans hm hd
      simp [hr x hx] at hsame
    simp [hnone]
  · simp

theorem Kept.put {l r : List DeferredPacket} (hq : q.Kept) (hlist : q.transmitList = l ++ r)
    (hr : ∀ x ∈ r, q.staysBehind dp x = false) :
    Kept { q with transmitList := l ++ dp :: r, enqueued := q.enqueued ++ [dp] } := by
  refine ⟨?_, fun hforce pkt => ?_⟩
  · have hperm := hq.perm
    rw [hlist] at hperm
    have hput : (q.sent ++ (l ++ dp :: r)).Perm (dp :: (q.sent ++ (l ++ r))) := by
      rw [← append_assoc, ← append_assoc]
      exact perm_middle
    exact (perm_append_singleton _ _).trans ((hperm.cons _).trans hput.symm)
  · have horder := hq.order hforce pkt
    rw [hlist] at horder
    have hother : ∀ x ∈ r, x.pkt.matchAddr dp.pkt = false := by
      intro x hx
      have := hr x hx
      simp only [staysBehind, Bool.or_eq_false_iff] at this
      simpa [show q.forceOrder = true from hforce] using this.1
    simp only [filter_append] at horder ⊢
    have hfilter := filter_emplace q.sent l pkt hother
    simp only [filter_append] at hfilter
    rw [hfilter, horder]

theorem schedSendEvent_spec {tick : ℕ} (hnow : q.curTick < maxTick) (hlt : tick < maxTick)
    (hwait : q.waitingOnRetry = false)
    (hevent : ∀ w, q.sendEvent = some w → q.curTick ≤ w ∧ tick ≤ w) :
    ∃ w, q.schedSendEvent tick = .ok { q with sendEvent := some w } ∧ q.curTick ≤ w
      ∧ tick ≤ w := by
  have hnext : (q.curTick + 1) % 2 ^ 64 = q.curTick + 1 := by
    refine Nat.mod_eq_of_lt ?_
    simp only [maxTick] at hnow
    omega
  have hne : tick ≠ maxTick := hlt.ne
  rw [schedSendEvent, if_neg (by simp [hwait]), if_pos hne, hnext, arm]
  cases hs : q.sendEvent with
  | none =>
    refine ⟨max tick (q.curTick + 1), ?_, by omega, by omega⟩
    have : schedule q.curTick none (max tick (q.curTick + 1)) = .ok _ :=
      schedule_ok.2 ⟨by omega, rfl, rfl⟩
    simp only [this, ok_bind]
    rfl
  | some w =>
    obtain ⟨h₁, h₂⟩ := hevent w hs
    simp only
    split_ifs with hlt'
    · refine ⟨max tick (q.curTick + 1), ?_, by omega, by omega⟩
      have : reschedule q.curTick (some w) (max tick (q.curTick + 1)) false = .ok _ :=
        reschedule_ok.2 ⟨by omega, .inr rfl, rfl⟩
      simp only [this, ok_bind]
      rfl
    · refine ⟨w, ?_, h₁, h₂⟩
      rw [← hs]

theorem schedSendTiming_spec (hq : q.Timely) (hdp : q.Accepts dp) :
    ∃ q', q.schedSendTiming dp = .ok q' ∧ q'.Timely ∧ SameSettings q q' ∧ (q.Armed → q'.Armed) := by
  obtain ⟨⟨hcur, hmax⟩, hexpress, hsize⟩ := hdp
  obtain ⟨l, r, heq, hr, hplaced, hfront⟩ :=
    emplace_spec (q.staysBehind dp) dp q.transmitList.reverse [] (by simp)
  rw [append_nil, reverse_reverse] at heq
  have hsize' : ¬(q.disableSanityCheck = false ∧ 128 < q.transmitList.length) := by
    rintro ⟨h₁, h₂⟩
    rcases hsize with h | h
    · simp [h] at h₁
    · omega
  have hkept := hq.kept.put heq hr
  have hticks : ∀ x ∈ l ++ dp :: r, x.tick < maxTick := by
    intro x hx
    rw [mem_append, mem_cons] at hx
    rcases hx with hx | rfl | hx
    · exact hq.ticks x (by simp [heq, hx])
    · exact hmax
    · exact hq.ticks x (by simp [heq, hx])
  have hunfold : q.schedSendTiming dp =
      if (emplace (q.staysBehind dp) dp q.transmitList.reverse []).2 = true then
        { q with transmitList := l ++ dp :: r, enqueued := q.enqueued ++ [dp] }.schedSendEvent dp.tick
      else .ok { q with transmitList := l ++ dp :: r, enqueued := q.enqueued ++ [dp] } := by
    rw [schedSendTiming, require_of hcur, require_of hexpress, panicIf, if_neg hsize', ← hplaced]
    rfl
  rw [hunfold]
  cases l with
  | nil =>
    -- It is the first one. Then every packet of the list is ready later.
    rw [if_pos (hfront.2 rfl)]
    have hlater : ∀ x ∈ q.transmitList, dp.tick < x.tick := by
      intro x hx
      have := hr x (by simpa [heq] using hx)
      simp only [staysBehind, Bool.or_eq_false_iff, decide_eq_false_iff_not, not_le] at this
      exact this.2
    have hwait : q.waitingOnRetry = false := by
      by_contra hw
      obtain ⟨x, rest, hlist, hx⟩ := hq.waiting (by simpa using hw)
      have := hlater x (by simp [hlist])
      omega
    obtain ⟨w, hsched, hcur', htick⟩ := schedSendEvent_spec
      (q := { q with transmitList := [] ++ dp :: r, enqueued := q.enqueued ++ [dp] })
      hq.now hmax hwait (fun w hw => by
        obtain ⟨h₁, -, x, rest, hlist, hx⟩ := hq.event w hw
        have := hlater x (by simp [hlist])
        exact ⟨h₁, by omega⟩)
    refine ⟨_, hsched, ⟨⟨hkept.perm, hkept.order⟩, hq.now, hticks, ?_, ?_⟩, ⟨rfl, rfl⟩, fun _ _ => .inr rfl⟩
    · rintro _ ⟨⟩
      exact ⟨hcur', hwait, dp, r, rfl, htick⟩
    · intro hw
      simp [hwait] at hw
  | cons x l =>
    rw [if_neg (fun h => by simpa using hfront.1 h)]
    refine ⟨_, rfl, ⟨hkept, hq.now, hticks, fun w hw => ?_, fun hw => ?_⟩, ⟨rfl, rfl⟩, fun ha _ => ?_⟩
    · obtain ⟨h₁, h₂, y, rest, hlist, hy⟩ := hq.event w hw
      rw [heq] at hlist
      obtain ⟨rfl, -⟩ := List.cons.inj hlist
      exact ⟨h₁, h₂, x, _, rfl, hy⟩
    · obtain ⟨y, rest, hlist, hy⟩ := hq.waiting hw
      rw [heq] at hlist
      obtain ⟨rfl, -⟩ := List.cons.inj hlist
      exact ⟨x, _, rfl, hy⟩
    · exact ha (by simp [heq])

theorem calls_spec : ∀ (calls : List DeferredPacket) {q : PacketQueue}, q.Timely →
    Admits schedSendTiming Accepts q calls →
    ∃ q', run schedSendTiming q calls = .ok q' ∧ q'.Timely ∧ SameSettings q q'
  | [], q, hq, _ => ⟨q, rfl, hq, ⟨rfl, rfl⟩⟩
  | dp :: calls, q, hq, ⟨hdp, hrest⟩ => by
    obtain ⟨u, hu, htimely, hsame, -⟩ := schedSendTiming_spec hq hdp
    obtain ⟨q', hq', htimely', hsame'⟩ := calls_spec calls htimely (hrest u hu)
    exact ⟨q', run_cons.2 ⟨u, hu, hq'⟩, htimely',
      ⟨hsame'.curTick.trans hsame.curTick, hsame'.waitingOnRetry.trans hsame.waitingOnRetry⟩⟩

/-! ## Sending -/

theorem sendDeferredPacket_spec {rest : List DeferredPacket} (hq : q.Timely)
    (hlist : q.transmitList = dp :: rest) (hready : dp.tick ≤ q.curTick) (hevent : q.sendEvent = none)
    (hwait : q.waitingOnRetry = false) (hcalls : q.AcceptsCalls reply) :
    ∃ q', q.sendDeferredPacket reply = .ok q' ∧ q'.Timely ∧ q'.Armed := by
  have hready' : q.deferredPacketReady = true := by simp [deferredPacketReady, hlist, hready]
  rw [sendDeferredPacket, require_of hwait, require_of hready', ok_bind, ok_bind, hlist]
  cases reply with
  | refused =>
    refine ⟨_, rfl, ⟨⟨?_, ?_⟩, hq.now, ?_, ?_, ?_⟩, fun _ => .inl rfl⟩
    · simpa [hlist] using hq.kept.perm
    · simpa [hlist] using hq.kept.order
    · simpa [hlist] using hq.ticks
    · intro w hw
      simp [show q.sendEvent = some w from hw] at hevent
    · exact fun _ => ⟨dp, rest, rfl, hready⟩
  | accepted calls =>
    have hsent : { q with transmitList := rest, sent := q.sent ++ [dp] }.Timely := by
      refine ⟨⟨?_, fun hf pkt => ?_⟩, hq.now, fun x hx => hq.ticks x (by simp [hlist, hx]), ?_, ?_⟩
      · simpa [hlist] using hq.kept.perm
      · simpa [hlist] using hq.kept.order hf pkt
      · intro w hw
        simp [show q.sendEvent = some w from hw] at hevent
      · intro hw
        simp [show q.waitingOnRetry = true from hw] at hwait
    have hadmits : Admits schedSendTiming Accepts
        { q with transmitList := rest, sent := q.sent ++ [dp] } calls := by
      have := hcalls
      simp only [AcceptsCalls, hlist, tail_cons, take_succ_cons, take_zero] at this
      rwa [← hevent, ← hwait] at this
    obtain ⟨u, hu, htimely, hsame⟩ := calls_spec calls hsent hadmits
    have huwait : u.waitingOnRetry = false := hsame.waitingOnRetry.trans hwait
    have hueq : { u with waitingOnRetry := false } = u := by rw [← huwait]
    simp only [hu, ok_bind, hueq]
    cases hul : u.transmitList with
    | nil =>
      have hnone : u.sendEvent = none := by
        cases hs : u.sendEvent with
        | none => rfl
        | some w =>
          obtain ⟨-, -, x, xs, hx, -⟩ := htimely.event w hs
          simp [hul] at hx
      rw [schedSendEvent, if_neg (by simp [huwait]), if_neg (by simp [deferredPacketReadyTime, hul])]
      split_ifs
      · exact ⟨_, rfl, { htimely with kept := ⟨htimely.kept.perm, htimely.kept.order⟩ },
          fun h => absurd hul h⟩
      · exact ⟨u, rfl, htimely, fun h => absurd hul h⟩
    | cons x xs =>
      have hxtick : x.tick < maxTick := htimely.ticks x (by simp [hul])
      obtain ⟨w, hsched, hcur, htick⟩ := schedSendEvent_spec htimely.now hxtick huwait
        (fun w hw => by
          obtain ⟨h₁, -, y, ys, hy, hle⟩ := htimely.event w hw
          rw [hul] at hy
          obtain ⟨rfl, -⟩ := List.cons.inj hy
          exact ⟨h₁, hle⟩)
      refine ⟨{ u with sendEvent := some w }, ?_, ⟨⟨htimely.kept.perm, htimely.kept.order⟩,
        htimely.now, htimely.ticks, ?_, htimely.waiting⟩, fun _ => .inr rfl⟩
      · simpa [deferredPacketReadyTime, hul] using hsched
      · rintro _ ⟨⟩
        exact ⟨hcur, huwait, x, xs, hul, htick⟩

/-! ## Runs -/

theorem Timely.clear (hq : q.Timely) : { q with sendEvent := none, waitingOnRetry := false }.Timely :=
  ⟨⟨hq.kept.perm, hq.kept.order⟩, hq.now, hq.ticks, by simp, by simp⟩

theorem step_spec {o : Op} (hq : q.Timely) (harmed : q.Armed) (ho : q.Respects o) :
    ∃ q', q.step o = .ok q' ∧ q'.Timely ∧ q'.Armed := by
  cases o with
  | advance tick =>
    obtain ⟨⟨hcur, hmax⟩, hevent⟩ := ho
    refine ⟨_, if_pos ⟨hcur, hevent⟩, ⟨⟨hq.kept.perm, hq.kept.order⟩, hmax, hq.ticks, fun w hw => ?_,
      fun hw => ?_⟩, harmed⟩
    · exact ⟨hevent w hw, (hq.event w hw).2⟩
    · obtain ⟨dp, rest, hlist, hdp⟩ := hq.waiting hw
      exact ⟨dp, rest, hlist, hdp.trans hcur⟩
  | schedSendTiming dp =>
    obtain ⟨q', h, htimely, -, ha⟩ := schedSendTiming_spec hq ho
    exact ⟨q', h, htimely, ha harmed⟩
  | processSendEvent reply =>
    obtain ⟨hdue, hcalls⟩ := ho
    obtain ⟨-, hwait, dp, rest, hlist, hdp⟩ := hq.event _ hdue
    have hclear := hq.clear
    rw [← hwait] at hclear
    obtain ⟨q', h, hq'⟩ := sendDeferredPacket_spec hclear hlist hdp rfl hwait hcalls
    refine ⟨q', ?_, hq'⟩
    rwa [step, processSendEvent, if_pos hdue, require_of hwait]
  | retry reply =>
    obtain ⟨hwait, hcalls⟩ := ho
    obtain ⟨dp, rest, hlist, hdp⟩ := hq.waiting hwait
    have hnone : q.sendEvent = none := by
      cases hs : q.sendEvent with
      | none => rfl
      | some w =>
        have hfree := (hq.event w hs).2.1
        simp [hwait] at hfree
    have hclear := hq.clear
    rw [← hnone] at hclear
    obtain ⟨q', h, hq'⟩ := sendDeferredPacket_spec hclear hlist hdp hnone rfl hcalls
    refine ⟨q', ?_, hq'⟩
    rwa [step, retry, require_of hwait]
  | drain =>
    exact ⟨_, rfl, { hq with kept := ⟨hq.kept.perm, hq.kept.order⟩ }, harmed⟩

theorem init_timely (forceOrder disableSanityCheck : Bool) :
    Timely { forceOrder, disableSanityCheck } := by
  refine ⟨⟨.refl _, fun _ _ => rfl⟩, ?_, by simp, by simp, by simp⟩
  show 0 < maxTick
  decide

/-- In every run each packet that was put in is queued once or was sent once, a queue that has something
to send waits for a retry or has its send event scheduled and not both, and with forced order the
packets of one address and address space leave in the order they were put in. Every operation that
respects the queue is made. -/
theorem packets_sent_once {forceOrder disableSanityCheck : Bool} {ops : List Op}
    (hops : Admits step Respects { forceOrder, disableSanityCheck } ops)
    (hrun : run step { forceOrder, disableSanityCheck } ops = .ok q) :
    q.enqueued.Perm (q.sent ++ q.transmitList)
      ∧ (q.transmitList ≠ [] → (q.waitingOnRetry = true ↔ q.sendEvent = none))
      ∧ (q.forceOrder = true → ∀ pkt : Packet, q.enqueued.filter (·.pkt.matchAddr pkt) =
        (q.sent ++ q.transmitList).filter (·.pkt.matchAddr pkt))
      ∧ ∀ o, q.Respects o → ∃ q', q.step o = .ok q' := by
  have hinv : q.Timely ∧ q.Armed := by
    refine hops.inv (I := fun q => q.Timely ∧ q.Armed) (fun u o u' hu ho h => ?_)
      ⟨init_timely _ _, fun h => absurd rfl h⟩ hrun
    obtain ⟨w, hw, hinv⟩ := step_spec hu.1 hu.2 ho
    obtain rfl := Except.ok.inj (hw.symm.trans h)
    exact hinv
  obtain ⟨hq, harmed⟩ := hinv
  refine ⟨hq.kept.perm, fun hne => ?_, hq.kept.order, fun o ho => ?_⟩
  · cases hs : q.sendEvent with
    | none => simpa [hs] using harmed hne
    | some w => simp [(hq.event w hs).2.1]
  · obtain ⟨q', h, -⟩ := step_spec hq harmed ho
    exact ⟨q', h⟩

def packetTo (addr : ℕ) (isSecure : Bool) : Packet :=
  .ofRequest { paddr := addr, size := 64, flags := { secure := isSecure }, requestorId := 0, taskId := 0 }
    .readReq

/-- A refused packet is sent on the retry, and the port puts one in while it accepts it. -/
def refusedOps : List Op :=
  [.schedSendTiming ⟨5, packetTo 0 false⟩, .schedSendTiming ⟨3, packetTo 0 false⟩, .advance 5,
    .processSendEvent .refused, .advance 8, .retry (.accepted [⟨8, packetTo 64 false⟩])]

theorem packets_sent_once_refusedOps : ∃ q,
    run step { forceOrder := true, disableSanityCheck := false } refusedOps = .ok q
      ∧ q.sent = [⟨5, packetTo 0 false⟩]
      ∧ (q.waitingOnRetry = true ↔ q.sendEvent = none) := by
  obtain ⟨q, hrun, hsent, hne⟩ : ∃ q,
      run step { forceOrder := true, disableSanityCheck := false } refusedOps = .ok q
        ∧ q.sent = [⟨5, packetTo 0 false⟩] ∧ q.transmitList ≠ [] :=
    ⟨_, rfl, rfl, cons_ne_nil _ _⟩
  exact ⟨q, hrun, hsent, (packets_sent_once (by decide) hrun).2.1 hne⟩

/-- A packet that is never ready arms no event, and a packet passes one to the same address of the
other address space. -/
theorem never_ready_and_other_space :
    (∃ q, run step { forceOrder := true, disableSanityCheck := false }
        [.schedSendTiming ⟨maxTick, packetTo 0 false⟩] = .ok q
      ∧ q.transmitList ≠ [] ∧ q.waitingOnRetry = false ∧ q.sendEvent = none)
    ∧ ∃ q, run step { forceOrder := true, disableSanityCheck := false }
        [.schedSendTiming ⟨10, packetTo 0 true⟩, .schedSendTiming ⟨5, packetTo 0 false⟩, .advance 5,
          .processSendEvent (.accepted []), .advance 10, .processSendEvent (.accepted [])] = .ok q
      ∧ q.enqueued = [⟨10, packetTo 0 true⟩, ⟨5, packetTo 0 false⟩]
      ∧ q.sent = [⟨5, packetTo 0 false⟩, ⟨10, packetTo 0 true⟩] :=
  ⟨⟨_, rfl, cons_ne_nil _ _, rfl, rfl⟩, ⟨_, rfl, rfl, rfl⟩⟩

end PacketQueue

end Gem5
