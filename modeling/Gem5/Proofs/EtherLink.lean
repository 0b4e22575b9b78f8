import Gem5.EtherLink

/-!
# The Ethernet link delivers

The packets that left the transmitter, each with its tick moved by the link delay, are those delivered and then
those in flight. As every packet is on the transmitter for at least a tick, no two of them are due at the same
tick.
-/

namespace Gem5

open Machine List

namespace EtherLink

variable {l l' : EtherLink}

/-- What is so after every step. -/
structure Inv (l : EtherLink) : Prop where
  started : l.accepted = l.finished.map Prod.snd ++ l.packet.toList
  shipped : l.delivered ++ l.txQueue =
    l.finished.map fun x => (x.1 + l.params.linkDelay, x.2)
  busy : l.doneEvent.isSome = l.packet.isSome
  event : l.txQueueEvent = l.txQueue.head?.map Prod.fst
  done_later : ∀ d, l.doneEvent = some d → l.curTick ≤ d ∧ ∀ x ∈ l.finished, x.1 < d
  past : ∀ x ∈ l.finished, x.1 ≤ l.curTick
  increasing : l.finished.Pairwise fun x y => x.1 < y.1
  ahead : ∀ x ∈ l.txQueue, l.curTick ≤ x.1
  direct : l.params.linkDelay = 0 → l.txQueue = []
  buffered : ∀ p ∈ l.packet.toList ++ l.txQueue.map Prod.snd, p.length ≤ p.bufLength

def Fits (_ : EtherLink) : Op → Prop
  | .transmit p _ => p.length ≤ p.bufLength
  | _ => True

instance (l : EtherLink) : DecidablePred l.Fits
  | .transmit _ _ => inferInstanceAs (Decidable (_ ≤ _))
  | .txDone => .isTrue trivial
  | .processTxQueue => .isTrue trivial
  | .advance _ => .isTrue trivial
  | .roundTrip => .isTrue trivial

theorem txDelay_pos (l : EtherLink) (p : EthPacket) (random : ℕ) : 0 < l.txDelay p random :=
  Nat.add_pos_left (l.params.txTicks_pos p.simLength) _

namespace Inv

theorem sorted (hl : l.Inv) : l.txQueue.Pairwise fun x y => x.1 < y.1 := by
  have hall : (l.delivered ++ l.txQueue).Pairwise fun x y => x.1 < y.1 := by
    rw [hl.shipped, pairwise_map]
    exact hl.increasing.imp fun h => Nat.add_lt_add_right h _
  exact (pairwise_append.1 hall).2.1

theorem front_le (hl : l.Inv) {x y : ℕ × EthPacket} {q : List (ℕ × EthPacket)}
    (hq : l.txQueue = x :: q) (hy : y ∈ q) : x.1 < y.1 := by
  have hsorted := hl.sorted
  rw [hq] at hsorted
  exact (pairwise_cons.1 hsorted).1 y hy

theorem transmit (hl : l.Inv) (p : EthPacket) (random : ℕ) :
    (l.packet.isSome = true ∧ l.transmit p random = .ok (l, false)) ∨
    l.packet = none ∧ ∃ d > l.curTick, l.transmit p random =
      .ok ({ l with packet := some p, doneEvent := some d, accepted := l.accepted ++ [p] }, true) := by
  cases hp : l.packet with
  | some p' => exact .inl ⟨rfl, by rw [EtherLink.transmit, EtherLink.busy, hp]; rfl⟩
  | none =>
    have hdone : l.doneEvent = none := by
      have := hl.busy
      rw [hp] at this
      exact Option.isSome_eq_false_iff.1 this |> Option.isNone_iff_eq_none.1
    have hpos := l.txDelay_pos p random
    refine .inr ⟨rfl, l.curTick + l.txDelay p random, by omega, ?_⟩
    have hsched : schedule l.curTick none (l.curTick + l.txDelay p random)
        = .ok (some (l.curTick + l.txDelay p random)) :=
      schedule_ok.2 ⟨Nat.le_add_right l.curTick (l.txDelay p random), rfl, rfl⟩
    rw [EtherLink.transmit, EtherLink.busy, hp, hdone, hsched]
    rfl

theorem transmit_inv (hl : l.Inv) {p : EthPacket} {d : ℕ} (hp : p.length ≤ p.bufLength)
    (hfree : l.packet = none) (hd : l.curTick < d) :
    Inv { l with packet := some p, doneEvent := some d, accepted := l.accepted ++ [p] } :=
  { hl with
    started := by simp [hl.started, hfree]
    busy := rfl
    done_later := by
      rintro _ ⟨⟩
      exact ⟨hd.le, fun x hx => (hl.past x hx).trans_lt hd⟩
    buffered := fun p' hp' => by
      rcases mem_append.1 hp' with hp' | hp'
      · rwa [mem_singleton.1 hp']
      · exact hl.buffered p' (mem_append_right _ hp') }

theorem finish (hl : l.Inv) {p : EthPacket} (hp : l.packet = some p)
    (hdue : l.doneEvent = some l.curTick) {q r : List (ℕ × EthPacket)}
    (hship : r ++ q = l.delivered ++ l.txQueue ++ [(l.curTick + l.params.linkDelay, p)])
    (hq : ∀ x ∈ q, x ∈ l.txQueue ∨ x = (l.curTick + l.params.linkDelay, p))
    (hdirect : l.params.linkDelay = 0 → q = []) :
    Inv { l with
      packet := none
      doneEvent := none
      txQueue := q
      txQueueEvent := q.head?.map Prod.fst
      finished := l.finished ++ [(l.curTick, p)]
      delivered := r } where
  started := by simp [hl.started, hp]
  shipped := by simp [hship, hl.shipped]
  busy := rfl
  event := rfl
  done_later := by
    rintro d ⟨⟩
  past x hx := by
    rcases mem_append.1 hx with hx | hx
    · exact hl.past x hx
    · rw [mem_singleton.1 hx]
  increasing := by
    refine pairwise_append.2 ⟨hl.increasing, pairwise_singleton _ _, fun x hx y hy => ?_⟩
    rw [mem_singleton.1 hy]
    exact (hl.done_later _ hdue).2 x hx
  ahead x hx := by
    rcases hq x hx with hx | rfl
    · exact hl.ahead x hx
    · exact Nat.le_add_right _ _
  direct := hdirect
  buffered p' hp' := by
    obtain ⟨x, hx, rfl⟩ := mem_map.1 hp'
    rcases hq x hx with hx | rfl
    · exact hl.buffered _ (mem_append_right _ (mem_map_of_mem hx))
    · exact hl.buffered _ (by simp [hp])

/-- How many packets are on their way, with the one on the transmitter counted twice. -/
def underway (l : EtherLink) : ℕ := 2 * l.packet.toList.length + l.txQueue.length

theorem txDone (hl : l.Inv) (hdue : l.doneEvent = some l.curTick) :
    ∃ l', step l .txDone = .ok l' ∧ l'.Inv ∧ l'.accepted = l.accepted ∧ underway l' < underway l := by
  obtain ⟨p, hp⟩ : ∃ p, l.packet = some p := by
    rw [← Option.isSome_iff_exists, ← hl.busy, hdue]
    rfl
  rcases Nat.eq_zero_or_pos l.params.linkDelay with hzero | hpos
  · have hnil := hl.direct hzero
    refine ⟨_, ?_, hl.finish hp hdue (q := []) (r := l.delivered ++ [(l.curTick, p)]) ?_ ?_ ?_,
      rfl, ?_⟩
    · have hevent : l.txQueueEvent = none := by rw [hl.event, hnil]; rfl
      simp only [step, hdue, if_true, EtherLink.txDone, hp, EtherLink.sendOff, hzero, lt_irrefl,
        if_false, hnil, require_of, ok_bind, txComplete, hevent]
      rfl
    · simp [hnil, hzero]
    · simp
    · simp
    · simp [underway, hp, hnil]
  · refine ⟨_, ?_, hl.finish hp hdue (q := l.txQueue ++ [(l.curTick + l.params.linkDelay, p)])
      (r := l.delivered) ?_ ?_ ?_, rfl, ?_⟩
    · have harm : armQueue l.curTick l.txQueueEvent
          (l.txQueue ++ [(l.curTick + l.params.linkDelay, p)]) =
          .ok ((l.txQueue ++ [(l.curTick + l.params.linkDelay, p)]).head?.map Prod.fst) := by
        rw [hl.event]
        cases l.txQueue with
        | nil => exact schedule_ok.2 ⟨Nat.le_add_right _ _, rfl, rfl⟩
        | cons x q => rfl
      simp only [step, hdue, if_true, EtherLink.txDone, hp, EtherLink.sendOff, hpos, harm, ok_bind]
      rfl
    · simp
    · simp
    · omega
    · simp only [underway, hp, Option.toList_none, Option.toList_some, length_append,
        length_singleton, length_nil]
      omega

theorem processTxQueue (hl : l.Inv) (hdue : l.txQueueEvent = some l.curTick) :
    ∃ l', step l .processTxQueue = .ok l' ∧ l'.Inv ∧ l'.accepted = l.accepted ∧
      underway l' < underway l := by
  have hevent := hl.event
  rw [hdue] at hevent
  cases hq : l.txQueue with
  | nil => simp [hq] at hevent
  | cons x q =>
    have hx : x.1 = l.curTick := by
      rw [hq] at hevent
      exact (Option.some.inj hevent).symm
    have harm : armNext l.curTick none q = .ok (q.head?.map Prod.fst) := by
      cases hq' : q with
      | nil => rfl
      | cons y rest =>
        have hlt : l.curTick < y.1 := hx ▸ hl.front_le hq (by rw [hq']; exact mem_cons_self)
        rw [armNext, require_of hlt, ok_bind]
        exact schedule_ok.2 ⟨hlt.le, rfl, rfl⟩
    have hstep : step l .processTxQueue = .ok { l with
        txQueue := q
        txQueueEvent := q.head?.map Prod.fst
        delivered := l.delivered ++ [(l.curTick, x.2)] } := by
      simp only [step, hdue, if_true, EtherLink.processTxQueue, hq, harm, ok_bind, hx, require_of,
        txComplete]
      rfl
    refine ⟨_, hstep, ?_, rfl, by simp [underway, hq]⟩
    refine ⟨hl.started, ?_, hl.busy, rfl, hl.done_later, hl.past, hl.increasing,
      fun y hy => ?_, fun h => ?_, fun p hp => ?_⟩
    · rw [← hl.shipped, hq, append_assoc, ← hx]
      rfl
    · exact hl.ahead y (by rw [hq]; exact mem_cons_of_mem _ hy)
    · simp [hl.direct h] at hq
    · refine hl.buffered p ?_
      rw [hq]
      rcases mem_append.1 hp with hp | hp
      · exact mem_append_left _ hp
      · exact mem_append_right _ (mem_cons_of_mem _ hp)

theorem advance (hl : l.Inv) {tick : ℕ} (h : step l (.advance tick) = .ok l') : l'.Inv := by
  simp only [step] at h
  split_ifs at h with hadv
  cases h
  obtain ⟨hle, hdone, hevent⟩ := hadv
  refine ⟨hl.started, hl.shipped, hl.busy, hl.event, fun d hd => ⟨hdone d hd, (hl.done_later d hd).2⟩,
    fun x hx => (hl.past x hx).trans hle, hl.increasing, fun x hx => ?_, hl.direct, hl.buffered⟩
  cases hq : l.txQueue with
  | nil =>
    simp [hq] at hx
  | cons y q =>
    have hfront : tick ≤ y.1 := hevent y.1 (by rw [hl.event, hq]; rfl)
    rw [hq] at hx
    rcases mem_cons.1 hx with rfl | hx
    · exact hfront
    · exact hfront.trans (hl.front_le hq hx).le

/-! ## Checkpoints -/

theorem restorePacket_ok {p : EthPacket} (hp : p.length ≤ p.bufLength) : restorePacket p = .ok p := by
  rw [restorePacket, require_of hp]
  rfl

theorem restoreQueue_ok : ∀ {rest q : List (ℕ × EthPacket)},
    (q ++ rest).Pairwise (fun x y => x.1 < y.1) → (∀ x ∈ rest, x.2.length ≤ x.2.bufLength) →
    restoreQueue q rest = .ok (q ++ rest)
  | [], q, _, _ => by rw [restoreQueue, append_nil]
  | x :: rest, q, hsorted, hfit => by
    have hlast : ¬∃ y ∈ q.getLast?, x.1 < y.1 := by
      rintro ⟨y, hy, hlt⟩
      have hyx := (pairwise_append.1 hsorted).2.2 y (mem_of_getLast? hy) x mem_cons_self
      omega
    have hassoc : q ++ x :: rest = q ++ [x] ++ rest := by simp
    rw [hassoc] at hsorted ⊢
    rw [restoreQueue, restorePacket_ok (hfit x mem_cons_self), ok_bind,
      (panicIf_ok (u := ())).2 hlast, ok_bind]
    exact restoreQueue_ok hsorted fun y hy => hfit y (mem_cons_of_mem _ hy)

theorem roundTrip (hl : l.Inv) : step l .roundTrip = .ok l := by
  have hpacket : restoreTransmitter none l.packet = .ok l.packet := by
    cases hp : l.packet with
    | none => rfl
    | some p =>
      rw [restoreTransmitter, restorePacket_ok (hl.buffered p (by simp [hp]))]
      rfl
  have hdone : restoreDone l.curTick none l.doneEvent = .ok l.doneEvent := by
    cases hd : l.doneEvent with
    | none => rfl
    | some d => exact schedule_ok.2 ⟨(hl.done_later d hd).1, rfl, rfl⟩
  have hqueue : restoreQueue [] l.txQueue = .ok l.txQueue :=
    restoreQueue_ok hl.sorted fun x hx =>
      hl.buffered _ (mem_append_right _ (mem_map_of_mem hx))
  have hevent : restoreEvent l.curTick none l.txQueue = .ok l.txQueueEvent := by
    rw [hl.event]
    cases hq : l.txQueue with
    | nil => rfl
    | cons x q => exact schedule_ok.2 ⟨hl.ahead x (by simp [hq]), rfl, rfl⟩
  simp only [step, unserialize, serialize, renewed, hpacket, hdone, hqueue, hevent, ok_bind]
  rfl

end Inv

theorem step_inv {o : Op} (hl : l.Inv) (ho : l.Fits o) (h : step l o = .ok l') : l'.Inv := by
  cases o with
  | transmit p random =>
    rcases hl.transmit p random with ⟨-, ht⟩ | ⟨hfree, d, hd, ht⟩
    · simp only [step, ht, ok_bind] at h
      cases h
      exact hl
    · simp only [step, ht, ok_bind] at h
      cases h
      exact hl.transmit_inv ho hfree hd
  | txDone =>
    by_cases hdue : l.doneEvent = some l.curTick
    · obtain ⟨l₁, h₁, hl₁, -⟩ := hl.txDone hdue
      obtain rfl := Except.ok.inj (h₁.symm.trans h)
      exact hl₁
    · simp only [step, hdue, if_false] at h
      cases h
  | processTxQueue =>
    by_cases hdue : l.txQueueEvent = some l.curTick
    · obtain ⟨l₁, h₁, hl₁, -⟩ := hl.processTxQueue hdue
      obtain rfl := Except.ok.inj (h₁.symm.trans h)
      exact hl₁
    · simp only [step, hdue, if_false] at h
      cases h
  | advance tick => exact hl.advance h
  | roundTrip =>
    obtain rfl := Except.ok.inj (hl.roundTrip.symm.trans h)
    exact hl

theorem init_inv (params : LinkParams) : Inv { params := params } where
  started := rfl
  shipped := rfl
  busy := rfl
  event := rfl
  done_later := by rintro d ⟨⟩
  past := by simp
  increasing := .nil
  ahead := by simp
  direct _ := rfl
  buffered := by simp

/-- An event of the link is due. -/
def due (l : EtherLink) : Bool :=
  l.doneEvent = some l.curTick ∨ l.txQueueEvent = some l.curTick

def internal : Op → Bool
  | .txDone | .processTxQueue | .advance _ => true
  | _ => false

theorem Inv.next (hl : l.Inv) (hsome : Inv.underway l ≠ 0) :
    ∃ o, internal o = true ∧ l.Fits o ∧ ∃ l', step l o = .ok l' ∧ l'.Inv ∧
      l'.accepted = l.accepted ∧ (Inv.underway l' < Inv.underway l ∨
        Inv.underway l' = Inv.underway l ∧ l.due = false ∧ l'.due = true) := by
  by_cases hdone : l.doneEvent = some l.curTick
  · obtain ⟨l', h, hl', hacc, hlt⟩ := hl.txDone hdone
    exact ⟨.txDone, rfl, trivial, l', h, hl', hacc, .inl hlt⟩
  by_cases hevent : l.txQueueEvent = some l.curTick
  · obtain ⟨l', h, hl', hacc, hlt⟩ := hl.processTxQueue hevent
    exact ⟨.processTxQueue, rfl, trivial, l', h, hl', hacc, .inl hlt⟩
  have hidle : l.due = false := by simp [due, hdone, hevent]
  -- the next tick is the earlier one of the two events
  obtain ⟨tick, hle, hdone', hevent', hdue⟩ : ∃ tick, l.curTick ≤ tick ∧
      (∀ t ∈ l.doneEvent, tick ≤ t) ∧ (∀ t ∈ l.txQueueEvent, tick ≤ t) ∧
      (l.doneEvent = some tick ∨ l.txQueueEvent = some tick) := by
    have hqueue : ∀ t, l.txQueueEvent = some t → l.curTick ≤ t := by
      intro t ht
      rw [hl.event] at ht
      obtain ⟨x, hx, rfl⟩ := Option.map_eq_some_iff.1 ht
      exact hl.ahead x (mem_of_head? hx)
    cases hd : l.doneEvent with
    | none =>
      have hfree : l.packet = none := by
        have := hl.busy
        rw [hd] at this
        exact Option.isNone_iff_eq_none.1 (Option.isSome_eq_false_iff.1 this.symm)
      cases he : l.txQueueEvent with
      | none =>
        have hnil : l.txQueue = [] := by
          have := hl.event
          rw [he] at this
          exact head?_eq_none_iff.1 (Option.map_eq_none_iff.1 this.symm)
        simp [Inv.underway, hfree, hnil] at hsome
      | some t => exact ⟨t, hqueue t he, by simp, by simp, .inr rfl⟩
    | some d =>
      have hld := (hl.done_later d hd).1
      cases he : l.txQueueEvent with
      | none => exact ⟨d, hld, by simp, by simp, .inl rfl⟩
      | some t =>
        rcases le_total d t with hdt | htd
        · exact ⟨d, hld, by simp, by simpa using hdt, .inl rfl⟩
        · exact ⟨t, hqueue t he, by simpa using htd, by simp, .inr rfl⟩
  have hstep : step l (.advance tick) = .ok { l with curTick := tick } := by
    simp only [step]
    rw [if_pos ⟨hle, hdone', hevent'⟩]
  refine ⟨.advance tick, rfl, trivial, _, hstep, hl.advance hstep, rfl, .inr ⟨rfl, hidle, ?_⟩⟩
  simpa [due] using hdue

theorem Inv.all_delivered (hl : l.Inv) (hnone : Inv.underway l = 0) :
    l.delivered.map Prod.snd = l.accepted := by
  unfold Inv.underway at hnone
  have hfree : l.packet.toList = [] := length_eq_zero_iff.1 (by omega)
  have hnil : l.txQueue = [] := length_eq_zero_iff.1 (by omega)
  have hship := congrArg (List.map Prod.snd) hl.shipped
  rw [hnil, append_nil, map_map] at hship
  rw [hship, hl.started, hfree, append_nil]
  rfl

theorem Inv.arrives (hl : l.Inv) : ∃ ops l', (∀ o ∈ ops, internal o = true) ∧
    run step l ops = .ok l' ∧ l'.delivered.map Prod.snd = l.accepted := by
  by_cases hnone : Inv.underway l = 0
  · exact ⟨[], l, by simp, rfl, hl.all_delivered hnone⟩
  let I (s : EtherLink) (r : ℕ) : Prop := (s.Inv ∧ s.accepted = l.accepted ∧ Inv.underway s ≠ 0) ∧
    r = 2 * Inv.underway s + if s.due then 0 else 1
  let G (s : EtherLink) : Prop := s.Inv ∧ s.accepted = l.accepted ∧ Inv.underway s = 0
  have hnext : ∀ s r, I s r → ∃ o, internal o = true ∧ s.Fits o ∧ ∃ s', step s o = .ok s' ∧
      (G s' ∨ ∃ r' < r, I s' r') := by
    rintro s r ⟨⟨hs, hacc, hsome⟩, rfl⟩
    obtain ⟨o, hint, hfits, s', hstep, hs', hacc', hless⟩ := hs.next hsome
    refine ⟨o, hint, hfits, s', hstep, ?_⟩
    by_cases hzero : Inv.underway s' = 0
    · exact .inl ⟨hs', hacc'.trans hacc, hzero⟩
    · refine .inr ⟨_, ?_, ⟨hs', hacc'.trans hacc, hzero⟩, rfl⟩
      rcases hless with hlt | ⟨heq, hdue, hdue'⟩
      · split_ifs <;> omega
      · rw [heq, hdue, hdue']
        simp
  obtain ⟨ops, t, hint, -, hrun, ht, hacc, hzero⟩ :=
    run_of_rank (I := I) (G := G) hnext ⟨⟨hl, rfl, hnone⟩, rfl⟩
  exact ⟨ops, t, hint, hrun, hacc ▸ ht.all_delivered hzero⟩

/-- In every state of the link at most one packet is on the transmitter, and an attempt is refused exactly
then. The packets that left it, with their ticks moved by the link delay, are those delivered and then those in
flight, none of which is late, and the event of the queue is that of its front. A checkpoint gives back the
same link, the events that are due are served, and all accepted packets arrive. -/
theorem link_delivery {params : LinkParams} {ops : List Op}
    (hops : Admits step Fits { params := params } ops)
    (hrun : run step { params := params } ops = .ok l) :
    l.accepted = l.finished.map Prod.snd ++ l.packet.toList ∧
    l.delivered ++ l.txQueue = (l.finished.map fun x => (x.1 + l.params.linkDelay, x.2)) ∧
    l.finished.Pairwise (fun x y => x.1 < y.1) ∧
    (∀ x ∈ l.txQueue, l.curTick ≤ x.1) ∧
    l.txQueueEvent = l.txQueue.head?.map Prod.fst ∧
    l.doneEvent.isSome = l.packet.isSome ∧
    (∀ p random, ∃ l', l.transmit p random = .ok (l', !l.packet.isSome) ∧
      (l.packet.isSome = true → l' = l)) ∧
    (l.doneEvent = some l.curTick → ∃ l', step l .txDone = .ok l') ∧
    (l.txQueueEvent = some l.curTick → ∃ l', step l .processTxQueue = .ok l') ∧
    step l .roundTrip = .ok l ∧
    ∃ ops' l', (∀ o ∈ ops', internal o = true) ∧ run step l ops' = .ok l' ∧
      l'.delivered.map Prod.snd = l.accepted := by
  have hl : l.Inv := hops.inv (fun _ _ _ hl ho h => step_inv hl ho h) (init_inv params) hrun
  refine ⟨hl.started, hl.shipped, hl.increasing, hl.ahead, hl.event, hl.busy, fun p random => ?_,
    fun hdue => ?_, fun hdue => ?_, hl.roundTrip, hl.arrives⟩
  · rcases hl.transmit p random with ⟨hbusy, ht⟩ | ⟨hfree, d, -, ht⟩
    · exact ⟨l, by rw [ht, hbusy]; rfl, fun _ => rfl⟩
    · exact ⟨_, by rw [ht, hfree]; rfl, fun h => by rw [hfree] at h; cases h⟩
  · obtain ⟨l', h, -⟩ := hl.txDone hdue
    exact ⟨l', h⟩
  · obtain ⟨l', h, -⟩ := hl.processTxQueue hdue
    exact ⟨l', h⟩

def shortLink : LinkParams := ⟨fun n => n + 1, fun _ => Nat.succ_pos _, 5, 0⟩

/-- Two packets, the second of which is refused once and is accepted while the first is in flight. -/
def twoPackets : List Op :=
  [.transmit ⟨[1, 2], 2, 2⟩ 0, .transmit ⟨[3], 1, 1⟩ 0, .advance 3, .txDone,
    .transmit ⟨[3], 1, 1⟩ 0, .advance 5, .roundTrip, .txDone, .advance 8, .processTxQueue]

theorem link_delivery_twoPackets : ∃ l, run step { params := shortLink } twoPackets = .ok l ∧
    l.delivered = [(8, ⟨[1, 2], 2, 2⟩)] ∧ l.txQueueEvent = some 10 ∧
    l.delivered ++ l.txQueue = l.finished.map fun x => (x.1 + l.params.linkDelay, x.2) := by
  obtain ⟨l, hrun, hout, hevent⟩ : ∃ l, run step { params := shortLink } twoPackets = .ok l ∧
      l.delivered = [(8, ⟨[1, 2], 2, 2⟩)] ∧ l.txQueueEvent = some 10 := ⟨_, rfl, rfl, rfl⟩
  exact ⟨l, hrun, hout, hevent, (link_delivery (by decide +kernel) hrun).2.1⟩

end EtherLink

end Gem5
