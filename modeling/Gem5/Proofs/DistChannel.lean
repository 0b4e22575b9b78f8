import Gem5.Proofs.DistPlan
import Gem5.Proofs.RecvScheduler

/-!
# One channel of a distributed simulation

The packets sent on a channel have been handed to the receiving link, are in the queue of its
`RecvScheduler` or on the wire, in the order they were sent in. As they are spaced by their send
delays, the checks of `calcReceiveTick` hold for each of them.
-/

namespace Gem5

open List

namespace DistNet

open Machine
open RecvScheduler (Desc subTick)

structure ChanInv (L : ℕ) (c : Channel) : Prop where
  linkDelay : c.recv.linkDelay = L
  order : c.sent = c.handed ++ c.recv.descQueue ++ c.wire.reduceOption
  spaced : c.sent.Pairwise fun a b => a.sendTick + a.sendDelay ≤ b.sendTick
  delayed : ∀ x ∈ c.sent, 0 < x.sendDelay
  txDone : ∀ x ∈ c.sent, x.sendTick + x.sendDelay ≤ c.txDone
  recvDone : c.recv.recvDone = c.recv.descQueue.head?.map (recvTick L)
  prev : c.recv.prevRecvTick = 0 ∨ ∃ x ∈ c.handed, c.recv.prevRecvTick = recvTick L x

variable {L : ℕ} {c : Channel} {x : Desc} {rest : List (Option Desc)}

theorem ChanInv.init (L : ℕ) : ChanInv L (.init L) where
  linkDelay := rfl
  order := rfl
  spaced := .nil
  delayed := nofun
  txDone := nofun
  recvDone := rfl
  prev := .inl rfl

theorem ChanInv.transmit (h : ChanInv L c) (hbusy : c.txDone ≤ x.sendTick) (hpos : 0 < x.sendDelay) :
    ChanInv L { c with
      wire := c.wire ++ [some x]
      txDone := x.sendTick + x.sendDelay
      sent := c.sent ++ [x] } :=
  { h with
    order := by
      simp [reduceOption_append, h.order]
    spaced := by
      refine pairwise_append.2 ⟨h.spaced, pairwise_singleton _ _, fun a ha b hb => ?_⟩
      rw [mem_singleton.1 hb]
      exact (h.txDone a ha).trans hbusy
    delayed := by
      intro y hy
      rcases mem_append.1 hy with hy | hy
      · exact h.delayed y hy
      · rwa [mem_singleton.1 hy]
    txDone := by
      intro y hy
      rcases mem_append.1 hy with hy | hy
      · exact ((h.txDone y hy).trans hbusy).trans (Nat.le_add_right _ _)
      · rw [mem_singleton.1 hy] }

theorem ChanInv.sync (h : ChanInv L c) {wire : List (Option Desc)}
    (hw : wire.reduceOption = c.wire.reduceOption) : ChanInv L { c with wire := wire } :=
  { h with order := hw ▸ h.order }

theorem ChanInv.window (h : ChanInv L c) {l l' : List Desc} (hs : c.sent = l ++ x :: l') {y : Desc}
    (hy : y ∈ l) : recvTick L y + x.sendDelay ≤ recvTick L x := by
  have hsp := h.spaced
  rw [hs] at hsp
  have := (pairwise_append.1 hsp).2.2 y hy x (by simp)
  unfold recvTick
  omega

theorem ChanInv.calcReceiveTick (h : ChanInv L c) (hw : c.wire = some x :: rest) {curTick : ℕ}
    (hcur : curTick < recvTick L x) :
    c.recv.calcReceiveTick curTick x.sendTick x.sendDelay c.recv.prevRecvTick
      = .ok (recvTick L x) := by
  refine RecvScheduler.calcReceiveTick_ok.2 ⟨by rw [h.linkDelay, recvTick], ?_, hcur⟩
  rcases h.prev with h0 | ⟨y, hy, hprev⟩
  · rw [h0]
    unfold recvTick
    omega
  · have hs := h.order
    rw [hw, reduceOption_cons_of_some] at hs
    rw [hprev]
    exact h.window hs (mem_append_left _ hy)

theorem ChanInv.push_ok (h : ChanInv L c) (hw : c.wire = some x :: rest)
    {curTick syncWhen syncRepeat : ℕ} (hcur : curTick < recvTick L x)
    (hwhen : syncWhen < recvTick L x) (hsend : subTick syncWhen syncRepeat < x.sendTick) :
    ∃ r, c.recv.pushPacket curTick syncWhen syncRepeat x = .ok r := by
  have hrec := h.recvDone
  refine RecvScheduler.pushPacket_ok (h.calcReceiveTick hw hcur) hsend hwhen (fun hq => ?_)
    fun y q hq => ?_
  · rw [hrec, hq]
    rfl
  · have hs := h.order
    rw [hw, reduceOption_cons_of_some, hq] at hs
    have hwin := h.window hs (y := y) (by simp)
    rw [hrec, hq]
    refine ⟨rfl, ?_⟩
    unfold recvTick at hwin ⊢
    omega

theorem ChanInv.push (h : ChanInv L c) (hw : c.wire = some x :: rest)
    {curTick syncWhen syncRepeat : ℕ} {r : RecvScheduler}
    (hr : c.recv.pushPacket curTick syncWhen syncRepeat x = .ok r) :
    ChanInv L { c with wire := rest, recv := r } := by
  obtain rfl := RecvScheduler.pushPacket_cases hr
  exact { h with
    order := by
      simp [h.order, hw]
    recvDone := by
      have hrec := h.recvDone
      rcases hq : c.recv.descQueue with _ | ⟨y, q⟩
      · simp [recvTick, h.linkDelay]
      · rw [hq] at hrec
        simpa using hrec
    prev := h.prev }

theorem ChanInv.rxDone_ok (h : ChanInv L c) {t : ℕ} (ht : c.recv.recvDone = some t) :
    ∃ y q r, c.recv.rxDone = .ok (y, r) ∧ c.recv.descQueue = y :: q ∧ t = recvTick L y
      ∧ r = { c.recv with
        descQueue := q
        recvDone := q.head?.map (recvTick L)
        prevRecvTick := t } ∧ ∀ t', r.recvDone = some t' → t < t' := by
  have hrec := h.recvDone
  rw [ht] at hrec
  rcases hq : c.recv.descQueue with _ | ⟨y, q⟩
  · simp [hq] at hrec
  · rw [hq] at hrec
    obtain rfl := Option.some.inj hrec
    have hlt : ∀ z q', q = z :: q' → recvTick L y + z.sendDelay ≤ recvTick L z
        ∧ recvTick L y < recvTick L z := fun z q' hz => by
      have hs : c.sent = (c.handed ++ [y]) ++ z :: (q' ++ c.wire.reduceOption) := by
        rw [h.order, hq, hz]
        simp
      have hwin := h.window hs (y := y) (by simp)
      have hpos := h.delayed z (by rw [hs]; simp)
      exact ⟨hwin, by omega⟩
    refine ⟨y, q, _, ?_, rfl, rfl, rfl, fun t' ht' => ?_⟩
    · rw [RecvScheduler.rxDone, ht]
      rcases q with _ | ⟨z, q'⟩
      · simp only [RecvScheduler.popPacket, hq]
        rfl
      · obtain ⟨hwin, hlt⟩ := hlt z q' rfl
        refine (RecvScheduler.popPacket_cons _ (by exact hq) rfl).2 ⟨?_, ?_, ?_⟩
        · rw [h.linkDelay]
          unfold recvTick at *
          omega
        · rwa [h.linkDelay]
        · simp [recvTick, h.linkDelay]
    · rcases q with _ | ⟨z, q'⟩
      · cases ht'
      · obtain rfl := Option.some.inj ht'
        exact (hlt z q' rfl).2

theorem ChanInv.rxDone (h : ChanInv L c) {y : Desc} {r : RecvScheduler}
    (hr : c.recv.rxDone = .ok (y, r)) :
    ChanInv L { c with recv := r, handed := c.handed ++ [y] } := by
  rcases ht : c.recv.recvDone with _ | t
  · simp [RecvScheduler.rxDone, ht] at hr
  · obtain ⟨y', q, r', hr', hq, rfl, rfl, -⟩ := h.rxDone_ok ht
    obtain ⟨rfl, rfl⟩ := Prod.mk.inj (Except.ok.inj (hr.symm.trans hr'))
    exact { h with
      order := by
        simp [h.order, hq]
      recvDone := rfl
      prev := .inr ⟨y, by simp, rfl⟩ }

end DistNet

end Gem5
