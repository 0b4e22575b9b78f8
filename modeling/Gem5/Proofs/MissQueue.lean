import Gem5.Proofs.MissQueueLists

/-!
# The order of the ready list

`addToReadyList` finds the place of a register in a list that is in order (`addToReadyList_spec`).
The search of `delay` starts at the register itself, so the register stays where it is
(`delay_cases`), and the list is in order after it just when the new time is between its neighbours'.
-/

namespace Gem5

open Machine List

namespace MissQueue

variable {q q' : MissQueue} {i j n : ℕ} {m m' : Mshr} {l : List ℕ}

theorem readyTime_of (h : q.entries[i]? = some m) : q.readyTime i = m.readyTime := by
  rw [readyTime, h]
  rfl

theorem readyTime_setEntry_of_ne (h : j ≠ i) : (q.setEntry i m').readyTime j = q.readyTime j := by
  rw [readyTime, setEntry_of_ne h]
  rfl

/-! ## The ready list -/

theorem le_last (h : l.Pairwise fun i j => q.readyTime i ≤ q.readyTime j)
    (hl : l.getLast? = some j) (hi : i ∈ l) : q.readyTime i ≤ q.readyTime j := by
  obtain ⟨l', rfl⟩ := getLast?_eq_some_iff.1 hl
  rw [mem_append, mem_singleton] at hi
  rcases hi with hi | rfl
  · exact (pairwise_append.1 h).2.2 i hi j (mem_singleton.2 rfl)
  · exact le_rfl

theorem insertReady_spec : ∀ {l : List ℕ}, (l.Pairwise fun i j => q.readyTime i ≤ q.readyTime j) →
    (∃ j ∈ l, q.readyTime i < q.readyTime j) →
    ∃ l', q.insertReady i l = .ok l' ∧ l'.Perm (i :: l)
      ∧ l'.Pairwise fun i j => q.readyTime i ≤ q.readyTime j
  | [], _, h => by simp at h
  | j :: l, hl, ⟨k, hk, hik⟩ => by
    obtain ⟨hj, hl⟩ := pairwise_cons.1 hl
    by_cases hlt : q.readyTime i < q.readyTime j
    · refine ⟨i :: j :: l, if_pos hlt, .refl _, pairwise_cons.2 ⟨fun x hx => ?_, ?_⟩⟩
      · rcases mem_cons.1 hx with rfl | hx
        · exact hlt.le
        · exact hlt.le.trans (hj x hx)
      · exact pairwise_cons.2 ⟨hj, hl⟩
    · have hk : k ∈ l := by
        rcases mem_cons.1 hk with rfl | hk
        · exact absurd hik hlt
        · exact hk
      obtain ⟨l', hl', hperm, hsorted⟩ := insertReady_spec hl ⟨k, hk, hik⟩
      refine ⟨j :: l', ?_, (hperm.cons j).trans (.swap i j l),
        pairwise_cons.2 ⟨fun x hx => ?_, hsorted⟩⟩
      · rw [insertReady, if_neg hlt, hl']
        rfl
      · rcases mem_cons.1 (hperm.mem_iff.1 hx) with rfl | hx
        · exact not_lt.1 hlt
        · exact hj x hx

theorem addToReadyList_spec (hq : q.ReadyInOrder) (i : ℕ) :
    ∃ l', q.addToReadyList i = .ok l' ∧ l'.Perm (i :: q.readyList)
      ∧ l'.Pairwise fun i j => q.readyTime i ≤ q.readyTime j := by
  unfold addToReadyList
  split
  · rename_i hlast
    rw [getLast?_eq_none_iff] at hlast
    rw [hlast]
    exact ⟨[i], rfl, .refl _, pairwise_singleton _ _⟩
  · rename_i back hlast
    split_ifs with hle
    · refine ⟨_, rfl, perm_append_singleton i _, pairwise_append.2 ⟨hq, ?_, ?_⟩⟩
      · exact pairwise_singleton _ _
      · intro x hx y hy
        rw [mem_singleton.1 hy]
        exact (le_last hq hlast hx).trans hle
    · exact insertReady_spec hq ⟨back, mem_of_getLast? hlast, not_le.1 hle⟩

/-! ## One operation -/

theorem inOrder_setEntry (h : q.ReadyInOrder) (hm : q.entries[i]? = some m)
    (htime : i ∈ q.readyList → m'.readyTime = m.readyTime) : (q.setEntry i m').ReadyInOrder := by
  have hsame : ∀ j ∈ q.readyList, (q.setEntry i m').readyTime j = q.readyTime j := by
    intro j hj
    by_cases hji : j = i
    · subst hji
      rw [readyTime_of (setEntry_self hm), readyTime_of hm]
      exact htime hj
    · exact readyTime_setEntry_of_ne hji
  refine List.Pairwise.imp_of_mem (fun ha hb hab => ?_) h
  rwa [hsame _ ha, hsame _ hb]

theorem inOrder_makeReady (h : q.ReadyInOrder) (hx : q.makeReady i = .ok q') : q'.ReadyInOrder := by
  obtain ⟨l, hl, rfl⟩ := makeReady_cases hx
  obtain ⟨l', hl', -, hsorted⟩ := addToReadyList_spec h i
  rw [hl] at hl'
  cases hl'
  exact hsorted

theorem inOrder_erase (h : q.ReadyInOrder) (i : ℕ) :
    ReadyInOrder { q with readyList := q.readyList.erase i } :=
  List.Pairwise.sublist erase_sublist h

theorem inOrder_deallocate (h : q.ReadyInOrder) (hc : q.Conserved n)
    (hx : q.deallocate i = .ok q') : q'.ReadyInOrder := by
  obtain ⟨-, m, m', hm, -, ⟨hserv, rfl⟩ | ⟨-, -, rfl⟩⟩ := deallocate_cases hx
  · have hnot : i ∉ q.readyList := hc.not_ready ((inService_of hm).trans hserv)
    exact inOrder_setEntry h hm fun hi => absurd hi hnot
  · refine inOrder_setEntry (inOrder_erase h i) hm fun hi => ?_
    exact absurd rfl (hc.nodup.mem_erase_iff.1 hi).1

/-! ## Delays -/

theorem delay_inOrder_iff {delayTicks : ℕ} (hc : q.Conserved n) (ho : q.ReadyInOrder)
    (h : q.delay i delayTicks = .ok q') :
    q'.ReadyInOrder ↔ q.DelaysWithin i delayTicks := by
  obtain ⟨hi, m, hm, -, rfl⟩ := delay_cases h
  obtain ⟨pre, post, hl, htake, hdrop⟩ := split_ready hi
  set u := q.setEntry i { m with readyTime := (q.curTick + delayTicks) % 2 ^ 64 } with hu
  have hself : u.readyTime i = (q.curTick + delayTicks) % 2 ^ 64 := readyTime_of (setEntry_self hm)
  have hnodup := hc.nodup
  rw [hl, nodup_append] at hnodup
  have hpre : ∀ j ∈ pre, u.readyTime j = q.readyTime j := fun j hj =>
    readyTime_setEntry_of_ne (hnodup.2.2 j hj i mem_cons_self)
  have hpost : ∀ j ∈ post, u.readyTime j = q.readyTime j := fun j hj =>
    readyTime_setEntry_of_ne fun he => (nodup_cons.1 hnodup.2.1).1 (he ▸ hj)
  have horder := ho
  unfold ReadyInOrder at horder ⊢
  rw [show u.readyList = q.readyList from rfl]
  rw [hl, pairwise_append, pairwise_cons] at horder ⊢
  obtain ⟨hopre, ⟨-, hopost⟩, hcross⟩ := horder
  rw [DelaysWithin, htake, hdrop, tail_cons, ← hself]
  constructor
  · rintro ⟨-, ⟨hnext, -⟩, hprev⟩
    refine ⟨fun j hj => ?_, fun j hj => ?_⟩
    · have hj : j ∈ pre := mem_of_getLast? hj
      rw [← hpre j hj]
      exact hprev j hj i mem_cons_self
    · have hj : j ∈ post := mem_of_mem_head? hj
      rw [← hpost j hj]
      exact hnext j hj
  · rintro ⟨hprev, hnext⟩
    refine ⟨?_, ⟨fun j hj => ?_, ?_⟩, fun j hj k hk => ?_⟩
    · refine hopre.imp_of_mem fun ha hb hab => ?_
      rwa [hpre _ ha, hpre _ hb]
    · obtain ⟨k, post', rfl⟩ := exists_cons_of_ne_nil (ne_nil_of_mem hj)
      rw [hpost j hj]
      refine (hnext k rfl).trans ?_
      rcases mem_cons.1 hj with rfl | hj
      · exact le_rfl
      · exact (pairwise_cons.1 hopost).1 j hj
    · refine hopost.imp_of_mem fun ha hb hab => ?_
      rwa [hpost _ ha, hpost _ hb]
    · rw [hpre j hj]
      rcases mem_cons.1 hk with rfl | hk
      · have hne : pre ≠ [] := ne_nil_of_mem hj
        have hlast := getLast?_eq_some_getLast hne
        exact (le_last hopre hlast hj).trans (hprev _ hlast)
      · rw [hpost k hk]
        exact hcross j hj k (mem_cons_of_mem _ hk)

/-! ## A run -/

theorem step_inOrder {op : Op} (h : q.ReadyInOrder) (hc : q.Conserved n) (ho : q.InPlace op)
    (hx : q.step op = .ok q') : q'.ReadyInOrder := by
  cases op with
  | allocate blkAddr blkSize pkt whenReady order allocOnFill =>
    obtain ⟨i, free, m, m', sig, hfree, hm, -, hx⟩ := allocate_cases hx
    refine inOrder_makeReady ?_ hx
    refine inOrder_setEntry h hm fun hi => absurd hi (hc.free_not_ready ?_)
    rw [hfree]
    exact mem_cons_self
  | allocateTarget i pkt readyTime order allocOnFill =>
    obtain ⟨m, m', sig, hm, ht, -, rfl⟩ := addTarget_cases hx
    exact inOrder_setEntry h hm fun _ => ht
  | delay i delayTicks => exact (delay_inOrder_iff hc h hx).2 ho
  | markInService i pendingModifiedResp =>
    obtain ⟨-, m, m', sig, hm, -, rfl⟩ := markInService_cases hx
    refine inOrder_setEntry (inOrder_erase h i) hm fun hi => ?_
    exact absurd rfl (hc.nodup.mem_erase_iff.1 hi).1
  | serve i cmd =>
    simp only [step] at hx
    split_ifs at hx with hs
    obtain ⟨m, m', hm, -, rfl⟩ := serve_cases hx
    exact inOrder_setEntry h hm fun hi => absurd hi (hc.not_ready hs)
  | markPending i =>
    obtain ⟨m, hm, hs, hx⟩ := markPending_cases hx
    refine inOrder_makeReady ?_ hx
    have hnot : i ∉ q.readyList := hc.not_ready ((inService_of hm).trans hs)
    exact inOrder_setEntry h hm fun hi => absurd hi hnot
  | deallocate i => exact inOrder_deallocate h hc hx
  | advance ticks =>
    simp only [step] at hx
    split_ifs at hx
    cases hx
    exact h

theorem front_le (h : q.ReadyInOrder) (hi : i ∈ q.readyList) : q.nextReadyTime ≤ q.readyTime i := by
  unfold ReadyInOrder at h
  unfold nextReadyTime
  split
  · rename_i hl
    simp [hl] at hi
  · rename_i j l hl
    rw [hl] at h hi
    rcases mem_cons.1 hi with rfl | hi
    · exact le_rfl
    · exact (pairwise_cons.1 h).1 i hi

theorem front_ready (hi : i ∈ q.readyList) (hle : q.nextReadyTime ≤ q.curTick) :
    ∃ j ∈ q.readyList, q.getNext = some j ∧ q.readyTime j = q.nextReadyTime := by
  unfold nextReadyTime at hle ⊢
  unfold getNext
  cases hl : q.readyList with
  | nil =>
    simp [hl] at hi
  | cons j l =>
    rw [hl] at hle
    exact ⟨j, mem_cons_self, if_neg (not_lt.2 hle), rfl⟩

/-- In every run whose delays leave the ready time of a register between those of its neighbours on
the ready list, the list is in the order of the ready times. So a register is found to send as soon
as one is ready, and the next ready time is the least of all. A delay keeps the order only if it is
one of these. -/
theorem ready_in_order {numEntries : ℕ} {ops : List Op}
    (hadm : Admits step InPlace (init numEntries) ops)
    (hrun : run step (init numEntries) ops = .ok q) :
    q.ReadyInOrder
      ∧ (∀ i ∈ q.readyList, q.readyTime i ≤ q.curTick →
        ∃ j ∈ q.readyList, q.getNext = some j ∧ q.readyTime j ≤ q.curTick)
      ∧ (∀ i ∈ q.readyList, q.nextReadyTime ≤ q.readyTime i)
      ∧ (q.readyList ≠ [] → ∃ j ∈ q.readyList, q.nextReadyTime = q.readyTime j)
      ∧ ∀ i delayTicks q', q.step (.delay i delayTicks) = .ok q' →
        (q'.ReadyInOrder ↔ q.DelaysWithin i delayTicks) := by
  obtain ⟨hq, hc⟩ : q.ReadyInOrder ∧ q.Conserved numEntries :=
    Admits.inv (I := fun q => q.ReadyInOrder ∧ q.Conserved numEntries)
      (fun _ _ _ ⟨hq, hc⟩ ho h => ⟨step_inOrder hq hc ho h, hc.step h⟩) hadm
      ⟨List.Pairwise.nil, Conserved.init numEntries⟩ hrun
  refine ⟨hq, fun i hi hle => ?_, fun i hi => front_le hq hi, fun hne => ?_,
    fun i delayTicks q' h => delay_inOrder_iff hc hq h⟩
  · have hnext := (front_le hq hi).trans hle
    obtain ⟨j, hj, hget, htime⟩ := front_ready hi hnext
    exact ⟨j, hj, hget, htime ▸ hnext⟩
  · obtain ⟨j, l, hl⟩ := exists_cons_of_ne_nil hne
    refine ⟨j, by rw [hl]; exact mem_cons_self, ?_⟩
    rw [nextReadyTime, hl]

def missPacket (addr : ℕ) : Packet := .ofRequest ⟨addr, 64, {}, 1, 0, 0, 0⟩ .readReq

/-- Two misses, ready at ticks 5 and 10. At tick 7 the first is delayed by some ticks. -/
def delayOps (delayTicks : ℕ) : List Op :=
  [.allocate 0 64 (missPacket 0) 5 0 true, .allocate 64 64 (missPacket 64) 10 1 true, .advance 7,
    .delay 0 delayTicks, .advance 13]

theorem delayOps_inPlace : Admits step InPlace (init 4) (delayOps 3)
    ∧ Ends (run step (init 4) (delayOps 3)) fun q =>
      1 ∈ q.readyList ∧ q.readyTime 1 ≤ q.curTick := by
  decide +kernel

theorem ready_in_order_delayOps : ∃ q, run step (init 4) (delayOps 3) = .ok q ∧ q.ReadyInOrder
    ∧ ∃ j ∈ q.readyList, q.getNext = some j ∧ q.readyTime j ≤ q.curTick := by
  obtain ⟨q, hrun, hi, hle⟩ := delayOps_inPlace.2.exists
  have h := ready_in_order delayOps_inPlace.1 hrun
  exact ⟨q, hrun, h.1, h.2.1 1 hi hle⟩

/-- With a delay of 100 ticks the second miss is ready at tick 10 and not found at tick 20, since
the first one is still at the front. -/
theorem delayed_in_front : Ends (run step (init 4) (delayOps 100)) fun q =>
    q.curTick = 20 ∧ q.readyList = [0, 1] ∧ q.readyTime 0 = 107 ∧ q.readyTime 1 = 10
      ∧ q.getNext = none ∧ q.nextReadyTime = 107 := by
  decide +kernel

end MissQueue

end Gem5
