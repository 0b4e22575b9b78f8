import Gem5.DmaPort
import Gem5.Proofs.ChunkGenerator

/-!
# Every DMA is completed once

At any time a first part of the packets of all actions (`plan`) was sent, and the others are what the
generators of the requests still give (`Queued`). The bytes of an action are answered, in flight or
not sent yet (`Core.account`), so its state is freed with the last response and not before.
-/

namespace Gem5

open Machine Pieces List Function

namespace DmaPort

variable {s s' s'' : DmaPort} {todo : List Packet} {j : ℕ}

theorem bytes_cons (j : ℕ) (p : Packet) (ps : List Packet) :
    bytes j (p :: ps) = (if p.senderState = some j then p.size else 0) + bytes j ps := by
  unfold bytes
  by_cases h : p.senderState = some j <;> simp [h]

@[simp] theorem bytes_nil (j : ℕ) : bytes j [] = 0 := rfl

@[simp] theorem bytes_append (j : ℕ) (ps qs : List Packet) :
    bytes j (ps ++ qs) = bytes j ps + bytes j qs := by
  simp [bytes]

theorem bytes_perm {ps qs : List Packet} (h : ps.Perm qs) (j : ℕ) : bytes j ps = bytes j qs :=
  ((h.filter _).map _).sum_eq

theorem perm_eraseIdx {ps : List Packet} {i : ℕ} {p : Packet} (h : ps[i]? = some p) :
    ps.Perm (p :: ps.eraseIdx i) := by
  obtain ⟨hi, rfl⟩ := List.getElem?_eq_some_iff.1 h
  exact (List.getElem_cons_eraseIdx_perm hi).symm

end DmaPort

namespace DmaAction

variable {a : DmaAction} {c id j d : ℕ}

/-- The packets that are left when the first `d` bytes are sent. -/
def packetsFrom (a : DmaAction) (c id j d : ℕ) : List Packet :=
  (pieces c (a.addr + d) (a.size - d)).map (a.chunk id j)

theorem packetsFrom_zero : a.packetsFrom c id j 0 = a.packets c id j := rfl

theorem packetsFrom_eq (hc : 0 < c) (hd : d < a.size) :
    a.packetsFrom c id j d = a.chunk id j (a.addr + d, first c (a.addr + d) (a.size - d))
      :: a.packetsFrom c id j (d + first c (a.addr + d) (a.size - d)) := by
  rw [packetsFrom, pieces_eq hc (by omega), map_cons, Nat.add_assoc, Nat.sub_sub]
  rfl

theorem bytes_map_chunk (i : ℕ) (qs : List (ℕ × ℕ)) :
    DmaPort.bytes i (qs.map (a.chunk id j)) = if j = i then (qs.map Prod.snd).sum else 0 := by
  induction qs with
  | nil => simp
  | cons q qs ih =>
    rw [map_cons, DmaPort.bytes_cons, ih]
    by_cases h : j = i <;> simp [chunk, h]

theorem bytes_packetsFrom (hc : 0 < c) (i : ℕ) :
    DmaPort.bytes i (a.packetsFrom c id j d) = if j = i then a.size - d else 0 := by
  rw [packetsFrom, bytes_map_chunk, sum_pieces hc]

end DmaAction

/-- The request state of an action while so many bytes are acknowledged. -/
def DmaReqState.during (a : DmaAction) (id : ℕ) (g : ChunkGenerator) (acked : ℕ) : DmaReqState :=
  { create a id g with numBytes := acked }

namespace DmaPort

variable {s s' s'' : DmaPort} {todo rest : List Packet} {j : ℕ} {a : DmaAction} {st : DmaReqState}
  {n : ℕ} {js : List ℕ} {r : Reply}

/-- The state of the request `j`, of which so many bytes are acknowledged: it is freed when all are. -/
def StateAt (s : DmaPort) (j acked : ℕ) (st : Option DmaReqState) : Prop :=
  st = none ∧ acked = s.sizeOf j
  ∨ ∃ a g, s.actions[j]? = some a ∧ acked < a.size
    ∧ st = some (.during a s.requestorId g acked)

/-- Where the bytes of the actions are when the packets `todo` are not sent. -/
structure Core (s : DmaPort) (todo : List Packet) : Prop where
  line : isPowerOf2 s.cacheLineSize = true
  valid : ∀ a ∈ s.actions, (a.cmd = .readReq ∨ a.cmd = .writeReq) ∧ a.Fits s.cacheLineSize
  plan : s.sent ++ todo = s.plan
  perm : s.sent.Perm (s.answered ++ s.inFlight)
  account : ∀ j, s.acked j + bytes j s.inFlight + bytes j todo = s.sizeOf j
  heap : ∀ j, s.StateAt j (s.acked j) (s.heap j)
  pending : s.pendingCount = s.unfinished.card
  completions : ∀ j, (s.completions.map Prod.fst).count j
    = if s.hasEvent j = true ∧ s.acked j = s.sizeOf j then 1 else 0

theorem sizeOf_eq (h : s.actions[j]? = some a) : s.sizeOf j = a.size := by
  rw [sizeOf, h]
  rfl

theorem mem_plan {p : Packet} (hp : p ∈ s.plan) : ∃ (j : ℕ) (a : DmaAction) (q : ℕ × ℕ), s.actions[j]? = some a
    ∧ q ∈ pieces s.cacheLineSize a.addr a.size ∧ p = a.chunk s.requestorId j q := by
  obtain ⟨⟨a, j⟩, ha, hp⟩ := mem_flatMap.1 hp
  obtain ⟨q, hq, rfl⟩ := mem_map.1 hp
  exact ⟨j, a, q, mem_zipIdx_iff_getElem?.1 ha, hq, rfl⟩

theorem Core.mem_inFlight (h : Core s todo) {p : Packet} (hp : p ∈ s.inFlight) :
    ∃ (j : ℕ) (a : DmaAction) (q : ℕ × ℕ), s.actions[j]? = some a ∧ 0 < q.2 ∧ p = a.chunk s.requestorId j q := by
  have hsent : p ∈ s.sent := h.perm.mem_iff.2 (mem_append_right _ hp)
  obtain ⟨j, a, q, ha, hq, rfl⟩ := mem_plan (h.plan ▸ mem_append_left todo hsent)
  exact ⟨j, a, q, ha, pos_of_mem_pieces (isPowerOf2_pos h.line) _ _ q hq, rfl⟩

/-- What the responses leave alone: the state of a request with packets that are not sent is not
freed, and its generator does not move. -/
structure Acks (todo : List Packet) (s s' : DmaPort) : Prop where
  core : Core s' todo
  transmitList : s'.transmitList = s.transmitList
  inRetry : s'.inRetry = s.inRetry
  sendEvent : s'.sendEvent = s.sendEvent
  curTick : s'.curTick = s.curTick
  actions : s'.actions = s.actions
  config : s'.cacheLineSize = s.cacheLineSize ∧ s'.requestorId = s.requestorId
    ∧ s'.clockPeriod = s.clockPeriod
  gen : ∀ j, 0 < bytes j todo →
    (s'.heap j).map DmaReqState.gen = (s.heap j).map DmaReqState.gen

theorem Acks.refl (h : Core s todo) : Acks todo s s :=
  ⟨h, rfl, rfl, rfl, rfl, rfl, ⟨rfl, rfl, rfl⟩, fun _ _ => rfl⟩

theorem Acks.trans (h : Acks todo s s') (h' : Acks todo s' s'') : Acks todo s s'' where
  core := h'.core
  transmitList := h'.transmitList.trans h.transmitList
  inRetry := h'.inRetry.trans h.inRetry
  sendEvent := h'.sendEvent.trans h.sendEvent
  curTick := h'.curTick.trans h.curTick
  actions := h'.actions.trans h.actions
  config := ⟨h'.config.1.trans h.config.1, h'.config.2.1.trans h.config.2.1,
    h'.config.2.2.trans h.config.2.2⟩
  gen j hj := (h'.gen j hj).trans (h.gen j hj)

theorem Core.drain (h : Core s todo) (x : DrainState) : Core { s with drainState := x } todo :=
  { h with }

theorem Acks.signalIfIdle (h : Acks todo s s') :
    Acks todo s s'.signalIfIdle := by
  unfold DmaPort.signalIfIdle DmaPort.signalDrainDone
  split_ifs
  · exact { h with core := h.core.drain _ }
  · exact h
  · exact h

section Answer

variable {a : DmaAction} {q : ℕ × ℕ} {i : ℕ} {delay : ℕ}

/-- The state when the packet at position `i` is answered, before the request is looked at. -/
def answer (s : DmaPort) (i : ℕ) (p : Packet) : DmaPort :=
  { s with inFlight := s.inFlight.eraseIdx i, answered := s.answered ++ [p] }

theorem acked_answer (s : DmaPort) (i id j j' : ℕ) :
    (s.answer i (a.chunk id j q)).acked j' = s.acked j' + if j = j' then q.2 else 0 := by
  simp [acked, answer, bytes_cons, DmaAction.chunk]

theorem bytes_inFlight (hp : s.inFlight[i]? = some (a.chunk s.requestorId j q)) (j' : ℕ) :
    bytes j' s.inFlight = (if j = j' then q.2 else 0) + bytes j' (s.inFlight.eraseIdx i) := by
  rw [bytes_perm (perm_eraseIdx hp), bytes_cons]
  simp [DmaAction.chunk]

theorem Core.settle (h : Core s todo) (hp : s.inFlight[i]? = some (a.chunk s.requestorId j q))
    {heap' : ℕ → Option DmaReqState} {pendingCount' : ℕ} {completions' : List (ℕ × ℕ)}
    (hother : ∀ j', j' ≠ j → heap' j' = s.heap j')
    (hheap : s.StateAt j (s.acked j + q.2) (heap' j))
    (hpending : pendingCount' = (s.answer i (a.chunk s.requestorId j q)).unfinished.card)
    (hcompletions : ∀ j', (completions'.map Prod.fst).count j' = if s.hasEvent j' = true
      ∧ (s.answer i (a.chunk s.requestorId j q)).acked j' = s.sizeOf j' then 1 else 0) :
    Core { s.answer i (a.chunk s.requestorId j q) with
      heap := heap', pendingCount := pendingCount', completions := completions' } todo where
  line := h.line
  valid := h.valid
  plan := h.plan
  perm := by
    refine h.perm.trans ?_
    change (s.answered ++ s.inFlight).Perm ((s.answered ++ [_]) ++ s.inFlight.eraseIdx i)
    rw [append_assoc]
    exact (perm_eraseIdx hp).append_left s.answered
  account j' := by
    have hacc := h.account j'
    rw [bytes_inFlight hp j'] at hacc
    change (s.answer i _).acked j' + bytes j' (s.inFlight.eraseIdx i) + bytes j' todo = s.sizeOf j'
    rw [acked_answer]
    omega
  heap j' := by
    change s.StateAt j' ((s.answer i _).acked j') (heap' j')
    by_cases hj : j' = j
    · subst hj
      rwa [acked_answer, if_pos rfl]
    · rw [acked_answer, if_neg (Ne.symm hj), hother j' hj]
      exact h.heap j'
  pending := hpending
  completions := hcompletions

theorem unfinished_answer_of_lt (ha : s.actions[j]? = some a) (hlt : s.acked j + q.2 < a.size) :
    (s.answer i (a.chunk s.requestorId j q)).unfinished = s.unfinished := by
  refine Finset.filter_congr fun j' _ => ?_
  rw [acked_answer]
  change _ < s.sizeOf j' ↔ _
  by_cases hj : j = j'
  · subst hj
    rw [if_pos rfl, sizeOf_eq ha]
    omega
  · rw [if_neg hj, Nat.add_zero]

theorem unfinished_answer_of_eq (ha : s.actions[j]? = some a) (heq : s.acked j + q.2 = a.size) :
    (s.answer i (a.chunk s.requestorId j q)).unfinished = s.unfinished.erase j := by
  ext j'
  simp only [unfinished, Finset.mem_erase, Finset.mem_filter, acked_answer]
  change _ ∧ _ < s.sizeOf j' ↔ _
  by_cases hj : j = j'
  · subst hj
    rw [if_pos rfl, sizeOf_eq ha]
    simp only [ne_eq, not_true_eq_false, false_and, iff_false]
    omega
  · rw [if_neg hj, Nat.add_zero]
    exact ⟨fun hm => ⟨Ne.symm hj, hm⟩, fun hm => hm.2⟩

theorem mem_unfinished (ha : s.actions[j]? = some a) (hlt : s.acked j < a.size) :
    j ∈ s.unfinished := by
  rw [unfinished, Finset.mem_filter, Finset.mem_range, sizeOf_eq ha]
  exact ⟨(List.getElem?_eq_some_iff.1 ha).1, hlt⟩

theorem Core.deref (h : Core s todo) (hp : s.inFlight[i]? = some (a.chunk s.requestorId j q))
    (ha : s.actions[j]? = some a) (hq : 0 < q.2) :
    s.acked j + q.2 + bytes j (s.inFlight.eraseIdx i) + bytes j todo = a.size
    ∧ ∃ g, s.heap j = some (.during a s.requestorId g (s.acked j)) := by
  have hacc := h.account j
  rw [bytes_inFlight hp j, if_pos rfl, sizeOf_eq ha] at hacc
  refine ⟨by omega, ?_⟩
  rcases h.heap j with ⟨-, hfull⟩ | ⟨a', g, ha', -, hst⟩
  · rw [sizeOf_eq ha] at hfull
    omega
  · obtain rfl := Option.some.inj (ha.symm.trans ha')
    exact ⟨g, hst⟩

theorem handleResp_of_lt (hst : s.heap j = some st)
    (hlt : addAddr st.numBytes n < st.totBytes) :
    s.handleResp j n delay = .ok (s.received j st (addAddr st.numBytes n)).signalIfIdle := by
  simp only [DmaPort.handleResp, DmaPort.deref, hst, ok_bind, require, hlt.le, hlt.ne', if_true,
    if_false]
  rfl

theorem handleResp_of_eq (hst : s.heap j = some st)
    (heq : addAddr st.numBytes n = st.totBytes) (hpos : s.pendingCount ≠ 0) :
    s.handleResp j n delay = .ok (s.completed j st delay).signalIfIdle := by
  simp only [DmaPort.handleResp, DmaPort.deref, hst, ok_bind, require, heq, le_refl, hpos, ne_eq,
    not_false_eq_true, if_true]
  rfl

theorem handleResp_of_gt (hst : s.heap j = some st)
    (hgt : st.totBytes < addAddr st.numBytes n) :
    s.handleResp j n delay = .error (.assertion "state->totBytes >= state->numBytes") := by
  simp only [DmaPort.handleResp, DmaPort.deref, hst, ok_bind, require, hgt.not_ge, if_false]
  rfl

theorem handleRespPacket_eq {pkt : Packet} (hcmd : pkt.cmd.isResponse = true)
    (hst : pkt.senderState = some j) :
    s.handleRespPacket pkt delay = s.handleResp j pkt.req.size delay := by
  rw [handleRespPacket, require_of hcmd, ok_bind, hst]

theorem Core.count_completed (h : Core s todo) (ha : s.actions[j]? = some a)
    (heq : s.acked j + q.2 = a.size) (hq : 0 < q.2) (j' : ℕ) {t : ℕ} :
    ((if a.event then s.completions ++ [(j, t)] else s.completions).map Prod.fst).count j'
      = if s.hasEvent j' = true ∧ (s.answer i (a.chunk s.requestorId j q)).acked j' = s.sizeOf j'
        then 1 else 0 := by
  have hold := h.completions j'
  have hev : s.hasEvent j = a.event := by
    rw [hasEvent, ha]
    rfl
  rw [acked_answer]
  by_cases hj : j = j'
  · subst hj
    rw [sizeOf_eq ha, if_neg (by omega)] at hold
    rw [if_pos rfl, sizeOf_eq ha, heq, hev]
    cases a.event <;> simp [hold]
  · rw [if_neg hj, Nat.add_zero, ← hold]
    cases a.event <;> simp [hj]

theorem Core.handleResp (h : Core s todo)
    (hp : s.inFlight[i]? = some (a.chunk s.requestorId j q)) (ha : s.actions[j]? = some a)
    (hq : 0 < q.2) :
    Ends ((s.answer i (a.chunk s.requestorId j q)).handleResp j q.2 0) (Acks todo s) := by
  obtain ⟨hsize, g, hst⟩ := h.deref hp ha hq
  have hfits := (h.valid a (mem_of_getElem? ha)).2
  have hsum : addAddr (s.acked j) q.2 = s.acked j + q.2 := addAddr_eq (by have := hfits.2.1; omega)
  have hst' : (s.answer i (a.chunk s.requestorId j q)).heap j
    = some (.during a s.requestorId g (s.acked j)) := hst
  have hother : ∀ {x : Option DmaReqState} (j' : ℕ), j' ≠ j →
      update s.heap j x j' = s.heap j' := fun j' hj => update_of_ne hj _ _
  rcases Nat.lt_or_ge (s.acked j + q.2) a.size with hlt | hge
  · have hlt' : addAddr (DmaReqState.during a s.requestorId g (s.acked j)).numBytes q.2 < a.size :=
      hsum.trans_lt hlt
    refine .of_ok (handleResp_of_lt hst' hlt') (Acks.signalIfIdle ?_)
    refine ⟨h.settle hp hother (.inr ⟨a, g, ha, hlt, ?_⟩) ?_ fun j' => ?_, rfl, rfl, rfl, rfl, rfl,
      ⟨rfl, rfl, rfl⟩, fun j' hj' => ?_⟩
    · rw [update_self, ← hsum]
      rfl
    · rw [unfinished_answer_of_lt ha hlt]
      exact h.pending
    · rw [acked_answer]
      refine (h.completions j').trans (if_congr (and_congr_right fun _ => ?_) rfl rfl)
      split_ifs with hj
      · subst hj
        rw [sizeOf_eq ha]
        omega
      · rw [Nat.add_zero]
    · change (update s.heap j _ j').map _ = _
      by_cases hj : j' = j
      · subst hj
        rw [update_self, hst]
        rfl
      · rw [hother j' hj]
  · have heq : s.acked j + q.2 = a.size := by omega
    have heq' : addAddr (DmaReqState.during a s.requestorId g (s.acked j)).numBytes q.2 = a.size :=
      hsum.trans heq
    have hmem := mem_unfinished ha (show s.acked j < a.size by omega)
    have hpos : s.pendingCount ≠ 0 := by
      rw [h.pending]
      exact Finset.card_ne_zero_of_mem hmem
    refine .of_ok (handleResp_of_eq hst' heq' hpos) (Acks.signalIfIdle ?_)
    refine ⟨h.settle hp hother (.inl ⟨update_self .., ?_⟩) ?_ fun j' => ?_, rfl, rfl, rfl,
      rfl, rfl, ⟨rfl, rfl, rfl⟩, fun j' hj' => ?_⟩
    · rw [sizeOf_eq ha, heq]
    · rw [unfinished_answer_of_eq ha heq, Finset.card_erase_of_mem hmem, ← h.pending]
      rfl
    · exact h.count_completed ha heq hq j'
    · change (update s.heap j _ j').map _ = _
      rw [hother j' fun hj => ?_]
      subst hj
      omega

theorem isResponse_responseCommand {c : MemCmd} (h : c = .readReq ∨ c = .writeReq) :
    c.responseCommand.isResponse = true := by
  rcases h with rfl | rfl <;> rfl

theorem Core.recvTimingResp (h : Core s todo) {b : Answer} (hb : b.Unmodified) :
    EndsUnless .notScheduled (s.recvTimingResp b) (Acks todo s) := by
  unfold DmaPort.recvTimingResp
  cases hp : s.inFlight[b.index]? with
  | none => exact rfl
  | some p =>
    obtain ⟨j, a, q, ha, hq, rfl⟩ := h.mem_inFlight (mem_of_getElem? hp)
    have hcmd : (a.chunk s.requestorId j q).cmd.responseCommand.isResponse = true :=
      isResponse_responseCommand (h.valid a (mem_of_getElem? ha)).1
    obtain ⟨s', hs', hacks⟩ := (h.handleResp hp ha hq).exists
    have hpass : ¬(b.cacheResponding = true ∧ b.hasSharers = false) := by
      rintro ⟨hc, hn⟩
      simp [hb hc] at hn
    simp only [require, hpass, not_false_eq_true, or_true, if_true, ok_bind, handleRespPacket]
    rw [if_pos hcmd, ok_bind]
    change EndsUnless _ ((s.answer b.index _).handleResp j q.2 0) _
    rwa [hs']

theorem Core.answers (h : Core s todo) {bs : List Answer} (hb : ∀ b ∈ bs, b.Unmodified) :
    EndsUnless .notScheduled (run DmaPort.recvTimingResp s bs) (Acks todo s) :=
  EndsUnless.run (fun _ _ hs hb => (hs.core.recvTimingResp hb).mono fun _ => hs.trans) hb (.refl h)

end Answer

/-- What the generators of the request states still give. -/
def QueuedIn (actions : List DmaAction) (heap : ℕ → Option DmaReqState) (c id : ℕ) :
    List ℕ → List Packet → Prop
  | [], todo => todo = []
  | j :: js, todo => ∃ (a : DmaAction) (g : ChunkGenerator) (d : ℕ) (rest : List Packet),
    actions[j]? = some a ∧ (heap j).map DmaReqState.gen = some g ∧ g.At c a.addr a.size d
    ∧ todo = a.packetsFrom c id j d ++ rest ∧ QueuedIn actions heap c id js rest

def Queued (s : DmaPort) : List ℕ → List Packet → Prop :=
  QueuedIn s.actions s.heap s.cacheLineSize s.requestorId

section QueuedIn

variable {actions : List DmaAction} {heap heap' : ℕ → Option DmaReqState} {c id : ℕ}

theorem QueuedIn.bytes_pos (hc : 0 < c) : ∀ {js : List ℕ} {todo : List Packet},
    QueuedIn actions heap c id js todo → ∀ j ∈ js, 0 < bytes j todo
  | [], _, _, j, hj => nomatch hj
  | i :: js, todo, ⟨a, g, d, rest, _, _, hat, htodo, hrest⟩, j, hj => by
    rw [htodo, bytes_append]
    rcases mem_cons.1 hj with rfl | hj
    · have := hat.lt
      rw [DmaAction.bytes_packetsFrom hc, if_pos rfl]
      omega
    · exact Nat.add_pos_right _ (bytes_pos hc hrest j hj)

theorem QueuedIn.congr : ∀ {js : List ℕ} {todo : List Packet}, QueuedIn actions heap c id js todo →
    (∀ j ∈ js, (heap' j).map DmaReqState.gen = (heap j).map DmaReqState.gen) →
      QueuedIn actions heap' c id js todo
  | [], _, h, _ => h
  | i :: js, todo, ⟨a, g, d, rest, ha, hg, hat, htodo, hrest⟩, hgen =>
    ⟨a, g, d, rest, ha, by rw [hgen i mem_cons_self, hg], hat, htodo,
      hrest.congr fun j hj => hgen j (mem_cons_of_mem _ hj)⟩

end QueuedIn

/-- The engine between two operations: it waits for a retry or for its event as long as there is
something to send. -/
structure Inv (s : DmaPort) (todo : List Packet) : Prop where
  core : Core s todo
  queued : Queued s s.transmitList todo
  nodup : s.transmitList.Nodup
  period : 0 < s.clockPeriod
  waits : s.transmitList ≠ [] ↔ s.inRetry.isSome ∨ s.sendEvent.isSome
  retry : ∀ p ∈ s.inRetry, todo.head? = some p ∧ s.sendEvent = none
  future : ∀ t ∈ s.sendEvent, s.curTick ≤ t

theorem clockEdge_le (h : 0 < s.clockPeriod) : s.curTick ≤ s.clockEdge := by
  have hdiv := Nat.div_add_mod (s.curTick + (s.clockPeriod - 1)) s.clockPeriod
  have hmod := Nat.mod_lt (s.curTick + (s.clockPeriod - 1)) h
  rw [clockEdge, Nat.mul_comm]
  omega

theorem createPacket_during {g : ChunkGenerator} {c d id : ℕ}
    (hat : g.At c a.addr a.size d) :
    (DmaReqState.during a id g n).createPacket j = a.chunk id j (a.addr + d, g.curSize) := by
  have haddr : g.addr = a.addr + d := hat.curAddr
  have hhead := hat.isHead
  simp only [DmaReqState.createPacket, DmaReqState.during, DmaReqState.create, DmaAction.chunk,
    Packet.ofRequest, hat.complete, haddr, hhead, ChunkGenerator.size, Nat.add_sub_cancel_left]
  cases a.isDdio <;> rfl

theorem Core.accept {p : Packet} (h : Core s (p :: todo)) :
    Core { s with inRetry := none, sent := s.sent ++ [p], inFlight := s.inFlight ++ [p] } todo :=
  { h with
    plan := by
      rw [append_assoc]
      exact h.plan
    perm := by
      rw [← append_assoc]
      exact h.perm.append_right [p]
    account := fun j => by
      have := h.account j
      rw [bytes_cons] at this
      change s.acked j + bytes j (s.inFlight ++ [p]) + bytes j todo = s.sizeOf j
      rw [bytes_append, bytes_cons, bytes_nil]
      omega }

theorem Core.setGen (h : Core s todo) (hst : s.heap j = some st)
    (g : ChunkGenerator) :
    Core { s with heap := update s.heap j (some { st with gen := g }) } todo :=
  { h with
    heap := fun j' => by
      change s.StateAt j' (s.acked j') (update s.heap j _ j')
      by_cases hj : j' = j
      · subst hj
        rw [update_self]
        rcases h.heap j' with ⟨hnone, -⟩ | ⟨a, g', ha, hlt, hsome⟩
        · simp [hst] at hnone
        · rw [hst] at hsome
          obtain rfl := Option.some.inj hsome
          exact .inr ⟨a, g, ha, hlt, rfl⟩
      · rw [update_of_ne hj]
        exact h.heap j' }

theorem Core.front (h : Core s todo) (hq : Queued s (j :: js) todo) :
    ∃ a g d rest, g.At s.cacheLineSize a.addr a.size d ∧ Queued s js rest
      ∧ s.actions[j]? = some a ∧ s.heap j = some (.during a s.requestorId g (s.acked j))
      ∧ todo = (DmaReqState.during a s.requestorId g (s.acked j)).createPacket j
        :: (a.packetsFrom s.cacheLineSize s.requestorId j (d + g.curSize) ++ rest) := by
  obtain ⟨a, g, d, rest, ha, hg, hat, htodo, hrest⟩ := hq
  refine ⟨a, g, d, rest, hat, hrest, ha, ?_, ?_⟩
  · rcases h.heap j with ⟨hnone, -⟩ | ⟨a', g', ha', -, hst⟩
    · simp [hnone] at hg
    · obtain rfl := Option.some.inj (ha.symm.trans ha')
      rw [hst] at hg ⊢
      obtain rfl : g' = g := Option.some.inj hg
      rfl
  · rw [htodo, DmaAction.packetsFrom_eq (isPowerOf2_pos h.line) hat.lt, createPacket_during hat,
      hat.curSize]
    rfl

/-- The engine while it holds no packet and its event is not scheduled. -/
structure Idle (s : DmaPort) (todo : List Packet) : Prop where
  core : Core s todo
  queued : Queued s s.transmitList todo
  nodup : s.transmitList.Nodup
  period : 0 < s.clockPeriod
  sendEvent : s.sendEvent = none

theorem Core.clearRetry (h : Core s todo) (x : Option Packet) : Core { s with inRetry := x } todo :=
  { h with }

theorem Acks.queued (h : Acks todo s s') (hq : Queued s js rest)
    (hpos : ∀ j ∈ js, 0 < bytes j todo) : Queued s' js rest := by
  unfold Queued at hq ⊢
  rw [h.actions, h.config.1, h.config.2.1]
  exact hq.congr fun j hj => h.gen j (hpos j hj)

theorem Idle.reject (h : Idle s todo) (hne : s.transmitList ≠ []) {p : Packet}
    (hp : todo.head? = some p) (hs' : Acks todo { s with inRetry := none } s') :
    Inv { s' with inRetry := some p } todo where
  core := hs'.core.clearRetry _
  queued := by
    change Queued s' s'.transmitList todo
    rw [hs'.transmitList]
    exact hs'.queued h.queued (QueuedIn.bytes_pos (isPowerOf2_pos h.core.line) h.queued)
  nodup := hs'.transmitList ▸ h.nodup
  period := hs'.config.2.2 ▸ h.period
  waits := by
    change s'.transmitList ≠ [] ↔ _
    rw [hs'.transmitList]
    exact iff_of_true hne (.inl rfl)
  retry q hq := by
    obtain rfl := Option.some.inj hq
    exact ⟨hp, hs'.sendEvent.trans h.sendEvent⟩
  future t ht := by
    change t ∈ s'.sendEvent at ht
    simp [hs'.sendEvent.trans h.sendEvent] at ht

theorem Acks.advanceList {g : ChunkGenerator} {d : ℕ}
    (hs' : Acks todo s s')
    (htodo : todo = a.packetsFrom s.cacheLineSize s.requestorId j (d + g.curSize) ++ rest)
    (hl : s.transmitList = j :: js) (ha : s.actions[j]? = some a)
    (hat : g.At s.cacheLineSize a.addr a.size d)
    (hg : (s.heap j).map DmaReqState.gen = some g) (hrest : Queued s js rest)
    (hnd : s.transmitList.Nodup) (hper : 0 < s.clockPeriod) (hev : s.sendEvent = none) :
    Ends (s'.advanceList j g.last) fun s'' => Idle s'' todo ∧ s''.inRetry = s.inRetry := by
  have hc : 0 < s.cacheLineSize := hs'.config.1 ▸ isPowerOf2_pos hs'.core.line
  have hnd' := hnd
  rw [hl] at hnd'
  have hnotin : j ∉ js := (nodup_cons.1 hnd').1
  have hq : Queued s' js rest := hs'.queued hrest fun i hi => by
    rw [htodo, bytes_append]
    exact Nat.add_pos_right _ (QueuedIn.bytes_pos hc hrest i hi)
  unfold DmaPort.advanceList
  cases hlast : g.last with
  | true =>
    rw [if_pos rfl]
    have hend : a.packetsFrom s.cacheLineSize s.requestorId j (d + g.curSize) = [] := by
      rw [hat.last_iff.1 hlast, DmaAction.packetsFrom, Nat.sub_self, pieces_zero]
      rfl
    have hcore := hs'.core
    rw [hend, nil_append] at htodo
    rw [htodo] at hcore ⊢
    have htail : s'.transmitList.tail = js := by rw [hs'.transmitList, hl, tail_cons]
    refine ⟨⟨{ hcore with }, ?_, ?_, hs'.config.2.2 ▸ hper, hs'.sendEvent.trans hev⟩,
      hs'.inRetry⟩
    · change Queued s' s'.transmitList.tail rest
      rwa [htail]
    · change s'.transmitList.tail.Nodup
      rw [htail]
      exact (nodup_cons.1 hnd').2
  | false =>
    rw [if_neg Bool.false_ne_true]
    obtain ⟨-, hnext⟩ := hat.next hc hlast
    have hgen : (s'.heap j).map DmaReqState.gen = some g := by
      rw [hs'.gen j ?_, hg]
      have := hnext.lt
      rw [htodo, bytes_append, DmaAction.bytes_packetsFrom hc, if_pos rfl]
      omega
    obtain ⟨st, hst, rfl⟩ := Option.map_eq_some_iff.1 hgen
    simp only [DmaPort.deref, hst, ok_bind]
    refine ⟨⟨hs'.core.setGen hst _, ?_, hs'.transmitList ▸ hnd, hs'.config.2.2 ▸ hper,
      hs'.sendEvent.trans hev⟩, hs'.inRetry⟩
    change QueuedIn s'.actions (update s'.heap j (some { st with gen := st.gen.next.2 }))
      s'.cacheLineSize s'.requestorId s'.transmitList _
    rw [hs'.transmitList, hl, hs'.actions, hs'.config.1, hs'.config.2.1]
    refine ⟨a, st.gen.next.2, d + st.gen.curSize, rest, ha, ?_, hnext, htodo, ?_⟩
    · rw [update_self]
      rfl
    · unfold Queued at hq
      rw [hs'.actions, hs'.config.1, hs'.config.2.1] at hq
      refine hq.congr fun i hi => ?_
      have hne : i ≠ j := fun he => hnotin (he ▸ hi)
      rw [update_of_ne hne]

theorem Idle.scheduleSend (h : Idle s todo) (hir : s.inRetry = none) :
    EndsUnless .notScheduled s.scheduleSend fun s' => Inv s' todo := by
  unfold DmaPort.scheduleSend
  split_ifs with hl
  · refine ⟨h.core, h.queued, h.nodup, h.period, ?_, fun p hp => ?_, fun t ht => ?_⟩
    · simp [hl, hir, h.sendEvent]
    · simp [hir] at hp
    · simp [h.sendEvent] at ht
  · rw [schedule_ok.2 ⟨clockEdge_le h.period, h.sendEvent, rfl⟩, ok_bind]
    refine ⟨{ h.core with }, h.queued, h.nodup, h.period, ?_, fun p hp => ?_,
      fun t ht => ?_⟩
    · simp [hl]
    · simp [hir] at hp
    · obtain rfl := Option.some.inj ht
      exact clockEdge_le h.period

theorem Idle.trySendTimingReq (h : Idle s todo) (hne : s.transmitList ≠ [])
    (hret : ∀ p ∈ s.inRetry, todo.head? = some p) (hr : ∀ b ∈ r.answers, b.Unmodified) :
    EndsUnless .notScheduled (s.trySendTimingReq r) fun s' => ∃ todo', Inv s' todo' := by
  obtain ⟨j, js, hl⟩ := exists_cons_of_ne_nil hne
  have hqueued := h.queued
  rw [hl] at hqueued
  obtain ⟨a, g, d, rest, hat, hrest, ha, hst, htodo⟩ := h.core.front hqueued
  generalize hpkt : (DmaReqState.during a s.requestorId g (s.acked j)).createPacket j = p at htodo
  have hhead : todo.head? = some p := by rw [htodo]; rfl
  have hget : s.inRetry.getD p = p := by
    cases hir : s.inRetry with
    | none => rfl
    | some p' =>
      have := hret p' hir
      rw [hhead] at this
      exact (Option.some.inj this).symm
  rw [DmaPort.trySendTimingReq, hl]
  simp only [sendFront, DmaPort.deref, hst, ok_bind, hpkt, hget, sendTimingReq]
  cases hacc : r.accept with
  | false =>
    simp only [Bool.false_eq_true, if_false]
    refine ((h.core.clearRetry none).answers hr).bind fun s' hs' => ?_
    exact ⟨todo, h.reject hne hhead hs'⟩
  | true =>
    simp only [if_true]
    rw [htodo] at h
    refine (h.core.accept.answers hr).bind fun s' hs' => ?_
    obtain ⟨s'', hs'', hidle, hir⟩ := (hs'.advanceList rfl hl ha hat
      (congrArg (Option.map DmaReqState.gen) hst) hrest h.nodup h.period h.sendEvent).exists
    change EndsUnless _ (s'.advanceList j g.last >>= _) _
    rw [hs'', ok_bind]
    exact (hidle.scheduleSend hir).mono fun _ hs => ⟨_, hs⟩

section Action

variable {a : DmaAction} {g : ChunkGenerator}

/-- The state when an action is put on the transmit list, before anything is sent. -/
def enqueue (s : DmaPort) (a : DmaAction) (g : ChunkGenerator) : DmaPort :=
  { s with
    transmitList := s.transmitList ++ [s.actions.length]
    heap := update s.heap s.actions.length (some (.create a s.requestorId g))
    pendingCount := s.pendingCount + 1
    actions := s.actions ++ [a] }

theorem getElem?_actions_enqueue (j : ℕ) : (s.enqueue a g).actions[j]?
    = if j = s.actions.length then some a else s.actions[j]? := by
  change (s.actions ++ [a])[j]? = _
  rw [getElem?_append]
  split_ifs with h h' h'
  · omega
  · rfl
  · simp [h']
  · rw [getElem?_eq_none (by simp; omega), getElem?_eq_none (by omega)]

theorem sizeOf_enqueue (j : ℕ) :
    (s.enqueue a g).sizeOf j = if j = s.actions.length then a.size else s.sizeOf j := by
  rw [sizeOf, getElem?_actions_enqueue]
  split_ifs <;> rfl

theorem sizeOf_length : s.sizeOf s.actions.length = 0 := by
  rw [sizeOf, getElem?_eq_none le_rfl]
  rfl

theorem plan_enqueue : (s.enqueue a g).plan
    = s.plan ++ a.packets s.cacheLineSize s.requestorId s.actions.length := by
  simp [plan, enqueue, zipIdx_append]

theorem Core.acked_length (h : Core s todo) : s.acked s.actions.length = 0 := by
  have := h.account s.actions.length
  rw [sizeOf_length] at this
  omega

theorem Core.unfinished_enqueue (h : Core s todo) (ha : 0 < a.size) :
    (s.enqueue a g).unfinished = insert s.actions.length s.unfinished := by
  have hlen : (s.enqueue a g).actions.length = s.actions.length + 1 := by simp [enqueue]
  ext j
  simp only [unfinished, hlen, Finset.mem_insert, Finset.mem_filter, Finset.mem_range,
    sizeOf_enqueue]
  change _ ∧ s.acked j < _ ↔ _
  by_cases hj : j = s.actions.length
  · subst hj
    simp [h.acked_length, ha]
  · simp only [hj, if_false, false_or]
    exact and_congr_left fun _ => ⟨fun h => by omega, fun h => by omega⟩

theorem Core.enqueue (h : Core s todo) (hcmd : a.cmd = .readReq ∨ a.cmd = .writeReq)
    (hfits : a.Fits s.cacheLineSize) : Core (s.enqueue a g)
      (todo ++ a.packets s.cacheLineSize s.requestorId s.actions.length) where
  line := h.line
  valid b hb := by
    rcases mem_append.1 hb with hb | hb
    · exact h.valid b hb
    · obtain rfl := mem_singleton.1 hb
      exact ⟨hcmd, hfits⟩
  plan := by
    rw [plan_enqueue, ← h.plan, append_assoc]
    rfl
  perm := h.perm
  account j := by
    have hacc := h.account j
    rw [sizeOf_enqueue, bytes_append, ← DmaAction.packetsFrom_zero,
      DmaAction.bytes_packetsFrom (isPowerOf2_pos h.line), Nat.sub_zero]
    change s.acked j + bytes j s.inFlight + _ = _
    by_cases hj : j = s.actions.length
    · subst hj
      rw [sizeOf_length] at hacc
      rw [if_pos rfl, if_pos rfl]
      omega
    · rw [if_neg (Ne.symm hj), if_neg hj]
      omega
  heap j := by
    change StateAt _ j (s.acked j) (update s.heap _ _ j)
    by_cases hj : j = s.actions.length
    · subst hj
      rw [update_self, h.acked_length]
      exact .inr ⟨a, g, by rw [getElem?_actions_enqueue, if_pos rfl], hfits.1, rfl⟩
    · rw [update_of_ne hj, StateAt, sizeOf_enqueue, getElem?_actions_enqueue, if_neg hj,
        if_neg hj]
      exact h.heap j
  pending := by
    rw [h.unfinished_enqueue hfits.1, Finset.card_insert_of_notMem, ← h.pending]
    · rfl
    · simp [unfinished]
  completions j := by
    refine (h.completions j).trans (if_congr ?_ rfl rfl)
    change _ ↔ _ ∧ s.acked j = _
    rw [sizeOf_enqueue, hasEvent, hasEvent, getElem?_actions_enqueue]
    by_cases hj : j = s.actions.length
    · subst hj
      have := hfits.1
      simp only [getElem?_eq_none le_rfl, if_true, h.acked_length]
      simp only [Option.map_none, Option.getD_none, Bool.false_eq_true, false_and, false_iff]
      omega
    · rw [if_neg hj, if_neg hj]

theorem QueuedIn.lt_length {actions : List DmaAction} {heap : ℕ → Option DmaReqState} {c id : ℕ} :
    ∀ {js : List ℕ} {todo : List Packet}, QueuedIn actions heap c id js todo →
      ∀ j ∈ js, j < actions.length
  | [], _, _, j, hj => nomatch hj
  | i :: js, todo, ⟨a, g, d, rest, ha, _, _, _, hrest⟩, j, hj => by
    rcases mem_cons.1 hj with rfl | hj
    · exact (List.getElem?_eq_some_iff.1 ha).1
    · exact hrest.lt_length j hj

theorem QueuedIn.enqueue (hat : g.At s.cacheLineSize a.addr a.size 0) : ∀ {js : List ℕ}
    {todo : List Packet}, QueuedIn s.actions s.heap s.cacheLineSize s.requestorId js todo →
      Queued (s.enqueue a g) (js ++ [s.actions.length])
        (todo ++ a.packets s.cacheLineSize s.requestorId s.actions.length)
  | [], todo, h => by
    rw [show todo = [] from h]
    refine ⟨a, g, 0, [], by rw [getElem?_actions_enqueue, if_pos rfl], ?_, hat, ?_, rfl⟩
    · change (update s.heap _ _ _).map _ = _
      rw [update_self]
      rfl
    · rw [append_nil]
      rfl
  | j :: js, todo, ⟨b, g', d, rest, hb, hg, hat', htodo, hrest⟩ => by
    have hj : j ≠ s.actions.length := (List.getElem?_eq_some_iff.1 hb).1.ne
    refine ⟨b, g', d, _, by rw [getElem?_actions_enqueue, if_neg hj, hb], ?_, hat', ?_,
      hrest.enqueue hat⟩
    · change (update s.heap _ _ _).map _ = _
      rw [update_of_ne hj, hg]
    · rw [htodo, append_assoc]
      rfl

theorem Inv.head?_append (h : Inv s todo) (ps : List Packet) {p : Packet} (hp : p ∈ s.inRetry) :
    (todo ++ ps).head? = some p := by
  rw [List.head?_append, (h.retry p hp).1]
  rfl

theorem sendDma_of_waits (hne : s.transmitList ≠ [])
    (hw : s.inRetry.isSome ∨ s.sendEvent.isSome) : s.sendDma r = .ok s := by
  rw [sendDma, require_of hne, ok_bind, if_pos hw]
  rfl

theorem sendDma_of_idle (hne : s.transmitList ≠ [])
    (hw : ¬(s.inRetry.isSome ∨ s.sendEvent.isSome)) : s.sendDma r = s.trySendTimingReq r := by
  rw [sendDma, require_of hne, ok_bind, if_neg hw]

theorem Inv.ddioActionAdq (h : Inv s todo) (hcmd : a.cmd = .readReq ∨ a.cmd = .writeReq)
    (hfits : a.Fits s.cacheLineSize) (hr : ∀ b ∈ r.answers, b.Unmodified) :
    EndsUnless .notScheduled (s.ddioActionAdq a r) fun s' => ∃ todo', Inv s' todo' := by
  obtain ⟨g, hg, hat⟩ := ChunkGenerator.create_at h.core.line hfits.1 hfits.2.1 hfits.2.2
  have hcore := h.core.enqueue (g := g) hcmd hfits
  have hqueued : Queued (s.enqueue a g) (s.transmitList ++ [s.actions.length]) _ :=
    QueuedIn.enqueue hat h.queued
  have hne : (s.enqueue a g).transmitList ≠ [] := by simp [DmaPort.enqueue]
  have hnd : (s.transmitList ++ [s.actions.length]).Nodup := by
    rw [nodup_append]
    refine ⟨h.nodup, by simp, fun j hj k hk => ?_⟩
    rw [mem_singleton.1 hk]
    exact (QueuedIn.lt_length h.queued j hj).ne
  unfold DmaPort.ddioActionAdq
  rw [hg, ok_bind]
  change EndsUnless _ ((s.enqueue a g).sendDma r) _
  by_cases hwait : s.inRetry.isSome ∨ s.sendEvent.isSome
  · rw [sendDma_of_waits hne hwait]
    refine ⟨_, hcore, hqueued, hnd, h.period, iff_of_true hne hwait, fun p hp => ?_, h.future⟩
    exact ⟨h.head?_append _ hp, (h.retry p hp).2⟩
  · rw [sendDma_of_idle hne hwait]
    obtain ⟨hir, hev⟩ := not_or.1 hwait
    refine Idle.trySendTimingReq ⟨hcore, hqueued, hnd, h.period, ?_⟩ hne
      (fun p hp => h.head?_append _ hp) hr
    rwa [Bool.not_eq_true, Option.isSome_eq_false_iff, Option.isNone_iff_eq_none] at hev

end Action

theorem Inv.acks (h : Inv s todo) (hs' : Acks todo s s') : Inv s' todo where
  core := hs'.core
  queued := by
    rw [hs'.transmitList]
    exact hs'.queued h.queued (QueuedIn.bytes_pos (isPowerOf2_pos h.core.line) h.queued)
  nodup := hs'.transmitList ▸ h.nodup
  period := hs'.config.2.2 ▸ h.period
  waits := by
    rw [hs'.transmitList, hs'.inRetry, hs'.sendEvent]
    exact h.waits
  retry := by
    rw [hs'.inRetry, hs'.sendEvent]
    exact h.retry
  future := by
    rw [hs'.sendEvent, hs'.curTick]
    exact h.future

theorem Inv.drain (h : Inv s todo) (x : DrainState) : Inv { s with drainState := x } todo :=
  { h with core := h.core.drain x }

theorem Core.clearSend (h : Core s todo) : Core { s with sendEvent := none } todo :=
  { h with }

theorem Inv.step (h : Inv s todo) {o : Op} (ho : s.Allowed o) :
    EndsUnless .notScheduled (s.step o) fun s' => ∃ todo', Inv s' todo' := by
  cases o with
  | action a r => exact h.ddioActionAdq ho.1 ho.2.1 ho.2.2
  | sendEvent r =>
    simp only [DmaPort.step]
    split_ifs with hev
    · have hne : s.transmitList ≠ [] := h.waits.2 (.inr (by rw [hev]; rfl))
      have hir : s.inRetry = none := by
        cases hir : s.inRetry with
        | none => rfl
        | some p =>
          have := (h.retry p hir).2
          simp [hev] at this
      have hsend : sendDma { s with sendEvent := none } r
          = trySendTimingReq { s with sendEvent := none } r := sendDma_of_idle hne (by simp [hir])
      rw [hsend]
      refine Idle.trySendTimingReq ⟨h.core.clearSend, h.queued, h.nodup, h.period, rfl⟩ hne
        (fun p hp => ?_) ho
      exact (h.retry p hp).1
    · exact rfl
  | recvReqRetry r =>
    simp only [DmaPort.step]
    split_ifs with hir
    · obtain ⟨p, hp⟩ := Option.isSome_iff_exists.1 hir
      have hne := h.waits.2 (.inl hir)
      rw [DmaPort.recvReqRetry, require_of hne, ok_bind]
      exact Idle.trySendTimingReq { h with sendEvent := (h.retry p hp).2 } hne
        (fun p hp => (h.retry p hp).1) ho
    · exact rfl
  | recvTimingResp a => exact (h.core.recvTimingResp ho).mono fun s' hs' => ⟨todo, h.acks hs'⟩
  | advance tick =>
    simp only [DmaPort.step]
    split_ifs with ht
    · exact ⟨todo, { h.core with }, h.queued, h.nodup, h.period, h.waits, h.retry, ht.2⟩
    · exact rfl
  | drain =>
    refine ⟨todo, ?_⟩
    unfold DmaPort.drain
    split_ifs <;> exact h.drain _
  | drainResume => exact ⟨todo, h.drain _⟩

theorem core_init {cacheLineSize requestorId clockPeriod curTick : ℕ}
    (hline : isPowerOf2 cacheLineSize = true) :
    Core (init cacheLineSize requestorId clockPeriod curTick) [] where
  line := hline
  valid := by simp [init]
  plan := rfl
  perm := .refl _
  account j := by simp [init, acked, sizeOf]
  heap j := .inl ⟨rfl, by simp [init, acked, sizeOf]⟩
  pending := (Finset.card_eq_zero.2 (Finset.filter_eq_empty_iff.2 (by simp [init]))).symm
  completions j := by simp [init, hasEvent]

theorem inv_init {cacheLineSize requestorId clockPeriod curTick : ℕ}
    (hline : isPowerOf2 cacheLineSize = true) (hper : 0 < clockPeriod) :
    Inv (init cacheLineSize requestorId clockPeriod curTick) [] :=
  ⟨core_init hline, rfl, .nil, hper, by simp [init], by simp [init], by simp [init]⟩

/-- In every run the packets that were taken are the first ones of the plan, which has each chunk of
each action once, and each is answered or in flight. The pending count is the number of actions with
bytes that are not acknowledged, and an action is completed once, when all its bytes are. No
operation stops the simulation, and when there is nothing left to do everything is completed. -/
theorem dma_completed {cacheLineSize requestorId clockPeriod curTick : ℕ} {ops : List Op}
    (hline : isPowerOf2 cacheLineSize = true) (hper : 0 < clockPeriod)
    (hC : Admits step Allowed (init cacheLineSize requestorId clockPeriod curTick) ops)
    (h : run step (init cacheLineSize requestorId clockPeriod curTick) ops = .ok s) :
    s.sent <+: s.plan
    ∧ s.sent.Perm (s.answered ++ s.inFlight)
    ∧ s.pendingCount = s.unfinished.card
    ∧ (∀ j, s.acked j ≤ s.sizeOf j ∧ (s.completions.map Prod.fst).count j
        = if s.hasEvent j = true ∧ s.acked j = s.sizeOf j then 1 else 0)
    ∧ (∀ o e, s.Allowed o → s.step o = .error e → e = .notScheduled)
    ∧ (s.inRetry = none → s.sendEvent = none → s.inFlight = [] →
        s.sent = s.plan ∧ ∀ j, s.acked j = s.sizeOf j) := by
  obtain ⟨todo, hinv⟩ : ∃ todo, Inv s todo :=
    Admits.inv (I := fun s => ∃ todo, Inv s todo) (fun _ _ _ ⟨_, hs⟩ hC h => (hs.step hC).result h) hC
      ⟨[], inv_init hline hper⟩ h
  have hcore := hinv.core
  refine ⟨⟨todo, hcore.plan⟩, hcore.perm, hcore.pending, fun j => ⟨?_, hcore.completions j⟩,
    fun o e ho he => (hinv.step ho).error he, fun hir hev hfl => ?_⟩
  · have := hcore.account j
    omega
  · have hl : s.transmitList = [] := by
      by_contra hne
      have := hinv.waits.1 hne
      simp [hir, hev] at this
    have htodo : todo = [] := by
      have := hinv.queued
      rwa [hl] at this
    refine ⟨?_, fun j => ?_⟩
    · rw [← hcore.plan, htodo, append_nil]
    · have := hcore.account j
      rw [hfl, htodo] at this
      exact this

/-- A DMA write of `size` bytes at `addr`, with a completion event. -/
def writeAction (addr size : ℕ) : DmaAction :=
  ⟨.writeReq, addr, size, true, true, 0, 0, 5, {}, true, 1⟩

/-- The first of two actions is rejected at first, and the second one is completed before it. -/
def twoOps : List Op :=
  [.action (writeAction 48 80) ⟨false, []⟩, .action (writeAction 0 4) ⟨true, []⟩,
    .recvReqRetry ⟨true, []⟩, .advance 10, .sendEvent ⟨true, [⟨1, false, false⟩]⟩, .advance 20,
    .sendEvent ⟨true, [⟨1, false, false⟩]⟩, .recvTimingResp ⟨0, false, false⟩]

theorem dma_completed_twoOps : ∃ s : DmaPort, run step (init 64 7 10 0) twoOps = .ok s
    ∧ s.completions = [(1, 25), (0, 25)] ∧ s.sent = s.plan ∧ s.pendingCount = 0 := by
  have hend : Ends (run step (init 64 7 10 0) twoOps) fun s => s.completions = [(1, 25), (0, 25)]
      ∧ s.inRetry = none ∧ s.sendEvent = none ∧ s.inFlight = [] ∧ s.pendingCount = 0 := by
    decide
  obtain ⟨s, hs, hdone, hir, hev, hfl, hpend⟩ := hend.exists
  obtain ⟨-, -, -, -, -, hquiet⟩ := dma_completed (by decide) (by decide) (by decide) hs
  exact ⟨s, hs, hdone, (hquiet hir hev hfl).1, hpend⟩

/-- In the last line of the address space the end of the chunk is address 0. The chunk is then the
whole rest of the line, and its response has more bytes than were asked for. -/
theorem last_line_fails : (writeAction (2 ^ 64 - 32) 16).addr + 16 < 2 ^ 64
    ∧ run step (init 64 7 10 0) [.action (writeAction (2 ^ 64 - 32) 16) ⟨true, [⟨0, false, false⟩]⟩]
      = .error (.assertion "state->totBytes >= state->numBytes") :=
  ⟨by decide, rfl⟩

end DmaPort

end Gem5
