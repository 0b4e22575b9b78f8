import Gem5.MissQueue

/-!
# The lists of the miss queue

Every register is either free or allocated, and an allocated one is either in service or on the
ready list (`Conserved`). The counter of the registers in service is what the ready list leaves of
the allocated ones, which is how each operation keeps it.
-/

namespace Gem5

open Machine List

namespace MissQueue

variable {q q' : MissQueue} {i j n : ℕ} {m m' : Mshr} {l : List ℕ}
  {blkAddr blkSize order readyTime : ℕ} {pkt : Packet} {a : Bool}

theorem entry_ok : q.entry i = .ok m ↔ q.entries[i]? = some m := by
  unfold entry
  split
  · rename_i h
    simp [h]
  · rename_i h
    simp [h]

theorem setEntry_self (h : q.entries[i]? = some m) : (q.setEntry i m').entries[i]? = some m' := by
  obtain ⟨hlt, -⟩ := List.getElem?_eq_some_iff.1 h
  exact List.getElem?_set_self hlt

theorem setEntry_of_ne (h : j ≠ i) : (q.setEntry i m').entries[j]? = q.entries[j]? :=
  List.getElem?_set_ne (Ne.symm h)

theorem inService_of (h : q.entries[i]? = some m) : q.inService i = m.inService := by
  rw [inService, h]
  rfl

theorem inService_setEntry_self (h : q.entries[i]? = some m) :
    (q.setEntry i m').inService i = m'.inService :=
  inService_of (setEntry_self h)

theorem inService_setEntry_of_ne (h : j ≠ i) : (q.setEntry i m').inService j = q.inService j := by
  rw [inService, setEntry_of_ne h, inService]

theorem inService_setEntry_same (h : q.entries[i]? = some m) (hs : m'.inService = m.inService)
    (j : ℕ) : (q.setEntry i m').inService j = q.inService j := by
  by_cases hj : j = i
  · rw [hj, inService_setEntry_self h, inService_of h, hs]
  · exact inService_setEntry_of_ne hj

theorem insertReady_perm : ∀ {l l' : List ℕ}, q.insertReady i l = .ok l' → l'.Perm (i :: l)
  | [], _, h => by simp [insertReady] at h
  | j :: l, l', h => by
    unfold insertReady at h
    split_ifs at h
    · cases h
      exact .refl _
    · obtain ⟨l₁, hl₁, rfl⟩ := bind_pure_ok.1 h
      exact ((insertReady_perm hl₁).cons j).trans (.swap i j l)

theorem addToReadyList_perm (h : q.addToReadyList i = .ok l) : l.Perm (i :: q.readyList) := by
  unfold addToReadyList at h
  split at h
  · rename_i hlast
    cases h
    rw [getLast?_eq_none_iff.1 hlast]
  · split_ifs at h
    · cases h
      exact perm_append_singleton i _
    · exact insertReady_perm h

/-! ## What each operation does -/

theorem allocate_inService
    {x : Mshr × List Signal} (h : Mshr.allocate blkAddr blkSize pkt readyTime order a = .ok x) :
    x.1.inService = false := by
  obtain ⟨y, -, rfl⟩ := bind_pure_ok.1 h
  rfl

theorem allocateTarget_same
    {x : Mshr × List Signal} (h : m.allocateTarget pkt readyTime order a = .ok x) :
    x.1.readyTime = m.readyTime ∧ x.1.inService = m.inService := by
  obtain ⟨_, -, h⟩ := bind_ok.1 h
  split at h
  · cases h
  · split_ifs at h
    · obtain ⟨y, -, rfl⟩ := bind_pure_ok.1 h
      exact ⟨rfl, rfl⟩
    · obtain ⟨y, -, rfl⟩ := bind_pure_ok.1 h
      exact ⟨rfl, rfl⟩

theorem extractServiceableTargets_inService {cmd : MemCmd} {x : TargetList × Mshr}
    (h : m.extractServiceableTargets cmd = .ok x) : x.2.inService = m.inService := by
  unfold Mshr.extractServiceableTargets at h
  split_ifs at h
  · split at h
    · cases h
    · simp only [bind_ok] at h
      obtain ⟨_, -, _, -, _, -, _, -, h⟩ := h
      cases h
      rfl
  · obtain ⟨_, -, rfl⟩ := bind_pure_ok.1 h
    rfl

theorem promoteDeferredTargets_inService {curTick : ℕ} {x : Bool × Mshr}
    (h : m.promoteDeferredTargets curTick = .ok x) : x.2.inService = m.inService := by
  unfold Mshr.promoteDeferredTargets at h
  split_ifs at h
  · cases h
    rfl
  · obtain ⟨_, -, h⟩ := bind_ok.1 h
    obtain ⟨_, -, h⟩ := bind_ok.1 h
    split at h
    · cases h
    · cases h
      rfl

theorem allocate_cases {whenReady : ℕ}
    (h : q.allocate blkAddr blkSize pkt whenReady order a = .ok q') :
    ∃ i free m m' sig, q.freeList = i :: free ∧ q.entries[i]? = some m ∧ m'.inService = false
      ∧ makeReady { q.setEntry i m' with
          freeList := free
          allocatedList := q.allocatedList ++ [i]
          allocated := q.allocated + 1
          signals := sig } i = .ok q' := by
  unfold MissQueue.allocate at h
  split at h
  · cases h
  · rename_i i free hfree
    obtain ⟨m, hm, h⟩ := bind_ok.1 h
    obtain ⟨_, -, h⟩ := bind_ok.1 h
    obtain ⟨⟨m', sig⟩, hm', h⟩ := bind_ok.1 h
    exact ⟨i, free, m, m', _, hfree, entry_ok.1 hm, allocate_inService hm', h⟩

theorem makeReady_cases (h : q.makeReady i = .ok q') :
    ∃ l, q.addToReadyList i = .ok l ∧ q' = { q with readyList := l } := by
  obtain ⟨l, hl, h⟩ := bind_ok.1 h
  exact ⟨l, hl, (Except.ok.inj h).symm⟩

theorem addTarget_cases
    (h : q.addTarget i pkt readyTime order a = .ok q') :
    ∃ m m' sig, q.entries[i]? = some m ∧ m'.readyTime = m.readyTime ∧ m'.inService = m.inService
      ∧ q' = { q.setEntry i m' with signals := sig } := by
  obtain ⟨m, hm, h⟩ := bind_ok.1 h
  obtain ⟨⟨m', sig⟩, hm', h⟩ := bind_ok.1 h
  obtain ⟨ht, hs⟩ := allocateTarget_same hm'
  exact ⟨m, m', _, entry_ok.1 hm, ht, hs, (Except.ok.inj h).symm⟩

theorem markInService_cases (h : q.markInService i a = .ok q') :
    i ∈ q.readyList ∧ ∃ m m' sig, q.entries[i]? = some m ∧ m'.inService = true
      ∧ q' = { q.setEntry i m' with
          readyList := q.readyList.erase i
          numInService := q.numInService + 1
          signals := sig } := by
  obtain ⟨m, hm, h⟩ := bind_ok.1 h
  obtain ⟨⟨m', sig⟩, hm', h⟩ := bind_ok.1 h
  obtain ⟨_, -, hm'⟩ := bind_ok.1 hm'
  obtain ⟨q₁, hq₁, h⟩ := bind_ok.1 h
  unfold eraseReady at hq₁
  split_ifs at hq₁ with hi
  cases hq₁
  refine ⟨hi, m, m', _, entry_ok.1 hm, ?_, (Except.ok.inj h).symm⟩
  cases hm'
  rfl

theorem serve_cases {cmd : MemCmd} (h : q.serve i cmd = .ok q') :
    ∃ m m', q.entries[i]? = some m ∧ m'.inService = m.inService ∧ q' = q.setEntry i m' := by
  obtain ⟨m, hm, h⟩ := bind_ok.1 h
  obtain ⟨served, hserved, h⟩ := bind_ok.1 h
  obtain ⟨promoted, hprom, h⟩ := bind_ok.1 h
  refine ⟨m, promoted.2, entry_ok.1 hm, ?_, (Except.ok.inj h).symm⟩
  rw [promoteDeferredTargets_inService hprom, extractServiceableTargets_inService hserved]

theorem markPending_cases (h : q.markPending i = .ok q') :
    ∃ m, q.entries[i]? = some m ∧ m.inService = true
      ∧ makeReady { q.setEntry i { m with inService := false } with
          numInService := q.numInService - 1 } i = .ok q' := by
  obtain ⟨m, hm, h⟩ := bind_ok.1 h
  obtain ⟨m', hm', h⟩ := bind_ok.1 h
  obtain ⟨_, hs, rfl⟩ := bind_pure_ok.1 hm'
  exact ⟨m, entry_ok.1 hm, require_ok.1 hs, h⟩

theorem deallocate_cases (h : q.deallocate i = .ok q') :
    i ∈ q.allocatedList ∧ ∃ m m', q.entries[i]? = some m ∧ m'.inService = false
      ∧ (m.inService = true ∧ q' = { q.setEntry i m' with
            allocatedList := q.allocatedList.erase i
            freeList := i :: q.freeList
            allocated := q.allocated - 1
            numInService := q.numInService - 1 }
        ∨ m.inService = false ∧ i ∈ q.readyList ∧ q' = { q.setEntry i m' with
            allocatedList := q.allocatedList.erase i
            freeList := i :: q.freeList
            allocated := q.allocated - 1
            readyList := q.readyList.erase i }) := by
  obtain ⟨m, hm, h⟩ := bind_ok.1 h
  split_ifs at h with hal
  obtain ⟨q₁, hq₁, h⟩ := bind_ok.1 h
  obtain ⟨m', hm', h⟩ := bind_ok.1 h
  have hs' : m'.inService = false := by
    obtain ⟨_, -, hm'⟩ := bind_ok.1 hm'
    obtain ⟨_, -, rfl⟩ := bind_pure_ok.1 hm'
    rfl
  refine ⟨hal, m, m', entry_ok.1 hm, hs', ?_⟩
  unfold leave eraseReady at hq₁
  split_ifs at hq₁ with hs hr
  · cases hq₁
    exact .inl ⟨hs, (Except.ok.inj h).symm⟩
  · cases hq₁
    exact .inr ⟨by simpa using hs, hr, (Except.ok.inj h).symm⟩

theorem split_ready (hi : i ∈ l) : ∃ pre post, l = pre ++ i :: post ∧ l.takeWhile (· ≠ i) = pre
    ∧ l.dropWhile (· ≠ i) = i :: post := by
  induction l with
  | nil => cases hi
  | cons j l ih =>
    by_cases hj : j = i
    · exact ⟨[], l, by simp [hj], by simp [hj], by simp [hj]⟩
    · have hi : i ∈ l := (mem_cons.1 hi).resolve_left (Ne.symm hj)
      obtain ⟨pre, post, hl, htake, hdrop⟩ := ih hi
      refine ⟨j :: pre, post, by rw [hl]; rfl, ?_, ?_⟩
      · rw [takeWhile_cons, if_pos (by simpa using hj), htake]
      · rw [dropWhile_cons, if_pos (by simpa using hj), hdrop]

theorem delay_cases {delayTicks : ℕ} (h : q.delay i delayTicks = .ok q') :
    i ∈ q.readyList ∧ ∃ m, q.entries[i]? = some m ∧ m.readyTime ≤ q.curTick
      ∧ q' = q.setEntry i { m with readyTime := (q.curTick + delayTicks) % 2 ^ 64 } := by
  obtain ⟨m, hm, h⟩ := bind_ok.1 h
  obtain ⟨m', hm', h⟩ := bind_ok.1 h
  obtain ⟨_, hle, rfl⟩ := bind_pure_ok.1 hm'
  rw [entry_ok] at hm
  rw [require_ok] at hle
  split_ifs at h with hi
  cases h
  refine ⟨hi, m, hm, hle, ?_⟩
  obtain ⟨pre, post, -, -, hdrop⟩ := split_ready hi
  rw [hdrop, find?_cons, decide_eq_true (le_refl _)]
  simp only [splice, if_true]

/-! ## The lists are kept -/

/-- The lists of a queue of `n` registers, and the counters. -/
structure Conserved (n : ℕ) (q : MissQueue) : Prop where
  length : q.entries.length = n
  places : (q.freeList ++ q.allocatedList).Perm (List.range n)
  nodup : q.readyList.Nodup
  ready : ∀ i, i ∈ q.readyList ↔ i ∈ q.allocatedList ∧ q.inService i = false
  serving : ∀ i, q.inService i = true → i ∈ q.allocatedList
  allocated : q.allocated = q.allocatedList.length
  numInService : q.numInService + q.readyList.length = q.allocatedList.length

namespace Conserved

theorem init (n : ℕ) : (MissQueue.init n).Conserved n where
  length := length_replicate
  places := by
    rw [MissQueue.init, append_nil]
  nodup := nodup_nil
  ready i := by simp [MissQueue.init]
  serving i hi := by
    simp only [inService, MissQueue.init, getElem?_replicate] at hi
    split_ifs at hi <;> cases hi
  allocated := rfl
  numInService := rfl

variable (h : q.Conserved n)

include h

theorem places_nodup : (q.freeList ++ q.allocatedList).Nodup :=
  h.places.nodup_iff.2 nodup_range

theorem allocated_nodup : q.allocatedList.Nodup := (nodup_append.1 h.places_nodup).2.1

theorem not_ready (hs : q.inService i = true) : i ∉ q.readyList := by
  intro hi
  have hs' := ((h.ready i).1 hi).2
  simp [hs] at hs'

theorem not_allocated (hi : i ∈ q.freeList) : i ∉ q.allocatedList := fun hal =>
  (nodup_append.1 h.places_nodup).2.2 i hi i hal rfl

theorem free_not_ready (hi : i ∈ q.freeList) : i ∉ q.readyList := fun hr =>
  h.not_allocated hi ((h.ready i).1 hr).1

theorem same (hlen : q'.entries.length = q.entries.length) (hfr : q'.freeList = q.freeList)
    (hal : q'.allocatedList = q.allocatedList) (hre : q'.readyList.Perm q.readyList)
    (hs : ∀ j, q'.inService j = q.inService j) (ha : q'.allocated = q.allocated)
    (hn : q'.numInService = q.numInService) : q'.Conserved n where
  length := hlen.trans h.length
  places := by
    rw [hfr, hal]
    exact h.places
  nodup := hre.nodup_iff.2 h.nodup
  ready j := by
    rw [hre.mem_iff, hal, hs]
    exact h.ready j
  serving j hj := by
    rw [hs] at hj
    rw [hal]
    exact h.serving j hj
  allocated := by
    rw [ha, hal]
    exact h.allocated
  numInService := by
    rw [hn, hre.length_eq, hal]
    exact h.numInService

theorem setEntry (hm : q.entries[i]? = some m) (hs : m'.inService = m.inService) :
    (q.setEntry i m').Conserved n :=
  h.same length_set rfl rfl (.refl _) (inService_setEntry_same hm hs) rfl rfl

theorem allocate {whenReady : ℕ}
    (hx : q.allocate blkAddr blkSize pkt whenReady order a = .ok q') : q'.Conserved n := by
  obtain ⟨i, free, m, m', sig, hfree, hm, hs, hx⟩ := allocate_cases hx
  obtain ⟨l, hl, rfl⟩ := makeReady_cases hx
  have hperm := addToReadyList_perm hl
  change l.Perm (i :: q.readyList) at hperm
  have hi : i ∈ q.freeList := by
    rw [hfree]
    exact mem_cons_self
  have hself : (q.setEntry i m').inService i = false := (inService_setEntry_self hm).trans hs
  exact {
    length := (length_set).trans h.length
    places := by
      have hp : (free ++ (q.allocatedList ++ [i])).Perm (q.freeList ++ q.allocatedList) := by
        rw [hfree, ← append_assoc]
        exact perm_append_singleton i _
      exact hp.trans h.places
    nodup := hperm.nodup_iff.2 (nodup_cons.2 ⟨h.free_not_ready hi, h.nodup⟩)
    ready := fun j => by
      change j ∈ l ↔ j ∈ q.allocatedList ++ [i] ∧ (q.setEntry i m').inService j = false
      rw [hperm.mem_iff, mem_cons, mem_append, mem_singleton]
      by_cases hj : j = i
      · subst hj
        simp [hself]
      · rw [inService_setEntry_of_ne hj]
        simp [hj, h.ready j]
    serving := fun j hj => by
      change (q.setEntry i m').inService j = true at hj
      by_cases hji : j = i
      · simp [hji, hself] at hj
      · rw [inService_setEntry_of_ne hji] at hj
        exact mem_append_left _ (h.serving j hj)
    allocated := by
      change q.allocated + 1 = ((q.allocatedList ++ [i]).length : ℤ)
      rw [h.allocated, length_append, length_singleton]
      omega
    numInService := by
      change q.numInService + (l.length : ℤ) = ((q.allocatedList ++ [i]).length : ℤ)
      have hcount := h.numInService
      rw [hperm.length_eq, length_cons, length_append, length_singleton]
      omega }

theorem markInService (hx : q.markInService i a = .ok q') : q'.Conserved n := by
  obtain ⟨hi, m, m', sig, hm, hs, rfl⟩ := markInService_cases hx
  have hself : (q.setEntry i m').inService i = true := (inService_setEntry_self hm).trans hs
  exact {
    length := (length_set).trans h.length
    places := h.places
    nodup := h.nodup.sublist erase_sublist
    ready := fun j => by
      change j ∈ q.readyList.erase i ↔ j ∈ q.allocatedList ∧ (q.setEntry i m').inService j = false
      rw [h.nodup.mem_erase_iff]
      by_cases hj : j = i
      · subst hj
        simp [hself]
      · rw [inService_setEntry_of_ne hj, ← h.ready j]
        simp [hj]
    serving := fun j hj => by
      change (q.setEntry i m').inService j = true at hj
      by_cases hji : j = i
      · rw [hji]
        exact ((h.ready i).1 hi).1
      · rw [inService_setEntry_of_ne hji] at hj
        exact h.serving j hj
    allocated := h.allocated
    numInService := by
      change q.numInService + 1 + ((q.readyList.erase i).length : ℤ) = (q.allocatedList.length : ℤ)
      have hcount := h.numInService
      have hpos := length_pos_of_mem hi
      rw [length_erase_of_mem hi]
      omega }

theorem markPending (hx : q.markPending i = .ok q') : q'.Conserved n := by
  obtain ⟨m, hm, hs, hx⟩ := markPending_cases hx
  obtain ⟨l, hl, rfl⟩ := makeReady_cases hx
  have hperm := addToReadyList_perm hl
  change l.Perm (i :: q.readyList) at hperm
  have hserv : q.inService i = true := (inService_of hm).trans hs
  have hself : (q.setEntry i { m with inService := false }).inService i = false :=
    inService_setEntry_self hm
  exact {
    length := (length_set).trans h.length
    places := h.places
    nodup := hperm.nodup_iff.2 (nodup_cons.2 ⟨h.not_ready hserv, h.nodup⟩)
    ready := fun j => by
      change j ∈ l ↔ j ∈ q.allocatedList
        ∧ (q.setEntry i { m with inService := false }).inService j = false
      rw [hperm.mem_iff, mem_cons]
      by_cases hj : j = i
      · subst hj
        simp [hself, h.serving j hserv]
      · rw [inService_setEntry_of_ne hj, ← h.ready j]
        simp [hj]
    serving := fun j hj => by
      change (q.setEntry i { m with inService := false }).inService j = true at hj
      by_cases hji : j = i
      · simp [hji, hself] at hj
      · rw [inService_setEntry_of_ne hji] at hj
        exact h.serving j hj
    allocated := h.allocated
    numInService := by
      change q.numInService - 1 + (l.length : ℤ) = (q.allocatedList.length : ℤ)
      have hcount := h.numInService
      rw [hperm.length_eq, length_cons]
      omega }

theorem freed (hi : i ∈ q.allocatedList) (hm : q.entries[i]? = some m) (hs : m'.inService = false)
    {c : ℤ} (hc : c + (q.readyList.erase i).length = (q.allocatedList.erase i).length) :
    Conserved n { q.setEntry i m' with
      allocatedList := q.allocatedList.erase i
      freeList := i :: q.freeList
      allocated := q.allocated - 1
      readyList := q.readyList.erase i
      numInService := c } := by
  have hself : (q.setEntry i m').inService i = false := (inService_setEntry_self hm).trans hs
  exact {
    length := (length_set).trans h.length
    places := by
      have hp : (i :: q.freeList ++ q.allocatedList.erase i).Perm
          (q.freeList ++ q.allocatedList) :=
        perm_middle.symm.trans ((perm_cons_erase hi).symm.append_left _)
      exact hp.trans h.places
    nodup := h.nodup.sublist erase_sublist
    ready := fun j => by
      change j ∈ q.readyList.erase i ↔ j ∈ q.allocatedList.erase i
        ∧ (q.setEntry i m').inService j = false
      rw [h.nodup.mem_erase_iff, h.allocated_nodup.mem_erase_iff]
      by_cases hj : j = i
      · simp [hj]
      · rw [inService_setEntry_of_ne hj, h.ready j, and_assoc]
    serving := fun j hj => by
      change (q.setEntry i m').inService j = true at hj
      by_cases hji : j = i
      · simp [hji, hself] at hj
      · rw [inService_setEntry_of_ne hji] at hj
        exact (mem_erase_of_ne hji).2 (h.serving j hj)
    allocated := by
      change q.allocated - 1 = ((q.allocatedList.erase i).length : ℤ)
      have hpos := length_pos_of_mem hi
      rw [h.allocated, length_erase_of_mem hi]
      omega
    numInService := hc }

theorem deallocate (hx : q.deallocate i = .ok q') : q'.Conserved n := by
  obtain ⟨hi, m, m', hm, hs, ⟨hserv, rfl⟩ | ⟨-, hr, rfl⟩⟩ := deallocate_cases hx
  · have hnot : i ∉ q.readyList := h.not_ready ((inService_of hm).trans hserv)
    have hcount := h.numInService
    have hpos := length_pos_of_mem hi
    have hfreed := h.freed (c := q.numInService - 1) hi hm hs (by
      rw [length_erase_of_mem hi, erase_of_not_mem hnot]
      omega)
    rwa [erase_of_not_mem hnot] at hfreed
  · refine h.freed (c := q.numInService) hi hm hs ?_
    have hcount := h.numInService
    have hpos := length_pos_of_mem hi
    have hpos' := length_pos_of_mem hr
    rw [length_erase_of_mem hi, length_erase_of_mem hr]
    omega

theorem step {op : Op} (hx : q.step op = .ok q') : q'.Conserved n := by
  cases op with
  | allocate blkAddr blkSize pkt whenReady order allocOnFill => exact h.allocate hx
  | allocateTarget i pkt readyTime order allocOnFill =>
    obtain ⟨m, m', sig, hm, -, hs, rfl⟩ := addTarget_cases hx
    exact (h.setEntry hm hs).same rfl rfl rfl (.refl _) (fun _ => rfl) rfl rfl
  | delay i delayTicks =>
    obtain ⟨-, m, hm, -, rfl⟩ := delay_cases hx
    exact h.setEntry hm rfl
  | markInService i pendingModifiedResp => exact h.markInService hx
  | serve i cmd =>
    simp only [MissQueue.step] at hx
    split_ifs at hx
    obtain ⟨m, m', hm, hs, rfl⟩ := serve_cases hx
    exact h.setEntry hm hs
  | markPending i => exact h.markPending hx
  | deallocate i => exact h.deallocate hx
  | advance ticks =>
    simp only [MissQueue.step] at hx
    split_ifs at hx
    cases hx
    exact h.same rfl rfl rfl (.refl _) (fun _ => rfl) rfl rfl

theorem moveToFront (hx : q.moveToFront i = .ok q') : q'.Conserved n := by
  obtain ⟨m, -, hx⟩ := bind_ok.1 hx
  split_ifs at hx with hs hi
  · cases hx
    exact h
  · cases hx
    exact h.same rfl rfl rfl (perm_cons_erase hi).symm (fun _ => rfl) rfl rfl

theorem dropTarget (hm : q.entries[i]? = some m) (hs : m'.inService = m.inService)
    (hx : q.dropTarget i m' = .ok q') : q'.Conserved n := by
  unfold MissQueue.dropTarget at hx
  split_ifs at hx
  · cases hx
    exact h.setEntry hm hs
  · obtain ⟨x, hprom, hx⟩ := bind_ok.1 hx
    have hset : (q.setEntry i x.2).Conserved n :=
      h.setEntry hm ((promoteDeferredTargets_inService hprom).trans hs)
    split_ifs at hx
    · cases hx
      exact hset
    · exact hset.deallocate hx

theorem ready_perm : q.readyList.Perm (q.allocatedList.filter fun i => !q.inService i) := by
  refine (perm_ext_iff_of_nodup h.nodup (h.allocated_nodup.filter _)).2 fun i => ?_
  rw [h.ready i, mem_filter, Bool.not_eq_true']

theorem numInService_eq : q.numInService = (q.allocatedList.filter q.inService).length := by
  have hcount := h.numInService
  have hsplit := length_eq_length_filter_add (l := q.allocatedList) q.inService
  rw [h.ready_perm.length_eq] at hcount
  omega

end Conserved

end MissQueue

namespace ReservedQueue

open MissQueue

theorem step_conserved {n : ℕ} {r r' : ReservedQueue} {op : Op} (h : r.queue.Conserved n)
    (hx : r.step op = .ok r') : r'.queue.Conserved n := by
  cases op with
  | queue op =>
    obtain ⟨q, hq, rfl⟩ := bind_pure_ok.1 hx
    exact h.step hq
  | moveToFront i =>
    obtain ⟨q, hq, rfl⟩ := bind_pure_ok.1 hx
    exact h.moveToFront hq
  | forceDeallocateTarget i =>
    obtain ⟨x, hforce, hx⟩ := bind_ok.1 hx
    obtain ⟨m, hm, hforce⟩ := bind_ok.1 hforce
    obtain ⟨_, -, hforce⟩ := bind_ok.1 hforce
    obtain ⟨q, hq, hforce⟩ := bind_ok.1 hforce
    cases hforce
    cases hx
    have hs : m.popTarget.inService = m.inService := rfl
    exact h.dropTarget (entry_ok.1 hm) hs hq
  | reserveDDIOWrite | unreserveDDIOWrite =>
    obtain ⟨_, -, rfl⟩ := bind_pure_ok.1 hx
    exact h

/-- In every run, the free and the allocated list have every register once, the ready list has the
allocated registers that are not in service, once each, and the counters are the numbers of the
allocated ones and of those in service. -/
theorem lists_conserved {numEntries reserve : ℕ} {ops : List Op} {r : ReservedQueue}
    (hrun : run step (init numEntries reserve) ops = .ok r) :
    (r.queue.freeList ++ r.queue.allocatedList).Perm (List.range r.queue.entries.length)
      ∧ r.queue.entries.length = numEntries + reserve
      ∧ List.Disjoint r.queue.freeList r.queue.allocatedList
      ∧ r.queue.readyList.Nodup
      ∧ (∀ i, i ∈ r.queue.readyList ↔ i ∈ r.queue.allocatedList ∧ r.queue.inService i = false)
      ∧ r.queue.allocated = r.queue.allocatedList.length
      ∧ r.queue.numInService = (r.queue.allocatedList.filter r.queue.inService).length := by
  have h : r.queue.Conserved (numEntries + reserve) :=
    run_inv (I := fun r => r.queue.Conserved (numEntries + reserve))
      (fun _ _ _ h hx => step_conserved h hx) (Conserved.init _) hrun
  refine ⟨?_, h.length, fun i hi hal => h.not_allocated hi hal, h.nodup, h.ready, h.allocated,
    h.numInService_eq⟩
  rw [h.length]
  exact h.places

/-- A miss waits behind a prefetch that is dropped before it is sent, and another one in service. -/
def droppedOps : List Op :=
  [.queue (.allocate 0 64 (.ofRequest ⟨0, 64, {}, 1, 0, 0, 0⟩ .hardPFReq) 5 0 true),
    .queue (.allocate 64 64 (.ofRequest ⟨64, 64, {}, 1, 0, 0, 0⟩ .readReq) 3 1 true),
    .queue (.allocate 128 64 (.ofRequest ⟨128, 64, {}, 1, 0, 0, 0⟩ .readReq) 3 2 true),
    .queue (.markInService 1 false), .forceDeallocateTarget 0]

theorem run_droppedOps : Ends (run step (init 3 1) droppedOps) fun r =>
    r.queue.freeList = [0, 3] ∧ r.queue.readyList = [2] ∧ r.queue.inService 1 = true := by
  decide +kernel

theorem lists_conserved_droppedOps : ∃ r, run step (init 3 1) droppedOps = .ok r
    ∧ r.queue.freeList = [0, 3] ∧ r.queue.readyList = [2]
    ∧ (r.queue.freeList ++ r.queue.allocatedList).Perm (List.range r.queue.entries.length)
    ∧ r.queue.numInService = (r.queue.allocatedList.filter r.queue.inService).length := by
  obtain ⟨r, hrun, hfree, hready, -⟩ := run_droppedOps.exists
  have h := lists_conserved hrun
  exact ⟨r, hrun, hfree, hready, h.1, h.2.2.2.2.2.2⟩

end ReservedQueue

end Gem5
