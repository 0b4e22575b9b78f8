import Gem5.Laps
import Gem5.Proofs.Engines

/-!
# The accounting of the descriptor ring

While the ring keeps its place the device walks around it twice at once: the fetches are at step
`reads.length`, the write-backs at step `writes.length`, and what lies between the two is in the
cache, in ring order (`RingInv.walk`). Each fetch and each write-back stays inside its lap.
-/

namespace Gem5

open List

namespace DescCache

open Machine

variable {T : Type}

/-- The operations that leave the ring where it is: no reset, head, length or base write, and a tail
inside the ring. -/
def Op.InRing (len : ℕ) : Op T → Prop
  | .writeTail val _ => val < len
  | .reset | .writeHead _ | .writeLen _ | .writeBaseLow _ | .writeBaseHigh _ => False
  | _ => True

/-- The number and the address of a cached descriptor. -/
def key (c : Cached T) : ℕ × ℕ := (c.seq, c.addr)

def slotAddr (base slot : ℕ) : ℕ := base + slot * descBytes

structure RingInv (base len size : ℕ) (s : DescCache T) : Prop extends WbHeld s where
  base_eq : s.descBase = base
  len_eq : s.descLen = len
  size_eq : s.size = size
  tail_lt : s.descTail < len
  head_eq : s.descHead = s.writes.length % len
  cachePnt_eq : s.cachePnt = s.reads.length % len
  reads_eq : s.reads.map key = Laps.walk len (slotAddr base) s.reads.length
  walk : s.writes.map (key ∘ Prod.snd) ++ s.usedCache.map key ++ s.unusedCache.map key
    = Laps.walk len (slotAddr base) s.reads.length
  writes_eq : s.writes.map Prod.fst = s.writes.map (Cached.addr ∘ Prod.snd)
  wbOut_lap : s.writes.length % len + s.wbOut ≤ len
  fetch_lap : s.reads.length % len + s.curFetching ≤ len
  size_le : s.usedCache.length + s.unusedCache.length + s.curFetching ≤ size
  fetch_dma : ∀ d, s.fetch = .dma d → d.addr = slotAddr base (s.reads.length % len)
  wb_dma : ∀ d, s.wb = .dma d → d.addr = slotAddr base (s.writes.length % len)

namespace RingInv

variable {base len size : ℕ} {s s' : DescCache T}

theorem init (hlen : 0 < len) :
    RingInv base len size (DescCache.init base len size : DescCache T) where
  toWbHeld := WbHeld.init base len size
  base_eq := rfl
  len_eq := rfl
  size_eq := rfl
  tail_lt := hlen
  head_eq := by simp [DescCache.init]
  cachePnt_eq := by simp [DescCache.init]
  reads_eq := by simp [DescCache.init]
  walk := by simp [DescCache.init]
  writes_eq := by simp [DescCache.init]
  wbOut_lap := by simp [DescCache.init]
  fetch_lap := by simp [DescCache.init]
  size_le := by simp [DescCache.init]
  fetch_dma := by simp [DescCache.init]
  wb_dma := by simp [DescCache.init]

theorem head_lt (hlen : 0 < len) (hs : RingInv base len size s) : s.descHead < s.descLen := by
  rw [hs.head_eq, hs.len_eq]
  exact Nat.mod_lt _ hlen

theorem length_reads (hs : RingInv base len size s) :
    s.reads.length = s.writes.length + s.usedCache.length + s.unusedCache.length := by
  have h := congrArg List.length hs.walk
  simp only [length_append, length_map, Laps.length_walk] at h
  exact h.symm

theorem key_used (hs : RingInv base len size s) {x : ℕ} {c : Cached T}
    (hc : s.usedCache[x]? = some c) :
    key c = (s.writes.length + x, slotAddr base ((s.writes.length + x) % len)) := by
  have hx : x < s.usedCache.length := (List.getElem?_eq_some_iff.1 hc).1
  have hlen := hs.length_reads
  have h := congrArg (·[s.writes.length + x]?) hs.walk
  beta_reduce at h
  rw [Laps.getElem?_walk (by omega), List.append_assoc, List.getElem?_append_right (by simp),
    getElem?_append_left (by simp; omega)] at h
  simpa [hc] using h

theorem key_write (hs : RingInv base len size s) {k a : ℕ} {c : Cached T}
    (hc : s.writes[k]? = some (a, c)) : key c = (k, slotAddr base (k % len)) := by
  have hk : k < s.writes.length := (List.getElem?_eq_some_iff.1 hc).1
  have hlen := hs.length_reads
  have h := congrArg (·[k]?) hs.walk
  beta_reduce at h
  rw [Laps.getElem?_walk (by omega), List.append_assoc,
    getElem?_append_left (by simpa using hk)] at h
  simpa [hc] using h

theorem addr_write (hs : RingInv base len size s) {k a : ℕ} {c : Cached T}
    (hc : s.writes[k]? = some (a, c)) : a = c.addr := by
  have h := congrArg (·[k]?) hs.writes_eq
  simpa [hc] using h

theorem key_read (hs : RingInv base len size s) {k : ℕ} (hk : k < s.reads.length) :
    ∃ r, s.reads[k]? = some r ∧ key r = (k, slotAddr base (k % len)) := by
  have h := congrArg (·[k]?) hs.reads_eq
  beta_reduce at h
  rwa [Laps.getElem?_walk hk, getElem?_map, Option.map_eq_some_iff] at h

theorem writeback (hlen : 0 < len) (hs : RingInv base len size s) {a : BitVec 64}
    (h : s.writeback a = .ok s') : RingInv base len size s' := by
  have hh := hs.toWbHeld.writeback h
  have hlap := maxToWb_lap (hs.head_lt hlen) a
  rw [hs.head_eq, hs.len_eq] at hlap
  rcases writeback_cases h with ⟨-, -, rfl⟩ | ⟨-, -, rfl⟩ | ⟨-, -, rfl⟩ | ⟨-, -, -, rfl⟩
  · exact { hs with }
  · exact { hs with }
  · exact { hs with }
  · exact { hh, hs with
      wbOut_lap := hlap
      wb_dma := fun d hd => by simp at hd }

theorem fetchDescriptors (hs : RingInv base len size s) (h : s.fetchDescriptors = .ok s') :
    RingInv base len size s' := by
  have hh := hs.toWbHeld.fetchDescriptors h
  rcases fetchDescriptors_cases h with rfl | ⟨-, -, -, rfl⟩
  · exact hs
  · obtain ⟨hsize, hring⟩ := s.maxToFetch_le
    have ht := hs.tail_lt
    rw [hs.size_eq] at hsize
    rw [hs.cachePnt_eq, hs.len_eq] at hring
    have hm : s.reads.length % len < len := Nat.mod_lt _ (by omega)
    have hz := hs.size_le
    exact { hh, hs with
      fetch_lap := by
        show s.reads.length % len + s.maxToFetch ≤ len
        split_ifs at hring <;> omega
      size_le := by
        show s.usedCache.length + s.unusedCache.length + s.maxToFetch ≤ size
        omega
      fetch_dma := fun d hd => by simp at hd }

theorem fetchDescriptors1 (hs : RingInv base len size s) {r : Bool}
    (h : s.fetchDescriptors1 r = .ok s') : RingInv base len size s' := by
  have hh := hs.toWbHeld.step (o := .fetchDelayEvent r) nofun h
  obtain ⟨-, rfl | ⟨-, rfl⟩⟩ := fetchDescriptors1_cases h
  · exact hs
  · exact { hh, hs with
      fetch_dma := fun d hd => by
        cases hd
        simp only [slotAddr, hs.base_eq, hs.cachePnt_eq] }

theorem writeback1 (hs : RingInv base len size s) {r : Bool} (h : s.writeback1 r = .ok s') :
    RingInv base len size s' := by
  have hh := hs.toWbHeld.step (o := .wbDelayEvent r) nofun h
  obtain ⟨-, rfl | ⟨-, -, rfl⟩⟩ := writeback1_cases h
  · exact hs
  · exact { hh, hs with
      wb_dma := fun d hd => by
        cases hd
        simp only [slotAddr, hs.base_eq, hs.head_eq] }

theorem map_key_fetched (hs : RingInv base len size s) {buf : List T} {d : FetchDma}
    (hd : s.fetch = .dma d) (hbuf : buf.length = s.curFetching) :
    (s.fetched d.addr buf).map key = (List.range s.curFetching).map fun x =>
      (s.reads.length + x, slotAddr base (s.reads.length % len + x)) := by
  refine ext_getElem (by simp [fetched, hbuf]) fun x h1 h2 => ?_
  simp only [fetched, key, getElem_map, getElem_mapIdx, getElem_range,
    hs.fetch_dma d hd, slotAddr, Prod.mk.injEq, true_and]
  ring

theorem fetchComplete (hlen : 0 < len) (hs : RingInv base len size s) {buf : List T}
    (h : s.fetchComplete buf = .ok s') : RingInv base len size s' := by
  have hh := hs.toWbHeld.step (o := .fetchEvent buf) nofun h
  obtain ⟨d, hd, hbuf, hle, rfl⟩ := fetchComplete_cases h
  have hkey := hs.map_key_fetched hd hbuf
  have hfl : (s.fetched d.addr buf).length = s.curFetching := by simp [fetched, hbuf]
  have hwalk := Laps.walk_add (f := slotAddr base) hs.fetch_lap
  have hz := hs.size_le
  rw [hs.cachePnt_eq, hs.len_eq] at hle
  exact { hh, hs with
    cachePnt_eq := by
      simp only [length_append, hfl, hs.cachePnt_eq, hs.len_eq]
      split_ifs with he
      · rw [Laps.add_mod_of_eq hlen he]
      · rw [Laps.add_mod_of_lt (by omega)]
    reads_eq := by
      simp only [map_append, length_append, hfl]
      rw [hs.reads_eq, hkey, hwalk]
    walk := by
      simp only [map_append, length_append, hfl]
      rw [← List.append_assoc, hs.walk, hkey, hwalk]
    fetch_lap := by
      have := Nat.mod_lt (s.reads ++ s.fetched d.addr buf).length hlen
      simp only [Nat.add_zero]
      omega
    size_le := by
      simp only [length_append, hfl, Nat.add_zero]
      omega
    fetch_dma := fun d hd => by simp at hd }

theorem wbDone (hlen : 0 < len) (hs : RingInv base len size s) {d : WbDma T}
    (hd : s.wb = .dma d) : RingInv base len size (s.wbDone d) := by
  have hmap := hs.map_snd_written hd
  have hle := hs.wbOut_le
  have hlap := hs.wbOut_lap
  have hz := hs.size_le
  have hwl : (written d).length = s.wbOut := by
    rw [← length_map, hmap, length_take_of_le hle]
  have hsnd : (written d).map (key ∘ Prod.snd) = (s.usedCache.take s.wbOut).map key := by
    rw [← map_map, hmap]
  have hfst : (written d).map Prod.fst = (written d).map (Cached.addr ∘ Prod.snd) := by
    refine ext_getElem (by simp) fun x h1 h2 => ?_
    have hx : x < s.wbOut := by simpa [hwl] using h1
    have hk := hs.key_used (getElem?_eq_getElem (show x < s.usedCache.length by omega))
    rw [Laps.add_mod_of_lt (by omega)] at hk
    simp only [key, Prod.mk.injEq] at hk
    simp only [written, hs.wbBuf_eq d hd, hs.wb_dma d hd, getElem_map, getElem_mapIdx, getElem_take,
      Function.comp_apply, hk.2, slotAddr]
    ring
  have hlen' : (s.writes ++ written d).length = s.writes.length + s.wbOut := by simp [hwl]
  exact { hs.toWbHeld.wbDone d, hs with
    head_eq := by
      show s.headAfter s.wbOut = (s.writes ++ written d).length % len
      rw [hlen', headAfter, hs.head_eq, hs.len_eq]
      split_ifs with he
      · rw [Laps.add_mod_of_eq hlen (by omega)]
        omega
      · rw [Laps.add_mod_of_lt (by omega)]
    walk := by
      simp only [DescCache.wbDone, map_append, hsnd]
      rw [List.append_assoc (s.writes.map _), ← map_append, take_append_drop]
      exact hs.walk
    writes_eq := by
      simp only [DescCache.wbDone, map_append, hs.writes_eq, hfst]
    wbOut_lap := by
      have := Nat.mod_lt (s.writes ++ written d).length hlen
      simp only [DescCache.wbDone, Nat.add_zero]
      omega
    size_le := by
      simp only [DescCache.wbDone, length_drop]
      omega
    wb_dma := fun d hd => by simp [DescCache.wbDone] at hd }

theorem wbMore (hlen : 0 < len) (hs : RingInv base len size s) (h : s.wbMore = .ok s') :
    RingInv base len size s' := by
  rcases wbMore_cases h with ⟨-, h⟩ | ⟨-, rfl⟩
  · exact RingInv.writeback (s := { s with moreToWb := false }) hlen { hs with } h
  · exact hs

theorem wbComplete (hlen : 0 < len) (hs : RingInv base len size s) {f : Bool}
    (h : s.wbComplete f = .ok s') : RingInv base len size s' := by
  obtain ⟨d, t, hd, -, ht, h⟩ := wbComplete_cases h
  have hti := (hs.wbDone hlen hd).wbMore hlen ht
  rcases h with rfl | h
  · exact hti
  · exact hti.fetchDescriptors h

theorem useDesc (hs : RingInv base len size s) {f : T → T} (h : s.useDesc f = .ok s') :
    RingInv base len size s' := by
  have hh := hs.toWbHeld.step (o := .useDesc f) nofun h
  obtain ⟨c, rest, hc, rfl⟩ := useDesc_cases h
  have hw := hs.walk
  have hz := hs.size_le
  rw [hc] at hw hz
  exact { hh, hs with
    walk := by
      rw [← hw]
      simp [key]
    size_le := by
      simp only [length_append, length_cons, length_nil] at hz ⊢
      omega }

theorem modifyDesc (hs : RingInv base len size s) {f : T → T} (h : s.modifyDesc f = .ok s') :
    RingInv base len size s' := by
  obtain ⟨c, rest, hc, rfl⟩ := modifyDesc_cases h
  have hw := hs.walk
  have hz := hs.size_le
  rw [hc] at hw hz
  exact { hs with
    walk := by
      rw [← hw]
      simp [key]
    size_le := by simpa using hz }

theorem step (hlen : 0 < len) (hs : RingInv base len size s) {op : Op T} (hop : op.InRing len)
    (h : s.step op = .ok s') : RingInv base len size s' := by
  cases op with
  | writeTail v r =>
    have hv : RingInv base len size { s with descTail := v } := { hs with tail_lt := hop }
    rcases writeTail_cases h with rfl | h
    · exact hv
    · exact hv.fetchDescriptors h
  | fetchDescriptors => exact hs.fetchDescriptors h
  | fetchDelayEvent r => exact hs.fetchDescriptors1 h
  | fetchEvent buf => exact hs.fetchComplete hlen h
  | useDesc f => exact hs.useDesc h
  | modifyDesc f => exact hs.modifyDesc h
  | writeback a => exact hs.writeback hlen h
  | wbDelayEvent r => exact hs.writeback1 h
  | wbEvent f => exact hs.wbComplete hlen h
  | reset | writeHead v | writeLen v | writeBaseLow v | writeBaseHigh v => exact hop.elim

theorem run (hlen : 0 < len) {ops : List (Op T)} (hops : ∀ op ∈ ops, op.InRing len)
    (h : run DescCache.step (DescCache.init base len size) ops = .ok s) :
    RingInv base len size s :=
  Admits.inv (C := fun _ op => op.InRing len) (fun _ _ _ hi ho hst => hi.step hlen ho hst)
    (admits_of_forall (fun _ _ ho => ho) hops) (RingInv.init hlen) h

theorem cachePnt (hs : RingInv base len size s) :
    s.cachePnt = (s.descHead + s.usedCache.length + s.unusedCache.length) % len := by
  rw [hs.cachePnt_eq, hs.head_eq, hs.length_reads]
  simp [Nat.add_mod]

end RingInv

/-- From an empty ring with head 0, in every run that leaves the ring where it is: the cache pointer
is as far past the head as descriptors are cached, no more are in write-back than are used, no more
are cached or on the way than the cache holds, and the `k`-th descriptor written back is the `k`-th
fetched, at its own address, slot `k % len` of the ring. -/
theorem ring_accounting {base len size : ℕ} (hlen : 0 < len) {ops : List (Op T)}
    (hops : ∀ op ∈ ops, op.InRing len) {s : DescCache T}
    (h : run step (init base len size) ops = .ok s) :
    s.cachePnt = (s.descHead + s.usedCache.length + s.unusedCache.length) % len
      ∧ s.wbOut ≤ s.usedCache.length
      ∧ s.usedCache.length + s.unusedCache.length + s.curFetching ≤ size
      ∧ ∀ k a c, s.writes[k]? = some (a, c) →
        a = base + k % len * descBytes ∧ a = c.addr ∧ c.seq = k
          ∧ ∃ r, s.reads[k]? = some r ∧ r.seq = k ∧ r.addr = a := by
  have hs := RingInv.run hlen hops h
  refine ⟨hs.cachePnt, hs.wbOut_le, hs.size_le, fun k a c hc => ?_⟩
  have ha := hs.addr_write hc
  have hk := hs.key_write hc
  have hr := hs.length_reads
  have hkw : k < s.writes.length := (List.getElem?_eq_some_iff.1 hc).1
  obtain ⟨r, hr, hrk⟩ := hs.key_read (k := k) (by omega)
  simp only [key, slotAddr, Prod.mk.injEq] at hk hrk
  exact ⟨ha.trans hk.2, ha, hk.1, r, hr, hrk.1, by rw [hrk.2, ha, hk.2]⟩

def lapOps : List (Op ℕ) :=
  [.writeTail 1 true, .fetchDelayEvent true, .fetchEvent [7], .useDesc (· + 1), .writeback 0,
    .wbDelayEvent true, .writeTail 0 true, .fetchDelayEvent false, .wbEvent true,
    .fetchDelayEvent true, .fetchEvent [8], .useDesc (· + 1), .writeback 3, .wbDelayEvent true,
    .writeTail 1 true, .fetchDelayEvent true, .fetchEvent [9], .useDesc id, .wbEvent false,
    .writeback 0, .wbDelayEvent true, .wbEvent false]

theorem ring_accounting_lapOps : ∃ s, run step (init 4096 2 8) lapOps = .ok s
    ∧ s.writes.map Prod.fst = [4096, 4112, 4096]
    ∧ s.cachePnt = (s.descHead + s.usedCache.length + s.unusedCache.length) % 2
    ∧ s.wbOut ≤ s.usedCache.length
    ∧ s.usedCache.length + s.unusedCache.length + s.curFetching ≤ 8
    ∧ ∀ k a c, s.writes[k]? = some (a, c) →
      a = 4096 + k % 2 * descBytes ∧ a = c.addr ∧ c.seq = k
        ∧ ∃ r, s.reads[k]? = some r ∧ r.seq = k ∧ r.addr = a :=
  ⟨_, rfl, rfl,
    @ring_accounting ℕ 4096 2 8 (by decide) lapOps (by simp [lapOps, Op.InRing]) _ rfl⟩

end DescCache

end Gem5
