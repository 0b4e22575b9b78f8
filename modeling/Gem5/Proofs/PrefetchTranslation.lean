import Gem5.Proofs.PrefetchOrder

/-!
# Translations of prefetch requests

The TLB calls back the node it was given. As long as the entry of a node that it holds is neither
moved to another node nor given up, the node has the entry that the translation was started for, and
no request is handed to the TLB twice (`Tracked`).
-/

namespace Gem5.Prefetch

open Machine List

variable {cfg : Config} {al : Allocator} {s s' : Queued} {q q' : List Node} {n m : Node}
  {dpp : DeferredPacket} {cached : ℕ → Bool → Bool} {tlb : ℕ → Option (Option ℕ)}
  {req : TrainingRequest} {pfi : PrefetchInfo} {p : ℤ} {c : Call} {paddr : Option ℕ} {node : ℕ}

/-! ## A raised entry -/

theorem swapEntries_getElem? {i j k : ℕ} (hi : k ≠ i) (hj : k ≠ j) :
    (swapEntries q i j)[k]? = q[k]? := by
  unfold swapEntries
  split
  · rw [getElem?_set_ne hj.symm, getElem?_set_ne hi.symm]
  · rfl

theorem length_swapEntries (q : List Node) (i j : ℕ) :
    (swapEntries q i j).length = q.length := by
  have := congrArg List.length (swapEntries_node q i j)
  rwa [length_map, length_map] at this

theorem priorityAt_swapEntries {i j : ℕ} (hi : i < q.length) (hj : j < q.length) :
    priorityAt (swapEntries q i j) j = priorityAt q i := by
  unfold swapEntries
  rw [getElem?_eq_getElem hi, getElem?_eq_getElem hj]
  simp only
  rw [priorityAt_eq (getElem?_set_self (by simpa using hj)),
    priorityAt_eq (getElem?_eq_getElem hi)]
  rfl

theorem moveUp_untouched : ∀ (prev : ℕ) (q : List Node) (it k : ℕ), q[k]? = some n →
    it < q.length → prev ≤ it → (k < prev → priorityAt q it ≤ n.priority) →
    (k = it → ∀ j < prev, priorityAt q it ≤ priorityAt q j) → (moveUp q it prev)[k]? = some n
  | 0, _, _, _, hk, _, _, _, _ => hk
  | prev + 1, q, it, k, hk, hit, hle, hlt, heq => by
    unfold moveUp
    split_ifs with hswap
    · have hkp : k ≠ prev := by
        rintro rfl
        have := hlt (Nat.lt_succ_self k)
        rw [← priorityAt_eq hk] at this
        omega
      have hki : k ≠ it := fun h => by
        have := heq h prev (Nat.lt_succ_self prev)
        omega
      have hprev : prev < q.length := by omega
      refine moveUp_untouched prev _ prev k ?_ ?_ le_rfl (fun h => ?_) fun h => absurd h hkp
      · rwa [swapEntries_getElem? hki hkp]
      · rwa [length_swapEntries]
      · rw [priorityAt_swapEntries hit hprev]
        exact hlt (Nat.lt_succ_of_lt h)
    · exact moveUp_untouched prev q it k hk hit (by omega) (fun h => hlt (by omega))
        fun h j hj => heq h j (by omega)

def body (n : Node) : PrefetchInfo × Option ℕ × Bool :=
  (n.dp.pfInfo, n.dp.translationRequest, n.dp.ongoingTranslation)

theorem search_le (pfi : PrefetchInfo) (q : List Node) : (search pfi q 0).1 ≤ q.length := by
  rcases search_cases pfi q 0 with ⟨h, -⟩ | ⟨a, n, b, rfl, -, -, h⟩
  · rw [h, Nat.zero_add]
  · rw [h, List.length_append, length_cons]
    omega

theorem alreadyInQueue_stays (hstill : RaiseStill q pfi p) (hn : n ∈ q)
    (hongoing : n.dp.ongoingTranslation = true) :
    ∃ n' ∈ (alreadyInQueue q pfi p).1, n'.node = n.node ∧ body n' = body n := by
  have hle := search_le pfi q
  unfold alreadyInQueue
  unfold RaiseStill at hstill
  generalize search pfi q 0 = r at hstill hle ⊢
  obtain ⟨it, found⟩ := r
  simp only at hstill hle ⊢
  split_ifs with hraise
  · obtain ⟨hne, hlt⟩ := hraise
    have hstill := hstill hne hlt
    have hit : it < q.length := lt_of_le_of_ne hle hne
    obtain ⟨k, hk, rfl⟩ := mem_iff_getElem.1 hn
    have hget : (setPriority q it p)[k]? = some (if k = it then
        { q[k] with dp := { q[k].dp with priority := p } } else q[k]) := by
      rw [setPriority, getElem?_modify, getElem?_eq_getElem hk]
      by_cases h : k = it
      · simp [h]
      · simp [h, Ne.symm h]
    have hat : priorityAt (setPriority q it p) it = p := by
      refine priorityAt_eq (n := { q[it] with dp := { q[it].dp with priority := p } }) ?_
      simp [setPriority, hit]
    have hother : ∀ j < it, priorityAt (setPriority q it p) j = priorityAt q j := by
      intro j hj
      unfold priorityAt
      rw [setPriority, getElem?_modify]
      simp [show it ≠ j by omega]
    have hmem : ∀ j (hj : j < it), q[j] ∈ q.take it := fun j hj =>
      mem_take_iff_getElem.2 ⟨j, by omega, rfl⟩
    have hup := moveUp_untouched it _ it k hget (by simpa [setPriority] using hit) le_rfl
      (fun hlt => ?_) fun heq j hj => ?_
    · refine ⟨_, mem_of_getElem? hup, ?_⟩
      split_ifs <;> exact ⟨rfl, rfl⟩
    · rw [if_neg hlt.ne, hat]
      by_contra hpn
      have := (hstill _ (hmem k hlt) (not_le.1 hpn)).1
      simp [hongoing] at this
    · rw [hat, hother j hj]
      by_contra hpn
      have hj' : q[j].priority < p := by
        rwa [← priorityAt_eq (getElem?_eq_getElem (by omega)), ← not_le]
      have := (hstill _ (hmem j hj) hj').2 q[k] (by simp [heq])
      simp [hongoing] at this
  · exact ⟨n, hn, rfl, rfl⟩

theorem alreadyInQueue_body (q : List Node) (pfi : PrefetchInfo) (p : ℤ) :
    ((alreadyInQueue q pfi p).1.map body).Perm (q.map body) :=
  alreadyInQueue_perm (fun dp => (dp.pfInfo, dp.translationRequest, dp.ongoingTranslation))
    (fun _ _ => rfl) q pfi p

theorem makeRoom_stays {queueSize : ℕ} (hstill : RoomStill queueSize q)
    (h : makeRoom queueSize q = .ok q') (hn : n ∈ q) (hongoing : n.dp.ongoingTranslation = true) :
    n ∈ q' := by
  rcases makeRoom_cases h with ⟨-, rfl⟩ | ⟨hl, -, -, rfl⟩
  · exact hn
  · obtain ⟨k, hk, rfl⟩ := mem_iff_getElem.1 hn
    refine mem_eraseIdx_iff_getElem.2 ⟨k, hk, fun hv => ?_, rfl⟩
    have := hstill hl q[k] (by simp [← hv])
    simp [hongoing] at this

/-! ## The entries and the calls -/

/-- Every node is at an address of its own, and every entry that waits has a request of its own,
which is handed to the TLB once. The node that a translation was started for still has its entry. -/
structure Tracked (cfg : Config) (s : Queued) : Prop where
  nodes : ((s.pfq ++ s.pfqMissingTranslation).map Node.node).Nodup
  pending : ∀ n ∈ s.pfqMissingTranslation, ∃ r tr, n.dp.translationRequest = some r
    ∧ s.requests[r]? = some tr
    ∧ (cfg.useVirtualAddresses = true → tr.vaddr = n.dp.pfInfo.address)
  requests : (s.pfqMissingTranslation.map fun n => n.dp.translationRequest).Nodup
  called : (s.translating.map Call.node).Nodup
  calls : ∀ c ∈ s.translating, ∃ n ∈ s.pfqMissingTranslation, n.node = c.node
    ∧ n.dp.ongoingTranslation = true ∧ n.dp.translationRequest = some c.request
    ∧ ∃ tr, s.requests[c.request]? = some tr ∧ tr.vaddr = c.vaddr
  started : s.started.Nodup
  started_lt : ∀ r ∈ s.started, r < s.requests.length
  unstarted : ∀ n ∈ s.pfqMissingTranslation, n.dp.ongoingTranslation = false →
    ∀ r ∈ n.dp.translationRequest, r ∉ s.started

theorem init_tracked : Tracked cfg init where
  nodes := nodup_nil
  pending := by simp [init]
  requests := nodup_nil
  called := nodup_nil
  calls := by simp [init]
  started := nodup_nil
  started_lt := by simp [init]
  unstarted := by simp [init]

namespace Tracked

theorem missing_nodes (hs : Tracked cfg s) : (s.pfqMissingTranslation.map Node.node).Nodup := by
  have := hs.nodes
  rw [map_append] at this
  exact (nodup_append.1 this).2.1

theorem eq_of_node (hs : Tracked cfg s) (hn : n ∈ s.pfqMissingTranslation)
    (hm : m ∈ s.pfqMissingTranslation) (h : n.node = m.node) : n = m :=
  inj_on_of_nodup_map hs.missing_nodes hn hm h

theorem node_notMem_ready (hs : Tracked cfg s) (hn : n ∈ s.pfqMissingTranslation) :
    ∀ m ∈ s.pfq, m.node ≠ n.node := by
  have := hs.nodes
  rw [map_append] at this
  exact fun m hm h => (nodup_append.1 this).2.2 _ (mem_map_of_mem hm) _
    (mem_map_of_mem hn) h

theorem find_node (hs : Tracked cfg s) (hn : n ∈ s.pfqMissingTranslation) :
    s.pfqMissingTranslation.find? (·.node = n.node) = some n := by
  obtain ⟨a, b, hab⟩ := append_of_mem hn
  have hnodup := hs.missing_nodes
  rw [hab, map_append, map_cons] at hnodup
  refine find?_eq_some_iff_append.2 ⟨by simp, a, b, hab, fun m hm => ?_⟩
  have := (nodup_append.1 hnodup).2.2 _ (mem_map_of_mem hm) _ mem_cons_self
  simpa using this

theorem deref_node (hs : Tracked cfg s) (hn : n ∈ s.pfqMissingTranslation) :
    s.deref n.node = .ok n := by
  rw [deref_ok, find?_append, hs.find_node hn, Option.some_or]

theorem of_queues (hs : Tracked cfg s) (hrequests : s'.requests = s.requests)
    (htranslating : s'.translating = s.translating) (hstarted : s'.started = s.started)
    (hnodes : ((s'.pfq ++ s'.pfqMissingTranslation).map Node.node).Nodup)
    (hnodup : (s'.pfqMissingTranslation.map fun n => n.dp.translationRequest).Nodup)
    (hfrom : ∀ n' ∈ s'.pfqMissingTranslation, ∃ n ∈ s.pfqMissingTranslation, body n' = body n)
    (hstay : ∀ n ∈ s.pfqMissingTranslation, n.dp.ongoingTranslation = true →
      ∃ n' ∈ s'.pfqMissingTranslation, n'.node = n.node ∧ body n' = body n) : Tracked cfg s' where
  nodes := hnodes
  pending n' hn' := by
    obtain ⟨n, hn, hbody⟩ := hfrom n' hn'
    simp only [body, Prod.mk.injEq] at hbody
    rw [hbody.1, hbody.2.1, hrequests]
    exact hs.pending n hn
  requests := hnodup
  called := htranslating ▸ hs.called
  calls c hc := by
    rw [htranslating] at hc
    obtain ⟨n, hn, hnode, hongoing, hr, htr⟩ := hs.calls c hc
    obtain ⟨n', hn', hnode', hbody⟩ := hstay n hn hongoing
    simp only [body, Prod.mk.injEq] at hbody
    exact ⟨n', hn', hnode'.trans hnode, hbody.2.2.trans hongoing, hbody.2.1.trans hr,
      hrequests ▸ htr⟩
  started := hstarted ▸ hs.started
  started_lt := by
    rw [hstarted, hrequests]
    exact hs.started_lt
  unstarted n' hn' hongoing r hr := by
    obtain ⟨n, hn, hbody⟩ := hfrom n' hn'
    simp only [body, Prod.mk.injEq] at hbody
    rw [hstarted]
    exact hs.unstarted n hn (hbody.2.2 ▸ hongoing) r (hbody.2.1 ▸ hr)

theorem of_ready (hs : Tracked cfg s) {pfq : List Node} {allocs curTick : ℕ}
    (hnodes : ((pfq ++ s.pfqMissingTranslation).map Node.node).Nodup) :
    Tracked cfg { s with pfq, allocs, curTick } :=
  hs.of_queues rfl rfl rfl hnodes hs.requests (fun n hn => ⟨n, hn, rfl⟩)
    fun n hn _ => ⟨n, hn, rfl, rfl⟩

theorem of_ready_sublist (hs : Tracked cfg s) {pfq : List Node} (h : pfq.Sublist s.pfq) :
    Tracked cfg { s with pfq } :=
  hs.of_ready (hs.nodes.sublist ((h.append_right _).map _))

theorem addReady (hs : Tracked cfg s) (h : s.addReady cfg al dpp = .ok s') : Tracked cfg s' := by
  obtain ⟨pfq, hadd, rfl⟩ := addReady_cases h
  obtain ⟨q₁, hq₁, hperm, -⟩ := addToQueue_perm hadd
  refine hs.of_ready (((hperm.append_right _).map _).nodup_iff.2 ?_)
  refine List.nodup_cons.2 ⟨?_, hs.nodes.sublist ((hq₁.append_right _).map _)⟩
  exact fresh_of_subset (List.Subset.refl _)

theorem push (hs : Tracked cfg s) {tr : TranslationRequest} {allocs : ℕ}
    (hperm : q'.Perm (n :: s.pfqMissingTranslation))
    (hfresh : n.node ∉ (s.pfq ++ s.pfqMissingTranslation).map Node.node)
    (hreq : n.dp.translationRequest = some s.requests.length)
    (hongoing : n.dp.ongoingTranslation = false)
    (hvaddr : cfg.useVirtualAddresses = true → tr.vaddr = n.dp.pfInfo.address) :
    Tracked cfg { s with
      requests := s.requests ++ [tr]
      pfqMissingTranslation := q'
      allocs } where
  nodes := by
    refine (((hperm.append_left s.pfq).trans perm_middle).map _).nodup_iff.2 ?_
    exact List.nodup_cons.2 ⟨hfresh, hs.nodes⟩
  pending n' hn' := by
    rcases mem_cons.1 (hperm.mem_iff.1 hn') with rfl | hn'
    · exact ⟨_, tr, hreq, by simp, hvaddr⟩
    · obtain ⟨r, tr', hr, htr', hv⟩ := hs.pending n' hn'
      refine ⟨r, tr', hr, ?_, hv⟩
      exact List.getElem?_append_left (List.getElem?_eq_some_iff.1 htr').1 ▸ htr'
  requests := by
    refine (hperm.map _).nodup_iff.2 (List.nodup_cons.2 ⟨fun hmem => ?_, hs.requests⟩)
    obtain ⟨n', hn', hr'⟩ := List.mem_map.1 hmem
    obtain ⟨r, tr', hr, htr', -⟩ := hs.pending n' hn'
    have hlt := (List.getElem?_eq_some_iff.1 htr').1
    have hr' : n'.dp.translationRequest = n.dp.translationRequest := hr'
    rw [hr, hreq] at hr'
    have := Option.some.inj hr'
    omega
  called := hs.called
  calls c hc := by
    obtain ⟨n', hn', hnode, hon, hr, tr', htr', hv⟩ := hs.calls c hc
    refine ⟨n', hperm.mem_iff.2 (mem_cons_of_mem _ hn'), hnode, hon, hr, tr', ?_, hv⟩
    exact List.getElem?_append_left (List.getElem?_eq_some_iff.1 htr').1 ▸ htr'
  started := hs.started
  started_lt r hr := by
    rw [List.length_append]
    exact Nat.lt_add_right _ (hs.started_lt r hr)
  unstarted n' hn' hon r hr := by
    rcases mem_cons.1 (hperm.mem_iff.1 hn') with rfl | hn'
    · intro hstarted
      have hlt := hs.started_lt r hstarted
      have : s.requests.length = r := Option.some.inj (hreq.symm.trans hr)
      omega
    · exact hs.unstarted n' hn' hon r hr

theorem target_vaddr {a : ℕ} (hv : cfg.useVirtualAddresses = true)
    (h : target cfg req pfi = .ok (.vaddr a)) : a = pfi.address := by
  obtain ⟨orig, -, h⟩ := bind_ok.1 h
  simp only [hv, if_true] at h
  split_ifs at h <;> cases h
  rfl

theorem createPrefetchRequest_vaddr {a : ℕ} {tr : TranslationRequest}
    (h : createPrefetchRequest cfg a pfi req = .ok tr) : tr.vaddr = a := by
  unfold createPrefetchRequest at h
  split at h <;> cases h
  rfl

theorem insertNew (hs : Tracked cfg s) (hstill : Gives (target cfg req pfi) fun t =>
      t.isVaddr = true → RoomStill cfg.queueSize s.pfqMissingTranslation)
    (h : s.insertNew cfg al cached req pfi p = .ok s') : Tracked cfg s' := by
  rcases insertNew_cases h with rfl | ⟨a, -, -, h⟩ | ⟨a, tr, ht, htr, h⟩
  · exact hs
  · exact hs.addReady h
  · obtain ⟨missing, hadd, rfl⟩ := addMissing_cases h
    obtain ⟨q₁, hroom, rfl⟩ := addToQueue_cases hadd
    have hsub := makeRoom_sublist hroom
    have hstill := hstill.result ht rfl
    have hevict : Tracked cfg { s with pfqMissingTranslation := q₁ } :=
      hs.of_queues rfl rfl rfl (hs.nodes.sublist ((hsub.append_left _).map _))
        (hs.requests.sublist (hsub.map _)) (fun n hn => ⟨n, hsub.subset hn, rfl⟩)
        fun n hn hon => ⟨n, makeRoom_stays hstill hroom hn hon, rfl, rfl⟩
    refine hevict.push (emplace_perm _ _) ?_ rfl rfl fun hv => ?_
    · exact fresh_of_subset (List.Subset.refl _)
    · exact (createPrefetchRequest_vaddr htr).trans (target_vaddr hv ht)

theorem insert (hs : Tracked cfg s) (hstill : Undisturbed cfg s (.insert cached req pfi p))
    (h : s.insert cfg al cached req pfi p = .ok s') : Tracked cfg s' := by
  obtain ⟨hraise, hroom⟩ := hstill
  by_cases hfilter : cfg.queueFilter = true
  · rcases insert_cases hfilter h with rfl | ⟨habs, rfl⟩ | ⟨hpfq, hmiss, h⟩
    · refine hs.of_ready ?_
      rw [map_append, alreadyInQueue_node, ← map_append]
      exact hs.nodes
    · have hraise := hraise hfilter (Ordered.search_absent habs)
      have hperm := alreadyInQueue_body s.pfqMissingTranslation pfi p
      refine hs.of_queues rfl rfl rfl ?_ ?_ (fun n' hn' => ?_) fun n hn hon =>
        alreadyInQueue_stays hraise hn hon
      · rw [map_append, alreadyInQueue_node, ← map_append]
        exact hs.nodes
      · have hreq := hperm.map fun b => b.2.1
        simp only [map_map] at hreq
        exact hreq.nodup_iff.2 hs.requests
      · obtain ⟨n, hn, hbody⟩ := List.mem_map.1 (hperm.mem_iff.1 (mem_map_of_mem hn'))
        exact ⟨n, hn, hbody.symm⟩
    · exact hs.insertNew (hroom fun _ =>
        ⟨Ordered.search_absent hpfq, Ordered.search_absent hmiss⟩) h
  · unfold Queued.insert at h
    rw [if_neg hfilter] at h
    exact hs.insertNew (hroom fun hf => absurd hf hfilter) h

end Tracked

/-! ## A translation is started -/

theorem mem_setOngoing {b : Bool} : n ∈ Queued.setOngoing node b q ↔ ∃ m ∈ q,
    (if m.node = node then { m with dp := { m.dp with ongoingTranslation := b } } else m) = n :=
  List.mem_map

theorem setOngoing_of_ne {b : Bool} (h : ∀ m ∈ q, m.node ≠ node) :
    Queued.setOngoing node b q = q := by
  unfold Queued.setOngoing
  refine (map_congr_left fun m hm => ?_).trans (map_id q)
  rw [if_neg (h m hm)]
  rfl

theorem Tracked.translateTiming (hs : Tracked cfg s) (hn : n ∈ s.pfqMissingTranslation)
    (hon : n.dp.ongoingTranslation = false) {r : ℕ} (hr : n.dp.translationRequest = some r) :
    Tracked cfg (s.translateTiming (s.call n r)) := by
  obtain ⟨r₁, tr, hr₁, htr, -⟩ := hs.pending n hn
  obtain rfl : r = r₁ := Option.some.inj (hr.symm.trans hr₁)
  have hmem : { n with dp := { n.dp with ongoingTranslation := true } }
      ∈ Queued.setOngoing n.node true s.pfqMissingTranslation :=
    mem_setOngoing.2 ⟨n, hn, if_pos rfl⟩
  refine ⟨?_, fun n' hn' => ?_, ?_, ?_, fun c hc => ?_, ?_, fun r' hr' => ?_,
    fun n' hn' hon' r' hr' => ?_⟩
  · have := hs.nodes
    rw [map_append] at this ⊢
    rwa [Queued.translateTiming, setOngoing_map _ fun _ _ => rfl]
  · obtain ⟨m, hm, rfl⟩ := mem_setOngoing.1 hn'
    have := hs.pending m hm
    split_ifs <;> exact this
  · have := hs.requests
    rwa [← setOngoing_map (fun n : Node => n.dp.translationRequest) (fun _ _ => rfl) n.node true]
      at this
  · -- the TLB has no other translation for this node
    refine (map_append ▸ nodup_append.2 ⟨hs.called, nodup_singleton _, ?_⟩)
    intro x hx y hy hxy
    obtain ⟨c, hc, rfl⟩ := List.mem_map.1 hx
    obtain rfl : y = n.node := mem_singleton.1 hy
    obtain ⟨m, hm, hnode, hm_on, -⟩ := hs.calls c hc
    obtain rfl := hs.eq_of_node hm hn (hnode.trans hxy)
    simp [hon] at hm_on
  · rcases List.mem_append.1 hc with hc | hc
    · obtain ⟨m, hm, hnode, hm_on, hreq, htr'⟩ := hs.calls c hc
      refine ⟨m, mem_setOngoing.2 ⟨m, hm, ?_⟩, hnode, hm_on, hreq, htr'⟩
      split_ifs with heq
      · obtain rfl := hs.eq_of_node hm hn heq
        simp [hon] at hm_on
      · rfl
    · obtain rfl := mem_singleton.1 hc
      refine ⟨_, hmem, rfl, rfl, hr, tr, htr, ?_⟩
      simp [Queued.call, htr]
  · refine nodup_append.2 ⟨hs.started, nodup_singleton _, fun x hx y hy hxy => ?_⟩
    obtain rfl : y = r := mem_singleton.1 hy
    exact hs.unstarted n hn hon y hr (hxy ▸ hx)
  · rcases List.mem_append.1 hr' with hr' | hr'
    · exact hs.started_lt r' hr'
    · obtain rfl : r' = r := mem_singleton.1 hr'
      exact (List.getElem?_eq_some_iff.1 htr).1
  · obtain ⟨m, hm, rfl⟩ := mem_setOngoing.1 hn'
    split_ifs at hon' hr' with heq
    intro hstarted
    rcases List.mem_append.1 hstarted with hstarted | hstarted
    · exact hs.unstarted m hm hon' r' hr' hstarted
    · obtain rfl : r' = r := mem_singleton.1 hstarted
      have : m = n := inj_on_of_nodup_map hs.requests hm hn (hr'.trans hr.symm)
      exact heq (congrArg Node.node this)

/-! ## A translation is complete -/

theorem length_resolve (s : Queued) (r : ℕ) (paddr : Option ℕ) :
    (s.resolve r paddr).length = s.requests.length :=
  length_modify ..

theorem resolve_getElem? (r : ℕ) (paddr : Option ℕ) {k : ℕ} {tr : TranslationRequest}
    (h : s.requests[k]? = some tr) :
    (s.resolve r paddr)[k]?
      = some (if k = r then { tr with paddr := paddr.or tr.paddr } else tr) := by
  rw [Queued.resolve, getElem?_modify, h]
  by_cases hk : k = r
  · simp [hk]
  · simp [hk, Ne.symm hk]

theorem resolve_vaddr (r : ℕ) (paddr : Option ℕ) {k : ℕ} {tr : TranslationRequest}
    (h : s.requests[k]? = some tr) :
    ∃ tr', (s.resolve r paddr)[k]? = some tr' ∧ tr'.vaddr = tr.vaddr := by
  refine ⟨_, resolve_getElem? r paddr h, ?_⟩
  split_ifs <;> rfl

theorem eraseP_setOngoing (node : ℕ) (b : Bool) (hq : (q.map Node.node).Nodup) :
    (Queued.setOngoing node b q).eraseP (·.node = node) = q.eraseP (·.node = node) := by
  induction q with
  | nil => rfl
  | cons m q ih =>
    obtain ⟨hm, hq⟩ := List.nodup_cons.1 hq
    by_cases h : m.node = node
    · have hne : ∀ m' ∈ q, m'.node ≠ node := fun m' hm' heq =>
        hm (List.mem_map.2 ⟨m', hm', heq.trans h.symm⟩)
      have htail := setOngoing_of_ne (b := b) hne
      simp only [Queued.setOngoing, map_cons, if_pos h] at htail ⊢
      rw [eraseP_cons_of_pos (by simpa using h), eraseP_cons_of_pos (by simpa using h),
        htail]
    · have ih := ih hq
      simp only [Queued.setOngoing, map_cons, if_neg h] at ih ⊢
      rw [eraseP_cons_of_neg (by simpa using h), eraseP_cons_of_neg (by simpa using h),
        ih]

def finished (s : Queued) (c : Call) (paddr : Option ℕ) : Queued :=
  { s with
    translating := s.translating.erase c
    requests := s.resolve c.request paddr
    pfqMissingTranslation := Queued.setOngoing c.node false s.pfqMissingTranslation }

def outcome (cfg : Config) (cached : ℕ → Bool → Bool) (tick : ℕ) (n : Node) :
    Option ℕ → Option DeferredPacket
  | none => none
  | some a =>
    if Queued.redundant cfg cached a n.dp.pfInfo.secure then none
    else some (DeferredPacket.createPkt { n.dp with ongoingTranslation := false } cfg a tick)

namespace Tracked

theorem finish_eq (hs : Tracked cfg s) (hn : n ∈ s.pfqMissingTranslation)
    (hnode : n.node = c.node) (hon : n.dp.ongoingTranslation = true) :
    s.finish c paddr = .ok (finished s c paddr) := by
  have hpfq : Queued.setOngoing c.node false s.pfq = s.pfq :=
    setOngoing_of_ne fun m hm => hnode ▸ hs.node_notMem_ready hn m hm
  have hderef : Queued.deref { s with
      translating := s.translating.erase c
      requests := s.resolve c.request paddr } c.node = .ok n := by
    rw [← hnode]
    exact hs.deref_node hn
  unfold Queued.finish
  simp only [hderef, ok_bind, require_of hon, hpfq]
  rfl

theorem find_finished (hs : Tracked cfg s) (hn : n ∈ s.pfqMissingTranslation)
    (hnode : n.node = c.node) : (finished s c paddr).pfqMissingTranslation.find? (·.node = c.node)
      = some { n with dp := { n.dp with ongoingTranslation := false } } := by
  have hfind := hs.find_node hn
  rw [hnode] at hfind
  have hcomp : ((fun m : Node => decide (m.node = c.node)) ∘ fun m =>
      if m.node = c.node then { m with dp := { m.dp with ongoingTranslation := false } } else m)
      = fun m => decide (m.node = c.node) := by
    funext m
    simp only [Function.comp_apply]
    split_ifs <;> rfl
  unfold finished Queued.setOngoing
  rw [find?_map, hcomp, hfind, Option.map_some, if_pos hnode]

theorem translated_finished {tr : TranslationRequest} {a : ℕ}
    (htr : s.requests[c.request]? = some tr) (hr : n.dp.translationRequest = some c.request) :
    (finished s c (some a)).translated cfg cached
      { n with dp := { n.dp with ongoingTranslation := false } }
      = .ok (outcome cfg cached (s.curTick + cfg.latency) n (some a)) := by
  have hreq : (finished s c (some a)).requests[c.request]? = some { tr with paddr := some a } := by
    have := resolve_getElem? c.request (some a) htr
    rwa [if_pos rfl, Option.some_or] at this
  have hbind : (n.dp.translationRequest >>= fun r => (finished s c (some a)).requests[r]?)
      = some { tr with paddr := some a } := by
    rwa [hr]
  unfold Queued.translated outcome
  simp only [hbind]
  split_ifs <;> rfl

/-- The entry that a translation was started for is removed, and what the translation lets into the
ready queue is that entry's. -/
theorem complete_eq (hs : Tracked cfg s) (hc : c ∈ s.translating) (hn : n ∈ s.pfqMissingTranslation)
    (hnode : n.node = c.node) (hon : n.dp.ongoingTranslation = true)
    (hr : n.dp.translationRequest = some c.request) :
    s.complete cfg al cached c paddr = ((finished s c paddr).land cfg al
      (outcome cfg cached (s.curTick + cfg.latency) n paddr) >>= fun s =>
        .ok (s.removeMissing c.node)) := by
  obtain ⟨-, -, -, -, -, tr, htr, -⟩ := hs.calls c hc
  unfold Queued.complete
  rw [hs.finish_eq hn hnode hon, ok_bind]
  unfold Queued.translationComplete
  rw [hs.find_finished hn hnode]
  rcases paddr with _ | a
  · rfl
  · simp only [Option.isNone_some, Bool.false_eq_true, if_false, translated_finished htr hr,
      ok_bind]
    rfl

theorem remove (hs : Tracked cfg s) (hc : c ∈ s.translating) {pfq : List Node} {allocs : ℕ}
    (hnodes : ((pfq ++ s.pfqMissingTranslation.eraseP (·.node = c.node)).map Node.node).Nodup) :
    Tracked cfg ({ finished s c paddr with pfq, allocs }.removeMissing c.node) := by
  have hsub : (s.pfqMissingTranslation.eraseP (·.node = c.node)).Sublist s.pfqMissingTranslation :=
    eraseP_sublist
  have herase := eraseP_setOngoing c.node false hs.missing_nodes
  unfold Queued.removeMissing finished
  simp only [herase]
  refine ⟨hnodes, fun n hn => ?_, hs.requests.sublist (hsub.map _), ?_, fun c' hc' => ?_,
    hs.started, fun r hr => ?_, fun n hn => hs.unstarted n (hsub.subset hn)⟩
  · obtain ⟨r, tr, hr, htr, hv⟩ := hs.pending n (hsub.subset hn)
    obtain ⟨tr', htr', hv'⟩ := resolve_vaddr c.request paddr htr
    exact ⟨r, tr', hr, htr', fun h => hv'.trans (hv h)⟩
  · exact hs.called.sublist (erase_sublist.map _)
  · have hnodup : s.translating.Nodup := List.Nodup.of_map _ hs.called
    obtain ⟨hne, hc'⟩ := (hnodup.mem_erase_iff).1 hc'
    obtain ⟨n, hn, hnode, hon, hr, tr, htr, hv⟩ := hs.calls c' hc'
    have hne : n.node ≠ c.node := fun h =>
      hne (inj_on_of_nodup_map hs.called hc' hc (hnode.symm.trans h))
    obtain ⟨tr', htr', hv'⟩ := resolve_vaddr c.request paddr htr
    exact ⟨n, (mem_eraseP_of_neg (by simpa using hne)).2 hn, hnode, hon, hr, tr', htr',
      hv'.trans hv⟩
  · rw [length_resolve]
    exact hs.started_lt r hr

theorem complete (hs : Tracked cfg s) (hc : c ∈ s.translating)
    (h : s.complete cfg al cached c paddr = .ok s') : Tracked cfg s' := by
  obtain ⟨n, hn, hnode, hon, hr, -⟩ := hs.calls c hc
  rw [hs.complete_eq hc hn hnode hon hr] at h
  obtain ⟨s₁, hland, rfl⟩ := bind_pure_ok.1 h
  have hsub : (s.pfqMissingTranslation.eraseP (·.node = c.node)).Sublist s.pfqMissingTranslation :=
    eraseP_sublist
  rcases hout : outcome cfg cached (s.curTick + cfg.latency) n paddr with _ | d
  · rw [hout] at hland
    cases hland
    exact hs.remove hc (hs.nodes.sublist ((hsub.append_left _).map _))
  · rw [hout] at hland
    obtain ⟨pfq, hadd, rfl⟩ := addReady_cases hland
    obtain ⟨q₁, hq₁, hperm, -⟩ := addToQueue_perm hadd
    refine hs.remove hc (((hperm.append_right _).map _).nodup_iff.2 ?_)
    have hlive : (q₁ ++ s.pfqMissingTranslation.eraseP (·.node = c.node)).map Node.node
        ⊆ (q₁ ++ (finished s c paddr).pfqMissingTranslation).map Node.node := by
      rw [map_append, map_append, finished, setOngoing_map _ fun _ _ => rfl]
      exact append_subset.2 ⟨subset_append_left _ _,
        List.Subset.trans (hsub.map _).subset (subset_append_right _ _)⟩
    exact List.nodup_cons.2 ⟨fun hmem => al.fresh _ _ (hlive hmem),
      hs.nodes.sublist ((hq₁.append hsub).map _)⟩

theorem startTranslation (hs : Tracked cfg s)
    (hnode : node ∈ s.pfqMissingTranslation.map Node.node)
    (h : Queued.startTranslation cfg al tlb cached s node = .ok s') : Tracked cfg s' := by
  obtain ⟨n, hn, rfl⟩ := List.mem_map.1 hnode
  obtain ⟨n', r, hderef, hr, rfl | ⟨hon, hcall⟩⟩ := startTranslation_cases h
  · exact hs
  · obtain rfl := Except.ok.inj ((hs.deref_node hn).symm.trans hderef)
    have ht := hs.translateTiming hn hon hr
    rcases hcall with rfl | ⟨paddr, -, h⟩
    · exact ht
    · exact ht.complete (List.mem_append.2 (.inr (mem_singleton.2 rfl))) h

end Tracked

theorem complete_others (h : s.complete cfg al cached c paddr = .ok s') {other : ℕ}
    (hne : other ≠ c.node) (hmem : other ∈ s.pfqMissingTranslation.map Node.node) :
    other ∈ s'.pfqMissingTranslation.map Node.node := by
  obtain ⟨s₁, hs₁, h⟩ := complete_cases h
  have hmem₁ : other ∈ s₁.pfqMissingTranslation.map Node.node := by
    obtain ⟨n, -, -, rfl⟩ := finish_cases hs₁
    rwa [setOngoing_map _ fun _ _ => rfl]
  have hkeep : other ∈ (s₁.pfqMissingTranslation.eraseP (·.node = c.node)).map Node.node := by
    obtain ⟨n, hn, rfl⟩ := List.mem_map.1 hmem₁
    exact mem_map_of_mem ((mem_eraseP_of_neg (by simpa using hne)).2 hn)
  obtain ⟨n, -, rfl | ⟨-, d, s₂, -, hs₂, rfl⟩⟩ := translationComplete_cases h
  · exact hkeep
  · obtain ⟨pfq, -, rfl⟩ := addReady_cases hs₂
    exact hkeep

theorem startTranslation_others (h : Queued.startTranslation cfg al tlb cached s node = .ok s')
    {other : ℕ} (hne : other ≠ node) (hmem : other ∈ s.pfqMissingTranslation.map Node.node) :
    other ∈ s'.pfqMissingTranslation.map Node.node := by
  obtain ⟨n, r, hderef, -, rfl | ⟨-, hcall⟩⟩ := startTranslation_cases h
  · exact hmem
  · have hnode : n.node = node := by simpa using find?_some (deref_ok.1 hderef)
    have hmem₁ : other ∈ (s.translateTiming (s.call n r)).pfqMissingTranslation.map Node.node := by
      rwa [Queued.translateTiming, setOngoing_map _ fun _ _ => rfl]
    rcases hcall with rfl | ⟨paddr, -, h⟩
    · exact hmem₁
    · exact complete_others h (by rwa [Queued.call, hnode]) hmem₁

theorem admits_waiting : ∀ {nodes : List ℕ} {s : Queued}, nodes.Nodup →
    (∀ node ∈ nodes, node ∈ s.pfqMissingTranslation.map Node.node) →
    Admits (Queued.startTranslation cfg al tlb cached)
      (fun s node => node ∈ s.pfqMissingTranslation.map Node.node) s nodes
  | [], _, _, _ => trivial
  | node :: nodes, s, hnodup, hmem => by
    obtain ⟨hnot, hnodup⟩ := List.nodup_cons.1 hnodup
    obtain ⟨hnode, hmem⟩ := forall_mem_cons.1 hmem
    refine ⟨hnode, fun s' hs' => admits_waiting hnodup fun other hother => ?_⟩
    exact startTranslation_others hs' (fun h => hnot (h ▸ hother)) (hmem other hother)

theorem Tracked.admits (hs : Tracked cfg s) (max : ℕ) :
    Admits (Queued.startTranslation cfg al tlb cached)
      (fun s node => node ∈ s.pfqMissingTranslation.map Node.node) s
      ((s.pfqMissingTranslation.take max).map Node.node) := by
  have hsub := (take_sublist max s.pfqMissingTranslation).map Node.node
  exact admits_waiting (hs.missing_nodes.sublist hsub) fun node hnode => hsub.subset hnode

theorem Tracked.popFront (hs : Tracked cfg s) : Tracked cfg (s.popFront s.pfq.tail) :=
  hs.of_ready_sublist (tail_sublist _)

theorem Tracked.getPacket (hs : Tracked cfg s) {pkt : Option PrefetchPacket}
    (h : s.getPacket cfg al tlb cached = .ok (pkt, s')) : Tracked cfg s' :=
  getPacket_keeps (fun _ _ _ hs hnode h => hs.startTranslation hnode h) (fun _ hs => hs.popFront)
    (fun _ => hs.admits _) (fun _ hs₁ _ _ => hs₁.popFront.admits _) hs h

theorem Tracked.step (hs : Tracked cfg s) {o : Op} (hstill : Undisturbed cfg s o)
    (h : Prefetch.step cfg al s o = .ok s') : Tracked cfg s' := by
  rcases o with ⟨cached, req, pfi, p⟩ | ⟨tlb, cached⟩ | ⟨call, cached, paddr⟩ | ⟨a, secure⟩ | ticks
  · exact hs.insert hstill h
  · obtain ⟨⟨pkt, s₁⟩, hget, h⟩ := bind_ok.1 h
    cases h
    exact hs.getPacket hget
  · simp only [Prefetch.step] at h
    split_ifs at h with hcall
    exact hs.complete hcall h
  · cases h
    unfold Queued.squash
    split_ifs
    · exact hs.of_ready_sublist filter_sublist
    · exact hs
  · cases h
    exact hs.of_ready hs.nodes

theorem addReady_mem (al : Allocator) (dpp : DeferredPacket)
    (hroom : s.pfq.length = cfg.queueSize → 2 ≤ cfg.queueSize) :
    ∃ s', s.addReady cfg al dpp = .ok s' ∧ s'.pfqMissingTranslation = s.pfqMissingTranslation
      ∧ ∃ n ∈ s'.pfq, n.dp = dpp := by
  have hok : ∃ q₁, makeRoom cfg.queueSize s.pfq = .ok q₁ := by
    unfold makeRoom
    split_ifs with hl
    · have hsize := hroom hl
      have hne : s.pfq ≠ [] := fun h => by
        rw [h] at hl
        simp only [length_nil] at hl
        omega
      simp only [panicIf, if_neg hne, if_neg (show s.pfq.length ≠ 1 by omega), ok_bind]
      exact ⟨_, rfl⟩
    · exact ⟨_, rfl⟩
  obtain ⟨q₁, hq₁⟩ := hok
  let new : Node := ⟨al.address s.allocs ((q₁ ++ s.pfqMissingTranslation).map Node.node), dpp⟩
  refine ⟨{ s with pfq := emplace q₁ new, allocs := s.allocs + 1 }, ?_, rfl, new, ?_, rfl⟩
  · simp only [Queued.addReady, addToQueue, hq₁, ok_bind]
    rfl
  · exact (emplace_perm q₁ new).mem_iff.2 mem_cons_self

/-- In every run in which no entry that is being translated is moved or given up, no request is
handed to the TLB twice, and every translation under way has its entry: with its request and the
virtual address it was started for. Whatever the TLB answers, that entry is removed, and a prefetch
that this lets into the ready queue is for the entry's address and the physical address that the TLB
has found for it. Only a ready queue that is full with one place or none cannot take it. -/
theorem translation_finds_entry {ops : List Op}
    (hadm : Admits (step cfg al) (Undisturbed cfg) init ops)
    (hrun : run (step cfg al) init ops = .ok s) :
    s.started.Nodup
    ∧ (s.pfqMissingTranslation.map fun n => n.dp.translationRequest).Nodup
    ∧ ∀ c ∈ s.translating, ∃ n ∈ s.pfqMissingTranslation, n.node = c.node
      ∧ n.dp.translationRequest = some c.request
      ∧ (∃ tr, s.requests[c.request]? = some tr ∧ tr.vaddr = c.vaddr)
      ∧ (cfg.useVirtualAddresses = true → n.dp.pfInfo.address = c.vaddr)
      ∧ ∀ cached paddr, (s.pfq.length = cfg.queueSize → 2 ≤ cfg.queueSize) →
        ∃ s', step cfg al s (.translated c cached paddr) = .ok s'
          ∧ s'.pfqMissingTranslation = s.pfqMissingTranslation.eraseP (·.node = c.node)
          ∧ match outcome cfg cached (s.curTick + cfg.latency) n paddr with
            | none => s'.pfq = s.pfq
            | some dp => ∃ n' ∈ s'.pfq, n'.dp = dp := by
  have hs : Tracked cfg s :=
    Admits.inv (fun _ _ _ hs hstill h => hs.step hstill h) hadm init_tracked hrun
  refine ⟨hs.started, hs.requests, fun c hc => ?_⟩
  obtain ⟨n, hn, hnode, hon, hr, tr, htr, hv⟩ := hs.calls c hc
  refine ⟨n, hn, hnode, hr, ⟨tr, htr, hv⟩, fun hvirt => ?_, fun cached paddr hroom => ?_⟩
  · obtain ⟨r, tr', hr', htr', hv'⟩ := hs.pending n hn
    obtain rfl : c.request = r := Option.some.inj (hr.symm.trans hr')
    obtain rfl := Option.some.inj (htr.symm.trans htr')
    exact (hv' hvirt).symm.trans hv
  · have herase := eraseP_setOngoing c.node false hs.missing_nodes
    simp only [Prefetch.step, if_pos hc]
    rw [hs.complete_eq hc hn hnode hon hr]
    rcases outcome cfg cached (s.curTick + cfg.latency) n paddr with _ | dp
    · exact ⟨_, rfl, herase, rfl⟩
    · obtain ⟨s₁, hs₁, hmissing, hmem⟩ :=
        addReady_mem (s := finished s c paddr) al dp hroom
      refine ⟨s₁.removeMissing c.node, ?_, ?_, hmem⟩
      · simp only [Queued.land, hs₁, ok_bind]
      · rwa [Queued.removeMissing, hmissing]

def twoEntries : Config :=
  ⟨2, 0, true, true, false, false, true, 64, 4096, 0⟩

/-- A request for a block of the n-th page, from an access to another page. -/
def pageRequest (n : ℕ) (p : ℤ) : Op :=
  .insert (fun _ _ => false) ⟨0, some 0, 0, some 0⟩ ⟨4096 * n, false, some 0⟩ p

def issue : Op := .getPacket (fun _ => none) fun _ _ => false

def undisturbedOps : List Op :=
  [pageRequest 1 1, pageRequest 2 0, issue, .translated ⟨1, 0, 4096⟩ (fun _ _ => false) (some 64)]

theorem undisturbedOps_run : Ends (run (step twoEntries .behind) init undisturbedOps)
    fun s => s.translating = [⟨2, 1, 8192⟩] ∧ s.pfq.map (fun n => n.dp.pkt.map PrefetchPacket.paddr)
      = [some 64] := by
  decide +kernel

theorem translation_finds_undisturbedOps :
    ∃ s, run (step twoEntries .behind) init undisturbedOps = .ok s ∧
      ∃ n ∈ s.pfqMissingTranslation, n.node = 2 ∧ n.dp.pfInfo.address = 8192 := by
  obtain ⟨s, hs, hcalls, -⟩ := undisturbedOps_run.exists
  obtain ⟨-, -, h⟩ := translation_finds_entry (by decide +kernel) hs
  have hmem : (⟨2, 1, 8192⟩ : Call) ∈ s.translating := by
    rw [hcalls]
    exact mem_singleton.2 rfl
  obtain ⟨n, hn, hnode, -, -, hv, -⟩ := h _ hmem
  exact ⟨s, hs, n, hn, hnode, hv rfl⟩

/-- Two translations are under way. A repeated request for the first address swaps the entries, and
the first translation finds the second one's request, which has no physical address. Or a third
request deletes the first entry, and the translation calls back where it was. -/
theorem translation_disturbed :
    EndsUnless (.assertion "hasPaddr()") (run (step twoEntries .behind) init
      [pageRequest 1 1, pageRequest 2 0, issue, pageRequest 1 5,
        .translated ⟨1, 0, 4096⟩ (fun _ _ => false) (some 64)]) (fun _ => False)
    ∧ EndsUnless (.undefined "access to a deleted DeferredPacket")
      (run (step twoEntries .behind) init [pageRequest 1 0, pageRequest 2 0, issue, pageRequest 3 0,
        .translated ⟨1, 0, 4096⟩ (fun _ _ => false) (some 64)]) (fun _ => False) := by
  decide +kernel

end Gem5.Prefetch
