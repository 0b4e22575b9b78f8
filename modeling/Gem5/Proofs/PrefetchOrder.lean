import Gem5.Proofs.PrefetchQueue

/-!
# The order of the prefetch queue

Whatever its order, a queue holds no address twice and never more entries than its size (`Kept`).
As long as every entry that is added or raised fits, both queues stay sorted by priority, and the
entries of one priority leave in the order they came in (`Follows`, `queue_discipline_iff`).
-/

namespace Gem5.Prefetch

open Machine Ranked List

variable {cfg : Config} {al : Allocator} {s s' s₀ : Queued} {q q' q₀ : List Node} {n : Node}
  {dpp : DeferredPacket} {queueSize : ℕ} {alloc : List Node → ℕ} {cached : ℕ → Bool → Bool}
  {tlb : ℕ → Option (Option ℕ)} {req : TrainingRequest} {pfi : PrefetchInfo} {p : ℤ}

/-! ## What each function does -/

theorem addToQueue_cases (h : addToQueue queueSize alloc q dpp = .ok q') :
    ∃ q₁, makeRoom queueSize q = .ok q₁ ∧ q' = emplace q₁ ⟨alloc q₁, dpp⟩ := by
  obtain ⟨q₁, h₁, h⟩ := bind_ok.1 h
  exact ⟨q₁, h₁, (Except.ok.inj h).symm⟩

theorem addToQueue_perm (h : addToQueue queueSize alloc q dpp = .ok q') :
    ∃ q₁, q₁.Sublist q ∧ q'.Perm (⟨alloc q₁, dpp⟩ :: q₁)
      ∧ (q.length ≤ queueSize → q'.length ≤ queueSize) := by
  obtain ⟨q₁, hroom, rfl⟩ := addToQueue_cases h
  have hperm := emplace_perm q₁ ⟨alloc q₁, dpp⟩
  refine ⟨q₁, makeRoom_sublist hroom, hperm, fun hq => ?_⟩
  rw [hperm.length_eq, length_cons]
  exact makeRoom_length hq hroom

theorem fresh_of_subset {k : ℕ} (h : q ⊆ q') :
    al.address k (q'.map Node.node) ∉ q.map Node.node :=
  fun hmem => al.fresh k _ (map_subset _ h hmem)

theorem addReady_cases (h : s.addReady cfg al dpp = .ok s') : ∃ pfq,
    addToQueue cfg.queueSize
      (fun q => al.address s.allocs ((q ++ s.pfqMissingTranslation).map Node.node)) s.pfq dpp
        = .ok pfq
    ∧ s' = { s with pfq, allocs := s.allocs + 1 } := by
  obtain ⟨pfq, hadd, h⟩ := bind_ok.1 h
  exact ⟨pfq, hadd, (Except.ok.inj h).symm⟩

theorem addMissing_cases (h : s.addMissing cfg al dpp = .ok s') : ∃ pfqMissingTranslation,
    addToQueue cfg.queueSize (fun q => al.address s.allocs ((s.pfq ++ q).map Node.node))
      s.pfqMissingTranslation dpp = .ok pfqMissingTranslation
    ∧ s' = { s with pfqMissingTranslation, allocs := s.allocs + 1 } := by
  obtain ⟨q, hadd, h⟩ := bind_ok.1 h
  exact ⟨q, hadd, (Except.ok.inj h).symm⟩

theorem insertNew_cases (h : s.insertNew cfg al cached req pfi p = .ok s') :
    s' = s
    ∨ (∃ a, target cfg req pfi = .ok (.paddr a) ∧ Queued.redundant cfg cached a pfi.secure = false
      ∧ s.addReady cfg al (DeferredPacket.createPkt ⟨pfi, 0, none, p, none, none, false⟩ cfg a
        (s.curTick + cfg.latency)) = .ok s')
    ∨ ∃ a r, target cfg req pfi = .ok (.vaddr a) ∧ createPrefetchRequest cfg a pfi req = .ok r
      ∧ { s with requests := s.requests ++ [r] }.addMissing cfg al
        ⟨pfi, 0, none, p, some s.requests.length, r.contextId, false⟩ = .ok s' := by
  obtain ⟨t, ht, h⟩ := bind_ok.1 h
  rcases t with a | a | _
  · simp only at h
    split_ifs at h with hred
    · exact .inl (Except.ok.inj h).symm
    · exact .inr (.inl ⟨a, ht, by simpa using hred, h⟩)
  · obtain ⟨r, hr, h⟩ := bind_ok.1 h
    exact .inr (.inr ⟨a, r, ht, hr, h⟩)
  · exact .inl (Except.ok.inj h).symm

theorem insert_cases (hfilter : cfg.queueFilter = true)
    (h : s.insert cfg al cached req pfi p = .ok s') :
    s' = { s with pfq := (alreadyInQueue s.pfq pfi p).1 }
    ∨ (∀ n ∈ s.pfq, n.key ≠ pfi.key) ∧ s' = { s with
        pfqMissingTranslation := (alreadyInQueue s.pfqMissingTranslation pfi p).1 }
    ∨ ((∀ n ∈ s.pfq, n.key ≠ pfi.key) ∧ (∀ n ∈ s.pfqMissingTranslation, n.key ≠ pfi.key)
      ∧ s.insertNew cfg al cached req pfi p = .ok s') := by
  unfold Queued.insert at h
  rw [if_pos hfilter] at h
  rcases alreadyInQueue_cases s.pfq pfi p with ⟨hpfq, habs⟩ | ⟨hfound, -⟩
  · rw [hpfq] at h
    rcases alreadyInQueue_cases s.pfqMissingTranslation pfi p with ⟨hmiss, habs'⟩ | ⟨hfound, -⟩
    · rw [hmiss] at h
      exact .inr (.inr ⟨habs, habs', h⟩)
    · rw [← Prod.eta (alreadyInQueue s.pfqMissingTranslation pfi p), hfound] at h
      exact .inr (.inl ⟨habs, (Except.ok.inj h).symm⟩)
  · rw [← Prod.eta (alreadyInQueue s.pfq pfi p), hfound] at h
    exact .inl (Except.ok.inj h).symm

theorem deref_ok {node : ℕ} : s.deref node = .ok n
    ↔ (s.pfqMissingTranslation ++ s.pfq).find? (·.node = node) = some n := by
  unfold Queued.deref
  generalize (s.pfqMissingTranslation ++ s.pfq).find? (·.node = node) = o
  rcases o with _ | m <;> simp

theorem finish_cases {call : Call} {paddr : Option ℕ} (h : s.finish call paddr = .ok s') :
    ∃ n, (s.pfqMissingTranslation ++ s.pfq).find? (·.node = call.node) = some n
      ∧ n.dp.ongoingTranslation = true
      ∧ s' = { s with
        translating := s.translating.erase call
        requests := s.resolve call.request paddr
        pfq := Queued.setOngoing call.node false s.pfq
        pfqMissingTranslation := Queued.setOngoing call.node false s.pfqMissingTranslation } := by
  simp only [Queued.finish, bind_ok, require_ok, deref_ok] at h
  obtain ⟨n, hn, _, hongoing, h⟩ := h
  exact ⟨n, hn, hongoing, (Except.ok.inj h).symm⟩

theorem translated_some {d : DeferredPacket} (h : s.translated cfg cached n = .ok (some d)) :
    ∃ r req a, n.dp.translationRequest = some r ∧ s.requests[r]? = some req ∧ req.paddr = some a
      ∧ d = n.dp.createPkt cfg a (s.curTick + cfg.latency) := by
  unfold Queued.translated at h
  split at h
  · cases h
  · rename_i req hreq
    obtain ⟨r, hr, hreq⟩ := Option.bind_eq_some_iff.1 hreq
    split at h
    · cases h
    · rename_i a ha
      split_ifs at h
      · cases h
      · cases h
        exact ⟨r, req, a, hr, hreq, ha, rfl⟩

theorem translationComplete_cases {node : ℕ} {failed : Bool}
    (h : s.translationComplete cfg al cached node failed = .ok s') :
    ∃ n, s.pfqMissingTranslation.find? (·.node = node) = some n
      ∧ (s' = s.removeMissing node
        ∨ failed = false ∧ ∃ d s₁, s.translated cfg cached n = .ok (some d)
          ∧ s.addReady cfg al d = .ok s₁ ∧ s' = s₁.removeMissing node) := by
  unfold Queued.translationComplete at h
  split at h
  · cases h
  · rename_i n hn
    refine ⟨n, hn, ?_⟩
    split_ifs at h with hfailed
    · exact .inl (Except.ok.inj h).symm
    · obtain ⟨dp, hdp, h⟩ := bind_ok.1 h
      rcases dp with _ | d
      · exact .inl (Except.ok.inj h).symm
      · obtain ⟨s₁, hs₁, h⟩ := bind_ok.1 h
        exact .inr ⟨by simpa using hfailed, d, s₁, hdp, hs₁, (Except.ok.inj h).symm⟩

theorem complete_cases {call : Call} {paddr : Option ℕ}
    (h : s.complete cfg al cached call paddr = .ok s') : ∃ s₁, s.finish call paddr = .ok s₁
      ∧ s₁.translationComplete cfg al cached call.node paddr.isNone = .ok s' :=
  bind_ok.1 h

theorem startTranslation_cases {node : ℕ}
    (h : Queued.startTranslation cfg al tlb cached s node = .ok s') :
    ∃ n r, s.deref node = .ok n ∧ n.dp.translationRequest = some r
      ∧ (s' = s ∨ n.dp.ongoingTranslation = false ∧ (s' = s.translateTiming (s.call n r)
        ∨ ∃ paddr, tlb r = some paddr
          ∧ (s.translateTiming (s.call n r)).complete cfg al cached (s.call n r) paddr
            = .ok s')) := by
  obtain ⟨n, hn, h⟩ := bind_ok.1 h
  split at h
  · cases h
  · rename_i r hr
    refine ⟨n, r, hn, hr, ?_⟩
    split_ifs at h with hongoing
    · exact .inl (Except.ok.inj h).symm
    · have hongoing : n.dp.ongoingTranslation = false := by simpa using hongoing
      refine .inr ⟨hongoing, ?_⟩
      simp only at h
      split at h
      · exact .inl (Except.ok.inj h).symm
      · rename_i paddr htlb
        exact .inr ⟨paddr, htlb, h⟩

theorem getPacket_keeps {I : Queued → Prop} {C : Queued → ℕ → Prop} {pkt : Option PrefetchPacket}
    (hstart : ∀ s node s', I s → C s node →
      Queued.startTranslation cfg al tlb cached s node = .ok s' → I s')
    (hpop : ∀ s, I s → I (s.popFront s.pfq.tail))
    (hfill : s.pfq = [] → Admits (Queued.startTranslation cfg al tlb cached) C s
      ((s.pfqMissingTranslation.take cfg.queueSize).map Node.node))
    (hnext : ∀ s₁, I s₁ → s.fillIfEmpty cfg al tlb cached = .ok s₁ → s₁.pfq ≠ [] →
      Admits (Queued.startTranslation cfg al tlb cached) C (s₁.popFront s₁.pfq.tail)
        ((s₁.pfqMissingTranslation.take (cfg.queueSize - s₁.pfq.tail.length)).map Node.node))
    (hs : I s) (h : s.getPacket cfg al tlb cached = .ok (pkt, s')) : I s' := by
  obtain ⟨s₁, hs₁, h⟩ := bind_ok.1 h
  have hI : I s₁ := by
    have hs₁ := hs₁
    unfold Queued.fillIfEmpty at hs₁
    split_ifs at hs₁ with hemp
    · exact Admits.inv hstart (hfill hemp) hs hs₁
    · cases hs₁
      exact hs
  have hnext := hnext s₁ hI hs₁
  split at h
  · cases h
    exact hI
  · rename_i n rest hpfq
    split at h
    · cases h
    · obtain ⟨s₂, hs₂, h⟩ := bind_ok.1 h
      cases h
      rw [hpfq] at hnext
      have hpop := hpop s₁ hI
      rw [hpfq] at hpop
      exact Admits.inv hstart (hnext (by simp)) hpop hs₂

theorem admits_true {σ ο ε : Type*} {step : σ → ο → Except ε σ} (s : σ) (os : List ο) :
    Admits step (fun _ _ => True) s os :=
  admits_of_forall (P := fun _ => True) (fun _ _ _ => trivial) fun _ _ => trivial

/-! ## Addresses and sizes -/

theorem setOngoing_map {β : Type*} (f : Node → β)
    (hf : ∀ (n : Node) (b : Bool),
      f { n with dp := { n.dp with ongoingTranslation := b } } = f n) (node : ℕ) (b : Bool)
    (q : List Node) : (Queued.setOngoing node b q).map f = q.map f := by
  unfold Queued.setOngoing
  rw [map_map]
  refine map_congr_left fun n _ => ?_
  rw [Function.comp_apply]
  split_ifs
  · exact hf n b
  · rfl

theorem perm_eraseP {f : Node → Bool} (h : q.find? f = some n) : q.Perm (n :: q.eraseP f) := by
  obtain ⟨hn, a, b, rfl, ha⟩ := find?_eq_some_iff_append.1 h
  have ha' : ∀ m ∈ a, ¬f m = true := fun m hm => by simpa using ha m hm
  rw [eraseP_append_right _ ha', eraseP_cons_of_pos hn]
  exact perm_middle

/-- No address is in the queues twice, and neither of them is too long. -/
structure Kept (cfg : Config) (s : Queued) : Prop where
  keys : ((s.pfq ++ s.pfqMissingTranslation).map Node.key).Nodup
  ready_le : s.pfq.length ≤ cfg.queueSize
  missing_le : s.pfqMissingTranslation.length ≤ cfg.queueSize

namespace Kept

theorem of_subperm (hs : Kept cfg s)
    (hkeys : ((s'.pfq ++ s'.pfqMissingTranslation).map Node.key).Subperm
      ((s.pfq ++ s.pfqMissingTranslation).map Node.key))
    (hready : s'.pfq.length ≤ cfg.queueSize)
    (hmissing : s'.pfqMissingTranslation.length ≤ cfg.queueSize) : Kept cfg s' where
  keys := by
    obtain ⟨l, hl, hsub⟩ := hkeys
    exact hl.nodup_iff.1 (hs.keys.sublist hsub)
  ready_le := hready
  missing_le := hmissing

theorem of_map (hs : Kept cfg s) (hready : s'.pfq.map Node.key = s.pfq.map Node.key)
    (hmissing : s'.pfqMissingTranslation.map Node.key = s.pfqMissingTranslation.map Node.key) :
    Kept cfg s' := by
  refine hs.of_subperm ?_ ?_ ?_
  · rw [map_append, hready, hmissing, ← map_append]
  · have := congrArg List.length hready
    simp only [length_map] at this
    exact this ▸ hs.ready_le
  · have := congrArg List.length hmissing
    simp only [length_map] at this
    exact this ▸ hs.missing_le

theorem of_sublist (hs : Kept cfg s) (hready : s'.pfq.Sublist s.pfq)
    (hmissing : s'.pfqMissingTranslation = s.pfqMissingTranslation) : Kept cfg s' := by
  refine hs.of_subperm ?_ (hready.length_le.trans hs.ready_le) (hmissing ▸ hs.missing_le)
  rw [hmissing]
  exact ((hready.append_right _).map _).subperm

theorem finish {call : Call} {paddr : Option ℕ} (hs : Kept cfg s)
    (h : s.finish call paddr = .ok s') : Kept cfg s' := by
  obtain ⟨n, -, -, rfl⟩ := finish_cases h
  exact hs.of_map (setOngoing_map _ (fun _ _ => rfl) _ _ _)
    (setOngoing_map _ (fun _ _ => rfl) _ _ _)

theorem translationComplete {node : ℕ} {failed : Bool} (hs : Kept cfg s)
    (h : s.translationComplete cfg al cached node failed = .ok s') : Kept cfg s' := by
  obtain ⟨n, hn, rfl | ⟨-, d, s₁, hd, hs₁, rfl⟩⟩ := translationComplete_cases h
  · have hsub : (s.pfqMissingTranslation.eraseP (·.node = node)).Sublist s.pfqMissingTranslation :=
      eraseP_sublist
    refine hs.of_subperm ?_ hs.ready_le (hsub.length_le.trans hs.missing_le)
    exact ((hsub.append_left _).map _).subperm
  · obtain ⟨pfq, hadd, rfl⟩ := addReady_cases hs₁
    obtain ⟨q₁, hq₁, hperm, hlen⟩ := addToQueue_perm hadd
    obtain ⟨r, req, a, -, -, -, rfl⟩ := translated_some hd
    have herase := perm_eraseP hn
    refine hs.of_subperm ?_ (hlen hs.ready_le) ?_
    · -- the entry takes its address from the one queue to the other
      refine List.Subperm.trans (List.Perm.subperm ?_) ((hq₁.append_right _).map _).subperm
      have hready := (hperm.append_right (s.pfqMissingTranslation.eraseP (·.node = node))).map
        Node.key
      have hmissing := (herase.append_left q₁).map Node.key
      refine hready.trans (List.Perm.trans ?_ hmissing.symm)
      simpa [Node.key, DeferredPacket.createPkt] using perm_middle.symm
    · have := herase.length_eq
      have := hs.missing_le
      simp only [Queued.removeMissing, length_cons] at *
      omega

theorem complete {call : Call} {paddr : Option ℕ} (hs : Kept cfg s)
    (h : s.complete cfg al cached call paddr = .ok s') : Kept cfg s' := by
  obtain ⟨s₁, hs₁, h⟩ := complete_cases h
  exact (hs.finish hs₁).translationComplete h

theorem startTranslation {node : ℕ} (hs : Kept cfg s)
    (h : Queued.startTranslation cfg al tlb cached s node = .ok s') : Kept cfg s' := by
  obtain ⟨n, r, -, -, rfl | ⟨-, hcall⟩⟩ := startTranslation_cases h
  · exact hs
  · have ht : Kept cfg (s.translateTiming (s.call n r)) :=
      hs.of_map rfl (setOngoing_map _ (fun _ _ => rfl) _ _ _)
    rcases hcall with rfl | ⟨paddr, -, h⟩
    · exact ht
    · exact ht.complete h

theorem getPacket {pkt : Option PrefetchPacket} (hs : Kept cfg s)
    (h : s.getPacket cfg al tlb cached = .ok (pkt, s')) : Kept cfg s' :=
  getPacket_keeps (C := fun _ _ => True) (fun _ _ _ hs _ h => hs.startTranslation h)
    (fun _ hs => hs.of_sublist (tail_sublist _) rfl) (fun _ => admits_true _ _)
    (fun _ _ _ _ => admits_true _ _) hs h

theorem insertNew (hs : Kept cfg s) (hpfq : ∀ n ∈ s.pfq, n.key ≠ pfi.key)
    (hmiss : ∀ n ∈ s.pfqMissingTranslation, n.key ≠ pfi.key)
    (h : s.insertNew cfg al cached req pfi p = .ok s') : Kept cfg s' := by
  have habs : pfi.key ∉ (s.pfq ++ s.pfqMissingTranslation).map Node.key := by
    intro hmem
    obtain ⟨n, hn, hkey⟩ := mem_map.1 hmem
    rcases mem_append.1 hn with hn | hn
    · exact hpfq n hn hkey
    · exact hmiss n hn hkey
  rcases insertNew_cases h with rfl | ⟨a, -, -, h⟩ | ⟨a, r, -, -, h⟩
  · exact hs
  · obtain ⟨pfq, hadd, rfl⟩ := addReady_cases h
    obtain ⟨q₁, hq₁, hperm, hlen⟩ := addToQueue_perm hadd
    refine ⟨?_, hlen hs.ready_le, hs.missing_le⟩
    have hsub := (hq₁.append_right s.pfqMissingTranslation).map Node.key
    refine ((hperm.append_right _).map _).nodup_iff.2 ?_
    exact nodup_cons.2 ⟨fun hmem => habs (hsub.subset hmem), hs.keys.sublist hsub⟩
  · obtain ⟨missing, hadd, rfl⟩ := addMissing_cases h
    obtain ⟨q₁, hq₁, hperm, hlen⟩ := addToQueue_perm hadd
    refine ⟨?_, hs.ready_le, hlen hs.missing_le⟩
    have hsub := (hq₁.append_left s.pfq).map Node.key
    refine (((hperm.append_left s.pfq).trans perm_middle).map _).nodup_iff.2 ?_
    exact nodup_cons.2 ⟨fun hmem => habs (hsub.subset hmem), hs.keys.sublist hsub⟩

theorem alreadyInQueue_key (q : List Node) (pfi : PrefetchInfo) (p : ℤ) :
    ((alreadyInQueue q pfi p).1.map Node.key).Perm (q.map Node.key) :=
  alreadyInQueue_perm (fun dp => (dp.pfInfo.address, dp.pfInfo.secure)) (fun _ _ => rfl) q pfi p

theorem alreadyInQueue_length (q : List Node) (pfi : PrefetchInfo) (p : ℤ) :
    (alreadyInQueue q pfi p).1.length = q.length := by
  simpa using congrArg List.length (alreadyInQueue_node q pfi p)

theorem insert (hfilter : cfg.queueFilter = true) (hs : Kept cfg s)
    (h : s.insert cfg al cached req pfi p = .ok s') : Kept cfg s' := by
  rcases insert_cases hfilter h with rfl | ⟨-, rfl⟩ | ⟨hpfq, hmiss, h⟩
  · refine hs.of_subperm ?_ ?_ hs.missing_le
    · simp only [map_append]
      exact ((alreadyInQueue_key s.pfq pfi p).append_right _).subperm
    · exact (alreadyInQueue_length s.pfq pfi p).trans_le hs.ready_le
  · refine hs.of_subperm ?_ hs.ready_le ?_
    · simp only [map_append]
      exact ((alreadyInQueue_key s.pfqMissingTranslation pfi p).append_left _).subperm
    · exact (alreadyInQueue_length s.pfqMissingTranslation pfi p).trans_le hs.missing_le
  · exact hs.insertNew hpfq hmiss h

theorem step (hfilter : cfg.queueFilter = true) {o : Op} (hs : Kept cfg s)
    (h : Prefetch.step cfg al s o = .ok s') : Kept cfg s' := by
  rcases o with ⟨cached, req, pfi, p⟩ | ⟨tlb, cached⟩ | ⟨call, cached, paddr⟩ | ⟨a, secure⟩ | ticks
  · exact hs.insert hfilter h
  · obtain ⟨⟨pkt, s₁⟩, hget, h⟩ := bind_ok.1 h
    cases h
    exact hs.getPacket hget
  · simp only [Prefetch.step] at h
    split_ifs at h
    exact hs.complete h
  · cases h
    unfold Queued.squash
    split_ifs
    · exact hs.of_sublist filter_sublist rfl
    · exact hs
  · cases h
    exact hs.of_map rfl rfl

end Kept

theorem init_kept : Kept cfg init := ⟨nodup_nil, Nat.zero_le _, Nat.zero_le _⟩

/-! ## The order -/

def keysAt (p : ℤ) (q : List Node) : List (ℕ × Bool) := (level Node.priority p q).map Node.key

/-- The queue is sorted, and what it has left of an earlier state is in the order it was in. -/
structure Follows (q₀ q : List Node) : Prop where
  sorted : Sorted Node.priority q
  fifo : ∀ p, Fifo (keysAt p q₀) (keysAt p q)

namespace Follows

theorem sublist (hq : Follows q₀ q) (h : q'.Sublist q) : Follows q₀ q' where
  sorted := hq.sorted.sublist h
  fifo p := (hq.fifo p).trans (Fifo.of_sublist ((level_sublist h p).map _))

theorem emplace (hq : Follows q₀ q) (hn : n.node ∉ q.map Node.node)
    (hfits : PlaceFits q n.priority) : Follows q₀ (emplace q n) := by
  rw [(emplace_iff hq.sorted hn).2 hfits]
  refine ⟨hq.sorted.place n, fun p => (hq.fifo p).trans ?_⟩
  unfold keysAt
  rw [level_place hq.sorted]
  split_ifs
  · rw [map_append]
    exact Fifo.append _ _
  · exact Fifo.refl _

theorem addToQueue (hq : Follows q₀ q) (halloc : ∀ q₁, alloc q₁ ∉ q₁.map Node.node)
    (hfits : AddFits queueSize q dpp.priority)
    (h : addToQueue queueSize alloc q dpp = .ok q') : Follows q₀ q' := by
  obtain ⟨q₁, hroom, rfl⟩ := addToQueue_cases h
  exact (hq.sublist (makeRoom_sublist hroom)).emplace (halloc q₁) (hfits.result hroom)

theorem setOngoing (hq : Follows q₀ q) (node : ℕ) (b : Bool) :
    Follows q₀ (Queued.setOngoing node b q) := by
  have hp : ∀ n : Node, (if n.node = node then
      { n with dp := { n.dp with ongoingTranslation := b } } else n).priority = n.priority := by
    intro n
    split_ifs <;> rfl
  refine ⟨pairwise_map.2 (hq.sorted.imp fun h => ?_), fun p => ?_⟩
  · rwa [hp, hp]
  · have : keysAt p (Queued.setOngoing node b q) = keysAt p q := by
      unfold keysAt level Queued.setOngoing
      rw [filter_map, map_map]
      simp only [Function.comp_def, hp]
      refine map_congr_left fun n _ => ?_
      split_ifs <;> rfl
    rw [this]
    exact hq.fifo p

end Follows

/-- Both queues follow those of an earlier state. -/
structure Ordered (s₀ s : Queued) : Prop where
  ready : Follows s₀.pfq s.pfq
  missing : Follows s₀.pfqMissingTranslation s.pfqMissingTranslation

namespace Ordered

theorem addReady (hs : Ordered s₀ s) (hfits : AddFits cfg.queueSize s.pfq dpp.priority)
    (h : s.addReady cfg al dpp = .ok s') : Ordered s₀ s' := by
  obtain ⟨pfq, hadd, rfl⟩ := addReady_cases h
  exact ⟨hs.ready.addToQueue (fun q₁ => fresh_of_subset (subset_append_left _ _)) hfits hadd,
    hs.missing⟩

theorem addMissing (hs : Ordered s₀ s)
    (hfits : AddFits cfg.queueSize s.pfqMissingTranslation dpp.priority)
    (h : s.addMissing cfg al dpp = .ok s') : Ordered s₀ s' := by
  obtain ⟨missing, hadd, rfl⟩ := addMissing_cases h
  exact ⟨hs.ready, hs.missing.addToQueue (fun q₁ => fresh_of_subset (subset_append_right _ _))
    hfits hadd⟩

theorem complete {call : Call} {paddr : Option ℕ} (hs : Ordered s₀ s)
    (hfits : CompleteFits cfg cached s call paddr)
    (h : s.complete cfg al cached call paddr = .ok s') : Ordered s₀ s' := by
  obtain ⟨s₁, hs₁, h⟩ := complete_cases h
  have hfits := hfits.result hs₁
  have ho : Ordered s₀ s₁ := by
    obtain ⟨n, -, -, rfl⟩ := finish_cases hs₁
    exact ⟨hs.ready.setOngoing _ _, hs.missing.setOngoing _ _⟩
  obtain ⟨n, hn, rfl | ⟨hfailed, d, s₂, hd, hs₂, rfl⟩⟩ := translationComplete_cases h
  · exact ⟨ho.ready, ho.missing.sublist eraseP_sublist⟩
  · have ho₂ := ho.addReady ((hfits n hn hfailed).result hd d rfl) hs₂
    exact ⟨ho₂.ready, ho₂.missing.sublist eraseP_sublist⟩

theorem startTranslation {node : ℕ} (hs : Ordered s₀ s) (hfits : StartFits cfg tlb cached s node)
    (h : Queued.startTranslation cfg al tlb cached s node = .ok s') : Ordered s₀ s' := by
  obtain ⟨n, r, hn, hr, rfl | ⟨hongoing, hcall⟩⟩ := startTranslation_cases h
  · exact hs
  · have ht : Ordered s₀ (s.translateTiming (s.call n r)) :=
      ⟨hs.ready, hs.missing.setOngoing _ _⟩
    rcases hcall with rfl | ⟨paddr, htlb, h⟩
    · exact ht
    · exact ht.complete (hfits.result hn r hr hongoing paddr htlb) h

theorem getPacket {pkt : Option PrefetchPacket} (hs : Ordered s₀ s)
    (hfits : GetFits cfg al tlb cached s) (h : s.getPacket cfg al tlb cached = .ok (pkt, s')) :
    Ordered s₀ s' :=
  getPacket_keeps (fun _ _ _ hs hfits h => hs.startTranslation hfits h)
    (fun _ hs => ⟨hs.ready.sublist (tail_sublist _), hs.missing⟩) hfits.1
    (fun _ _ hs₁ hne => hfits.2.result hs₁ hne) hs h

theorem search_absent (h : ∀ n ∈ q, n.key ≠ pfi.key) : (search pfi q 0).2 = false := by
  rcases search_cases pfi q 0 with ⟨hs, -⟩ | ⟨a, n, b, rfl, -, hn, -⟩
  · rw [hs]
  · exact absurd hn (h n (by simp))

theorem insert (hfilter : cfg.queueFilter = true) (hs : Ordered s₀ s)
    (hfits : InsertFits cfg cached s req pfi p)
    (h : s.insert cfg al cached req pfi p = .ok s') : Ordered s₀ s' := by
  obtain ⟨hready, hmissing, hadd⟩ := hfits
  rcases insert_cases hfilter h with rfl | ⟨-, rfl⟩ | ⟨hpfq, hmiss, h⟩
  · rwa [alreadyInQueue_of_fits hready]
  · rwa [alreadyInQueue_of_fits hmissing]
  · have hadd := hadd (search_absent hpfq) (search_absent hmiss)
    rcases insertNew_cases h with rfl | ⟨a, ht, hred, h⟩ | ⟨a, r, ht, -, h⟩
    · exact hs
    · exact hs.addReady (hadd.result ht hred) h
    · exact addMissing (s := { s with requests := s.requests ++ [r] }) ⟨hs.ready, hs.missing⟩
        (hadd.result ht) h

theorem step (hfilter : cfg.queueFilter = true) {o : Op} (hs : Ordered s₀ s)
    (hfits : Fits cfg al s o) (h : Prefetch.step cfg al s o = .ok s') : Ordered s₀ s' := by
  rcases o with ⟨cached, req, pfi, p⟩ | ⟨tlb, cached⟩ | ⟨call, cached, paddr⟩ | ⟨a, secure⟩ | ticks
  · exact hs.insert hfilter hfits h
  · obtain ⟨⟨pkt, s₁⟩, hget, h⟩ := bind_ok.1 h
    cases h
    exact hs.getPacket hfits hget
  · simp only [Prefetch.step] at h
    split_ifs at h
    exact hs.complete hfits h
  · cases h
    unfold Queued.squash
    split_ifs
    · exact ⟨hs.ready.sublist filter_sublist, hs.missing⟩
    · exact hs
  · cases h
    exact ⟨hs.ready, hs.missing⟩

theorem refl (hready : Sorted Node.priority s.pfq)
    (hmissing : Sorted Node.priority s.pfqMissingTranslation) : Ordered s s :=
  ⟨⟨hready, fun _ => Fifo.refl _⟩, ⟨hmissing, fun _ => Fifo.refl _⟩⟩

end Ordered

theorem addToQueue_iff (hsize : 2 ≤ queueSize) (hq : Sorted Node.priority q)
    (halloc : ∀ q₁, alloc q₁ ∉ q₁.map Node.node) (dpp : DeferredPacket) :
    ∃ room q', room = (if q.length = queueSize then dropLowest Node.priority q else q)
      ∧ addToQueue queueSize alloc q dpp = .ok q'
      ∧ (q' = place Node.priority ⟨alloc room, dpp⟩ room ↔ AddFits queueSize q dpp.priority) := by
  have hroom := makeRoom_eq hsize hq
  generalize hr : (if q.length = queueSize then dropLowest Node.priority q else q) = room at hroom
  refine ⟨room, _, rfl, by rw [addToQueue, hroom, ok_bind]; rfl, ?_⟩
  rw [emplace_iff (hq.sublist (makeRoom_sublist hroom)) (halloc room)]
  unfold AddFits
  rw [hroom]
  rfl

/-- In every run no address is in the queues twice, and no queue is longer than its size. As long as
every entry that is added or raised fits, the queues are sorted and the entries of one priority stay
in order. In such a state a full queue gives up the oldest entry of the lowest priority, and a new or
raised entry comes to its place exactly if it fits. -/
theorem queue_discipline_iff (hsize : 2 ≤ cfg.queueSize) (hfilter : cfg.queueFilter = true)
    {ops : List Op} (hrun : run (step cfg al) init ops = .ok s) :
    (((s.pfq ++ s.pfqMissingTranslation).map Node.key).Nodup
      ∧ s.pfq.length ≤ cfg.queueSize ∧ s.pfqMissingTranslation.length ≤ cfg.queueSize)
    ∧ (Admits (step cfg al) (Fits cfg al) init ops →
      (Sorted Node.priority s.pfq ∧ Sorted Node.priority s.pfqMissingTranslation)
      ∧ (∀ ops' s', Admits (step cfg al) (Fits cfg al) s ops' →
        run (step cfg al) s ops' = .ok s' → ∀ p, Fifo (keysAt p s.pfq) (keysAt p s'.pfq)
          ∧ Fifo (keysAt p s.pfqMissingTranslation) (keysAt p s'.pfqMissingTranslation))
      ∧ ∀ q ∈ [s.pfq, s.pfqMissingTranslation],
        (∀ (alloc : List Node → ℕ) (dpp : DeferredPacket),
          (∀ q₁, alloc q₁ ∉ q₁.map Node.node) → ∃ room q',
            room = (if q.length = cfg.queueSize then dropLowest Node.priority q else q)
            ∧ addToQueue cfg.queueSize alloc q dpp = .ok q'
            ∧ (q' = place Node.priority ⟨alloc room, dpp⟩ room
              ↔ AddFits cfg.queueSize q dpp.priority))
        ∧ ∀ (pfi : PrefetchInfo) (p : ℤ),
          (alreadyInQueue q pfi p).1.map Node.dp = raised pfi p (q.map Node.dp)
            ↔ RequestFits q pfi p) := by
  have hk : Kept cfg s := run_inv (fun _ _ _ hs h => hs.step hfilter h) init_kept hrun
  refine ⟨⟨hk.keys, hk.ready_le, hk.missing_le⟩, fun hadm => ?_⟩
  have ho : Ordered init s := Admits.inv (fun _ _ _ hs hfits h => hs.step hfilter hfits h) hadm
    (Ordered.refl List.Pairwise.nil List.Pairwise.nil) hrun
  have hready := ho.ready.sorted
  have hmissing := ho.missing.sorted
  refine ⟨⟨hready, hmissing⟩, fun ops' s' hadm' hrun' p => ?_, fun q hq => ?_⟩
  · have ho' : Ordered s s' := Admits.inv (fun _ _ _ hs hfits h => hs.step hfilter hfits h) hadm'
      (Ordered.refl hready hmissing) hrun'
    exact ⟨ho'.ready.fifo p, ho'.missing.fifo p⟩
  · have hkeys := map_append ▸ hk.keys
    obtain ⟨hsorted, hnodup⟩ : Sorted Node.priority q ∧ (q.map Node.key).Nodup := by
      rcases mem_pair.1 hq with rfl | rfl
      · exact ⟨hready, (nodup_append.1 hkeys).1⟩
      · exact ⟨hmissing, (nodup_append.1 hkeys).2.1⟩
    exact ⟨fun alloc dpp halloc => addToQueue_iff hsize hsorted halloc dpp,
      fun pfi p => raise_iff hsorted hnodup⟩

def fourEntries : Config :=
  ⟨4, 0, true, true, false, false, false, 64, 4096, 0⟩

def request (n : ℕ) (p : ℤ) : Op :=
  .insert (fun _ _ => false) ⟨0, none, 0, none⟩ ⟨64 * n, false, none⟩ p

/-- Each new priority is lower than the others or belongs behind the head, and a prefetch is issued
in between. -/
def fittingOps : List Op :=
  [request 1 5, request 2 1, request 3 3, .getPacket (fun _ => none) fun _ _ => false, request 3 1,
    request 4 0]

theorem fittingOps_run : Ends (run (step fourEntries .behind) init fittingOps)
    fun s => s.pfq.map (fun n => (n.key, n.priority)) = [((192, false), 3), ((128, false), 1),
      ((256, false), 0)] := by
  decide +kernel

theorem queue_discipline_fittingOps : ∃ s, run (step fourEntries .behind) init fittingOps = .ok s
    ∧ s.pfq ≠ [] ∧ Sorted Node.priority s.pfq := by
  obtain ⟨s, hs, hmap⟩ := fittingOps_run.exists
  refine ⟨s, hs, fun h => by simp [h] at hmap, ?_⟩
  exact ((queue_discipline_iff (by decide) rfl hs).2 (by decide +kernel)).1.1

/-- Three entries of falling priorities and one that belongs between the last two: it comes in front
of the second. And a repeated request with a higher priority: the entry behind its own gets it. -/
theorem queue_out_of_order :
    Ends (run (step fourEntries .behind) init [request 1 5, request 2 3, request 3 1, request 4 2])
      (fun s => s.pfq.map Node.priority = [5, 2, 3, 1])
    ∧ Ends (run (step fourEntries .behind) init [request 1 1, request 2 0, request 1 5])
      (fun s => s.pfq.map (fun n => (n.key, n.priority))
        = [((128, false), 5), ((64, false), 1)]) := by
  decide +kernel

end Gem5.Prefetch
