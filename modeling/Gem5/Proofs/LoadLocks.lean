import Gem5.LoadLocks

/-!
# Locks and the accesses since

A lock is there only if its load-linked was made and no other context has touched its bytes since
(`Linked`). A store by the context itself leaves it, and so does a store elsewhere.
-/

namespace Gem5

namespace LockRequest

variable {req req' : LockRequest}

theorem high_eq : req.high = req.paddr + req.size - 1 := by
  have hpos := req.size_pos
  have hfits := req.fits
  rw [high, Nat.mod_eq_of_lt (by omega)]

end LockRequest

namespace Lock

variable {l : Lock} {req : LockRequest}

@[simp]
theorem bytes_ofRequest : (ofRequest req).bytes = req.bytes := by
  have hpos := req.size_pos
  ext a
  simp only [bytes, ofRequest, LockRequest.bytes, LockRequest.high_eq, Set.mem_Icc, Set.mem_Ico]
  omega

theorem disjoint_of_not_intersects (h : l.intersects req = false) : Disjoint req.bytes l.bytes := by
  rw [Set.disjoint_left]
  intro a ha hl
  have hpos := req.size_pos
  simp only [intersects, LockRequest.high_eq, decide_eq_false_iff_not] at h
  simp only [LockRequest.bytes, Set.mem_Ico] at ha
  simp only [bytes, Set.mem_Icc] at hl
  omega

theorem of_matches (h : l.matchesRequest req = true) :
    l.contextId = req.contextId ∧ req.bytes ⊆ l.bytes := by
  simp only [Lock.matchesRequest, LockRequest.high_eq, decide_eq_true_eq] at h
  refine ⟨h.1, fun a ha => ?_⟩
  simp only [LockRequest.bytes, Set.mem_Ico] at ha
  simp only [bytes, Set.mem_Icc]
  omega

end Lock

namespace LoadLocks

variable {locks : List Lock} {req : LockRequest} {l : Lock}

theorem takeMatching_sublist : ∀ locks : List Lock, (takeMatching req locks).2.Sublist locks
  | [] => .slnil
  | l :: ls => by
    unfold takeMatching
    split_ifs
    · exact List.sublist_cons_self l ls
    · exact (takeMatching_sublist ls).cons_cons l

theorem checkWrite_sublist (isLLSC : Bool) : (checkWrite locks isLLSC req).2.Sublist locks := by
  unfold checkWrite
  split_ifs
  · exact .refl _
  · exact List.filter_sublist.trans (takeMatching_sublist locks)
  · exact List.filter_sublist

theorem disjoint_of_clearLoadLocks (h : l ∈ clearLoadLocks locks req)
    (hne : req.contextId ≠ l.contextId) : Disjoint req.bytes l.bytes := by
  refine Lock.disjoint_of_not_intersects ?_
  have hcond := (List.mem_filter.1 h).2
  by_contra hint
  simp only [Bool.not_eq_false] at hint
  simp [hint, Ne.symm hne] at hcond

theorem disjoint_of_checkWrite {isLLSC : Bool} (h : l ∈ (checkWrite locks isLLSC req).2)
    (hne : req.contextId ≠ l.contextId) : Disjoint req.bytes l.bytes := by
  unfold checkWrite at h
  split_ifs at h with hempty
  · -- there is no lock, or the write would not be done here
    simp only [Bool.and_eq_true, List.isEmpty_iff] at hempty
    simp [hempty.2] at h
  · exact disjoint_of_clearLoadLocks h hne
  · exact disjoint_of_clearLoadLocks h hne

theorem exists_of_takeMatching : ∀ {locks : List Lock}, (takeMatching req locks).1 = true →
    ∃ l ∈ locks, l.matchesRequest req = true
  | [], h => by cases h
  | l :: ls, h => by
    unfold takeMatching at h
    split_ifs at h with hm
    · exact ⟨l, List.mem_cons_self, hm⟩
    · obtain ⟨l', hl', hm'⟩ := exists_of_takeMatching h
      exact ⟨l', List.mem_cons_of_mem l hl', hm'⟩

/-- The lock is that of a load-linked among `ops` whose bytes no other context touched since. -/
def Linked (ops : List Op) (l : Lock) : Prop :=
  ∃ pre ll post, ops = pre ++ .loadLocked ll :: post ∧ l = .ofRequest ll
    ∧ ∀ o ∈ post, ∀ r ∈ o.request?, r.contextId ≠ l.contextId → Disjoint r.bytes l.bytes

theorem Linked.concat {ops : List Op} {o : Op} (h : Linked ops l)
    (ho : ∀ r ∈ o.request?, r.contextId ≠ l.contextId → Disjoint r.bytes l.bytes) :
    Linked (ops ++ [o]) l := by
  obtain ⟨pre, ll, post, rfl, hl, hpost⟩ := h
  refine ⟨pre, ll, post ++ [o], by simp, hl, fun o' ho' => ?_⟩
  rcases List.mem_append.1 ho' with ho' | ho'
  · exact hpost o' ho'
  · rwa [List.mem_singleton.1 ho']

theorem lockList_concat (ops : List Op) (o : Op) :
    lockList (ops ++ [o]) = step (lockList ops) o := by
  rw [lockList, List.foldl_append]
  rfl

/-- The locks after `ops`. -/
structure Kept (ops : List Op) (locks : List Lock) : Prop where
  apart : locks.Pairwise fun l l' => Disjoint l.bytes l'.bytes
  linked : ∀ l ∈ locks, Linked ops l

theorem Kept.trackLoadLocked {ops : List Op} (h : Kept ops locks) (req : LockRequest) :
    Kept (ops ++ [.loadLocked req]) (trackLoadLocked locks req) := by
  have hdisj : ∀ l ∈ locks.filter (fun l => !l.intersects req), Disjoint req.bytes l.bytes := by
    intro l hl
    refine Lock.disjoint_of_not_intersects ?_
    simpa using (List.mem_filter.1 hl).2
  refine ⟨List.pairwise_cons.2 ⟨fun l hl => ?_, h.apart.filter _⟩, fun l hl => ?_⟩
  · rw [Lock.bytes_ofRequest]
    exact hdisj l hl
  · rcases List.mem_cons.1 hl with rfl | hl
    · exact ⟨ops, req, [], rfl, rfl, nofun⟩
    · refine (h.linked l (List.mem_filter.1 hl).1).concat ?_
      rintro r ⟨⟩ -
      exact hdisj l hl

theorem Kept.checkWrite {ops : List Op} {o : Op} (h : Kept ops locks) (isLLSC : Bool)
    (ho : o.request? = some req) : Kept (ops ++ [o]) (checkWrite locks isLLSC req).2 := by
  have hsub : (LoadLocks.checkWrite locks isLLSC req).2.Sublist locks := checkWrite_sublist isLLSC
  refine ⟨h.apart.sublist hsub, fun l hl => (h.linked l (hsub.subset hl)).concat ?_⟩
  intro r hr hne
  rw [ho] at hr
  cases hr
  exact disjoint_of_checkWrite hl hne

theorem kept (ops : List Op) : Kept ops (lockList ops) := by
  induction ops using List.reverseRecOn with
  | nil => exact ⟨List.Pairwise.nil, nofun⟩
  | append_singleton ops o ih =>
    rw [lockList_concat]
    cases o with
    | loadLocked req => exact ih.trackLoadLocked req
    | store req => exact ih.checkWrite false rfl
    | storeCond req => exact ih.checkWrite true rfl
    | invalidate => exact ⟨List.Pairwise.nil, nofun⟩

/-- Whatever was done to a block, its locks have no bytes in common, and a store-conditional
succeeds only if its context made a load-linked on all its bytes and no other context has touched
the bytes of that load-linked since. -/
theorem storeCond_linked (ops : List Op) :
    ((lockList ops).Pairwise fun l l' => Disjoint l.bytes l'.bytes)
      ∧ ∀ req, succeeds ops req = true →
        ∃ pre ll post, ops = pre ++ .loadLocked ll :: post ∧ ll.contextId = req.contextId
          ∧ req.bytes ⊆ ll.bytes
          ∧ ∀ o ∈ post, ∀ r ∈ o.request?, r.contextId ≠ req.contextId →
            Disjoint r.bytes ll.bytes := by
  refine ⟨(kept ops).apart, fun req h => ?_⟩
  have hfound : (takeMatching req (lockList ops)).1 = true := h
  obtain ⟨l, hl, hm⟩ := exists_of_takeMatching hfound
  obtain ⟨pre, ll, post, hops, rfl, hpost⟩ := (kept ops).linked l hl
  obtain ⟨hctx, hsub⟩ := Lock.of_matches hm
  rw [Lock.bytes_ofRequest] at hsub hpost
  have hctx : ll.contextId = req.contextId := hctx
  refine ⟨pre, ll, post, hops, hctx, hsub, fun o ho r hr hne => hpost o ho r hr ?_⟩
  rwa [← hctx] at hne

/-- A store of its own context does not break the link, one of another context does. -/
example : let word (c a : ℕ) (h : a + 4 ≤ 2 ^ 64) : LockRequest := ⟨c, a, 4, by decide, h⟩
    succeeds [.loadLocked (word 1 64 (by decide)), .store (word 1 64 (by decide)),
      .store (word 2 68 (by decide))] (word 1 64 (by decide)) = true
    ∧ succeeds [.loadLocked (word 1 64 (by decide)), .store (word 2 64 (by decide))]
      (word 1 64 (by decide)) = false := by
  decide

end LoadLocks

end Gem5
