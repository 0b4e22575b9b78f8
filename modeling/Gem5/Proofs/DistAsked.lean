import Gem5.Proofs.DistSync

/-!
# What the nodes are asked for

A node's request for an exit or a checkpoint is in its next message to the switch, and pending in
the later ones. So of its messages at most one has a collective request (`Asked.once`), and none
after one that had any request.
-/

namespace Gem5

open List Function

namespace DistSync

open Machine

variable {ι : Type}

def Header.need : Kind → Header → ReqType
  | .exit => Header.needExit
  | .ckpt => Header.needCkpt

def SyncNode.need : Kind → SyncNode → ReqType
  | .exit => SyncNode.needExit
  | .ckpt => SyncNode.needCkpt

/-- What a node sent about an exit or a checkpoint, `L`, its next message included, when it was
asked for `C k` before its `k`-th message. -/
structure Asked (C : ℕ → List ReqType) (L : List ReqType) : Prop where
  immediate : ∀ k, .immediate ∈ C k ↔ .immediate ∈ L.take (k + 1)
  collective : ∀ k, .collective ∈ C k → .collective ∈ L.take (k + 1) ∨ .immediate ∈ L.take (k + 1)
  asked : ∀ k, .collective ∈ L.take (k + 1) → .collective ∈ C k
  first : ∀ r ∈ L, r ≠ .none → .collective ∈ L ∨ .immediate ∈ L
  once : L.Pairwise fun a b => a ≠ .none → b ≠ .none ∧ b ≠ .collective

def SyncNode.needs (kind : Kind) (n : SyncNode) : List ReqType :=
  n.sent.map (Header.need kind) ++ [n.need kind]

theorem SyncNode.take_needs {kind : Kind} {n : SyncNode} {b : ℕ} (hb : b < n.sent.length) :
    (n.needs kind).take (b + 1) = (n.sent.take (b + 1)).map (Header.need kind) := by
  rw [SyncNode.needs, take_append_of_le_length (by rw [length_map]; omega),
    map_take]

namespace Asked

variable {C C' : ℕ → List ReqType} {L : List ReqType} {r req : ReqType}

theorem mem_take_concat {a b : ReqType} (h : a ≠ b) (m : ℕ) :
    a ∈ (L ++ [b]).take m ↔ a ∈ L.take m := by
  rw [take_append, mem_append]
  refine ⟨fun ha => ha.resolve_right fun hb => ?_, .inl⟩
  exact h (mem_singleton.1 (mem_of_mem_take hb))

theorem sent (h : Asked C (L ++ [r])) : Asked C (L ++ [r] ++ [SyncNode.afterSend r]) := by
  have hne : SyncNode.afterSend r ≠ .immediate ∧ SyncNode.afterSend r ≠ .collective := by
    cases r <;> simp [SyncNode.afterSend]
  have hlast : (∃ a ∈ L ++ [r], a ≠ .none) → SyncNode.afterSend r = .pending := by
    rintro ⟨a, ha, hane⟩
    have hr : r ≠ .none := by
      rcases mem_append.1 ha with ha | ha
      · exact ((List.pairwise_append.1 h.once).2.2 a ha r (by simp) hane).1
      · rwa [← mem_singleton.1 ha]
    cases r <;> simp_all [SyncNode.afterSend]
  refine ⟨fun k => ?_, fun k hk => ?_, fun k hk => ?_, fun a ha hne' => ?_, ?_⟩
  · rw [mem_take_concat hne.1.symm]
    exact h.immediate k
  · rw [mem_take_concat hne.1.symm, mem_take_concat hne.2.symm]
    exact h.collective k hk
  · rw [mem_take_concat hne.2.symm] at hk
    exact h.asked k hk
  · have hmem : ∃ a ∈ L ++ [r], a ≠ .none := by
      rcases mem_append.1 ha with ha | ha
      · exact ⟨a, ha, hne'⟩
      · refine ⟨r, by simp, fun hr => hne' ?_⟩
        rw [mem_singleton.1 ha, hr]
        rfl
    obtain ⟨a', ha', hane⟩ := hmem
    exact (h.first a' ha' hane).imp (mem_append_left _) (mem_append_left _)
  · refine List.pairwise_append.2 ⟨h.once, pairwise_singleton _ _, fun a ha b hb hane => ?_⟩
    rw [mem_singleton.1 hb, hlast ⟨a, ha, hane⟩]
    exact ⟨by decide, by decide⟩

theorem take_concat_of_lt {k : ℕ} (hk : k < L.length) (x : ReqType) :
    (L ++ [x]).take (k + 1) = L.take (k + 1) := by
  rw [take_append, Nat.sub_eq_zero_of_le (by omega), take_zero, append_nil]

theorem take_concat_of_le {k : ℕ} (hk : L.length ≤ k) (x : ReqType) :
    (L ++ [x]).take (k + 1) = L ++ [x] :=
  take_of_length_le (by rw [length_append, length_singleton]; omega)

theorem request (h : Asked C (L ++ [r])) (hreq : req = .collective ∨ req = .immediate)
    (hlt : ∀ k < L.length, C' k = C k) (hge : ∀ k, L.length ≤ k → C' k = C k ++ [req]) :
    Asked C' (L ++ [if r = .none ∨ req = .immediate then req else r]) := by
  set r' := if r = .none ∨ req = .immediate then req else r with hr'
  obtain ⟨honce, -, hlast⟩ := List.pairwise_append.1 h.once
  have hcase : (r = .none ∧ r' = req) ∨ (req = .immediate ∧ r' = .immediate)
      ∨ (r ≠ .none ∧ req = .collective ∧ r' = r) := by
    rcases hreq with rfl | rfl
    · by_cases hr : r = .none
      · exact .inl ⟨hr, by simp [hr', hr]⟩
      · exact .inr (.inr ⟨hr, rfl, by simp [hr', hr]⟩)
    · exact .inr (.inl ⟨rfl, by simp [hr']⟩)
  refine ⟨fun k => ?_, fun k => ?_, fun k => ?_, fun a _ _ => ?_, ?_⟩
  · rcases lt_or_ge k L.length with hk | hk
    · rw [hlt k hk, take_concat_of_lt hk, ← take_concat_of_lt hk r]
      exact h.immediate k
    · have hi := h.immediate k
      rw [take_concat_of_le hk] at hi
      rw [hge k hk, take_concat_of_le hk, mem_append, hi]
      rcases hcase with ⟨rfl, hr⟩ | ⟨rfl, hr⟩ | ⟨-, rfl, hr⟩ <;> simp [hr]
  · rcases lt_or_ge k L.length with hk | hk
    · rw [hlt k hk, take_concat_of_lt hk, ← take_concat_of_lt hk r]
      exact h.collective k
    · have hc := h.collective k
      rw [take_concat_of_le hk] at hc
      rw [hge k hk, take_concat_of_le hk]
      intro hmem
      rcases hcase with ⟨rfl, hr⟩ | ⟨rfl, hr⟩ | ⟨hne, rfl, hr⟩
      · rcases mem_append.1 hmem with hm | hm
        · have := hc hm
          simp only [mem_append, mem_singleton, reduceCtorEq, or_false] at this
          exact this.imp (mem_append_left _) (mem_append_left _)
        · exact .inl (by rw [hr, mem_singleton.1 hm]; simp)
      · exact .inr (by simp [hr])
      · rw [hr]
        exact h.first r (by simp) hne
  · rcases lt_or_ge k L.length with hk | hk
    · rw [hlt k hk, take_concat_of_lt hk, ← take_concat_of_lt hk r]
      exact h.asked k
    · have ha := h.asked k
      rw [take_concat_of_le hk] at ha
      rw [hge k hk, take_concat_of_le hk]
      intro hmem
      rcases mem_append.1 hmem with hm | hm
      · exact mem_append_left _ (ha (mem_append_left _ hm))
      · rcases hcase with ⟨-, hr⟩ | ⟨-, hr⟩ | ⟨-, -, hr⟩
        · rw [← hr]
          exact mem_append_right _ hm
        · rw [hr] at hm
          exact absurd (mem_singleton.1 hm) (by decide)
        · rw [hr] at hm
          exact mem_append_left _ (ha (mem_append_right _ hm))
  · rcases hcase with ⟨-, hr⟩ | ⟨-, hr⟩ | ⟨hne, -, hr⟩
    · rcases hreq with rfl | rfl <;> simp [hr]
    · exact .inr (by simp [hr])
    · rw [hr]
      exact h.first r (by simp) hne
  · refine List.pairwise_append.2 ⟨honce, pairwise_singleton _ _, fun a ha b hb hane => ?_⟩
    have hrlast := hlast a ha r (by simp) hane
    rw [mem_singleton.1 hb]
    rcases hcase with ⟨hr, -⟩ | ⟨-, hr⟩ | ⟨-, -, hr⟩
    · exact absurd hr hrlast.1
    · rw [hr]
      exact ⟨by decide, by decide⟩
    · rwa [hr]

end Asked

section Calls

variable [DecidableEq ι] {kind : Kind}

theorem mem_asks_exit {i : ι} {o : Op ι} {req : ReqType} (h : req ∈ o.asks .exit i) :
    o = .requestExit i req := by
  cases o <;> simp_all [Op.asks]

theorem mem_asks_ckpt {i : ι} {o : Op ι} {req : ReqType} (h : req ∈ o.asks .ckpt i) :
    o = .requestCkpt i req := by
  cases o <;> simp_all [Op.asks]

def runs (i : ι) : List (Op ι) → ℕ
  | [] => 0
  | .nodeRun j _ _ :: ops => (if j = i then 1 else 0) + runs i ops
  | _ :: ops => runs i ops

theorem exitRequests_eq (i : ι) : ∀ (b : ℕ) (ops : List (Op ι)),
    exitRequests i b ops = requests .exit i b ops := by
  intro b ops
  induction ops generalizing b with
  | nil => simp [exitRequests, requests]
  | cons o ops ih =>
    cases o with
    | nodeRun j sameTick curTick =>
      rcases b with _ | b <;> simp [exitRequests, requests, ih]
    | requestExit j req =>
      by_cases hj : j = i <;> simp [exitRequests, requests, Op.asks, hj, ih]
    | _ => simp [exitRequests, requests, Op.asks, ih]

theorem requests_append (kind : Kind) (i : ι) (ops' : List (Op ι)) :
    ∀ (b : ℕ) (ops : List (Op ι)), requests kind i b (ops ++ ops') = requests kind i b ops
      ++ if runs i ops ≤ b then requests kind i (b - runs i ops) ops' else [] := by
  intro b ops
  induction ops generalizing b with
  | nil => simp [requests, runs]
  | cons o ops ih =>
    cases o with
    | nodeRun j sameTick curTick =>
      by_cases hj : j = i
      · rcases b with _ | b
        · simp [requests, runs, hj]
        · have hle : 1 + runs i ops ≤ b + 1 ↔ runs i ops ≤ b := by omega
          have hsub : b + 1 - (1 + runs i ops) = b - runs i ops := by omega
          simp [requests, runs, hj, ih b, hle, hsub]
      · rcases b with _ | b
        · simp [requests, runs, hj, ih 0]
        · simp [requests, runs, hj, ih (b + 1)]
    | _ =>
      simp only [cons_append, requests, runs, append_assoc]
      exact congrArg _ (ih b)

theorem runs_append (i : ι) (ops' : List (Op ι)) : ∀ ops : List (Op ι),
    runs i (ops ++ ops') = runs i ops + runs i ops'
  | [] => by simp [runs]
  | o :: ops => by
    have ih := runs_append i ops' ops
    cases o <;> simp [runs, ih, Nat.add_assoc]

def Op.Other (kind : Kind) (i : ι) (o : Op ι) : Prop :=
  (∀ sameTick curTick, o ≠ .nodeRun i sameTick curTick) ∧ o.asks kind i = []

theorem Op.Other.requests {i : ι} {o : Op ι} (h : o.Other kind i) (b : ℕ) :
    requests kind i b [o] = [] ∧ runs i [o] = 0 := by
  obtain ⟨hrun, hasks⟩ := h
  cases o with
  | nodeRun j sameTick curTick =>
    have hj : j ≠ i := fun hj => hrun sameTick curTick (by rw [hj])
    rcases b with _ | b <;> simp [DistSync.requests, runs, hj]
  | _ => simp [DistSync.requests, runs, hasks]

variable {s s' : DistSync ι} {o : Op ι}

/-- A step that does not touch these requests of node `i`. -/
structure Calm (kind : Kind) (i : ι) (s s' : DistSync ι) : Prop where
  sent : (s'.link i).node.sent = (s.link i).node.sent
  need : (s'.link i).node.need kind = (s.link i).node.need kind

theorem Calm.setLink {i j : ι} {l : Link} (hsent : l.node.sent = (s.link j).node.sent)
    (hneed : i = j → l.node.need kind = (s.link j).node.need kind) :
    Calm kind i s (s.setLink j l) := by
  by_cases hj : i = j
  · subst hj
    constructor
    · simpa [DistSync.setLink] using hsent
    · simpa [DistSync.setLink] using hneed rfl
  · constructor <;> simp [DistSync.setLink, update_of_ne hj]

theorem Calm.outside {j : ι} {n : SyncNode} (h : s.outside j n = .ok s')
    (hsent : n.sent = (s.link j).node.sent)
    (hneed : n.need kind = (s.link j).node.need kind) {i : ι} : Calm kind i s s' := by
  unfold DistSync.outside at h
  split_ifs at h
  cases h
  exact .setLink hsent fun _ => hneed

def Requested (kind : Kind) (i : ι) (req : ReqType) (s s' : DistSync ι) : Prop :=
  (s'.link i).node.sent = (s.link i).node.sent
    ∧ (s'.link i).node.need kind
      = if (s.link i).node.need kind = .none ∨ req = .immediate then req
        else (s.link i).node.need kind

theorem needs_cases (kind : Kind) (h : s.step o = .ok s') (i : ι) :
    (∃ sameTick curTick, o = .nodeRun i sameTick curTick
        ∧ (s'.link i).node.sent = (s.link i).node.sent ++ [(s.link i).node.request curTick]
        ∧ (s'.link i).node.need kind = SyncNode.afterSend ((s.link i).node.need kind))
      ∨ (∃ req, o.asks kind i = [req] ∧ (∀ j sameTick curTick, o ≠ .nodeRun j sameTick curTick)
        ∧ Requested kind i req s s')
      ∨ (o.Other kind i ∧ Calm kind i s s') := by
  cases o with
  | nodeRun j sameTick curTick =>
    obtain ⟨-, n, hn, rfl⟩ := nodeRun_cases h
    obtain ⟨-, -, rfl⟩ := SyncNode.run_cases hn
    by_cases hj : i = j
    · subst hj
      refine .inl ⟨sameTick, curTick, rfl, by simp [DistSync.setLink], ?_⟩
      rcases kind with _ | _ <;> simp [DistSync.setLink, SyncNode.need]
    · refine .inr (.inr ⟨⟨fun _ _ he => hj ?_, rfl⟩, ?_⟩)
      · cases he
        rfl
      · constructor <;> simp [DistSync.setLink, update_of_ne hj]
  | requestExit j req =>
    obtain rfl := requestExit_cases h
    by_cases hk : kind = .exit ∧ j = i
    · obtain ⟨rfl, rfl⟩ := hk
      refine .inr (.inl ⟨req, by simp [Op.asks], by simp, ?_, ?_⟩)
      · simp [DistSync.setNode, DistSync.setLink]
      · simp only [DistSync.setNode, DistSync.setLink, update_self]
        rfl
    · refine .inr (.inr ⟨⟨by simp, by simp [Op.asks, hk]⟩, .setLink rfl fun hi => ?_⟩)
      rcases kind with _ | _
      · exact absurd ⟨rfl, hi.symm⟩ hk
      · rfl
  | requestCkpt j req =>
    obtain rfl := requestCkpt_cases h
    by_cases hk : kind = .ckpt ∧ j = i
    · obtain ⟨rfl, rfl⟩ := hk
      refine .inr (.inl ⟨req, by simp [Op.asks], by simp, ?_, ?_⟩)
      · simp [DistSync.setNode, DistSync.setLink]
      · simp only [DistSync.setNode, DistSync.setLink, update_self]
        rfl
    · refine .inr (.inr ⟨⟨by simp, by simp [Op.asks, hk]⟩, .setLink rfl fun hi => ?_⟩)
      rcases kind with _ | _
      · rfl
      · exact absurd ⟨rfl, hi.symm⟩ hk
  | nodeFinish j =>
    simp only [DistSync.step, bind_ok] at h
    obtain ⟨n, hn, h⟩ := h
    cases h
    obtain ⟨-, -, rfl⟩ := SyncNode.finish_cases hn
    refine .inr (.inr ⟨⟨by simp, rfl⟩, .setLink (by rfl) fun _ => ?_⟩)
    rcases kind with _ | _ <;> rfl
  | nodeRecv j =>
    refine .inr (.inr ⟨⟨by simp, rfl⟩, ?_⟩)
    obtain ⟨a, rest, n, -, -, hn, rfl⟩ := nodeRecv_cases h
    rcases SyncNode.progress_cases hn with ⟨-, rfl⟩ | ⟨-, rfl⟩
    · exact .setLink (by rfl) fun _ => by rcases kind with _ | _ <;> rfl
    · exact .setLink (by rfl) fun _ => by rcases kind with _ | _ <;> rfl
  | switchRun sameTick curTick =>
    refine .inr (.inr ⟨⟨by simp, rfl⟩, ?_⟩)
    obtain ⟨-, ⟨-, rfl⟩ | ⟨-, w, -, rfl⟩⟩ := switchRun_cases h <;> exact ⟨rfl, rfl⟩
  | switchRecv j =>
    refine .inr (.inr ⟨⟨by simp, rfl⟩, ?_⟩)
    obtain ⟨m, rest, w, -, -, rfl⟩ := switchRecv_cases h
    have hcalm : Calm kind i { s with switch := w }
        (DistSync.setLink { s with switch := w } j { s.link j with up := rest }) :=
      .setLink rfl fun _ => rfl
    exact ⟨hcalm.sent, hcalm.need⟩
  | requestStopSync j req | nodeAbort j =>
    cases h
    refine .inr (.inr ⟨⟨by simp, rfl⟩, .setLink (by rfl) fun _ => ?_⟩)
    rcases kind with _ | _ <;> rfl
  | nodeClearCkpt j | nodeClearStopSync j =>
    refine .inr (.inr ⟨⟨by simp, rfl⟩, .outside h rfl ?_⟩)
    rcases kind with _ | _ <;> rfl
  | switchAbort | switchClearCkpt | switchClearStopSync =>
    cases h
    exact .inr (.inr ⟨⟨by simp, rfl⟩, rfl, rfl⟩)

/-- Node `n` after `ops`, of which some are requests to node `i`. -/
structure NodeAsked (kind : Kind) (i : ι) (ops : List (Op ι)) (n : SyncNode) : Prop where
  runs : runs i ops = n.sent.length
  asked : Asked (fun k => requests kind i k ops) (n.needs kind)

theorem need_request (kind : Kind) (n : SyncNode) (curTick : ℕ) :
    (n.request curTick).need kind = n.need kind := by
  rcases kind with _ | _ <;> rfl

theorem NodeAsked.init (kind : Kind) (i : ι) (nextAt nextRepeat : ℕ) :
    NodeAsked kind i [] (SyncNode.init nextAt nextRepeat) := by
  have hneeds : (SyncNode.init nextAt nextRepeat).needs kind = [.none] := by
    rcases kind with _ | _ <;> rfl
  refine ⟨rfl, ?_⟩
  rw [hneeds]
  refine ⟨fun k => ?_, fun k hk => ?_, fun k hk => ?_, fun r hr hne => ?_, ?_⟩
  · simp [requests]
  · simp [requests] at hk
  · simp at hk
  · exact absurd (mem_singleton.1 hr) hne
  · exact pairwise_singleton _ _

theorem NodeAsked.step {i : ι} {ops : List (Op ι)} (hn : NodeAsked kind i ops (s.link i).node)
    (hkind : ∀ req ∈ o.asks kind i, req = .collective ∨ req = .immediate)
    (h : s.step o = .ok s') : NodeAsked kind i (ops ++ [o]) (s'.link i).node := by
  rcases needs_cases kind h i with ⟨st, t, rfl, hsent, hneed⟩ | ⟨req, hasks, hrun, hsent, hneed⟩
    | ⟨hother, hsent, hneed⟩
  · have hC : (fun k => requests kind i k (ops ++ [.nodeRun i st t]))
        = fun k => requests kind i k ops := by
      have hnil : ∀ b, requests kind i b [.nodeRun i st t] = [] := by
        intro b
        rcases b with _ | b <;> simp [requests]
      funext k
      rw [requests_append, hnil]
      simp
    refine ⟨?_, ?_⟩
    · rw [runs_append, hn.runs, hsent]
      simp [DistSync.runs]
    · rw [hC, SyncNode.needs, hsent, hneed, map_append, map_singleton, need_request]
      exact hn.asked.sent
  · have hone : ∀ b, requests kind i b [o] = [req] := by
      intro b
      cases o with
      | nodeRun j sameTick curTick => exact absurd rfl (hrun j sameTick curTick)
      | _ => simp only [requests, hasks, append_nil]
    have hzero : DistSync.runs i [o] = 0 := by
      cases o with
      | nodeRun j sameTick curTick => exact absurd rfl (hrun j sameTick curTick)
      | _ => rfl
    refine ⟨?_, ?_⟩
    · rw [runs_append, hn.runs, hsent, hzero, Nat.add_zero]
    · rw [SyncNode.needs, hsent, hneed]
      refine hn.asked.request (hkind req (by rw [hasks]; exact mem_singleton_self _))
        (fun k hk => ?_) (fun k hk => ?_)
      · rw [length_map, ← hn.runs] at hk
        rw [requests_append, if_neg (by omega), append_nil]
      · rw [length_map, ← hn.runs] at hk
        rw [requests_append, if_pos hk, hone]
  · have hC : (fun k => requests kind i k (ops ++ [o])) = fun k => requests kind i k ops := by
      funext k
      rw [requests_append, (hother.requests _).1]
      simp
    refine ⟨?_, ?_⟩
    · rw [runs_append, hn.runs, hsent, (hother.requests 0).2, Nat.add_zero]
    · rw [hC, SyncNode.needs, hsent, hneed]
      exact hn.asked

end Calls

theorem arrived_eq (w : SyncSwitch ι) (b : ℕ) :
    w.arrived = w.reached b ++ ((w.log.drop (b + 1)).flatMap Barrier.counted ++ w.counted) := by
  rw [SyncSwitch.reached, ← append_assoc, ← flatMap_append, take_append_drop,
    SyncSwitch.arrived]

section Reached

variable [Fintype ι]

theorem mem_reached {s : DistSync ι} (hs : SyncInv s) {b : ℕ} (hb : b < s.switch.log.length)
    {i : ι} {m : Header} : (i, m) ∈ s.switch.reached b ↔ m ∈ (s.link i).node.sent.take (b + 1) := by
  simp only [SyncSwitch.reached, mem_flatMap]
  constructor
  · rintro ⟨R, hR, hmem⟩
    obtain ⟨k, hk, rfl⟩ := mem_iff_getElem.1 hR
    rw [length_take] at hk
    rw [getElem_take] at hmem
    have hsent := (hs.barrier k _ (getElem?_eq_getElem (by omega))).sent i m hmem
    refine mem_of_getElem? (i := k) ?_
    rwa [getElem?_take_of_lt (by omega)]
  · intro hm
    obtain ⟨k, hk, hmk⟩ := mem_iff_getElem.1 hm
    rw [length_take] at hk
    have hklt : k < s.switch.log.length := by omega
    obtain ⟨m', hsent, hmem, -⟩ :=
      (hs.barrier k _ (getElem?_eq_getElem hklt)).exists_request
    refine ⟨s.switch.log[k], mem_of_getElem? (i := k) ?_, (hmem i m).2 ?_⟩
    · rw [getElem?_take_of_lt (by omega), getElem?_eq_getElem hklt]
    · have h := hsent i
      rw [getElem?_eq_getElem (by omega)] at h
      rw [← hmk, getElem_take]
      exact Option.some.inj h

theorem mem_arrived {s : DistSync ι} (hs : SyncInv s) (h0 : s.switch.waitNum = 0)
    (ha : s.switch.isAbort = false) (i : ι) :
    s.switch.log.length < (s.link i).node.sent.length
      ∧ ∀ m, (i, m) ∈ s.switch.arrived
        ↔ m ∈ (s.link i).node.sent.take (s.switch.log.length + 1) := by
  have hend : Ends (s.switchRun false 0) fun s' =>
      s'.switch.log = s.switch.log ++ [s.switch.toBarrier]
        ∧ (s'.link i).node = (s.link i).node := by
    rw [DistSync.switchRun, if_pos h0, ha]
    exact ⟨rfl, rfl⟩
  obtain ⟨s', hrun, hlog, hnode⟩ := hend.exists
  have hs' := hs.switchRun hrun
  have hlt : s.switch.log.length < s'.switch.log.length := by simp [hlog]
  have hreached : s'.switch.reached s.switch.log.length = s.switch.arrived := by
    rw [SyncSwitch.reached, hlog, take_of_length_le (by simp)]
    simp [SyncSwitch.arrived, SyncSwitch.toBarrier]
  refine ⟨?_, ?_⟩
  · rw [← hnode]
    exact lt_of_lt_of_le hlt (hs'.link i).sent_ge
  · intro m
    rw [← hreached, mem_reached hs' hlt, hnode]

end Reached

def requesters (kind : Kind) (c : List (ι × Header)) : List ι :=
  (c.filter fun p => p.2.need kind = .collective).map Prod.fst

section Requesters

variable {kind : Kind} {c c' : List (ι × Header)} {i : ι}

theorem mem_requesters :
    i ∈ requesters kind c ↔ ∃ p ∈ c, p.1 = i ∧ p.2.need kind = .collective := by
  simp only [requesters, mem_map, mem_filter, decide_eq_true_eq]
  constructor
  · rintro ⟨p, ⟨hp, hcol⟩, rfl⟩
    exact ⟨p, hp, rfl, hcol⟩
  · rintro ⟨p, hp, rfl, hcol⟩
    exact ⟨p, ⟨hp, hcol⟩, rfl⟩

theorem requesters_append :
    requesters kind (c ++ c') = requesters kind c ++ requesters kind c' := by
  simp [requesters]

theorem requesters_singleton (h : Header) :
    requesters kind [(i, h)] = if h.need kind = .collective then [i] else [] := by
  by_cases hc : h.need kind = .collective <;> simp [requesters, hc]

variable [Fintype ι]

theorem length_requesters (h : (requesters kind c).Nodup) :
    (requesters kind c).length = Fintype.card ι ↔
      ∀ i, ∃ p ∈ c, p.1 = i ∧ p.2.need kind = .collective := by
  classical
  simp only [← mem_requesters]
  rw [← toFinset_card_of_nodup h]
  constructor
  · intro hcard i
    have huniv := Finset.eq_univ_of_card _ hcard
    rw [← mem_toFinset, huniv]
    exact Finset.mem_univ i
  · intro hall
    have huniv : (requesters kind c).toFinset = Finset.univ :=
      Finset.eq_univ_of_forall fun i => mem_toFinset.2 (hall i)
    rw [huniv]
    rfl

variable [DecidableEq ι] {s : DistSync ι} {ops : List (Op ι)}

theorem not_collective (hs : SyncInv s) (hn : NodeAsked kind i ops (s.link i).node) {m m' : Header}
    (hm' : (i, m') ∈ s.switch.log.flatMap Barrier.counted) (hne : m'.need kind ≠ .none)
    (hm : (s.link i).node.sent[s.switch.log.length]? = some m) : m.need kind ≠ .collective := by
  obtain ⟨R, hR, hmem⟩ := mem_flatMap.1 hm'
  obtain ⟨b, hb, rfl⟩ := mem_iff_getElem.1 hR
  have hsent := (hs.barrier b _ (getElem?_eq_getElem hb)).sent i m' hmem
  obtain ⟨hlt', hm'⟩ := List.getElem?_eq_some_iff.1 hsent
  obtain ⟨hlt, hm⟩ := List.getElem?_eq_some_iff.1 hm
  have honce := (List.pairwise_append.1 hn.asked.once).1
  rw [List.pairwise_map, List.pairwise_iff_getElem] at honce
  have h := honce b s.switch.log.length hlt' hlt hb
  rw [hm', hm] at h
  exact (h hne).2

theorem not_mem_requesters (hs : SyncInv s) (hn : NodeAsked kind i ops (s.link i).node)
    {m : Header} (hgot : got s.switch.counted i = ∅)
    (hm : (s.link i).node.sent[s.switch.log.length]? = some m)
    (hcol : m.need kind = .collective) : i ∉ requesters kind s.switch.arrived := by
  intro hi
  obtain ⟨⟨j, m'⟩, hp, rfl, hcol'⟩ := mem_requesters.1 hi
  rcases mem_append.1 hp with hp | hp
  · refine not_collective hs hn hp ?_ hm hcol
    rw [hcol']
    decide
  · have : m' ∈ got s.switch.counted j := hp
    rw [hgot] at this
    exact this

end Requesters

end DistSync

end Gem5
