import Mathlib
import Gem5.Prefetcher
import Gem5.Ranked

/-!
# Where the prefetch queue puts its entries

The new place of an entry is behind those of its priority (`Ranked.place`). `addToQueue` puts the new
entry in front of one that it belongs behind, except at the head (`emplace_iff`). `alreadyInQueue`
steps past the entry that it has found and raises the next one (`raise_iff`).
-/

namespace Gem5.Prefetch

open Machine Ranked List

variable {pfi : PrefetchInfo} {p : ℤ} {q q' a b : List Node} {n m x : Node} {i k : ℕ}

/-- What tells the entries of a queue apart. -/
def Node.key (n : Node) : ℕ × Bool := (n.dp.pfInfo.address, n.dp.pfInfo.secure)

def PrefetchInfo.key (pfi : PrefetchInfo) : ℕ × Bool := (pfi.address, pfi.secure)

theorem sameAddr_iff : n.dp.pfInfo.sameAddr pfi = true ↔ n.key = pfi.key := by
  simp [PrefetchInfo.sameAddr, Node.key, PrefetchInfo.key]

theorem priorityAt_eq (h : q[i]? = some n) : priorityAt q i = n.priority := by
  simp [priorityAt, h]

@[simp] theorem priorityAt_append : priorityAt (a ++ n :: b) a.length = n.priority :=
  priorityAt_eq (by simp)

/-! ## The search -/

theorem search_cases (pfi : PrefetchInfo) : ∀ (q : List Node) (k : ℕ),
    (search pfi q k = (k + q.length, false) ∧ ∀ n ∈ q, n.key ≠ pfi.key)
    ∨ ∃ a n b, q = a ++ n :: b ∧ (∀ m ∈ a, m.key ≠ pfi.key) ∧ n.key = pfi.key
      ∧ search pfi q k = (k + a.length + 1, true)
  | [], k => .inl ⟨rfl, by simp⟩
  | n :: q, k => by
    unfold search
    split_ifs with hn
    · exact .inr ⟨[], n, q, rfl, by simp, sameAddr_iff.1 hn, rfl⟩
    · have hn : n.key ≠ pfi.key := fun h => hn (sameAddr_iff.2 h)
      rcases search_cases pfi q (k + 1) with ⟨h, hq⟩ | ⟨a, m, b, rfl, ha, hm, h⟩
      · refine .inl ⟨?_, forall_mem_cons.2 ⟨hn, hq⟩⟩
        rw [h, length_cons]
        congr 1
        omega
      · refine .inr ⟨n :: a, m, b, rfl, forall_mem_cons.2 ⟨hn, ha⟩, hm, ?_⟩
        rw [h, length_cons]
        congr 1
        omega

/-! ## What stays in the queue -/

@[simp] theorem swapEntries_node (q : List Node) (i j : ℕ) :
    (swapEntries q i j).map Node.node = q.map Node.node := by
  unfold swapEntries
  split
  · rename_i a b ha hb
    apply ext_getElem?
    intro k
    simp only [getElem?_map, getElem?_set, length_set]
    split_ifs <;> simp_all
  · rfl

theorem swapEntries_dp (q : List Node) (i j : ℕ) :
    ((swapEntries q i j).map Node.dp).Perm (q.map Node.dp) := by
  unfold swapEntries
  split
  · rename_i a b ha hb
    obtain ⟨hi, rfl⟩ := List.getElem?_eq_some_iff.1 ha
    obtain ⟨hj, rfl⟩ := List.getElem?_eq_some_iff.1 hb
    have := List.set_set_perm (i := i) (j := j)
      (show i < (q.map Node.dp).length by simpa using hi) (by simpa using hj)
    simpa [List.map_set] using this
  · exact List.Perm.refl _

@[simp] theorem moveUp_node : ∀ (prev : ℕ) (q : List Node) (it : ℕ),
    (moveUp q it prev).map Node.node = q.map Node.node
  | 0, _, _ => rfl
  | prev + 1, q, it => by
    unfold moveUp
    split_ifs
    · rw [moveUp_node prev, swapEntries_node]
    · exact moveUp_node prev q it

theorem moveUp_dp : ∀ (prev : ℕ) (q : List Node) (it : ℕ),
    ((moveUp q it prev).map Node.dp).Perm (q.map Node.dp)
  | 0, _, _ => List.Perm.refl _
  | prev + 1, q, it => by
    unfold moveUp
    split_ifs
    · exact (moveUp_dp prev _ _).trans (swapEntries_dp q it prev)
    · exact moveUp_dp prev q it

theorem setPriority_map {β : Type*} (f : Node → β)
    (hf : ∀ (n : Node) (p : ℤ), f { n with dp := { n.dp with priority := p } } = f n)
    (q : List Node) (i : ℕ) (p : ℤ) : (setPriority q i p).map f = q.map f := by
  apply ext_getElem?
  intro k
  simp only [setPriority, getElem?_map, getElem?_modify]
  rcases q[k]? with _ | n
  · rfl
  · by_cases h : i = k
    · simpa [h] using hf n p
    · simp [h]

theorem alreadyInQueue_eq (q : List Node) (pfi : PrefetchInfo) (p : ℤ) :
    alreadyInQueue q pfi p = (q, (search pfi q 0).2) ∨ alreadyInQueue q pfi p =
      (moveUp (setPriority q (search pfi q 0).1 p) (search pfi q 0).1 (search pfi q 0).1,
        (search pfi q 0).2) := by
  unfold alreadyInQueue
  simp only []
  split_ifs
  · exact .inr rfl
  · exact .inl rfl

theorem alreadyInQueue_node (q : List Node) (pfi : PrefetchInfo) (p : ℤ) :
    (alreadyInQueue q pfi p).1.map Node.node = q.map Node.node := by
  rcases alreadyInQueue_eq q pfi p with h | h
  · rw [h]
  · rw [h, moveUp_node, setPriority_map _ (fun _ _ => rfl)]

theorem alreadyInQueue_perm {β : Type*} (f : DeferredPacket → β)
    (hf : ∀ (dp : DeferredPacket) (p : ℤ), f { dp with priority := p } = f dp) (q : List Node)
    (pfi : PrefetchInfo) (p : ℤ) :
    ((alreadyInQueue q pfi p).1.map fun n => f n.dp).Perm (q.map fun n => f n.dp) := by
  rcases alreadyInQueue_eq q pfi p with h | h
  · rw [h]
  · rw [h]
    have hmove := (moveUp_dp (search pfi q 0).1 (setPriority q (search pfi q 0).1 p)
      (search pfi q 0).1).map f
    simp only [map_map] at hmove
    refine hmove.trans ?_
    exact List.Perm.of_eq (setPriority_map (fun n => f n.dp) (fun n p => hf n.dp p) q _ p)

theorem alreadyInQueue_cases (q : List Node) (pfi : PrefetchInfo) (p : ℤ) :
    (alreadyInQueue q pfi p = (q, false) ∧ ∀ n ∈ q, n.key ≠ pfi.key)
    ∨ ((alreadyInQueue q pfi p).2 = true ∧ ∃ n ∈ q, n.key = pfi.key) := by
  rcases search_cases pfi q 0 with ⟨h, hq⟩ | ⟨a, n, b, rfl, ha, hn, h⟩
  · refine .inl ⟨?_, hq⟩
    unfold alreadyInQueue
    rw [h]
    simp
  · refine .inr ⟨?_, n, by simp, hn⟩
    rcases alreadyInQueue_eq (a ++ n :: b) pfi p with h' | h' <;> rw [h', h]

theorem makeRoom_cases {queueSize : ℕ} (h : makeRoom queueSize q = .ok q') :
    q.length ≠ queueSize ∧ q' = q
    ∨ q.length = queueSize ∧ q ≠ [] ∧ q.length ≠ 1
      ∧ q' = q.eraseIdx (victim q (q.length - 1)) := by
  unfold makeRoom at h
  split_ifs at h with hl
  · simp only [bind_ok, panicIf_ok] at h
    obtain ⟨_, hne, _, h1, h⟩ := h
    exact .inr ⟨hl, hne, h1, (Except.ok.inj h).symm⟩
  · exact .inl ⟨hl, (Except.ok.inj h).symm⟩

theorem makeRoom_sublist {queueSize : ℕ} (h : makeRoom queueSize q = .ok q') : q'.Sublist q := by
  rcases makeRoom_cases h with ⟨-, rfl⟩ | ⟨-, -, -, rfl⟩
  · exact List.Sublist.refl q'
  · exact eraseIdx_sublist _ _

theorem victim_le (q : List Node) : ∀ it, victim q it ≤ it
  | 0 => le_rfl
  | it + 1 => by
    unfold victim
    split_ifs
    · exact (victim_le q it).trans (Nat.le_succ it)
    · exact le_rfl

theorem makeRoom_length {queueSize : ℕ} (hq : q.length ≤ queueSize)
    (h : makeRoom queueSize q = .ok q') : q'.length < queueSize := by
  rcases makeRoom_cases h with ⟨hne, rfl⟩ | ⟨hl, hne, -, rfl⟩
  · omega
  · have hpos := length_pos_iff.2 hne
    have hv := victim_le q (q.length - 1)
    rw [length_eraseIdx_of_lt (by omega)]
    omega

theorem insertIdx_append (n : Node) (b : List Node) : ∀ a : List Node,
    (a ++ b).insertIdx a.length n = a ++ n :: b
  | [] => rfl
  | m :: a => congrArg (m :: ·) (insertIdx_append n b a)

theorem emplace_append (q : List Node) (n : Node) :
    ∃ a b, q = a ++ b ∧ emplace q n = a ++ n :: b := by
  have hpos : ∀ it, position q n.priority it ≤ it := by
    intro it
    induction it with
    | zero => exact le_rfl
    | succ it ih =>
      unfold position
      split_ifs <;> omega
  unfold emplace
  split_ifs with h0
  · exact ⟨q, [], by simp, rfl⟩
  · simp only []
    generalize hk : (if position q n.priority q.length = 0
      ∧ n.priority ≤ priorityAt q (position q n.priority q.length)
      then position q n.priority q.length + 1 else position q n.priority q.length) = k
    have hkl : k ≤ q.length := by
      have hq := length_pos_iff.2 fun h => h0 (.inl h)
      have := hpos q.length
      split_ifs at hk <;> omega
    refine ⟨q.take k, q.drop k, (take_append_drop k q).symm, ?_⟩
    have := insertIdx_append n (q.drop k) (q.take k)
    rwa [take_append_drop, length_take_of_le hkl] at this

theorem emplace_perm (q : List Node) (n : Node) : (emplace q n).Perm (n :: q) := by
  obtain ⟨a, b, rfl, h⟩ := emplace_append q n
  rw [h]
  exact perm_middle

/-! ## The place of a new entry -/

theorem position_eq (ha : ∀ m ∈ a, p ≤ m.priority) (hb : ∀ m ∈ b, m.priority < p) :
    ∀ k < b.length, position (a ++ b) p (a.length + k + 1) = a.length - 1 := by
  intro k
  induction k with
  | zero =>
    intro hk
    obtain ⟨m, b, rfl⟩ := exists_cons_of_length_pos hk
    have hm := hb m mem_cons_self
    rcases eq_nil_or_concat' a with rfl | ⟨c, x, rfl⟩
    · simp [position]
    · have hx : p ≤ x.priority := ha x (by simp)
      have hxat : priorityAt (c ++ [x] ++ m :: b) c.length = x.priority := by
        rw [append_assoc]
        exact priorityAt_append
      have hmat : priorityAt (c ++ [x] ++ m :: b) (c ++ [x]).length = m.priority :=
        priorityAt_append
      rw [position, if_pos ⟨by simp, hmat ▸ hm⟩, length_append, length_singleton,
        position, hxat, if_neg fun h => (h.2.trans_le hx).false, Nat.add_sub_cancel]
  | succ k ih =>
    intro hk
    have hget : (a ++ b)[a.length + (k + 1)]? = some b[k + 1] := by
      rw [getElem?_append_right (by omega), Nat.add_sub_cancel_left,
        getElem?_eq_getElem hk]
    have hlt : priorityAt (a ++ b) (a.length + (k + 1)) < p := by
      rw [priorityAt_eq hget]
      exact hb _ (getElem_mem hk)
    rw [position, if_pos ⟨by omega, hlt⟩]
    exact ih (by omega)

theorem placeFits_append (ha : ∀ m ∈ a, p ≤ m.priority) (hb : ∀ m ∈ b, m.priority < p) :
    PlaceFits (a ++ b) p ↔ b = [] ∨ a.length ≤ 1 := by
  rcases eq_nil_or_concat' b with rfl | ⟨c, m, rfl⟩
  · simp only [append_nil, true_or, iff_true]
    rcases eq_nil_or_concat' a with rfl | ⟨c, x, rfl⟩
    · exact .inr (by simp)
    · exact .inl ⟨x, by simp, ha x (by simp)⟩
  · have hm := hb m (by simp)
    unfold PlaceFits
    constructor
    · rintro (⟨m', hm', hle⟩ | htail)
      · have : m = m' := by simpa [← append_assoc] using hm'
        subst this
        omega
      · right
        rcases a with _ | ⟨x, _ | ⟨y, a⟩⟩
        · simp
        · simp
        · have h1 := ha y (by simp)
          have h2 := htail y (by simp)
          omega
    · rintro (h | h)
      · simp at h
      · right
        rcases a with _ | ⟨x, _ | ⟨y, a⟩⟩
        · exact fun m' hm' => hb m' (mem_of_mem_tail hm')
        · exact fun m' hm' => hb m' (by simpa using hm')
        · simp at h

/-- A new entry comes to its place exactly if that is at the end, at the head or directly behind
the head. -/
theorem emplace_iff (hq : Sorted Node.priority q) (hn : n.node ∉ q.map Node.node) :
    emplace q n = place Node.priority n q ↔ PlaceFits q n.priority := by
  obtain ⟨a, b, rfl, ha, hb, hplace⟩ := hq.split_place n
  rw [hplace, placeFits_append ha hb]
  rcases eq_nil_or_concat' b with rfl | ⟨c, m, rfl⟩
  · simp only [append_nil, true_or, iff_true]
    unfold emplace
    rw [if_pos]
    rcases eq_nil_or_concat' a with rfl | ⟨d, x, rfl⟩
    · exact .inl rfl
    · refine .inr ?_
      have hx : n.priority ≤ x.priority := ha x (by simp)
      rwa [length_append, length_singleton, Nat.add_sub_cancel, priorityAt_append]
  · have hm : m.priority < n.priority := hb m (by simp)
    have hpos := position_eq ha hb c.length (by simp)
    have hlast : priorityAt (a ++ (c ++ [m])) ((a ++ (c ++ [m])).length - 1) = m.priority := by
      have := priorityAt_append (a := a ++ c) (n := m) (b := [])
      simpa [Nat.add_assoc] using this
    have hlen : (a ++ (c ++ [m])).length = a.length + c.length + 1 := by simp [Nat.add_assoc]
    have hne : ¬(a ++ (c ++ [m]) = [] ∨ n.priority
        ≤ priorityAt (a ++ (c ++ [m])) ((a ++ (c ++ [m])).length - 1)) := by
      rw [hlast]
      simpa using hm
    unfold emplace
    rw [if_neg hne]
    simp only [hlen, hpos]
    rcases eq_nil_or_concat' a with rfl | ⟨d, x, rfl⟩
    · have h0 : ¬n.priority ≤ priorityAt (c ++ [m]) 0 := by
        rcases c with _ | ⟨y, c⟩
        · simpa [priorityAt] using hm
        · simpa [priorityAt] using hb y (by simp)
      simp [h0]
    · have hx : n.priority ≤ x.priority := ha x (by simp)
      rcases d with _ | ⟨y, d⟩
      · have h0 : n.priority ≤ priorityAt (x :: (c ++ [m])) 0 := by simpa [priorityAt] using hx
        simp [h0]
      · have hins := insertIdx_append n (x :: (c ++ [m])) (y :: d)
        simp only [append_assoc, singleton_append, length_append, length_cons,
          length_nil, Nat.zero_add, Nat.add_sub_cancel] at hins ⊢
        rw [if_neg fun h => Nat.succ_ne_zero _ h.1, hins]
        constructor
        · intro h
          have hxn : n = x := (List.cons.inj (append_cancel_left h)).1
          subst hxn
          exact absurd (by simp) hn
        · rintro (h | h)
          · simp at h
          · omega

/-! ## The entry that is given up -/

theorem victim_eq (ha : ∀ m ∈ a, n.priority < m.priority) (hb : ∀ m ∈ b, m.priority = n.priority) :
    ∀ k ≤ b.length, victim (a ++ n :: b) (a.length + k) = a.length := by
  have hat : ∀ k ≤ b.length, priorityAt (a ++ n :: b) (a.length + k) = n.priority := by
    intro k hk
    have hlt : k < (n :: b).length := Nat.lt_succ_of_le hk
    have hget : (a ++ n :: b)[a.length + k]? = some (n :: b)[k] := by
      rw [getElem?_append_right (by omega), Nat.add_sub_cancel_left,
        getElem?_eq_getElem hlt]
    rw [priorityAt_eq hget]
    rcases mem_cons.1 (getElem_mem hlt) with h | h
    · rw [h]
    · exact hb _ h
  intro k
  induction k with
  | zero =>
    intro hk
    rcases eq_nil_or_concat' a with rfl | ⟨c, x, rfl⟩
    · rfl
    · have hx : n.priority < x.priority := ha x (by simp)
      have hxat : priorityAt (c ++ [x] ++ n :: b) c.length = x.priority := by
        rw [append_assoc]
        exact priorityAt_append
      have hnat := hat 0 hk
      rw [Nat.add_zero, length_append, length_singleton] at hnat ⊢
      rw [victim, hxat, hnat, if_neg hx.ne']
  | succ k ih =>
    intro hk
    rw [← Nat.add_assoc, victim, hat k (by omega), Nat.add_assoc, hat (k + 1) hk, if_pos rfl]
    exact ih (by omega)

theorem makeRoom_eq {queueSize : ℕ} (hsize : 2 ≤ queueSize) (hq : Sorted Node.priority q) :
    makeRoom queueSize q
      = .ok (if q.length = queueSize then dropLowest Node.priority q else q) := by
  unfold makeRoom
  split_ifs with hl
  · have hne : q ≠ [] := fun h => by
      rw [h] at hl
      simp at hl
      omega
    obtain ⟨a, n, b, rfl, ha, hb, hdrop⟩ := hq.split_lowest hne
    have hv : victim (a ++ n :: b) ((a ++ n :: b).length - 1) = a.length := by
      have := victim_eq ha hb b.length le_rfl
      simpa [Nat.add_assoc] using this
    rw [hdrop, hv, eraseIdx_append_of_length_le le_rfl, Nat.sub_self, eraseIdx_cons_zero]
    simp only [panicIf, if_neg hne, if_neg (show (a ++ n :: b).length ≠ 1 by omega), ok_bind]
    rfl
  · rfl

/-! ## A repeated request -/

/-- A repeated request raises the entry with its address to the request's priority, and this comes
to its new place. -/
def raised (pfi : PrefetchInfo) (p : ℤ) (q : List DeferredPacket) : List DeferredPacket :=
  match q.find? (·.pfInfo.sameAddr pfi) with
  | none => q
  | some dp =>
    if dp.priority < p then
      place DeferredPacket.priority { dp with priority := p } (q.eraseP (·.pfInfo.sameAddr pfi))
    else q

theorem requestFits_of_absent (h : ∀ n ∈ q, n.key ≠ pfi.key) : RequestFits q pfi p := by
  have hd : q.dropWhile (fun n => !n.dp.pfInfo.sameAddr pfi) = [] := by
    rw [dropWhile_eq_nil_iff]
    intro n hn
    simpa using mt sameAddr_iff.1 (h n hn)
  unfold RequestFits
  rw [hd]
  trivial

theorem dropWhile_absent (ha : ∀ m ∈ a, m.key ≠ pfi.key) (hn : n.key = pfi.key) :
    (a ++ n :: b).dropWhile (fun n => !n.dp.pfInfo.sameAddr pfi) = n :: b := by
  rw [dropWhile_append_of_pos, dropWhile_cons_of_neg]
  · simpa using sameAddr_iff.2 hn
  · intro m hm
    simpa using mt sameAddr_iff.1 (ha m hm)

theorem search_append (ha : ∀ m ∈ a, m.key ≠ pfi.key) (hn : n.key = pfi.key) :
    search pfi (a ++ n :: b) 0 = (a.length + 1, true) := by
  suffices ∀ k, search pfi (a ++ n :: b) k = (k + a.length + 1, true) by simpa using this 0
  induction a with
  | nil =>
    intro k
    simp [search, sameAddr_iff.2 hn]
  | cons m a ih =>
    intro k
    obtain ⟨hm, ha⟩ := forall_mem_cons.1 ha
    have hm := mt sameAddr_iff.1 hm
    rw [cons_append, search, if_neg hm, ih ha, length_cons]
    congr 1
    omega

theorem alreadyInQueue_of_fits (hfits : RequestFits q pfi p) :
    (alreadyInQueue q pfi p).1 = q := by
  rcases search_cases pfi q 0 with ⟨h, -⟩ | ⟨a, n, b, rfl, ha, hn, -⟩
  · unfold alreadyInQueue
    rw [h]
    simp
  · unfold RequestFits at hfits
    rw [dropWhile_absent ha hn] at hfits
    unfold alreadyInQueue
    rw [search_append ha hn]
    rcases b with _ | ⟨m, b⟩
    · simp
    · have hm : priorityAt (a ++ n :: m :: b) (a.length + 1) = m.priority :=
        priorityAt_eq (by simp)
      have hle : p ≤ m.priority := hfits
      simp only [hm]
      rw [if_neg fun h => (h.2.trans_le hle).false]

theorem raised_append (ha : ∀ m ∈ a, m.key ≠ pfi.key) (hn : n.key = pfi.key) :
    raised pfi p ((a ++ n :: b).map Node.dp) =
      if n.priority < p then
        place DeferredPacket.priority { n.dp with priority := p } ((a ++ b).map Node.dp)
      else (a ++ n :: b).map Node.dp := by
  have ha' : ∀ dp ∈ a.map Node.dp, ¬dp.pfInfo.sameAddr pfi = true := by
    intro dp hdp
    obtain ⟨m, hm, rfl⟩ := mem_map.1 hdp
    exact mt sameAddr_iff.1 (ha m hm)
  have hn' : n.dp.pfInfo.sameAddr pfi = true := sameAddr_iff.2 hn
  have hfind : ((a ++ n :: b).map Node.dp).find? (·.pfInfo.sameAddr pfi) = some n.dp := by
    rw [map_append, find?_append, find?_eq_none.2 ha', Option.none_or]
    simp [hn']
  have herase : ((a ++ n :: b).map Node.dp).eraseP (·.pfInfo.sameAddr pfi)
      = (a ++ b).map Node.dp := by
    rw [map_append, eraseP_append_right _ ha', map_append]
    simp [hn']
  unfold raised
  rw [hfind, herase]
  rfl

theorem mem_place {α β : Type*} [LinearOrder β] {rank : α → β} {x y : α} {l : List α} :
    y ∈ place rank x l ↔ y = x ∨ y ∈ l := by
  unfold place
  rw [mem_append, mem_cons, or_left_comm, ← mem_append,
    takeWhile_append_dropWhile]

theorem eq_of_key (hkeys : (q.map Node.key).Nodup) (hn : n ∈ q) (hm : m ∈ q)
    (h : n.key = m.key) : n = m :=
  inj_on_of_nodup_map hkeys hn hm h

theorem mem_alreadyInQueue (ha : ∀ m ∈ a, m.key ≠ pfi.key) (hn : n.key = pfi.key)
    (hlt : m.priority < p) : { m.dp with priority := p }
      ∈ (alreadyInQueue (a ++ n :: m :: b) pfi p).1.map Node.dp := by
  have hm : priorityAt (a ++ n :: m :: b) (a.length + 1) = m.priority := priorityAt_eq (by simp)
  unfold alreadyInQueue
  rw [search_append ha hn]
  simp only [hm]
  rw [if_pos ⟨by simp, hlt⟩]
  refine (moveUp_dp _ _ _).mem_iff.2 (mem_map.2 ⟨{ m with dp := _ }, ?_, rfl⟩)
  unfold setPriority
  refine mem_of_getElem? (i := a.length + 1) ?_
  rw [getElem?_modify]
  simp

/-- A repeated request does what it should exactly if nothing is to be raised, neither its own entry
nor the one behind it. -/
theorem raise_iff (hq : Sorted Node.priority q) (hkeys : (q.map Node.key).Nodup) :
    (alreadyInQueue q pfi p).1.map Node.dp = raised pfi p (q.map Node.dp)
      ↔ RequestFits q pfi p := by
  rcases search_cases pfi q 0 with ⟨-, habs⟩ | ⟨a, n, b, rfl, ha, hn, -⟩
  · have hfits : RequestFits q pfi p := requestFits_of_absent habs
    refine iff_of_true ?_ hfits
    have hnone : (q.map Node.dp).find? (·.pfInfo.sameAddr pfi) = none := by
      rw [find?_eq_none]
      intro dp hdp
      obtain ⟨m, hm, rfl⟩ := mem_map.1 hdp
      exact mt sameAddr_iff.1 (habs m hm)
    rw [alreadyInQueue_of_fits hfits, raised, hnone]
  · constructor
    · intro h
      rw [raised_append ha hn] at h
      unfold RequestFits
      rw [dropWhile_absent ha hn]
      by_contra hlt
      rcases b with _ | ⟨m, b⟩
      · -- the entry at the end is found, but nothing is looked at
        have hlt : n.priority < p := not_le.1 hlt
        have hsame : (alreadyInQueue (a ++ [n]) pfi p).1 = a ++ [n] := by
          unfold alreadyInQueue
          rw [search_append ha hn]
          simp
        have hmem : { n.dp with priority := p } ∈ (a ++ [n]).map Node.dp := by
          rw [← hsame, h, if_pos hlt]
          exact mem_place.2 (.inl rfl)
        obtain ⟨m, hm, hdp⟩ := mem_map.1 hmem
        have hkey : m.key = n.key := by simp [Node.key, hdp]
        obtain rfl := eq_of_key hkeys hm (by simp) hkey
        have : m.priority = p := congrArg DeferredPacket.priority hdp
        omega
      · have hlt : m.priority < p := not_le.1 hlt
        have hmem := mem_alreadyInQueue (b := b) ha hn hlt
        rw [h] at hmem
        have hmq : m ∈ a ++ n :: m :: b := by simp
        have hnm : m.key ≠ n.key := by
          intro hkey
          have := nodup_middle.1 (by simpa using hkeys)
          simp [hkey] at this
        have hcase : { m.dp with priority := p } ∈ (a ++ n :: m :: b).map Node.dp := by
          split_ifs at hmem with hnp
          · rcases mem_place.1 hmem with heq | hmem
            · refine absurd ?_ hnm
              have := congrArg DeferredPacket.pfInfo heq
              simp only at this
              simp [Node.key, this]
            · obtain ⟨m', hm', hdp⟩ := mem_map.1 hmem
              exact mem_map.2 ⟨m', by simp at hm' ⊢; tauto, hdp⟩
          · exact hmem
        obtain ⟨m', hm', hdp⟩ := mem_map.1 hcase
        have hkey : m'.key = m.key := by simp [Node.key, hdp]
        obtain rfl := eq_of_key hkeys hm' hmq hkey
        have : m'.priority = p := congrArg DeferredPacket.priority hdp
        omega
    · intro hfits
      rw [alreadyInQueue_of_fits hfits, raised_append ha hn, if_neg]
      unfold RequestFits at hfits
      rw [dropWhile_absent ha hn] at hfits
      rcases b with _ | ⟨m, b⟩
      · exact not_lt.2 hfits
      · have hfits : p ≤ m.priority := hfits
        have hnm := (pairwise_cons.1 (pairwise_append.1 hq).2.1).1 m mem_cons_self
        exact not_lt.2 (hfits.trans hnm)

end Gem5.Prefetch
