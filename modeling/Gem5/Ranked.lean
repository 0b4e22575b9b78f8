import Mathlib

/-!
# Priority queues as lists

A list that gives out its elements by rank, the highest first, and of one rank the one that came
first. `place` is where a new element belongs and `dropLowest` gives up the oldest element of the
lowest rank. `Fifo` relates two states of the queue.
-/

namespace Ranked

open List

variable {α β γ : Type*}

/-- What is left of the one list stands in its order in front of what has come since. -/
def Fifo (l l' : List α) : Prop := ∃ kept added, List.Sublist kept l ∧ l' = kept ++ added

namespace Fifo

variable {l l' l'' : List α}

theorem of_sublist (h : l'.Sublist l) : Fifo l l' := ⟨l', [], h, (append_nil _).symm⟩

theorem refl (l : List α) : Fifo l l := of_sublist (List.Sublist.refl l)

theorem append (l added : List α) : Fifo l (l ++ added) := ⟨l, added, List.Sublist.refl l, rfl⟩

theorem trans : Fifo l l' → Fifo l' l'' → Fifo l l'' := by
  rintro ⟨kept, added, hk, rfl⟩ ⟨kept', added', hk', rfl⟩
  obtain ⟨k, a, rfl, hka, -⟩ := sublist_append_iff.1 hk'
  exact ⟨k, a ++ added', hka.trans hk, append_assoc ..⟩

end Fifo

variable [LinearOrder β] {rank : α → β} {q a b : List α} {x : α} {r : β}

def Sorted (rank : α → β) (q : List α) : Prop := q.Pairwise fun x y => rank y ≤ rank x

def place (rank : α → β) (x : α) (q : List α) : List α :=
  q.takeWhile (fun y => rank x ≤ rank y) ++ x :: q.dropWhile (fun y => rank x ≤ rank y)

def dropLowest (rank : α → β) (q : List α) : List α :=
  q.eraseP fun x => ∀ y ∈ q, rank x ≤ rank y

def level (rank : α → β) (r : β) (q : List α) : List α := q.filter fun x => rank x = r

theorem level_sublist {q' : List α} (h : q'.Sublist q) (r : β) :
    (level rank r q').Sublist (level rank r q) :=
  h.filter _

namespace Sorted

theorem sublist {q' : List α} (h : q'.Sublist q) (hq : Sorted rank q) : Sorted rank q' :=
  List.Pairwise.sublist h hq

/-- The elements that a lower bound on the rank holds for come first. -/
theorem split (hq : Sorted rank q) {p : β → Bool} (hp : ∀ r r', p r = true → r ≤ r' → p r' = true) :
    ∃ a b, q = a ++ b ∧ (∀ y ∈ a, p (rank y) = true) ∧ ∀ y ∈ b, p (rank y) = false := by
  refine ⟨q.takeWhile fun y => p (rank y), q.dropWhile fun y => p (rank y),
    takeWhile_append_dropWhile.symm, fun y hy => ?_, fun y hy => ?_⟩
  · have := mem_takeWhile_imp hy
    exact this
  have hs := hq.sublist (dropWhile_sublist fun y => p (rank y))
  rcases hb : q.dropWhile (fun y => p (rank y)) with _ | ⟨x, b⟩
  · rw [hb] at hy
    cases hy
  · have hx : p (rank x) = false := by
      have := head?_dropWhile_not (fun y => p (rank y)) q
      simpa [hb] using this
    rw [hb] at hy hs
    rcases mem_cons.1 hy with rfl | hy
    · exact hx
    · by_contra hne
      have := hp _ _ (by simpa using hne) ((pairwise_cons.1 hs).1 y hy)
      rw [hx] at this
      cases this

end Sorted

theorem place_append (ha : ∀ y ∈ a, rank x ≤ rank y) (hb : ∀ y ∈ b, rank y < rank x) :
    place rank x (a ++ b) = a ++ x :: b := by
  unfold place
  rw [takeWhile_append_of_pos (by simpa using ha),
    dropWhile_append_of_pos (by simpa using ha)]
  rcases b with _ | ⟨y, b⟩
  · simp
  · have hy : ¬rank x ≤ rank y := (hb y mem_cons_self).not_ge
    simp [hy]

/-- The two parts of a queue that a new element comes between. -/
theorem Sorted.split_place (hq : Sorted rank q) (x : α) : ∃ a b, q = a ++ b
    ∧ (∀ y ∈ a, rank x ≤ rank y) ∧ (∀ y ∈ b, rank y < rank x) ∧ place rank x q = a ++ x :: b := by
  obtain ⟨a, b, rfl, ha, hb⟩ := hq.split (p := fun r => rank x ≤ r)
    (fun r r' h hle => by simpa using (of_decide_eq_true h).trans hle)
  simp only [decide_eq_true_eq, decide_eq_false_iff_not, not_le] at ha hb
  exact ⟨a, b, rfl, ha, hb, place_append ha hb⟩

theorem Sorted.place (hq : Sorted rank q) (x : α) : Sorted rank (place rank x q) := by
  obtain ⟨a, b, rfl, ha, hb, h⟩ := hq.split_place x
  rw [h]
  obtain ⟨hsa, hsb, hab⟩ := pairwise_append.1 hq
  refine pairwise_append.2 ⟨hsa, pairwise_cons.2 ⟨fun y hy => (hb y hy).le, hsb⟩, ?_⟩
  intro y hy z hz
  rcases mem_cons.1 hz with rfl | hz
  · exact ha y hy
  · exact hab y hy z hz

/-- A new element comes behind those of its rank, and the other ranks keep their elements. -/
theorem level_place (hq : Sorted rank q) (x : α) (r : β) :
    level rank r (Ranked.place rank x q)
      = if rank x = r then level rank r q ++ [x] else level rank r q := by
  obtain ⟨a, b, rfl, ha, hb, h⟩ := hq.split_place x
  rw [h]
  unfold level
  split_ifs with hr
  · have hb' : b.filter (fun y => rank y = r) = [] := by
      rw [filter_eq_nil_iff]
      intro y hy
      simpa using ((hb y hy).trans_eq hr).ne
    rw [filter_append, filter_cons_of_pos (by simpa using hr), filter_append, hb',
      append_nil]
  · rw [filter_append, filter_cons_of_neg (by simpa using hr), filter_append]

theorem Sorted.split_lowest (hq : Sorted rank q) (hne : q ≠ []) : ∃ a y b, q = a ++ y :: b
    ∧ (∀ z ∈ a, rank y < rank z) ∧ (∀ z ∈ b, rank z = rank y) ∧ dropLowest rank q = a ++ b := by
  obtain ⟨c, z, rfl⟩ := (eq_nil_or_concat q).resolve_left hne
  rw [concat_eq_append] at hq ⊢
  have hz : ∀ w ∈ c ++ [z], rank z ≤ rank w := by
    intro w hw
    rcases mem_append.1 hw with hw | hw
    · exact (pairwise_append.1 hq).2.2 w hw z mem_cons_self
    · rw [mem_singleton.1 hw]
  obtain ⟨a, b, hab, ha, hb⟩ := hq.split (p := fun r => rank z < r)
    (fun r r' h hle => by simpa using (of_decide_eq_true h).trans_le hle)
  simp only [decide_eq_true_eq, decide_eq_false_iff_not, not_lt] at ha hb
  rw [hab] at hz ⊢
  have hb' : ∀ w ∈ b, rank w = rank z := fun w hw =>
    (hb w hw).antisymm (hz w (mem_append.2 (.inr hw)))
  have hzb : z ∈ b := by
    have hmem : z ∈ a ++ b := by rw [← hab]; simp
    exact (mem_append.1 hmem).resolve_left fun hza => (ha z hza).false
  rcases b with _ | ⟨y, b⟩
  · cases hzb
  have hy := hb' y mem_cons_self
  refine ⟨a, y, b, rfl, fun w hw => hy.trans_lt (ha w hw), fun w hw =>
    (hb' w (mem_cons_of_mem _ hw)).trans hy.symm, ?_⟩
  unfold dropLowest
  rw [eraseP_append_right _ (fun w hw => ?_), eraseP_cons_of_pos]
  · simpa [hy] using hz
  · simp only [decide_eq_true_eq, not_forall]
    exact ⟨z, mem_append.2 (.inr hzb), (ha w hw).not_ge⟩

end Ranked
