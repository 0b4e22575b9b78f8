import Mathlib

/-!
# A priority queue of stacks

The elements of a priority queue are kept in bins, one for each key, in the order of the keys. A bin
is a stack, so of the elements with one key the last one that was put in comes out first. `stamp` is
the order in which the elements were put in.
-/

variable {α κ : Type*}

structure Bin (α : Type*) where
  top : α
  rest : List α

namespace Bin

open List

def all (b : Bin α) : List α := b.top :: b.rest

def contents (bins : List (Bin α)) : List α := bins.flatMap all

@[simp] theorem contents_cons (b : Bin α) (bins : List (Bin α)) :
    contents (b :: bins) = b.all ++ contents bins := rfl

@[simp] theorem contents_append (bins bins' : List (Bin α)) :
    contents (bins ++ bins') = contents bins ++ contents bins' := flatMap_append

theorem mem_contents {bins : List (Bin α)} {a : α} :
    a ∈ contents bins ↔ ∃ b ∈ bins, a ∈ b.all := mem_flatMap

theorem top_mem {bins : List (Bin α)} {b : Bin α} (h : b ∈ bins) : b.top ∈ contents bins :=
  mem_contents.2 ⟨b, h, mem_cons_self⟩

variable [LinearOrder κ]

/-- The bins are in the order of their keys, and each of them is a stack of elements with one key. -/
structure Sorted (key : α → κ) (stamp : α → ℕ) (bins : List (Bin α)) : Prop where
  increasing : bins.Pairwise fun b b' => key b.top < key b'.top
  uniform : ∀ b ∈ bins, ∀ a ∈ b.rest, key a = key b.top
  recent : ∀ b ∈ bins, b.all.Pairwise fun a a' => stamp a' < stamp a
  nodup : (contents bins).Nodup

namespace Sorted

variable {key key' : α → κ} {stamp stamp' : α → ℕ} {bins pre post : List (Bin α)} {b b' : Bin α}
  {a : α}

theorem nil : Sorted key stamp [] := ⟨.nil, by simp, by simp, nodup_nil⟩

theorem key_eq (h : Sorted key stamp bins) (hb : b ∈ bins) (ha : a ∈ b.all) :
    key a = key b.top := by
  rcases mem_cons.1 ha with rfl | ha
  · rfl
  · exact h.uniform b hb a ha

theorem congr (h : Sorted key stamp bins) (hk : ∀ a ∈ contents bins, key' a = key a)
    (hs : ∀ a ∈ contents bins, stamp' a = stamp a) : Sorted key' stamp' bins := by
  have hall : ∀ b ∈ bins, ∀ a ∈ b.all, a ∈ contents bins := fun b hb a ha =>
    mem_contents.2 ⟨b, hb, ha⟩
  refine ⟨?_, fun b hb a ha => ?_, fun b hb => ?_, h.nodup⟩
  · refine h.increasing.imp_of_mem fun hb hb' hlt => ?_
    rwa [hk _ (top_mem hb), hk _ (top_mem hb')]
  · rw [hk a (hall b hb a (mem_cons_of_mem _ ha)), hk _ (top_mem hb)]
    exact h.uniform b hb a ha
  · refine (h.recent b hb).imp_of_mem fun ha ha' hlt => ?_
    rwa [hs _ (hall b hb _ ha), hs _ (hall b hb _ ha')]

theorem remove (h : Sorted key stamp (pre ++ b :: post)) : Sorted key stamp (pre ++ post) := by
  have hsub : (pre ++ post).Sublist (pre ++ b :: post) :=
    List.Sublist.append (List.Sublist.refl pre) (sublist_cons_self b post)
  have hmem : ∀ c ∈ pre ++ post, c ∈ pre ++ b :: post := fun c hc => hsub.subset hc
  refine ⟨h.increasing.sublist hsub, fun c hc => h.uniform c (hmem c hc),
    fun c hc => h.recent c (hmem c hc), ?_⟩
  refine h.nodup.sublist ?_
  rw [contents_append, contents_append, contents_cons]
  exact List.Sublist.append (List.Sublist.refl _) (sublist_append_right _ _)

theorem insert (h : Sorted key stamp (pre ++ post)) (ha : a ∉ contents (pre ++ post))
    (hpre : ∀ c ∈ pre, key c.top < key a) (hpost : ∀ c ∈ post, key a < key c.top) :
    Sorted key stamp (pre ++ ⟨a, []⟩ :: post) := by
  have hmem : ∀ c ∈ pre ++ ⟨a, []⟩ :: post, c = ⟨a, []⟩ ∨ c ∈ pre ++ post := by
    intro c hc
    simp only [mem_append, mem_cons] at hc ⊢
    tauto
  refine ⟨?_, fun c hc => ?_, fun c hc => ?_, ?_⟩
  · rw [pairwise_append, pairwise_cons]
    obtain ⟨h₁, h₂, h₃⟩ := pairwise_append.1 h.increasing
    refine ⟨h₁, ⟨hpost, h₂⟩, fun c hc d hd => ?_⟩
    rcases mem_cons.1 hd with rfl | hd
    · exact hpre c hc
    · exact h₃ c hc d hd
  · rcases hmem c hc with rfl | hc
    · simp
    · exact h.uniform c hc
  · rcases hmem c hc with rfl | hc
    · simp [all]
    · exact h.recent c hc
  · have hperm : (contents (pre ++ ⟨a, []⟩ :: post)).Perm (a :: contents (pre ++ post)) := by
      simp only [contents_append, contents_cons, all]
      exact perm_middle
    exact hperm.nodup_iff.2 (nodup_cons.2 ⟨ha, h.nodup⟩)

theorem replace (h : Sorted key stamp (pre ++ b :: post)) (hkey : ∀ x ∈ b'.all, key x = key b.top)
    (hrecent : b'.all.Pairwise fun a a' => stamp a' < stamp a)
    (hnodup : (contents (pre ++ b' :: post)).Nodup) : Sorted key stamp (pre ++ b' :: post) := by
  have htop : key b'.top = key b.top := hkey _ mem_cons_self
  have hmem : ∀ c ∈ pre ++ b' :: post, c = b' ∨ c ∈ pre ++ b :: post := by
    intro c hc
    simp only [mem_append, mem_cons] at hc ⊢
    tauto
  refine ⟨?_, fun c hc => ?_, fun c hc => ?_, hnodup⟩
  · obtain ⟨h₁, h₂, h₃⟩ := pairwise_append.1 h.increasing
    rw [pairwise_cons] at h₂
    rw [pairwise_append, pairwise_cons, htop]
    refine ⟨h₁, h₂, fun c hc d hd => ?_⟩
    rcases mem_cons.1 hd with rfl | hd
    · rw [htop]
      exact h₃ c hc b mem_cons_self
    · exact h₃ c hc d (mem_cons_of_mem _ hd)
  · rcases hmem c hc with rfl | hc
    · intro x hx
      rw [htop]
      exact hkey x (mem_cons_of_mem _ hx)
    · exact h.uniform c hc
  · rcases hmem c hc with rfl | hc
    · exact hrecent
    · exact h.recent c hc

theorem shrink (h : Sorted key stamp (pre ++ b :: post)) (hsub : b'.all.Sublist b.all) :
    Sorted key stamp (pre ++ b' :: post) := by
  have hb : b ∈ pre ++ b :: post := by simp
  refine h.replace (fun x hx => h.key_eq hb (hsub.subset hx)) ((h.recent b hb).sublist hsub) ?_
  refine h.nodup.sublist ?_
  simp only [contents_append, contents_cons]
  exact List.Sublist.append (List.Sublist.refl _) (List.Sublist.append hsub (List.Sublist.refl _))

theorem push (h : Sorted key stamp (pre ++ b :: post)) (hk : key a = key b.top)
    (ha : a ∉ contents (pre ++ b :: post)) (hs : ∀ x ∈ b.all, stamp x < stamp a) :
    Sorted key stamp (pre ++ ⟨a, b.all⟩ :: post) := by
  have hb : b ∈ pre ++ b :: post := by simp
  refine h.replace (fun x hx => ?_) (pairwise_cons.2 ⟨hs, h.recent b hb⟩) ?_
  · rcases mem_cons.1 hx with rfl | hx
    · exact hk
    · exact h.key_eq hb hx
  · have hperm : (contents (pre ++ ⟨a, b.all⟩ :: post)).Perm
        (a :: contents (pre ++ b :: post)) := by
      simp only [contents_append, contents_cons]
      exact perm_middle
    exact hperm.nodup_iff.2 (nodup_cons.2 ⟨ha, h.nodup⟩)

/-- The top of the first bin comes before every other element: it has a smaller key, or the same one
and was put in later. -/
theorem first (h : Sorted key stamp (b :: bins)) (ha : a ∈ contents (b :: bins)) :
    a = b.top ∨ key b.top < key a ∨ key a = key b.top ∧ stamp a < stamp b.top := by
  obtain ⟨c, hc, hac⟩ := mem_contents.1 ha
  rcases mem_cons.1 hc with rfl | hc'
  · rcases mem_cons.1 hac with rfl | hrest
    · exact .inl rfl
    · refine .inr (.inr ⟨h.uniform c hc a hrest, ?_⟩)
      exact (pairwise_cons.1 (h.recent c hc)).1 a hrest
  · refine .inr (.inl ?_)
    rw [h.key_eq hc hac]
    exact (pairwise_cons.1 h.increasing).1 c hc'

/-- The bins after the first one whose key is not below `k` are beyond `k`. -/
theorem beyond {k : κ} (h : Sorted key stamp (pre ++ b :: post)) (hk : k ≤ key b.top) :
    ∀ c ∈ post, k < key c.top := fun c hc =>
  hk.trans_lt ((pairwise_cons.1 (pairwise_append.1 h.increasing).2.1).1 c hc)

end Sorted

end Bin
