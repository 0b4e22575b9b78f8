import Gem5.AddrRangeMap
import Gem5.Proofs.RangeOverlap

/-!
# The address range map finds the range of an address

The nodes are sorted, and overlap as intervals only if they are parts of one interleaved range
(`Apart`). So the node of an address is the last one that starts at or below it, or is reached from
there over nodes that merge. This needs that the overlap test is exact for the ranges inserted
(`Comparable`), and that the cache holds no iterator of a node that is gone.
-/

namespace Gem5.Base

open Machine

namespace AddrRangeMap

open List

variable {V : Type} {m m' : AddrRangeMap V} {r : AddrRange} {e : RangeEntry V}

structure Inv (m : AddrRangeMap V) : Prop where
  sorted : m.tree.Pairwise fun x y => x.range.key < y.range.key
  apart : m.tree.Pairwise fun x y => x.range.Apart y.range
  ids : (m.tree.map (·.id)).Nodup
  fresh : ∀ e ∈ m.tree, e.id < m.nextId
  cached : ∀ c ∈ m.cache, c ∈ m.tree.map (·.id)
  proper : ∀ e ∈ m.tree, e.range.Proper

/-! ## The nodes around a range -/

theorem mem_tree_iff : e ∈ m.tree ↔ e ∈ m.below r ∨ e ∈ m.above r := by
  rw [below, above, ← mem_append, takeWhile_append_dropWhile]

theorem key_le_of_mem_below (he : e ∈ m.below r) : e.range.key ≤ r.key := by
  have hlt := mem_takeWhile_imp he
  rw [Bool.not_eq_true', ← Bool.not_eq_true, AddrRange.lt_iff_key] at hlt
  exact not_lt.1 hlt

theorem key_lt_of_mem_dropWhile : ∀ {l : List (RangeEntry V)},
    (l.Pairwise fun x y => x.range.key < y.range.key) →
      e ∈ l.dropWhile (fun e => !r.lt e.range) → r.key < e.range.key
  | x :: l, hl, he => by
    rw [pairwise_cons] at hl
    cases hx : r.lt x.range with
    | false =>
      rw [dropWhile_cons_of_pos (by simp [hx])] at he
      exact key_lt_of_mem_dropWhile hl.2 he
    | true =>
      rw [dropWhile_cons_of_neg (by simp [hx])] at he
      have hrx := AddrRange.lt_iff_key.1 hx
      rcases mem_cons.1 he with rfl | he
      · exact hrx
      · exact hrx.trans (hl.1 e he)

theorem Inv.key_lt_of_mem_above (h : m.Inv) (he : e ∈ m.above r) :
    r.key < e.range.key :=
  key_lt_of_mem_dropWhile h.sorted he

instance : Std.Symm fun x y : RangeEntry V => x.range.Apart y.range := ⟨fun _ _ h => h.symm⟩

theorem Inv.apart_of_ne (h : m.Inv) {x y : RangeEntry V} (hx : x ∈ m.tree) (hy : y ∈ m.tree)
    (hne : x ≠ y) : x.range.Apart y.range :=
  h.apart.forall hx hy hne

theorem Inv.merges (h : m.Inv) {x y : RangeEntry V} (hx : x ∈ m.tree) (hy : y ∈ m.tree)
    (hlt : x.range.key < y.range.key) (hend : y.range.start < x.range.end_) :
    x.range.mergesWith y.range = true := by
  have hne : x ≠ y := by
    rintro rfl
    exact hlt.false
  have hstart := AddrRange.start_le_of_key_le hlt.le
  have hy' := BitVec.lt_def.1 (h.proper y hy).start_lt_end
  exact (h.apart_of_ne hx hy hne ⟨BitVec.lt_def.2 (by omega), hend⟩).1

/-! ## Searches -/

section Find

variable {cond : AddrRange → Except Halt Bool} {p : RangeEntry V → Bool}

theorem findCached_spec (hc : ∀ e ∈ m.tree, cond e.range = .ok (p e)) : ∀ {cs : List ℕ},
    (∀ c ∈ cs, c ∈ m.tree.map (·.id)) →
      ∃ res, m.findCached cond cs = .ok res ∧ ∀ e, res = some e → e ∈ m.tree ∧ p e = true ∧ e.id ∈ cs
  | [], _ => ⟨none, rfl, by simp⟩
  | c :: cs, hcs => by
    obtain ⟨e, he⟩ : ∃ e, m.tree.find? (fun e => e.id = c) = some e := by
      obtain ⟨e, he, heq⟩ := mem_map.1 (hcs c mem_cons_self)
      exact Option.isSome_iff_exists.1 (find?_isSome.2 ⟨e, he, by simpa using heq⟩)
    have hmem := mem_of_find?_eq_some he
    have hid : e.id = c := by simpa using find?_some he
    rw [findCached, he]
    simp only [hc e hmem, ok_bind]
    cases hp : p e with
    | true =>
      refine ⟨some e, rfl, ?_⟩
      rintro _ ⟨⟩
      exact ⟨hmem, hp, hid ▸ mem_cons_self⟩
    | false =>
      obtain ⟨res, hres, hmems⟩ :=
        findCached_spec hc fun c' hc' => hcs c' (mem_cons_of_mem c hc')
      refine ⟨res, hres, fun e' he' => ?_⟩
      obtain ⟨h₁, h₂, h₃⟩ := hmems e' he'
      exact ⟨h₁, h₂, mem_cons_of_mem c h₃⟩

theorem findBelow_spec : ∀ {l : List (RangeEntry V)}, (∀ e ∈ l, cond e.range = .ok (p e)) →
    ∃ res, findBelow cond l = .ok res ∧ (∀ e, res = some e → e ∈ l ∧ p e = true) ∧
      ((l.Pairwise fun y x => p x = true → x.range.mergesWith y.range = true) →
        res = none → ∀ x ∈ l, p x = false)
  | [], _ => ⟨none, rfl, by simp, by simp⟩
  | [i], hc => by
    simp only [findBelow, hc i mem_cons_self, ok_bind]
    cases hp : p i with
    | true => exact ⟨some i, rfl, by simp [hp], by simp⟩
    | false => exact ⟨none, rfl, by simp, by simp [hp]⟩
  | i :: next :: rest, hc => by
    rw [findBelow, hc i mem_cons_self, ok_bind]
    cases hp : p i with
    | true => exact ⟨some i, rfl, by simp [hp], by simp⟩
    | false =>
      simp only [Bool.false_eq_true, if_false]
      split_ifs with hm
      · obtain ⟨res, hres, hmem, hnone⟩ := findBelow_spec
          fun e he => hc e (mem_cons_of_mem i he)
        refine ⟨res, hres, fun e he => ⟨mem_cons_of_mem i (hmem e he).1, (hmem e he).2⟩, ?_⟩
        intro hl hnil x hx
        rcases mem_cons.1 hx with rfl | hx
        · exact hp
        · exact hnone (pairwise_cons.1 hl).2 hnil x hx
      · refine ⟨none, rfl, by simp, fun hl _ x hx => ?_⟩
        rcases mem_cons.1 hx with rfl | hx
        · exact hp
        · -- Such a node would merge with both, and so would they.
          rw [pairwise_cons, pairwise_cons] at hl
          by_contra hpx
          rw [Bool.not_eq_false] at hpx
          refine hm ?_
          rcases mem_cons.1 hx with rfl | hx'
          · exact hl.1 _ hx hpx
          · exact AddrRange.mergesWith_of_common (hl.2.1 x hx' hpx) (hl.1 x hx hpx)

/-- What the two looks at the tree rely on. -/
structure Sighted (m : AddrRangeMap V) (r : AddrRange) (p : RangeEntry V → Bool) : Prop where
  above : ∀ x ∈ m.above r, p x = true → ∀ e ∈ (m.above r).head?, p e = true
  below : ∀ x ∈ m.below r, p x = true → ∀ y ∈ m.below r, x.range.key < y.range.key →
    x.range.mergesWith y.range = true

theorem findTree_spec (h : m.Inv) (hc : ∀ e ∈ m.tree, cond e.range = .ok (p e)) :
    ∃ res, m.findTree cond r = .ok res ∧ (∀ e, res = some e → e ∈ m.tree ∧ p e = true) ∧
      (m.Sighted r p → res = none → ∀ x ∈ m.tree, p x = false) := by
  have hbelow : ∀ e ∈ (m.below r).reverse, e ∈ m.tree := fun e he =>
    mem_tree_iff.2 (.inl (mem_reverse.1 he))
  have hwalk : m.Sighted r p → (m.below r).reverse.Pairwise
      fun y x => p x = true → x.range.mergesWith y.range = true := by
    intro hs
    rw [pairwise_reverse]
    refine List.Pairwise.imp_of_mem ?_ (h.sorted.sublist (takeWhile_sublist _))
    exact fun hx hy hlt hp => hs.below _ hx hp _ hy hlt
  obtain ⟨res, hres, hmem, hnone⟩ := findBelow_spec fun e he => hc e (hbelow e he)
  rw [findTree]
  cases hab : m.above r with
  | nil =>
    refine ⟨res, hres, fun e he => ⟨hbelow e (hmem e he).1, (hmem e he).2⟩, ?_⟩
    intro hs hnil x hx
    rcases mem_tree_iff.1 hx with hx | hx
    · exact hnone (hwalk hs) hnil x (mem_reverse.2 hx)
    · simp [hab] at hx
  | cons e es =>
    have he : e ∈ m.tree := mem_tree_iff.2 (.inr (hab ▸ mem_cons_self))
    rw [findAbove, hc e he, ok_bind]
    cases hp : p e with
    | true =>
      refine ⟨some e, rfl, ?_, by simp⟩
      rintro _ ⟨⟩
      exact ⟨he, hp⟩
    | false =>
      refine ⟨res, hres, fun e he => ⟨hbelow e (hmem e he).1, (hmem e he).2⟩, ?_⟩
      intro hs hnil x hx
      rcases mem_tree_iff.1 hx with hx | hx
      · exact hnone (hwalk hs) hnil x (mem_reverse.2 hx)
      · by_contra hpx
        rw [Bool.not_eq_false] at hpx
        have := hs.above x hx hpx e (by rw [hab]; rfl)
        simp [hp] at this

def forget (m : AddrRangeMap V) : AddrRangeMap V := { m with maxCacheSize := 0, cache := [] }

theorem Inv.congr (h : m.Inv) (hm : m'.forget = m.forget)
    (hc : ∀ c ∈ m'.cache, c ∈ m.tree.map (·.id)) : m'.Inv := by
  have h₁ : m'.tree = m.tree := congrArg (fun x => x.tree) hm
  have h₂ : m'.nextId = m.nextId := congrArg (fun x => x.nextId) hm
  exact ⟨h₁ ▸ h.sorted, h₁ ▸ h.apart, h₁ ▸ h.ids, by simpa only [h₁, h₂] using h.fresh,
    by simpa only [h₁] using hc, h₁ ▸ h.proper⟩

theorem Inv.forget (h : m.Inv) : m.forget.Inv := h.congr rfl (by simp [AddrRangeMap.forget])

theorem Inv.addNewEntryToCache (h : m.Inv) (he : e ∈ m.tree) :
    (m.addNewEntryToCache e.id).Inv ∧ (m.addNewEntryToCache e.id).forget = m.forget := by
  have hid : e.id ∈ m.tree.map (·.id) := mem_map_of_mem he
  unfold AddrRangeMap.addNewEntryToCache
  split_ifs
  · refine ⟨h.congr rfl fun c hc => ?_, rfl⟩
    rcases mem_cons.1 hc with rfl | hc
    · exact hid
    · exact h.cached c (mem_of_mem_dropLast hc)
  · refine ⟨h.congr rfl fun c hc => ?_, rfl⟩
    rcases mem_cons.1 hc with rfl | hc
    · exact hid
    · exact h.cached c hc
  · exact ⟨h, rfl⟩

/-- A search finds a node that meets the condition, and if the tree can be searched, one whenever there
is one. It changes the cache only. -/
theorem find_spec (h : m.Inv) (hc : ∀ e ∈ m.tree, cond e.range = .ok (p e)) :
    ∃ res m', m.find cond r = .ok (res, m') ∧ m'.Inv ∧ m'.forget = m.forget ∧
      (∀ e, res = some e → e ∈ m.tree ∧ p e = true) ∧
      (m.Sighted r p → res = none → ∀ x ∈ m.tree, p x = false) := by
  obtain ⟨found, hfound, hmem⟩ := findCached_spec hc h.cached
  rw [find, hfound, ok_bind]
  cases found with
  | some e =>
    obtain ⟨he, hp, hin⟩ := hmem e rfl
    refine ⟨some e, _, rfl, h.congr rfl fun c hc' => ?_, rfl, ?_, by simp⟩
    · rcases mem_cons.1 hc' with rfl | hc'
      · exact mem_map_of_mem he
      · exact h.cached c (mem_of_mem_erase hc')
    · rintro _ ⟨⟩
      exact ⟨he, hp⟩
  | none =>
    obtain ⟨res, hres, hmem, hnone⟩ := findTree_spec (r := r) h hc
    simp only [hres, ok_bind]
    cases res with
    | none => exact ⟨none, m, rfl, h, rfl, hmem, hnone⟩
    | some e =>
      obtain ⟨hinv, hf⟩ := h.addNewEntryToCache (hmem e rfl).1
      exact ⟨some e, _, rfl, hinv, hf, hmem, by simp⟩

theorem find_forget {res : Option (RangeEntry V)} (hf : m.forget.find cond r = .ok (res, m')) :
    m' = m.forget := by
  obtain ⟨found, hfound, hf⟩ := bind_ok.1 hf
  obtain rfl : none = found := Except.ok.inj hfound
  obtain ⟨found, -, hf⟩ := bind_ok.1 hf
  cases found with
  | none | some e => exact (congrArg Prod.snd (Except.ok.inj hf)).symm

theorem search_spec (h : m.Inv) (hc : ∀ e ∈ m.tree, cond e.range = .ok (p e)) :
    ∃ m', (do return (← m.find cond r).2) = .ok m' ∧ m'.Inv ∧
      (do return (← m.forget.find cond r).2) = .ok m'.forget := by
  obtain ⟨res, m', hf, hinv, hm, -⟩ := find_spec (r := r) h hc
  obtain ⟨res₀, m₀, hf₀, -⟩ := find_spec (r := r) h.forget hc
  refine ⟨m', by rw [hf]; rfl, hinv, ?_⟩
  rw [hf₀, find_forget hf₀, hm]
  rfl

end Find

/-! ## The three searches -/

theorem Inv.sighted_contains (h : m.Inv) (a : Addr) :
    m.Sighted (.ofSize a 1) fun e => e.range.contains a where
  above := by
    intro x hx hp
    have hin := AddrRange.inRange_iff.1 (AddrRange.contains_iff.1 hp).1
    have hle := BitVec.le_def.1 hin.1
    have hkey := h.key_lt_of_mem_above hx
    rw [AddrRange.key, AddrRange.key, Prod.Lex.toLex_lt_toLex] at hkey
    have hmatch := x.range.intlvMatch.isLt
    have hplain : (AddrRange.ofSize a 1).interleaved = false := rfl
    rw [hplain] at hkey
    simp only [AddrRange.ofSize, Bool.false_eq_true, if_false] at hkey
    split_ifs at hkey <;> omega
  below := by
    intro x hx hp y hy hlt
    refine h.merges (mem_tree_iff.2 (.inl hx)) (mem_tree_iff.2 (.inl hy)) hlt ?_
    have hin := AddrRange.inRange_iff.1 (AddrRange.contains_iff.1 hp).1
    have hya := AddrRange.start_le_of_key_le (key_le_of_mem_below hy)
    exact BitVec.lt_def.2 (hya.trans_lt (BitVec.lt_def.1 hin.2))

theorem contains_spec (h : m.Inv) {a : Addr} (ha : a ≠ maxAddr) :
    ∃ res m', m.contains a = .ok (res, m') ∧ m'.Inv ∧ m'.forget = m.forget ∧
      ∀ e, res = some e ↔ e ∈ m.tree ∧ e.range.contains a = true := by
  obtain ⟨res, m', hf, hinv, htree, hmem, hnone⟩ := find_spec (r := .ofSize a 1) h
    (p := fun e => e.range.contains a) fun e he => AddrRange.isSubset_ofSize (h.proper e he) ha
  refine ⟨res, m', hf, hinv, htree, fun e => ⟨fun he => hmem e he, ?_⟩⟩
  rintro ⟨he, hea⟩
  cases res with
  | none =>
    have := hnone (h.sighted_contains a) rfl e he
    simp [hea] at this
  | some x =>
    obtain ⟨hx, hxa⟩ := hmem x rfl
    by_contra hne
    exact (h.apart_of_ne hx he fun heq => hne (congrArg some heq)).not_shares
      ⟨a, hxa, hea⟩

theorem Inv.sighted_meets (h : m.Inv) (hr : r.Proper)
    (hcomp : ∀ e ∈ m.tree, r.Comparable e.range) :
    m.Sighted r fun e => r.meets e.range where
  above := by
    intro x hx hp e he
    obtain ⟨es, hab⟩ : ∃ es, m.above r = e :: es := by
      cases hab : m.above r with
      | nil =>
        simp [hab] at he
      | cons e' es =>
        rw [hab] at he
        exact ⟨es, by rw [Option.some.inj he]⟩
    have heab : e ∈ m.above r := hab ▸ mem_cons_self
    rw [hab] at hx
    rcases mem_cons.1 hx with rfl | hx'
    · exact hp
    · have hsorted : (e :: es).Pairwise fun x y => x.range.key < y.range.key :=
        hab ▸ h.sorted.sublist (dropWhile_sublist _)
      have hkey := (pairwise_cons.1 hsorted).1 x hx'
      have hne : e ≠ x := by
        rintro rfl
        exact hkey.false
      have he' : e ∈ m.tree := mem_tree_iff.2 (.inr heab)
      have hx : x ∈ m.tree := mem_tree_iff.2 (.inr (hab ▸ hx))
      exact AddrRange.meets_of_between hr (h.proper e he') (h.proper x hx) (hcomp e he') (hcomp x hx)
        (h.apart_of_ne he' hx hne) (h.key_lt_of_mem_above heab) hkey hp
  below := by
    intro x hx hp y hy hlt
    refine h.merges (mem_tree_iff.2 (.inl hx)) (mem_tree_iff.2 (.inl hy)) hlt ?_
    have ho := (AddrRange.overlaps_of_meets (hcomp x (mem_tree_iff.2 (.inl hx))) hp).1
    have hya := AddrRange.start_le_of_key_le (key_le_of_mem_below hy)
    exact BitVec.lt_def.2 (hya.trans_lt (BitVec.lt_def.1 ho))

/-! ## Changes of the map -/

/-- The steps that the map carries out as it should. An inserted range has an address and can be compared
with those of the map, and a range of nodes is erased only if none of them but the first is cached. -/
def Sound (m : AddrRangeMap V) : Op V → Prop
  | .insert r _ => r.Proper ∧ ∀ e ∈ m.tree, r.Comparable e.range
  | .erase p => p ∈ m.tree.map (·.id)
  | .eraseRange p q => m.IsSpan p q ∧ ∀ e ∈ m.nodesBetween p q, some e.id ≠ p → e.id ∉ m.cache
  | .clear => True
  | .contains _ => True
  | .containsRange r => r.interleaved = false
  | .intersects r => ∀ e ∈ m.tree, r.Comparable e.range

theorem insertNode_spec (h : m.Inv) (hr : r.Proper) (hcomp : ∀ e ∈ m.tree, r.Comparable e.range)
    (hno : ∀ e ∈ m.tree, r.meets e.range = false) (d : V) :
    m.insertNode r d = (⟨m.nextId, r, d⟩, { m with
      tree := m.below r ++ ⟨m.nextId, r, d⟩ :: m.above r
      nextId := m.nextId + 1 }) ∧ (m.insertNode r d).2.Inv := by
  have hnew : m.tree.find? (fun e => !r.lt e.range && !e.range.lt r) = none := by
    rw [find?_eq_none]
    intro e he heq
    simp only [Bool.and_eq_true, Bool.not_eq_true', ← Bool.not_eq_true, AddrRange.lt_iff_key,
      not_lt] at heq
    exact Bool.false_ne_true ((hno e he).symm.trans (AddrRange.meets_of_key_eq hr (h.proper e he)
      (hcomp e he) (le_antisymm heq.2 heq.1)))
  have heq : m.insertNode r d = (⟨m.nextId, r, d⟩, { m with
      tree := m.below r ++ ⟨m.nextId, r, d⟩ :: m.above r
      nextId := m.nextId + 1 }) := by
    rw [insertNode, hnew]
  refine ⟨heq, ?_⟩
  rw [heq]
  have hperm : (m.below r ++ ⟨m.nextId, r, d⟩ :: m.above r).Perm (⟨m.nextId, r, d⟩ :: m.tree) := by
    have hmiddle : (m.below r ++ ⟨m.nextId, r, d⟩ :: m.above r).Perm
        (⟨m.nextId, r, d⟩ :: (m.below r ++ m.above r)) := perm_middle
    rwa [below, above, takeWhile_append_dropWhile] at hmiddle
  have hsorted := h.sorted
  rw [← takeWhile_append_dropWhile (l := m.tree) (p := fun e => !r.lt e.range),
    pairwise_append] at hsorted
  refine ⟨?_, ?_, ?_, ?_, ?_, ?_⟩
  · refine pairwise_append.2 ⟨hsorted.1, pairwise_cons.2 ⟨?_, hsorted.2.1⟩, ?_⟩
    · exact fun e he => h.key_lt_of_mem_above he
    · intro x hx y hy
      rcases mem_cons.1 hy with rfl | hy
      · refine lt_of_le_of_ne (key_le_of_mem_below hx) fun hkey => ?_
        have hx' : x ∈ m.tree := mem_tree_iff.2 (.inl hx)
        exact Bool.false_ne_true ((hno x hx').symm.trans
          (AddrRange.meets_of_key_eq hr (h.proper x hx') (hcomp x hx') hkey.symm))
      · exact hsorted.2.2 x hx y hy
  · refine (hperm.pairwise_iff fun hxy => hxy.symm).2 (pairwise_cons.2 ⟨fun e he => ?_, h.apart⟩)
    exact AddrRange.apart_of_not_meets (hcomp e he) (hno e he)
  · refine (hperm.map _).nodup_iff.2 (nodup_cons.2 ⟨fun hin => ?_, h.ids⟩)
    obtain ⟨e, he, hid⟩ := mem_map.1 hin
    exact (h.fresh e he).ne hid
  · intro e he
    rcases mem_cons.1 (hperm.mem_iff.1 he) with rfl | he
    · exact Nat.lt_succ_self _
    · exact (h.fresh e he).trans (Nat.lt_succ_self _)
  · intro c hc
    exact (hperm.map _).mem_iff.2 (mem_cons_of_mem _ (h.cached c hc))
  · intro e he
    rcases mem_cons.1 (hperm.mem_iff.1 he) with rfl | he
    · exact hr
    · exact h.proper e he

theorem intersects_spec (h : m.Inv) (hr : r.Proper) (hcomp : ∀ e ∈ m.tree, r.Comparable e.range) :
    ∃ res m', m.intersects r = .ok (res, m') ∧ m'.Inv ∧ m'.forget = m.forget ∧
      (res = none ↔ ∀ e ∈ m.tree, r.meets e.range = false) := by
  obtain ⟨res, m', hf, hinv, htree, hmem, hnone⟩ := find_spec (r := r) h
    (p := fun e => r.meets e.range) fun e he => AddrRange.intersects_eq (hcomp e he)
  refine ⟨res, m', hf, hinv, htree, hnone (h.sighted_meets hr hcomp), fun hno => ?_⟩
  cases res with
  | none => rfl
  | some e =>
    obtain ⟨he, hm⟩ := hmem e rfl
    exact absurd (hno e he) (by simp [hm])

theorem Inv.isSubset_ok (h : m.Inv) (hr : r.interleaved = false) : ∀ e ∈ m.tree,
    r.isSubset e.range = .ok ((r.isSubset e.range).toOption.getD false) := by
  intro e he
  obtain ⟨b, hb⟩ := AddrRange.isSubset_ok (h.proper e he) hr
  rw [hb]
  rfl

theorem insert_spec (h : m.Inv) (hr : r.Proper) (hcomp : ∀ e ∈ m.tree, r.Comparable e.range)
    (d : V) : ∃ res m', m.insert r d = .ok (res, m') ∧ m'.Inv ∧
      m.forget.insert r d = .ok (res, m'.forget) ∧
      ((∃ e ∈ m.tree, r.meets e.range = true) ∧ res = none ∧ m'.tree = m.tree ∨
      (∀ e ∈ m.tree, r.meets e.range = false) ∧ res = some ⟨m.nextId, r, d⟩ ∧
        m'.tree = m.below r ++ ⟨m.nextId, r, d⟩ :: m.above r) := by
  obtain ⟨res, m₁, hf, hinv, hm, hnone⟩ := intersects_spec h hr hcomp
  obtain ⟨res₀, m₀, hf₀, -, -, hnone₀⟩ := intersects_spec h.forget hr hcomp
  obtain rfl := find_forget hf₀
  have ht : m₁.tree = m.tree := congrArg (fun x => x.tree) hm
  have hn : m₁.nextId = m.nextId := congrArg (fun x => x.nextId) hm
  rw [insert, insert, hf, hf₀, ok_bind, ok_bind]
  cases res with
  | some e =>
    have hsome : ¬∀ e ∈ m.tree, r.meets e.range = false := fun hno => by cases hnone.2 hno
    cases res₀ with
    | none => exact absurd (hnone₀.1 rfl) hsome
    | some e₀ =>
      refine ⟨none, m₁, rfl, hinv, hm ▸ rfl, .inl ⟨?_, rfl, ht⟩⟩
      by_contra hno
      exact hsome fun e he => Bool.eq_false_of_not_eq_true fun hmeets => hno ⟨e, he, hmeets⟩
  | none =>
    have hno := hnone.1 rfl
    obtain rfl := hnone₀.2 hno
    obtain ⟨heq, hinv'⟩ := insertNode_spec hinv hr (ht ▸ hcomp) (ht ▸ hno) d
    obtain ⟨heq₀, -⟩ := insertNode_spec h.forget hr hcomp hno d
    rw [heq] at hinv'
    have hbelow : m₁.below r ++ ⟨m₁.nextId, r, d⟩ :: m₁.above r =
        m.below r ++ ⟨m.nextId, r, d⟩ :: m.above r := by
      simp only [below, above, ht, hn]
    refine ⟨some ⟨m.nextId, r, d⟩, _, ?_, hinv', ?_, .inr ⟨hno, rfl, hbelow⟩⟩
    · simp only [heq, hn]
      rfl
    · simp only [heq₀]
      simp only [forget, below, above, ht, hn]
      rfl

theorem Inv.sublist (h : m.Inv) {t : List (RangeEntry V)} (ht : t.Sublist m.tree) {cache : List ℕ}
    (hc : ∀ c ∈ cache, c ∈ t.map (·.id)) : Inv { m with cache := cache, tree := t } where
  sorted := h.sorted.sublist ht
  apart := h.apart.sublist ht
  ids := h.ids.sublist (ht.map _)
  fresh e he := h.fresh e (ht.subset he)
  cached := hc
  proper e he := h.proper e (ht.subset he)

theorem erase_spec (h : m.Inv) {p : ℕ} (hp : p ∈ m.tree.map (·.id)) :
    ∃ m', m.erase p = .ok m' ∧ m'.Inv ∧ m.forget.erase p = .ok m'.forget := by
  refine ⟨_, if_pos hp, h.sublist filter_sublist fun c hc => ?_, if_pos hp⟩
  obtain ⟨hc, hne⟩ := mem_filter.1 hc
  obtain ⟨e, he, rfl⟩ := mem_map.1 (h.cached c hc)
  exact mem_map_of_mem (mem_filter.2 ⟨he, hne⟩)

theorem eraseRange_spec (h : m.Inv) {p q : Option ℕ} (hs : m.IsSpan p q)
    (hc : ∀ e ∈ m.nodesBetween p q, some e.id ≠ p → e.id ∉ m.cache) :
    ∃ m', m.eraseRange p q = .ok m' ∧ m'.Inv ∧ m.forget.eraseRange p q = .ok m'.forget := by
  have hsplit : m.tree = m.tree.takeWhile (fun e => some e.id ≠ p) ++
      (m.nodesBetween p q ++ (m.nodesFrom p).dropWhile fun e => some e.id ≠ q) := by
    rw [nodesBetween, takeWhile_append_dropWhile, nodesFrom, takeWhile_append_dropWhile]
  refine ⟨_, if_pos hs, h.sublist ?_ fun c hc' => ?_, ?_⟩
  · conv_rhs => rw [hsplit]
    exact List.Sublist.append_left (sublist_append_right _ _) _
  · have hcached : c ∈ m.cache := by
      split_ifs at hc' with hnil
      · exact hc'
      · exact (mem_filter.1 hc').1
    obtain ⟨e, he, rfl⟩ := mem_map.1 (h.cached c hcached)
    refine mem_map_of_mem (mem_append.2 ?_)
    rw [hsplit, mem_append, mem_append] at he
    rcases he with he | he | he
    · exact .inl he
    · -- The first node of the range is the only one that can be cached, and it is taken out.
      rw [if_neg (ne_nil_of_mem he)] at hc'
      have hne : some e.id ≠ p := by simpa using (mem_filter.1 hc').2
      exact absurd hcached (hc e he hne)
    · exact .inr he
  · have hs' : m.forget.IsSpan p q := hs
    rw [eraseRange, if_pos hs']
    split_ifs <;> rfl

/-! ## Runs -/

theorem step_spec (h : m.Inv) {op : Op V} (hop : m.Sound op) :
    ∃ m', step m op = .ok m' ∧ m'.Inv ∧ step m.forget op = .ok m'.forget := by
  cases op with
  | insert r d =>
    obtain ⟨res, m', hi, hinv, hi', -⟩ := insert_spec h hop.1 hop.2 d
    refine ⟨m', ?_, hinv, ?_⟩
    · rw [step, hi]
      rfl
    · rw [step, hi']
      rfl
  | erase p => exact erase_spec h hop
  | eraseRange p q => exact eraseRange_spec h hop.1 hop.2
  | clear => exact ⟨_, rfl, h.sublist (nil_sublist _) (by simp), rfl⟩
  | contains a => exact search_spec h (h.isSubset_ok rfl)
  | containsRange r => exact search_spec h (h.isSubset_ok hop)
  | intersects r => exact search_spec h fun e he => AddrRange.intersects_eq (hop e he)

theorem step_inv {op : Op V} (h : m.Inv) (hop : m.Sound op) (hstep : step m op = .ok m') :
    m'.Inv ∧ step m.forget op = .ok m'.forget := by
  obtain ⟨m₁, hm₁, hinv, hf⟩ := step_spec h hop
  obtain rfl := Except.ok.inj (hm₁.symm.trans hstep)
  exact ⟨hinv, hf⟩

theorem run_forget : ∀ {ops : List (Op V)} {m m' : AddrRangeMap V}, m.Inv → Admits step Sound m ops →
    run step m ops = .ok m' → run step m.forget ops = .ok m'.forget
  | [], _, _, _, _, hrun => by
    cases hrun
    rfl
  | op :: ops, m, m', h, ⟨hop, hops⟩, hrun => by
    obtain ⟨m₁, hm₁, hrun⟩ := run_cons.1 hrun
    obtain ⟨hinv, hf⟩ := step_inv h hop hm₁
    exact run_cons.2 ⟨m₁.forget, hf, run_forget hinv (hops m₁ hm₁) hrun⟩

theorem init_inv (n : ℕ) : Inv ({ maxCacheSize := n } : AddrRangeMap V) where
  sorted := .nil
  apart := .nil
  ids := nodup_nil
  fresh := by simp
  cached := by simp
  proper := by simp

/-- In every run of sound steps from the empty map, with a cache of any size, a lookup finds the range of
the address, an insert is refused when the range has an address in common with one of the map, and the
nodes are those of the run without a cache. Every sound step is made. -/
theorem lookup_correct {n : ℕ} {ops : List (Op V)}
    (hops : Admits step Sound { maxCacheSize := n } ops)
    (hrun : run step { maxCacheSize := n } ops = .ok m) :
    (∀ a, a ≠ maxAddr → ∃ res m', m.contains a = .ok (res, m') ∧
      ∀ e, res = some e ↔ e ∈ m.tree ∧ e.range.contains a = true) ∧
    (∀ r d, m.Sound (.insert r d) → ∃ res m', m.insert r d = .ok (res, m') ∧
      (res = none ↔ ∃ e ∈ m.tree, r.Shares e.range) ∧
      (res = none → m'.tree = m.tree) ∧
      ∀ e, res = some e → e.range = r ∧ e.value = d ∧ ∀ x, x ∈ m'.tree ↔ x ∈ m.tree ∨ x = e) ∧
    (∃ m₀, run step { maxCacheSize := 0 } ops = .ok m₀ ∧ m₀.tree = m.tree) ∧
    ∀ op, m.Sound op → ∃ m', step m op = .ok m' := by
  have h : m.Inv := hops.inv (fun _ _ _ h hop hstep => (step_inv h hop hstep).1) (init_inv n) hrun
  refine ⟨fun a ha => ?_, fun r d hr => ?_, ⟨_, run_forget (init_inv n) hops hrun, rfl⟩, ?_⟩
  · obtain ⟨res, m', hc, -, -, hres⟩ := contains_spec h ha
    exact ⟨res, m', hc, hres⟩
  · obtain ⟨res, m', hi, -, -, hres⟩ := insert_spec h hr.1 hr.2 d
    have hmeets : ∀ e ∈ m.tree, r.meets e.range = true ↔ r.Shares e.range := fun e he =>
      AddrRange.meets_iff (hr.2 e he) hr.1.nonempty (h.proper e he).nonempty
    refine ⟨res, m', hi, ?_⟩
    rcases hres with ⟨⟨e, he, hm⟩, rfl, ht⟩ | ⟨hno, rfl, ht⟩
    · exact ⟨⟨fun _ => ⟨e, he, (hmeets e he).1 hm⟩, fun _ => rfl⟩, fun _ => ht, by simp⟩
    · refine ⟨⟨nofun, ?_⟩, nofun, ?_⟩
      · rintro ⟨e, he, hshare⟩
        exact absurd ((hmeets e he).2 hshare) (by simp [hno e he])
      · rintro _ ⟨⟩
        refine ⟨rfl, rfl, fun x => ?_⟩
        rw [ht, mem_tree_iff (r := r), mem_append, mem_cons]
        tauto
  · intro op hop
    obtain ⟨m', hm', -⟩ := step_spec h hop
    exact ⟨m', hm'⟩

def part (bit : BitVec 8) : AddrRange := ⟨0, 16, [1], bit⟩

def twoParts : List (Op ℕ) := [.insert (part 0) 0, .insert (part 1) 1, .contains 5]

theorem lookup_correct_twoParts : ∃ m, run step { maxCacheSize := 1 } twoParts = .ok m ∧
    ∃ res m', m.contains 8 = .ok (res, m') ∧ res = some ⟨0, part 0, 0⟩ := by
  have hrun : run step { maxCacheSize := 1 } twoParts =
      .ok ⟨1, [⟨0, part 0, 0⟩, ⟨1, part 1, 1⟩], [1], 2⟩ := by decide +kernel
  have hfirst : step { maxCacheSize := 1 } (.insert (part 0) 0) =
      .ok ⟨1, [⟨0, part 0, 0⟩], [], 1⟩ := by decide +kernel
  have hops : Admits step Sound { maxCacheSize := 1 } twoParts := by
    refine ⟨⟨⟨⟨0, by decide⟩, by decide⟩, by simp⟩, fun m hm => ?_⟩
    obtain rfl := Except.ok.inj (hfirst.symm.trans hm)
    refine ⟨⟨⟨⟨1, by decide⟩, by decide⟩, fun e he => ?_⟩, fun m _ => ⟨trivial, fun _ _ => trivial⟩⟩
    rw [mem_singleton.1 he]
    exact fun _ => .inr (.inl ⟨by decide, by decide⟩)
  refine ⟨_, hrun, ?_⟩
  obtain ⟨res, m', hc, hres⟩ := (lookup_correct hops hrun).1 8 (by decide)
  exact ⟨res, m', hc, (hres _).2 ⟨mem_cons_self, by decide⟩⟩

/-- A cached entry is erased in a range and looked at later. The last address is found in every plain
range. A range with a mask above bit 31 only cannot be looked up. The even addresses below 16 are let in over
`[5, 6)`, after which the map does not find 8. -/
theorem lookup_goes_wrong :
    (run step ({ maxCacheSize := 1 } : AddrRangeMap ℕ)
      [.insert ⟨0, 16, [], 0⟩ 0, .insert ⟨16, 32, [], 0⟩ 1, .contains 16, .eraseRange (some 0) none,
        .contains 0] = .error (.undefined "it->first of an erased entry")) ∧
    (run step ({ maxCacheSize := 0 } : AddrRangeMap ℕ) [.insert ⟨0, 16, [], 0⟩ 0] >>=
      fun m => m.contains maxAddr).map (·.1) = .ok (some ⟨0, ⟨0, 16, [], 0⟩, 0⟩) ∧
    (run step ({ maxCacheSize := 0 } : AddrRangeMap ℕ)
      [.insert ⟨0, 0x200000000, [0x100000000], 0⟩ 0, .contains 0] =
        .error (.undefined "1ULL << lowest_bit")) ∧
    (run step ({ maxCacheSize := 0 } : AddrRangeMap ℕ)
      [.insert ⟨5, 6, [], 0⟩ 0, .insert ⟨0, 16, [1], 0⟩ 1] >>=
      fun m => m.contains 8).map (·.1) = .ok none := by
  decide +kernel

end AddrRangeMap

end Gem5.Base
