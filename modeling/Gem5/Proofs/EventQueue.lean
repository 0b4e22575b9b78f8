import Gem5.EventQueue
import Gem5.Linked
import Gem5.Bins

/-!
# The event queue is a priority queue

The pointers of the queue hold a sorted list of bins (`Holds`). Inserting an event puts a bin in
between or pushes the event on the bin of its key, and removing one takes it out of its bin, or takes
the bin out.
-/

namespace Gem5

open List

namespace EventQueue

variable {b : Bin ℕ} {tick : ℕ}

open Machine Bin
open Function (update)

variable {q q' : EventQueue} {event : ℕ} {bins pre post : List (Bin ℕ)}

/-- The pointers hold the bins. -/
structure Links (nextBin nextInBin : ℕ → Option ℕ) (start : Option ℕ) (bins : List (Bin ℕ)) :
    Prop where
  tops : Linked nextBin start (bins.map top)
  inBins : ∀ b ∈ bins, Linked nextInBin (nextInBin b.top) b.rest

theorem mem_map_top {e : ℕ} (h : e ∈ bins.map top) : e ∈ contents bins := by
  obtain ⟨b, hb, rfl⟩ := mem_map.1 h
  exact top_mem hb

namespace Links

variable {nextBin nextInBin : ℕ → Option ℕ} {start r : Option ℕ}

theorem update (h : Links nextBin nextInBin start bins) (he : event ∉ contents bins)
    (v w : Option ℕ) : Links (update nextBin event v) (update nextInBin event w) start bins := by
  refine ⟨h.tops.update (fun hm => he (mem_map_top hm)) v, fun b hb => ?_⟩
  have hne : b.top ≠ event := fun h => he (h ▸ top_mem hb)
  rw [Function.update_of_ne hne]
  refine (h.inBins b hb).update (fun hm => he ?_) w
  exact mem_contents.2 ⟨b, hb, mem_cons_of_mem _ hm⟩

theorem link {post' : List (Bin ℕ)} (h : Links nextBin nextInBin start (pre ++ b :: post))
    (hr : Links nextBin nextInBin r post') (hn : (contents (pre ++ b :: post')).Nodup) :
    Links (Function.update nextBin b.top r) nextInBin start (pre ++ b :: post') := by
  have hpre : b.top ∉ pre.map top := by
    intro hm
    rw [contents_append, nodup_append] at hn
    exact hn.2.2 b.top (mem_map_top hm) b.top (top_mem mem_cons_self) rfl
  have hpost : b.top ∉ post'.map top := by
    intro hm
    rw [contents_append, contents_cons, nodup_append, nodup_append] at hn
    exact hn.2.1.2.2 b.top mem_cons_self b.top (mem_map_top hm) rfl
  refine ⟨?_, fun c hc => ?_⟩
  · have htops := h.tops
    rw [map_append, map_cons] at htops ⊢
    exact htops.redirect hpre hpost hr.tops
  · rcases mem_append.1 hc with hc | hc
    · exact h.inBins c (by simp [hc])
    · rcases mem_cons.1 hc with rfl | hc
      · exact h.inBins c (by simp)
      · exact hr.inBins c hc

theorem after (h : Links nextBin nextInBin start (pre ++ b :: post)) :
    Links nextBin nextInBin (nextBin b.top) post := by
  refine ⟨?_, fun c hc => h.inBins c (by simp [hc])⟩
  have htops := h.tops
  rw [map_append, map_cons] at htops
  exact htops.after

end Links

/-- The queue holds the bins: through its pointers, sorted by key and by when they were put in. -/
structure Holds (q : EventQueue) (bins : List (Bin ℕ)) : Prop where
  links : Links q.nextBin q.nextInBin q.head bins
  sorted : Sorted q.key q.inserted bins
  stamps : ∀ e ∈ contents bins, q.inserted e < q.inserts
  bound : ∀ e ∈ contents bins, e < q.events

theorem Holds.length_contents (h : q.Holds bins) : (contents bins).length ≤ q.events := by
  have hsub : contents bins ⊆ List.range q.events := fun e he => mem_range.2 (h.bound e he)
  simpa using (subperm_of_subset h.sorted.nodup hsub).length_le

theorem length_le_contents (bins : List (Bin ℕ)) : bins.length ≤ (contents bins).length := by
  induction bins with
  | nil => simp
  | cons b bins ih =>
    simp only [contents_cons, Bin.all, length_append, length_cons]
    omega

/-! ## Inserting -/

theorem findBin_spec (event : ℕ) : ∀ (bs : List (Bin ℕ)) (b : Bin ℕ) (n : ℕ),
    Linked q.nextBin (q.nextBin b.top) (bs.map top) → bs.length < n → q.key b.top < q.key event →
    ∃ pre p post, b :: bs = pre ++ p :: post ∧ (∀ c ∈ pre ++ [p], q.key c.top < q.key event)
      ∧ (∀ c ∈ post.head?, q.key event ≤ q.key c.top)
      ∧ q.findBin event n b.top (q.nextBin b.top) = .ok (p.top, (post.map top).head?)
  | [], b, n + 1, hl, _, hb => by
    have hnone : q.nextBin b.top = none := hl
    refine ⟨[], b, [], rfl, by simpa using hb, by simp, ?_⟩
    rw [hnone]
    rfl
  | c :: bs, b, n + 1, hl, hn, hb => by
    obtain ⟨hsome, hl⟩ := hl
    rw [length_cons, Nat.succ_lt_succ_iff] at hn
    rw [hsome, findBin]
    split_ifs with hc
    · obtain ⟨pre, p, post, heq, hpre, hpost, hfind⟩ := findBin_spec event bs c n hl hn hc
      refine ⟨b :: pre, p, post, by rw [heq]; rfl, ?_, hpost, hfind⟩
      intro d hd
      rcases mem_cons.1 hd with rfl | hd
      · exact hb
      · exact hpre d hd
    · exact ⟨[], b, c :: bs, rfl, by simpa using hb, by simpa using not_lt.1 hc, rfl⟩

theorem insertBefore_spec {r : Option ℕ} (hs : Sorted q.key q.inserted (pre ++ post))
    (hpre : ∀ c ∈ pre, q.key c.top < q.key event)
    (hpost : ∀ c ∈ post.head?, q.key event ≤ q.key c.top)
    (hnew : event ∉ contents (pre ++ post))
    (hstamp : ∀ e ∈ contents (pre ++ post), q.inserted e < q.inserted event)
    (hl : Links q.nextBin q.nextInBin r post) :
    ∃ tail v w, q.insertBefore event r = { q with
        nextBin := update q.nextBin event v, nextInBin := update q.nextInBin event w }
      ∧ Links (update q.nextBin event v) (update q.nextInBin event w) (some event) tail
      ∧ Sorted q.key q.inserted (pre ++ tail)
      ∧ (contents (pre ++ tail)).Perm (event :: contents (pre ++ post)) := by
  have hnew' : event ∉ contents post := fun h => hnew (by simp [h])
  have hr := hl.tops.start_eq
  -- A bin of its own, before those that are left.
  have hown : (∀ c ∈ post, q.key event < q.key c.top) →
      Links (update q.nextBin event r) (update q.nextInBin event none) (some event)
          (⟨event, []⟩ :: post)
        ∧ Sorted q.key q.inserted (pre ++ ⟨event, []⟩ :: post)
        ∧ (contents (pre ++ ⟨event, []⟩ :: post)).Perm (event :: contents (pre ++ post)) := by
    intro hlt
    have hpost' := hl.update hnew' r none
    refine ⟨⟨⟨rfl, ?_⟩, ?_⟩, hs.insert hnew hpre hlt, ?_⟩
    · rw [Function.update_self]
      exact hpost'.tops
    · intro c hc
      rcases mem_cons.1 hc with rfl | hc
      · exact Function.update_self _ _ _
      · exact hpost'.inBins c hc
    · simp only [contents_append, contents_cons, Bin.all]
      exact perm_middle
  cases post with
  | nil =>
    obtain rfl : r = none := hr
    exact ⟨_, none, none, rfl, hown (by simp)⟩
  | cons c post =>
    obtain rfl : r = some c.top := hr
    have hle : q.key event ≤ q.key c.top := hpost c rfl
    by_cases hlt : q.key event < q.key c.top
    · refine ⟨_, some c.top, none, if_pos hlt, hown fun d hd => ?_⟩
      rcases mem_cons.1 hd with rfl | hd
      · exact hlt
      · exact hs.beyond hle d hd
    · -- On top of the bin of its key.
      have heq : q.key event = q.key c.top := le_antisymm hle (not_lt.1 hlt)
      have hl' := hl.update hnew' (q.nextBin c.top) (some c.top)
      have hne : c.top ≠ event := fun h => hnew' (h ▸ top_mem mem_cons_self)
      refine ⟨⟨event, c.all⟩ :: post, q.nextBin c.top, some c.top, if_neg hlt, ⟨⟨rfl, ?_⟩, ?_⟩,
        hs.push heq hnew fun x hx => hstamp x ?_, ?_⟩
      · rw [Function.update_self]
        have := hl'.tops.2
        rwa [Function.update_of_ne hne] at this
      · intro d hd
        rcases mem_cons.1 hd with rfl | hd
        · rw [Function.update_self]
          exact ⟨rfl, hl'.inBins c mem_cons_self⟩
        · exact hl'.inBins d (mem_cons_of_mem _ hd)
      · exact mem_contents.2 ⟨c, by simp, hx⟩
      · simp only [contents_append, contents_cons]
        exact perm_middle

/-- What putting events in and taking them out leaves alone. -/
structure SameEvents (q q' : EventQueue) : Prop where
  events : q'.events = q.events
  priority : q'.priority = q.priority
  curTick : q'.curTick = q.curTick
  whenOf : q'.whenOf = q.whenOf
  onQueue : q'.onQueue = q.onQueue
  scheduled : q'.scheduled = q.scheduled
  squashed : q'.squashed = q.squashed
  ran : q'.ran = q.ran

theorem SameEvents.key (h : SameEvents q q') : q'.key = q.key := by
  funext e
  rw [EventQueue.key, EventQueue.key, h.whenOf, h.priority]

theorem SameEvents.setHead (h : SameEvents q q') (r : Option ℕ) : SameEvents q (q'.setHead r) :=
  { h with }

theorem SameEvents.link (h : SameEvents q q') (e : ℕ) (r : Option ℕ) : SameEvents q (q'.link e r) :=
  { h with }

theorem insert_spec (hq : q.Holds bins) (hnew : event ∉ contents bins) (hb : event < q.events) :
    ∃ q' bins', q.insert event = .ok q' ∧ q'.Holds bins' ∧ SameEvents q q'
      ∧ (contents bins').Perm (event :: contents bins) := by
  have hne : ∀ e ∈ contents bins, e ≠ event := fun e he h => hnew (h ▸ he)
  have hsorted : Sorted q.key (q.stamp event).inserted bins :=
    hq.sorted.congr (fun _ _ => rfl) fun e he => Function.update_of_ne (hne e he) _ _
  have hself : (q.stamp event).inserted event = q.inserts := Function.update_self _ _ _
  have hstamp : ∀ e ∈ contents bins, (q.stamp event).inserted e < (q.stamp event).inserted event := by
    intro e he
    have hold : (q.stamp event).inserted e = q.inserted e := Function.update_of_ne (hne e he) _ _
    rw [hself, hold]
    exact hq.stamps e he
  have hstamps : ∀ {bins'}, (contents bins').Perm (event :: contents bins) →
      ∀ e ∈ contents bins', (q.stamp event).inserted e < q.inserts + 1 := by
    intro bins' hp e he
    rcases mem_cons.1 (hp.mem_iff.1 he) with rfl | he
    · rw [hself]
      exact Nat.lt_succ_self _
    · have := hstamp e he
      omega
  have hbound : ∀ {bins'}, (contents bins').Perm (event :: contents bins) →
      ∀ e ∈ contents bins', e < q.events := by
    intro bins' hp e he
    rcases mem_cons.1 (hp.mem_iff.1 he) with rfl | he
    · exact hb
    · exact hq.bound e he
  have hstart := hq.links.tops.start_eq
  -- Before the first bin or on it.
  have hfirst : (∀ c ∈ bins.head?, q.key event ≤ q.key c.top) →
      ∃ bins', (((q.stamp event).insertBefore event q.head).setHead (some event)).Holds bins'
        ∧ SameEvents q (((q.stamp event).insertBefore event q.head).setHead (some event))
        ∧ (contents bins').Perm (event :: contents bins) := by
    intro hle
    have hsorted' : Sorted q.key (q.stamp event).inserted ([] ++ bins) := hsorted
    obtain ⟨tail, v, w, heq, hlinks, hs, hp⟩ :=
      insertBefore_spec (q := q.stamp event) hsorted' (by simp) hle hnew hstamp hq.links
    rw [heq]
    exact ⟨tail, ⟨hlinks, hs, hstamps hp, hbound hp⟩, ⟨rfl, rfl, rfl, rfl, rfl, rfl, rfl, rfl⟩, hp⟩
  unfold insert
  cases bins with
  | nil =>
    have hnone : q.head = none := hstart
    obtain ⟨bins', hh, hsame, hp⟩ := hfirst (by simp)
    rw [hnone] at hh hsame ⊢
    exact ⟨_, bins', rfl, hh, hsame, hp⟩
  | cons b bs =>
    have hsome : q.head = some b.top := hstart
    by_cases hle : q.key event ≤ q.key b.top
    · obtain ⟨bins', hh, hsame, hp⟩ := hfirst (by simpa using hle)
      rw [hsome] at hh hsame ⊢
      simp only [if_pos hle]
      exact ⟨_, bins', rfl, hh, hsame, hp⟩
    · have hlen : bs.length < q.events + 1 := by
        have h₁ := length_le_contents (b :: bs)
        have h₂ := hq.length_contents
        simp only [length_cons] at h₁
        omega
      obtain ⟨pre, p, post, heq, hpre, hpost, hfind⟩ :=
        findBin_spec event bs b (q.events + 1) hq.links.tops.2 hlen (not_le.1 hle)
      have happ : pre ++ p :: post = pre ++ [p] ++ post := by simp
      rw [heq, happ] at hsorted hnew hstamp
      have hlinks := hq.links
      rw [heq] at hlinks
      have hr : (post.map top).head? = q.nextBin p.top := hlinks.after.tops.start_eq.symm
      obtain ⟨tail, v, w, hbefore, htail, hs, hp⟩ :=
        insertBefore_spec (q := q.stamp event) hsorted hpre hpost hnew hstamp hlinks.after
      rw [← happ, ← heq] at hp
      rw [append_assoc, singleton_append] at hs hp
      rw [← happ] at hnew
      simp only [hsome, if_neg hle, hfind, hr, ok_bind]
      refine ⟨_, _, rfl, ⟨?_, ?_, ?_, ?_⟩, ?_, hp⟩
      · rw [hbefore]
        exact (hlinks.update hnew v w).link htail hs.nodup
      · rwa [hbefore]
      · rw [hbefore]
        exact hstamps hp
      · rw [hbefore]
        exact hbound hp
      · rw [hbefore]
        exact ⟨rfl, rfl, rfl, rfl, rfl, rfl, rfl, rfl⟩

/-! ## Removing -/

theorem findInBin_spec {r₂ : List ℕ} : ∀ (r₁ : List ℕ) (curr n : ℕ),
    Linked q.nextInBin (q.nextInBin curr) (r₁ ++ event :: r₂) → event ∉ r₁ → r₁.length < n →
    ∃ l c, curr :: r₁ = l ++ [c] ∧ q.findInBin event n curr (q.nextInBin curr) = .ok c
  | [], curr, n + 1, hl, _, _ => by
    refine ⟨[], curr, rfl, ?_⟩
    rw [hl.1]
    exact if_pos rfl
  | x :: r₁, curr, n + 1, hl, hnot, hn => by
    rw [mem_cons, not_or] at hnot
    obtain ⟨hsome, hl⟩ := hl
    obtain ⟨l, c, heq, hfind⟩ := findInBin_spec r₁ x n hl hnot.2 (Nat.lt_of_succ_lt_succ hn)
    refine ⟨curr :: l, c, by rw [heq]; rfl, ?_⟩
    rwa [hsome, findInBin, if_neg (Ne.symm hnot.1)]

/-- What is left after an event is taken out of its bin: the tops of the bins are still linked, and
so are the bins from the new one on. -/
structure Removed (q : EventQueue) (pre : List (Bin ℕ)) (b : Bin ℕ) (post : List (Bin ℕ))
    (event : ℕ) (q' : EventQueue) (r : Option ℕ) (tail : List (Bin ℕ)) : Prop where
  tops : Linked q'.nextBin q.head ((pre ++ b :: post).map top)
  inBins : ∀ c ∈ pre, Linked q'.nextInBin (q'.nextInBin c.top) c.rest
  links : Links q'.nextBin q'.nextInBin r tail
  sorted : Sorted q.key q.inserted (pre ++ tail)
  perm : (contents (pre ++ b :: post)).Perm (event :: contents (pre ++ tail))
  head : q'.head = q.head
  inserted : q'.inserted = q.inserted
  inserts : q'.inserts = q.inserts
  same : SameEvents q q'

section Remove

variable {b : Bin ℕ} (hq : q.Holds (pre ++ b :: post))
include hq

theorem Holds.other_bins {x : ℕ} (hx : x ∈ b.all) : x ∉ contents pre ∧ x ∉ contents post := by
  have hn := hq.sorted.nodup
  simp only [contents_append, contents_cons, nodup_append] at hn
  obtain ⟨-, ⟨-, -, hpost⟩, hpre⟩ := hn
  exact ⟨fun h => hpre x h x (mem_append_left _ hx) rfl, fun h => hpost x hx x h rfl⟩

theorem Holds.bin_nodup : b.all.Nodup := by
  have hn := hq.sorted.nodup
  simp only [contents_append, contents_cons, nodup_append] at hn
  exact hn.2.1.1

theorem removeItem_only (hrest : b.rest = []) : ∃ r,
    q.removeItem b.top b.top = .ok (q, r) ∧ Removed q pre b post b.top q r post := by
  have hnone : q.nextInBin b.top = none := by
    have := hq.links.inBins b (by simp)
    rw [hrest] at this
    exact this
  refine ⟨q.nextBin b.top, ?_, ?_⟩
  · rw [removeItem, if_pos rfl, hnone]
  · refine ⟨hq.links.tops, fun c hc => hq.links.inBins c (by simp [hc]), hq.links.after,
      hq.sorted.remove, ?_, rfl, rfl, rfl, ⟨rfl, rfl, rfl, rfl, rfl, rfl, rfl, rfl⟩⟩
    simp only [contents_append, contents_cons, Bin.all, hrest]
    exact perm_middle

theorem removeItem_top {x : ℕ} {rest : List ℕ} (hrest : b.rest = x :: rest) : ∃ q' r,
    q.removeItem b.top b.top = .ok (q', r)
      ∧ Removed q pre b post b.top q' r (⟨x, rest⟩ :: post) := by
  have hstack := hq.links.inBins b (by simp)
  rw [hrest] at hstack
  have hx : x ∈ b.all := by simp [Bin.all, hrest]
  obtain ⟨hxpre, hxpost⟩ := hq.other_bins hx
  have hxtop : x ≠ b.top := by
    have := hq.bin_nodup
    rintro rfl
    simp [Bin.all, hrest] at this
  have hxtops : x ∉ (pre ++ b :: post).map top := by
    intro hm
    rw [map_append, map_cons, mem_append, mem_cons] at hm
    rcases hm with hm | hm | hm
    · exact hxpre (mem_map_top hm)
    · exact hxtop hm
    · exact hxpost (mem_map_top hm)
  refine ⟨q.link x (q.nextBin b.top), some x, ?_, ⟨hq.links.tops.update hxtops _,
    fun c hc => hq.links.inBins c (by simp [hc]), ⟨⟨rfl, ?_⟩, ?_⟩, ?_, ?_, rfl, rfl, rfl,
    ⟨rfl, rfl, rfl, rfl, rfl, rfl, rfl, rfl⟩⟩⟩
  · rw [removeItem, if_pos rfl, hstack.1]
  · show Linked (update q.nextBin x (q.nextBin b.top)) (update q.nextBin x (q.nextBin b.top) x) _
    rw [Function.update_self]
    exact hq.links.after.tops.update (fun hm => hxpost (mem_map_top hm)) _
  · intro c hc
    rcases mem_cons.1 hc with rfl | hc
    · exact hstack.2
    · exact hq.links.inBins c (by simp [hc])
  · refine hq.sorted.shrink ?_
    simp only [Bin.all, hrest]
    exact sublist_cons_self _ _
  · simp only [contents_append, contents_cons, Bin.all, hrest]
    exact perm_middle

theorem removeItem_inner (hmem : event ∈ b.rest) : ∃ q' r tail,
    q.removeItem event b.top = .ok (q', r) ∧ Removed q pre b post event q' r tail := by
  obtain ⟨r₁, r₂, hrest, hnot⟩ := eq_append_cons_of_mem hmem
  have hstack := hq.links.inBins b (by simp)
  rw [hrest] at hstack
  have hnodup := hq.bin_nodup
  rw [Bin.all, hrest] at hnodup
  have hne : event ≠ b.top := by
    rintro rfl
    simp at hnodup
  have hlen : r₁.length < q.events + 1 := by
    have := hq.length_contents
    simp only [contents_append, contents_cons, Bin.all, hrest, length_append,
      length_cons] at this
    omega
  obtain ⟨l, c, heq, hfind⟩ := findInBin_spec r₁ b.top (q.events + 1) hstack hnot hlen
  have hall : b.top :: (r₁ ++ event :: r₂) = l ++ c :: event :: r₂ := by
    rw [← cons_append, heq, append_assoc, singleton_append]
  have hc : c ∈ b.all := by
    rw [Bin.all, hrest, hall]
    simp
  obtain ⟨hcpre, hcpost⟩ := hq.other_bins hc
  rw [hall] at hnodup
  -- The bin without the event, through the pointer past it.
  have hchain : Linked (update q.nextInBin c (q.nextInBin event)) (some b.top)
      (b.top :: (r₁ ++ r₂)) := by
    have hfull : Linked q.nextInBin (some b.top) (l ++ c :: event :: r₂) := by
      rw [← hall]
      exact ⟨rfl, hstack⟩
    have hafter : Linked q.nextInBin (q.nextInBin event) r₂ := hfull.after.2
    rw [← cons_append, heq, append_assoc, singleton_append]
    refine hfull.redirect ?_ ?_ hafter
    · rw [nodup_append] at hnodup
      exact fun h => hnodup.2.2 c h c mem_cons_self rfl
    · rw [nodup_append, nodup_cons] at hnodup
      exact fun h => hnodup.2.1.1 (mem_cons_of_mem _ h)
  have hother : ∀ d : Bin ℕ, d ∈ pre ++ b :: post → c ∉ d.all →
      Linked (update q.nextInBin c (q.nextInBin event))
        (update q.nextInBin c (q.nextInBin event) d.top) d.rest := by
    intro d hd hcd
    rw [Function.update_of_ne (fun h : d.top = c => hcd (h ▸ mem_cons_self))]
    exact (hq.links.inBins d hd).update (fun h => hcd (mem_cons_of_mem _ h)) _
  have hnotpre : ∀ d ∈ pre, c ∉ d.all := fun d hd h => hcpre (mem_contents.2 ⟨d, hd, h⟩)
  have hnotpost : ∀ d ∈ post, c ∉ d.all := fun d hd h => hcpost (mem_contents.2 ⟨d, hd, h⟩)
  refine ⟨{ q with nextInBin := update q.nextInBin c (q.nextInBin event) }, some b.top,
    ⟨b.top, r₁ ++ r₂⟩ :: post, ?_, ⟨hq.links.tops, fun d hd => hother d (by simp [hd]) (hnotpre d hd),
    ⟨⟨rfl, hq.links.after.tops⟩, ?_⟩, ?_, ?_, rfl, rfl, rfl,
    ⟨rfl, rfl, rfl, rfl, rfl, rfl, rfl, rfl⟩⟩⟩
  · rw [removeItem, if_neg hne, hfind]
    rfl
  · intro d hd
    rcases mem_cons.1 hd with rfl | hd
    · exact hchain.2
    · exact hother d (by simp [hd]) (hnotpost d hd)
  · refine hq.sorted.shrink ?_
    simp only [Bin.all, hrest]
    exact (List.Sublist.append (List.Sublist.refl _) (sublist_cons_self _ _)).cons_cons _
  · simp only [contents_append, contents_cons, Bin.all, hrest]
    have : (b.top :: (r₁ ++ event :: r₂)).Perm (event :: b.top :: (r₁ ++ r₂)) :=
      (perm_middle.cons _).trans (.swap _ _ _)
    exact (List.Perm.append_left _ (this.append_right _)).trans perm_middle

theorem removeItem_spec (he : event ∈ b.all) : ∃ q' r tail,
    q.removeItem event b.top = .ok (q', r) ∧ Removed q pre b post event q' r tail := by
  rcases mem_cons.1 he with rfl | hmem
  · cases hrest : b.rest with
    | nil =>
      obtain ⟨r, h, hr⟩ := removeItem_only hq hrest
      exact ⟨q, r, post, h, hr⟩
    | cons x rest =>
      obtain ⟨q', r, h, hr⟩ := removeItem_top hq hrest
      exact ⟨q', r, _, h, hr⟩
  · exact removeItem_inner hq hmem

end Remove

theorem remove_spec (hq : q.Holds bins) (he : event ∈ contents bins)
    (hon : q.onQueue event = true) : ∃ q' bins', q.remove event = .ok q' ∧ q'.Holds bins'
      ∧ SameEvents q q' ∧ (contents bins).Perm (event :: contents bins') := by
  have hstart := hq.links.tops.start_eq
  have hholds : ∀ {q' : EventQueue} {bins'}, q'.inserted = q.inserted → q'.inserts = q.inserts →
      SameEvents q q' → (contents bins).Perm (event :: contents bins') →
      Sorted q.key q.inserted bins' → Links q'.nextBin q'.nextInBin q'.head bins' →
      q'.Holds bins' := by
    intro q' bins' hins hn hsame hp hs hl
    have hsub : ∀ e ∈ contents bins', e ∈ contents bins := fun e h =>
      hp.mem_iff.2 (mem_cons_of_mem _ h)
    refine ⟨hl, ?_, fun e h => ?_, fun e h => ?_⟩
    · rwa [hsame.key, hins]
    · rw [hins, hn]
      exact hq.stamps e (hsub e h)
    · rw [hsame.events]
      exact hq.bound e (hsub e h)
  cases bins with
  | nil => simp [contents] at he
  | cons b bs =>
    have hsome : q.head = some b.top := hstart
    rw [remove, hsome]
    simp only [require_of hon, ok_bind]
    obtain ⟨c, hc, hec⟩ := mem_contents.1 he
    have hkey : q.key event = q.key c.top := hq.sorted.key_eq hc hec
    split_ifs with hhead
    · -- In the first bin.
      have hcb : c = b := by
        rcases mem_cons.1 hc with rfl | hc'
        · rfl
        · have := (pairwise_cons.1 hq.sorted.increasing).1 c hc'
          rw [hhead, hkey] at this
          exact absurd this (lt_irrefl _)
      subst hcb
      have hq' : q.Holds ([] ++ c :: bs) := hq
      obtain ⟨q', r, tail, hitem, hr⟩ := removeItem_spec hq' hec
      rw [hitem]
      refine ⟨q'.setHead r, tail, rfl, hholds hr.inserted hr.inserts ?_ hr.perm hr.sorted hr.links, ?_,
        hr.perm⟩
      · exact hr.same.setHead r
      · exact hr.same.setHead r
    · -- In a later bin.
      have hlt : q.key b.top < q.key event := by
        rcases mem_cons.1 hc with rfl | hc'
        · exact absurd hkey.symm hhead
        · rw [hkey]
          exact (pairwise_cons.1 hq.sorted.increasing).1 c hc'
      have hlen : bs.length < q.events + 1 := by
        have h₁ := length_le_contents (b :: bs)
        have h₂ := hq.length_contents
        simp only [length_cons] at h₁
        omega
      obtain ⟨pre, p, post, heq, hpre, hpost, hfind⟩ :=
        findBin_spec event bs b (q.events + 1) hq.links.tops.2 hlen hlt
      have happ : pre ++ p :: post = pre ++ [p] ++ post := by simp
      rw [heq, happ] at hq hc
      obtain ⟨post', rfl⟩ : ∃ post', post = c :: post' := by
        rcases mem_append.1 hc with hc | hc
        · exact absurd hkey (hpre c hc).ne'
        · cases post with
          | nil => cases hc
          | cons d post' =>
            rcases mem_cons.1 hc with rfl | hc
            · exact ⟨post', rfl⟩
            · have := hq.sorted.beyond (hpost d rfl) c hc
              exact absurd hkey this.ne
      obtain ⟨q', r, tail, hitem, hr⟩ := removeItem_spec hq hec
      have hfound : q.findBin event (q.events + 1) b.top (q.nextBin b.top)
          = .ok (p.top, some c.top) := hfind
      have hnot : ¬ q.key c.top ≠ q.key event := fun h => h hkey.symm
      have hpanic : panicIf (q.key c.top ≠ q.key event) "event not found!" = .ok () := if_neg hnot
      simp only [hfound, ok_bind, hpanic, hitem]
      have hp := hr.perm
      have hs := hr.sorted
      rw [← happ, ← heq] at hp
      have hn := hs.nodup
      have hmap : (pre ++ [p] ++ tail).map top = pre.map top ++ p.top :: tail.map top := by simp
      refine ⟨q'.link p.top r, pre ++ [p] ++ tail, rfl, hholds hr.inserted hr.inserts ?_ hp hs ?_, ?_, hp⟩
      · exact hr.same.link p.top r
      · refine ⟨?_, fun d hd => ?_⟩
        · have htops := hr.tops
          rw [map_append, map_append, append_assoc, map_singleton,
            singleton_append] at htops
          rw [hmap]
          show Linked (update q'.nextBin p.top r) q'.head _
          rw [hr.head]
          rw [contents_append, contents_append, append_assoc] at hn
          refine htops.redirect (fun h => ?_) (fun h => ?_) hr.links.tops
          · exact (nodup_append.1 hn).2.2 p.top (mem_map_top h) p.top
              (by simp [contents, Bin.all]) rfl
          · have hn' := (nodup_append.1 (nodup_append.1 hn).2.1).2.2
            exact hn' p.top (by simp [contents, Bin.all]) p.top (mem_map_top h) rfl
        · rcases mem_append.1 hd with hd | hd
          · exact hr.inBins d hd
          · exact hr.links.inBins d hd
      · exact hr.same.link p.top r

/-! ## The operations -/

/-- The queue holds the scheduled events, none of them in the past. -/
structure Inv (q : EventQueue) (bins : List (Bin ℕ)) : Prop where
  holds : q.Holds bins
  members : ∀ e, e ∈ contents bins ↔ q.scheduled e = true
  onQueue : ∀ e, q.scheduled e = true → q.onQueue e = true
  future : ∀ e, q.scheduled e = true → q.curTick ≤ q.whenOf e

theorem Holds.congr (h : q.Holds bins) (hl : Links q'.nextBin q'.nextInBin q'.head bins)
    (hk : ∀ e ∈ contents bins, q'.key e = q.key e) (hi : q'.inserted = q.inserted)
    (hn : q'.inserts = q.inserts) (he : q'.events = q.events) : q'.Holds bins := by
  refine ⟨hl, ?_, ?_, ?_⟩
  · rw [hi]
    exact h.sorted.congr hk fun _ _ => rfl
  · rw [hi, hn]
    exact h.stamps
  · rw [he]
    exact h.bound

theorem Inv.squash (h : Inv q bins) (squashed : ℕ → Bool) :
    Inv { q with squashed := squashed } bins :=
  { h with holds := h.holds.congr h.holds.links (fun _ _ => rfl) rfl rfl rfl }

theorem Holds.setWhen (h : q.Holds bins) (he : event ∉ contents bins) (tick : ℕ) :
    (q.setWhen event tick).Holds bins := by
  refine h.congr h.links (fun e hm => ?_) rfl rfl rfl
  have hne : e ≠ event := fun h => he (h ▸ hm)
  simp only [key, EventQueue.setWhen, Function.update_of_ne hne]

/-- An event is out of the queue that holds the other scheduled ones. -/
structure Without (q : EventQueue) (event : ℕ) (bins : List (Bin ℕ)) : Prop where
  holds : q.Holds bins
  members : ∀ e, e ∈ contents bins ↔ e ≠ event ∧ q.scheduled e = true
  onQueue : ∀ e, q.scheduled e = true → q.onQueue e = true
  future : ∀ e, q.scheduled e = true → q.curTick ≤ q.whenOf e

theorem Without.place (hq : Without q event bins) (he : event < q.events)
    (ht : q.curTick ≤ tick) : ∃ q' bins', (q.setWhen event tick).insert event = .ok q'
      ∧ Inv { q' with scheduled := update q'.scheduled event true } bins'
      ∧ q'.curTick = q.curTick := by
  have hnot : event ∉ contents bins := fun h => ((hq.members event).1 h).1 rfl
  obtain ⟨q', bins', hins, hh, hsame, hp⟩ := insert_spec (hq.holds.setWhen hnot tick) hnot he
  have hsch : q'.scheduled = q.scheduled := hsame.scheduled
  have hcur : q'.curTick = q.curTick := hsame.curTick
  have honq : q'.onQueue = update q.onQueue event true := hsame.onQueue
  have hwhen : q'.whenOf = update q.whenOf event tick := hsame.whenOf
  refine ⟨q', bins', hins, ⟨?_, fun e => ?_, fun e h => ?_, fun e h => ?_⟩, hcur⟩
  · exact hh.congr hh.links (fun _ _ => rfl) rfl rfl rfl
  · rw [hp.mem_iff, mem_cons, hq.members, hsch]
    by_cases hee : e = event <;> simp [hee]
  · simp only [hsch, honq] at h ⊢
    by_cases hee : e = event
    · simp [hee]
    · rw [Function.update_of_ne hee] at h ⊢
      exact hq.onQueue e h
  · simp only [hsch, hcur, hwhen] at h ⊢
    by_cases hee : e = event
    · rwa [hee, Function.update_self]
    · rw [Function.update_of_ne hee] at h ⊢
      exact hq.future e h

theorem Without.inv (hq : Without q event bins) :
    Inv { q with scheduled := update q.scheduled event false } bins := by
  have hother : ∀ e, update q.scheduled event false e = true → q.scheduled e = true := by
    intro e h
    by_cases hee : e = event
    · simp [hee] at h
    · rwa [Function.update_of_ne hee] at h
  refine ⟨hq.holds.congr hq.holds.links (fun _ _ => rfl) rfl rfl rfl, fun e => ?_,
    fun e h => hq.onQueue e (hother e h), fun e h => hq.future e (hother e h)⟩
  rw [hq.members]
  by_cases hee : e = event <;> simp [hee]

theorem remove_without (hq : Inv q bins) (he : q.scheduled event = true) :
    ∃ q' bins', q.remove event = .ok q' ∧ Without q' event bins' ∧ SameEvents q q' := by
  obtain ⟨q', bins', hrem, hh, hsame, hp⟩ :=
    remove_spec hq.holds ((hq.members event).2 he) (hq.onQueue event he)
  have hn := hp.nodup_iff.1 hq.holds.sorted.nodup
  rw [nodup_cons] at hn
  refine ⟨q', bins', hrem, ⟨hh, fun e => ?_, fun e h => ?_, fun e h => ?_⟩, hsame⟩
  · rw [hsame.scheduled, ← hq.members, hp.mem_iff, mem_cons]
    constructor
    · exact fun h => ⟨fun hee => hn.1 (hee ▸ h), .inr h⟩
    · rintro ⟨hne, rfl | h⟩
      · exact absurd rfl hne
      · exact h
  · rw [hsame.scheduled] at h
    rw [hsame.onQueue]
    exact hq.onQueue e h
  · rw [hsame.scheduled] at h
    rw [hsame.curTick, hsame.whenOf]
    exact hq.future e h

theorem Inv.without (hq : Inv q bins) (he : q.scheduled event = false) :
    Without q event bins := by
  refine { hq with members := fun e => ?_ }
  rw [hq.members]
  refine ⟨fun h => ⟨?_, h⟩, fun h => h.2⟩
  rintro rfl
  simp [he] at h

theorem unqueue_without (hq : Inv q bins) (event : ℕ) :
    ∃ q' bins', q.unqueue event = .ok q' ∧ Without q' event bins' ∧ SameEvents q q' := by
  cases hs : q.scheduled event with
  | true =>
    obtain ⟨q', bins', hrem, hw, hsame⟩ := remove_without hq hs
    exact ⟨q', bins', by rw [unqueue, if_pos hs]; exact hrem, hw, hsame⟩
  | false =>
    exact ⟨q, bins, by simp [unqueue, hs], hq.without hs, ⟨rfl, rfl, rfl, rfl, rfl, rfl, rfl, rfl⟩⟩

theorem schedule_spec (hq : Inv q bins) (he : event < q.events) (ht : q.curTick ≤ tick)
    (hs : q.scheduled event = false) : ∃ q' bins', q.schedule event tick = .ok q' ∧ Inv q' bins'
      ∧ q'.curTick = q.curTick := by
  obtain ⟨q', bins', hins, hinv, hcur⟩ := (hq.without hs).place he ht
  refine ⟨_, bins', ?_, hinv, hcur⟩
  exact bind_ok.2 ⟨(), require_of ht _, bind_ok.2 ⟨(), require_of hs _, bind_ok.2 ⟨q', hins, rfl⟩⟩⟩

theorem deschedule_spec (hq : Inv q bins) (hs : q.scheduled event = true) :
    ∃ q' bins', q.deschedule event = .ok q' ∧ Inv q' bins' ∧ q'.curTick = q.curTick := by
  obtain ⟨q', bins', hrem, hw, hsame⟩ := remove_without hq hs
  refine ⟨_, bins', ?_, hw.inv.squash (update q'.squashed event false), hsame.curTick⟩
  exact bind_ok.2 ⟨(), require_of hs _, bind_ok.2 ⟨q', hrem, rfl⟩⟩

theorem reschedule_spec {always : Bool} (hq : Inv q bins) (he : event < q.events)
    (ht : q.curTick ≤ tick) (hs : always = true ∨ q.scheduled event = true) :
    ∃ q' bins', q.reschedule event tick always = .ok q' ∧ Inv q' bins'
      ∧ q'.curTick = q.curTick := by
  obtain ⟨u, bins₁, hun, hw, hsame⟩ := unqueue_without hq event
  have hcur₁ : u.curTick ≤ tick := hsame.curTick ▸ ht
  obtain ⟨q', bins', hins, hinv, hcur⟩ := hw.place (hsame.events ▸ he) hcur₁
  refine ⟨_, bins', ?_, hinv.squash (update q'.squashed event false), hcur.trans hsame.curTick⟩
  exact bind_ok.2 ⟨(), require_of ht _, bind_ok.2 ⟨(), require_of hs _,
    bind_ok.2 ⟨u, hun, bind_ok.2 ⟨q', hins, rfl⟩⟩⟩⟩

theorem popHead_eq {e : ℕ} {r : Option ℕ} (h : q.removeItem e e = .ok (q', r)) :
    q.popHead e = q'.setHead r := by
  rw [removeItem, if_pos rfl] at h
  unfold popHead
  split at h
  · rename_i hn
    cases h
    rw [hn]
  · rename_i next hn
    cases h
    rw [hn]

theorem serviceOne_spec (hq : Inv q (b :: bins)) : ∃ q' bins',
    q.serviceOne = .ok q' ∧ Inv q' bins' ∧ q'.scheduled = update q.scheduled b.top false
      ∧ q.curTick ≤ q'.curTick
      ∧ q'.ran = if q.squashed b.top then q.ran else q.ran ++ [b.top] := by
  have hhead : q.head = some b.top := hq.holds.links.tops.1
  have hsch : q.scheduled b.top = true := (hq.members _).1 (top_mem mem_cons_self)
  have hholds : q.Holds ([] ++ b :: bins) := hq.holds
  have htop : b.top ∈ b.all := mem_cons_self
  obtain ⟨u, r, -, hitem, -⟩ := removeItem_spec hholds htop
  have hrem : q.remove b.top = .ok (u.setHead r) := by
    rw [remove, hhead]
    simp only [require_of (hq.onQueue _ hsch), ok_bind, if_true, hitem]
    rfl
  obtain ⟨w, bins', hrem', hw, hsame⟩ := remove_without hq hsch
  obtain rfl : u.setHead r = w := Except.ok.inj (hrem.symm.trans hrem')
  have hpop := popHead_eq hitem
  have hinv := hw.inv
  have hscheduled : (u.setHead r).scheduled = q.scheduled := hsame.scheduled
  rw [serviceOne, hhead]
  simp only [hpop, ← hscheduled]
  cases hsq : q.squashed b.top with
  | true =>
    refine ⟨_, bins', if_pos rfl, hinv.squash (update q.squashed b.top false), rfl,
      hsame.curTick.ge, ?_⟩
    simpa using hsame.ran
  | false =>
    refine ⟨_, bins', if_neg (by simp), ?_, rfl, hq.future _ hsch, by simp⟩
    have hle : ∀ e, update (u.setHead r).scheduled b.top false e = true →
        q.whenOf b.top ≤ (u.setHead r).whenOf e := by
      intro e h
      have hmem := (hinv.members e).2 h
      have hcontents := ((hw.members e).1 hmem)
      rw [hscheduled] at hcontents
      rw [hsame.whenOf]
      have hfirst := hq.holds.sorted.first ((hq.members e).2 hcontents.2)
      rcases hfirst with rfl | hlt | ⟨heq, -⟩
      · exact absurd rfl hcontents.1
      · exact (Prod.Lex.lt_iff.1 hlt).elim (fun h => h.le) fun h => h.1.le
      · exact (congrArg (fun k => (ofLex k).1) heq).ge
    exact ⟨hinv.holds.congr hinv.holds.links (fun _ _ => rfl) rfl rfl rfl, hinv.members, hinv.onQueue,
      hle⟩

theorem init_inv (events : ℕ) (priority : ℕ → ℤ) : Inv (init events priority) [] := by
  refine ⟨⟨⟨rfl, by simp⟩, .nil, by simp [contents], by simp [contents]⟩, ?_, ?_, ?_⟩
  · simp [contents, init]
  · simp [init]
  · simp [init]

theorem step_spec {o : Op} (hq : Inv q bins) (ho : q.Respects o) :
    ∃ q' bins', q.step o = .ok q' ∧ Inv q' bins' ∧ q.curTick ≤ q'.curTick := by
  cases o with
  | schedule e tick =>
    obtain ⟨he, ht, hs⟩ := ho
    obtain ⟨q', bins', h, hinv, hcur⟩ := schedule_spec hq he ht hs
    exact ⟨q', bins', by rw [step, if_pos (by simpa [Op.isValid] using he)]; exact h, hinv, hcur.ge⟩
  | deschedule e =>
    have he : e < q.events := hq.holds.bound e ((hq.members e).2 ho)
    obtain ⟨q', bins', h, hinv, hcur⟩ := deschedule_spec hq ho
    exact ⟨q', bins', by rw [step, if_pos (by simpa [Op.isValid] using he)]; exact h, hinv, hcur.ge⟩
  | reschedule e tick always =>
    obtain ⟨he, ht, hs⟩ := ho
    obtain ⟨q', bins', h, hinv, hcur⟩ := reschedule_spec hq he ht hs
    exact ⟨q', bins', by rw [step, if_pos (by simpa [Op.isValid] using he)]; exact h, hinv, hcur.ge⟩
  | squash e =>
    have he : e < q.events := ho
    refine ⟨{ q with squashed := update q.squashed e true }, bins,
      by rw [step, if_pos (by simpa [Op.isValid] using he)], hq.squash _, le_rfl⟩
  | serviceOne =>
    obtain ⟨e, he⟩ := ho
    cases bins with
    | nil => simpa [contents] using (hq.members e).2 he
    | cons b bins =>
      obtain ⟨q', bins', h, hinv, -, hcur, -⟩ := serviceOne_spec hq
      exact ⟨q', bins', h, hinv, hcur⟩

theorem step_respects {o : Op} (hq : Inv q bins) (h : q.step o = .ok q') : q.Respects o := by
  unfold step at h
  split_ifs at h with hv
  cases o with
  | schedule e tick | reschedule e tick always =>
    obtain ⟨_, ht, h⟩ := bind_ok.1 h
    obtain ⟨_, hs, -⟩ := bind_ok.1 h
    exact ⟨by simpa [Op.isValid] using hv, require_ok.1 ht, require_ok.1 hs⟩
  | deschedule e =>
    obtain ⟨_, hs, -⟩ := bind_ok.1 h
    have hs' : q.scheduled e = true := require_ok.1 hs
    exact hs'
  | squash e =>
    have he : e < q.events := by simpa [Op.isValid] using hv
    exact he
  | serviceOne =>
    cases bins with
    | nil =>
      have hnone : q.head = none := hq.holds.links.tops
      simp [serviceOne, hnone] at h
    | cons b bins => exact ⟨b.top, (hq.members _).1 (top_mem mem_cons_self)⟩

theorem inv_of_run {events : ℕ} {priority : ℕ → ℤ} {ops : List Op}
    (hrun : run step (init events priority) ops = .ok q) : ∃ bins, Inv q bins := by
  refine run_inv (I := fun q => ∃ bins, Inv q bins) (fun u o u' hu h => ?_)
    ⟨[], init_inv events priority⟩ hrun
  obtain ⟨bins, hu⟩ := hu
  obtain ⟨w, bins', h', hw, -⟩ := step_spec hu (step_respects hu h)
  obtain rfl := Except.ok.inj (h'.symm.trans h)
  exact ⟨bins', hw⟩

/-- In every run the pointers hold the scheduled events, each once, in bins of one key that increase
strictly. Serving takes a scheduled event with the smallest key, of those the one that was put in
last, and runs it unless it is squashed. Time does not go backwards, and every operation that meets
the assertions is made. -/
theorem queue_correct {events : ℕ} {priority : ℕ → ℤ} {ops : List Op}
    (hrun : run step (init events priority) ops = .ok q) :
    (∃ bins, Links q.nextBin q.nextInBin q.head bins
        ∧ (∀ e, e ∈ contents bins ↔ q.scheduled e = true) ∧ (contents bins).Nodup
        ∧ bins.Pairwise (fun b b' => q.key b.top < q.key b'.top)
        ∧ ∀ b ∈ bins, ∀ e ∈ b.all, q.key e = q.key b.top)
      ∧ (∀ q', q.step .serviceOne = .ok q' → ∃ e, q.scheduled e = true
        ∧ (∀ e', q.scheduled e' = true → e' ≠ e →
          q.key e < q.key e' ∨ q.key e' = q.key e ∧ q.inserted e' < q.inserted e)
        ∧ q'.scheduled = update q.scheduled e false
        ∧ q'.ran = if q.squashed e then q.ran else q.ran ++ [e])
      ∧ (∀ o q', q.step o = .ok q' → q.curTick ≤ q'.curTick)
      ∧ ∀ o, q.Respects o → ∃ q', q.step o = .ok q' := by
  obtain ⟨bins, hq⟩ := inv_of_run hrun
  refine ⟨⟨bins, hq.holds.links, hq.members, hq.holds.sorted.nodup, hq.holds.sorted.increasing,
    fun b hb e he => hq.holds.sorted.key_eq hb he⟩, fun q' h => ?_, fun o q' h => ?_, fun o ho => ?_⟩
  · cases bins with
    | nil =>
      obtain ⟨e, he⟩ := step_respects hq h
      simpa [contents] using (hq.members e).2 he
    | cons b bins =>
      obtain ⟨u, _, hu, -, hsch, -, hran⟩ := serviceOne_spec hq
      obtain rfl := Except.ok.inj (hu.symm.trans h)
      refine ⟨b.top, (hq.members _).1 (top_mem mem_cons_self), fun e' he' hne => ?_, hsch, hran⟩
      exact (hq.holds.sorted.first ((hq.members e').2 he')).resolve_left hne
  · obtain ⟨u, _, hu, -, hcur⟩ := step_spec hq (step_respects hq h)
    obtain rfl := Except.ok.inj (hu.symm.trans h)
    exact hcur
  · obtain ⟨q', _, h, -, -⟩ := step_spec hq ho
    exact ⟨q', h⟩

/-- Two events of one tick and priority, the second rescheduled and squashed. -/
def sameTickOps : List Op :=
  [.schedule 0 5, .schedule 1 5, .schedule 2 3, .serviceOne, .reschedule 1 7 false, .squash 1]

theorem queue_correct_sameTickOps : ∃ q,
    run step (init 3 fun _ => 0) sameTickOps = .ok q ∧ q.ran = [2] ∧ q.curTick = 3
      ∧ ∃ q', q.step .serviceOne = .ok q' := by
  obtain ⟨q, hrun, hran, hcur⟩ : ∃ q, run step (init 3 fun _ => 0) sameTickOps = .ok q
      ∧ (q.ran = [2] ∧ q.scheduled 0 = true) ∧ q.curTick = 3 := ⟨_, rfl, ⟨rfl, rfl⟩, rfl⟩
  exact ⟨q, hrun, hran.1, hcur, (queue_correct hrun).2.2.2 .serviceOne ⟨0, hran.2⟩⟩

end EventQueue

end Gem5
