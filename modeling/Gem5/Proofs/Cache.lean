import Gem5.Cache

/-!
# The blocks of the cache

Most parts of a step change no place and no mark of a block (`Quiet`), and some change the marks of
one block only (`Acts`). A block leaves (`Evicted`) and another one comes. `Follows` adds these up.
-/

namespace Gem5

open Machine Function

/-- The header mark of a block, and that of the last write to it. -/
abbrev Marks := Bool × Option Bool

def CacheBlk.marks (b : CacheBlk) : Marks := (b.isDdioHeader, b.lastWrite)

namespace Cache

variable {c c' c'' : Cache} {l : Loc} {pkt : Packet} {m : Loc} {k : CacheBlk → CacheBlk}
  {isDdio : Bool}

/-! ## One block -/

section Modify

variable {f : CacheBlk → CacheBlk}

@[simp] theorem modify_params : (c.modify f l).params = c.params := by cases l <;> rfl

@[simp] theorem modify_mshrs : (c.modify f l).mshrs = c.mshrs := by cases l <;> rfl

@[simp] theorem modify_writeBuffer : (c.modify f l).writeBuffer = c.writeBuffer := by
  cases l <;> rfl

@[simp] theorem modify_placed : (c.modify f l).placed = c.placed := by cases l <;> rfl

@[simp] theorem modify_left : (c.modify f l).left = c.left := by cases l <;> rfl

theorem get_modify_of_ne (h : m ≠ l) : (c.modify f l).get m = c.get m := by
  cases l with
  | temp =>
    cases m with
    | temp => exact absurd rfl h
    | way s w => rfl
  | way s w =>
    cases m with
    | temp => rfl
    | way s' w' =>
      by_cases hs : s' = s
      · subst hs
        have hw : w ≠ w' := fun hw => h (by rw [hw])
        simp [get, modify, List.getD_eq_getElem?_getD, hw]
      · simp [get, modify, update_of_ne hs]

theorem get_modify_self : (c.modify f l).get l = f (c.get l)
    ∨ (c.modify f l).get l = {} ∧ c.get l = {} := by
  cases l with
  | temp => exact .inl rfl
  | way s w =>
    simp only [get, modify, update_self, List.getD_eq_getElem?_getD,
      List.getElem?_modify_eq]
    cases (c.sets s)[w]? with
    | none => exact .inr ⟨rfl, rfl⟩
    | some b => exact .inl rfl

theorem get_modify_of_valid (h : ((c.modify f l).get l).valid = true) :
    (c.modify f l).get l = f (c.get l) := by
  rcases get_modify_self (c := c) (f := f) (l := l) with he | ⟨he, -⟩
  · exact he
  · simp [he] at h

theorem get_modify_field {α : Type*} {P : CacheBlk → α} (hP : ∀ b, P (f b) = P b) (m : Loc) :
    P ((c.modify f l).get m) = P (c.get m) := by
  by_cases hm : m = l
  · subst hm
    rcases get_modify_self (c := c) (f := f) (l := m) with he | ⟨he, he'⟩
    · rw [he, hP]
    · rw [he, he']
  · rw [get_modify_of_ne hm]

end Modify

/-! ## Allocations -/

/-- An allocation: its set, whether it is for an I/O packet, and whether the victim is looked for in
the part of the set for I/O. -/
structure Wanted where
  set : ℕ
  io : Bool
  isDdio : Bool
  deriving DecidableEq, Repr

def placement (c : Cache) (w : Wanted) (way : ℕ) : Placement :=
  ⟨w.io, way, c.params.ddioWayPart.getLsbD way, (c.get (.way w.set way)).repl.ioInvalidated⟩

def placements (c : Cache) (put : Option (Wanted × ℕ)) : List Placement :=
  put.toList.map fun p => c.placement p.1 p.2

/-! ## Steps that change marks only -/

/-- No block comes and none leaves with a packet, and the marks of those that stay change by `f`. -/
structure Acts (f : Loc → Marks → Marks) (c c' : Cache) : Prop where
  params : c'.params = c.params
  placed : c'.placed = c.placed
  left : c'.left = c.left
  marks : ∀ l, (c'.get l).valid = true →
    (c.get l).valid = true ∧ (c'.get l).marks = f l (c.get l).marks
  io : ∀ l, (c'.get l).valid = true → (c'.get l).repl.ioInvalidated = true →
    (c.get l).repl.ioInvalidated = true

abbrev Quiet (c c' : Cache) : Prop := Acts (fun _ => id) c c'

def only (l : Loc) (f : Marks → Marks) : Loc → Marks → Marks := update (fun _ => id) l f

@[simp] theorem only_self {f : Marks → Marks} : only l f l = f := update_self ..

theorem only_of_ne {f : Marks → Marks} (h : m ≠ l) : only l f m = id :=
  update_of_ne h ..

theorem only_id : only l id = fun _ => id := update_eq_self ..

/-- `k` changes the marks of a block that is there after it by `f`, and does not mark its way. -/
def Turns (k : CacheBlk → CacheBlk) (f : Marks → Marks) : Prop :=
  ∀ b, (k b).valid = true → b.valid = true ∧ (k b).marks = f b.marks
    ∧ ((k b).repl.ioInvalidated = true → b.repl.ioInvalidated = true)

namespace Acts

variable {f g : Loc → Marks → Marks} {h h' : Marks → Marks}

theorem of_get (hp : c'.params = c.params) (hpl : c'.placed = c.placed) (hl : c'.left = c.left)
    (h : ∀ l, c'.get l = c.get l) : Quiet c c' :=
  ⟨hp, hpl, hl, fun l hv => ⟨h l ▸ hv, by rw [h l]; rfl⟩, fun l _ hio => h l ▸ hio⟩

protected theorem refl : Quiet c c := of_get rfl rfl rfl fun _ => rfl

theorem trans (h₁ : Acts f c c') (h₂ : Acts g c' c'') : Acts (fun l => g l ∘ f l) c c'' where
  params := h₂.params.trans h₁.params
  placed := h₂.placed.trans h₁.placed
  left := h₂.left.trans h₁.left
  marks l hv := by
    obtain ⟨hv', hm⟩ := h₂.marks l hv
    obtain ⟨hv'', hm'⟩ := h₁.marks l hv'
    exact ⟨hv'', by rw [hm, hm', comp_apply]⟩
  io l hv hio := by
    obtain ⟨hv', -⟩ := h₂.marks l hv
    exact h₁.io l hv' (h₂.io l hv hio)

theorem congr (h : Acts f c c') (he : g = f) : Acts g c c' := he ▸ h

theorem only_trans (h₁ : Acts (only l h) c c') (h₂ : Acts (only l h') c' c'') :
    Acts (only l (h' ∘ h)) c c'' := by
  refine (h₁.trans h₂).congr (funext fun m => ?_)
  by_cases hm : m = l
  · subst hm
    simp only [only_self]
  · simp only [only_of_ne hm, comp_id]

theorem quiet_trans (h₁ : Quiet c c') (h₂ : Acts f c' c'') : Acts f c c'' := h₁.trans h₂

theorem trans_quiet (h₁ : Acts f c c') (h₂ : Quiet c' c'') : Acts f c c'' := h₁.trans h₂

theorem modify (hk : Turns k h) :
    Acts (only l h) c (c.modify k l) where
  params := modify_params
  placed := modify_placed
  left := modify_left
  marks m hv := by
    by_cases hm : m = l
    · subst hm
      have he := get_modify_of_valid hv
      rw [he] at hv ⊢
      rw [only_self]
      exact ⟨(hk _ hv).1, (hk _ hv).2.1⟩
    · rw [get_modify_of_ne hm] at hv ⊢
      exact ⟨hv, by rw [only_of_ne hm]; rfl⟩
  io m hv hio := by
    by_cases hm : m = l
    · subst hm
      have he := get_modify_of_valid hv
      rw [he] at hv hio
      exact (hk _ hv).2.2 hio
    · rwa [get_modify_of_ne hm] at hio

end Acts

theorem invalidateBlock_eq (i : Bool) : ∃ k, c.invalidateBlock i l = c.modify k l
    ∧ ∀ b : CacheBlk, (k b).valid = false ∧ (k b).isDdioHeader = b.isDdioHeader
      ∧ (i = false → (k b).repl.ioInvalidated = true → b.repl.ioInvalidated = true) := by
  unfold invalidateBlock
  split
  · exact ⟨_, rfl, fun _ => ⟨rfl, rfl, fun _ => id⟩⟩
  · refine ⟨_, rfl, fun _ => ⟨rfl, rfl, fun hi hio => ?_⟩⟩
    simp [hi, LRUReplData.invalidate] at hio

namespace Quiet

theorem modify (hk : Turns k id) :
    Quiet c (c.modify k l) :=
  (Acts.modify (h := id) hk).congr only_id.symm

theorem elim {blk : Option Loc} {k : Loc → Cache} (hk : ∀ l, Quiet c (k l)) :
    Quiet c (blk.elim c k) := by
  cases blk with
  | none => exact .refl
  | some l => exact hk l

theorem invalidateBlock (i : Bool) : Quiet c (c.invalidateBlock i l) := by
  obtain ⟨k, he, hk⟩ := invalidateBlock_eq (c := c) (l := l) i
  rw [he]
  exact modify fun b hv => by simp [(hk b).1] at hv

theorem maintainClusivity {fromCache : Bool} : Quiet c (c.maintainClusivity fromCache l) := by
  unfold Cache.maintainClusivity
  split_ifs
  · exact invalidateBlock _
  · exact .refl

theorem writecleanBlk : Quiet c (c.writecleanBlk l) := by
  have h : Quiet c (c.modify (fun b => { b with writable := false, dirty := false }) l) :=
    modify fun _ hv => ⟨hv, rfl, id⟩
  exact { h with }

theorem doWritebacks {above : List ℕ} : Quiet c (c.doWritebacks above) :=
  .of_get rfl rfl rfl fun _ => rfl

theorem handleSnoop : Quiet c (c.handleSnoop pkt l) := by
  have hclean : Quiet c (if pkt.cmd.isClean && (c.get l).valid && (c.get l).dirty then
      c.writecleanBlk l else c) := by
    split_ifs
    · exact writecleanBlk
    · exact .refl
  unfold Cache.handleSnoop
  generalize (if pkt.cmd.isClean && (c.get l).valid && (c.get l).dirty then
      c.writecleanBlk l else c) = d at hclean ⊢
  have hread : Quiet c (d.modify (fun b => { b with writable := false }) l) :=
    hclean.quiet_trans (modify fun _ hv => ⟨hv, rfl, id⟩)
  dsimp only
  split_ifs
  · exact hclean
  · exact hread.quiet_trans (invalidateBlock _)
  · exact hclean.quiet_trans (invalidateBlock _)
  · exact hread
  · exact hclean

theorem snoopWriteBuffer : Quiet c (c.snoopWriteBuffer pkt) := by
  unfold Cache.snoopWriteBuffer
  split
  · exact .refl
  · split_ifs
    · exact .of_get rfl rfl rfl fun _ => rfl
    · exact .refl

theorem recvTimingSnoopReq {putOff : Bool} {above : List ℕ} :
    Quiet c (c.recvTimingSnoopReq pkt putOff above) := by
  unfold Cache.recvTimingSnoopReq
  split_ifs
  · exact .refl
  · split
    · exact snoopWriteBuffer
    · exact (snoopWriteBuffer.quiet_trans handleSnoop).quiet_trans doWritebacks

theorem handleTimingReqMiss {blk : Option Loc} : Quiet c (c.handleTimingReqMiss pkt blk) := by
  have hstart : ∀ p, Quiet c (c.startMiss p blk) := fun p => by
    have h : Quiet c (blk.elim c (c.modify fun b => { b with readable := false })) :=
      elim fun l => modify fun _ hv => ⟨hv, rfl, id⟩
    exact { h with }
  have hother : ∀ (w : List Packet) (m : List MissEntry),
      Quiet c { c with writeBuffer := w, mshrs := m } :=
    fun _ _ => .of_get rfl rfl rfl fun _ => rfl
  unfold Cache.handleTimingReqMiss
  split_ifs
  · exact hother _ _
  · exact hother _ _
  · exact hother _ _
  · exact .refl
  · exact hother _ _
  · exact hstart _
  · exact hstart _

end Quiet

/-! ## Blocks that leave and blocks that come -/

def Departs (c : Cache) (m : Marks) (d : Departure) : Prop :=
  d.lastWrite = m.2 ∧ (c.params.isIOCache = true → d.pkt.isDdioHeader = m.1)

/-- The block at `l` left. The way keeps the header mark. -/
structure Evicted (l : Loc) (c c' : Cache) : Prop where
  params : c'.params = c.params
  placed : c'.placed = c.placed
  left : ∃ d, c'.left = c.left ++ [d] ∧ c.Departs (c.get l).marks d
  valid : (c.get l).valid = true
  others : ∀ m, m ≠ l → c'.get m = c.get m
  gone : (c'.get l).valid = false
  stale : (c'.get l).isDdioHeader = (c.get l).isDdioHeader
  io : (c'.get l).repl.ioInvalidated = true → (c.get l).repl.ioInvalidated = true

theorem evictPacket_cases {b : CacheBlk} {p : Packet} (h : c.evictPacket b = .ok p) :
    b.valid = true ∧ (c.params.isIOCache = true →
      (p.isDdioHeader || b.isDdioHeader) = b.isDdioHeader) := by
  unfold evictPacket at h
  split_ifs at h
  · obtain ⟨_, hreq, rfl⟩ := bind_pure_ok.1 h
    exact ⟨(require_ok.1 hreq).1, fun hio => by simp [hio]⟩
  · obtain ⟨_, _, h⟩ := bind_ok.1 h
    obtain ⟨_, hreq, rfl⟩ := bind_pure_ok.1 h
    exact ⟨(require_ok.1 hreq).1, fun _ => by simp [blockPacket, Packet.ofRequest]⟩

theorem evictBlock_cases (h : c.evictBlock l = .ok c') : Evicted l c c' := by
  obtain ⟨p, hp, h⟩ := bind_ok.1 h
  obtain ⟨k, hk, hinv⟩ := invalidateBlock_eq (c := c.modify c.evictedBlk l) (l := l) false
  rw [hk] at h
  cases h
  obtain ⟨hv, hmark⟩ := evictPacket_cases hp
  have hstale : ∀ b, (c.evictedBlk b).isDdioHeader = b.isDdioHeader := fun b => by
    unfold evictedBlk
    split_ifs <;> rfl
  have hrepl : ∀ b, (c.evictedBlk b).repl = b.repl := fun b => by
    unfold evictedBlk
    split_ifs <;> rfl
  have hgone : ¬ (((c.modify c.evictedBlk l).modify k l).get l).valid = true := fun h => by
    have he := get_modify_of_valid h
    simp [he, (hinv _).1] at h
  refine ⟨by simp, by simp, ⟨_, rfl, rfl, fun hio => ?_⟩, hv, fun m hm => ?_, ?_, ?_, fun hio => ?_⟩
  · simpa [markPacket, hio, CacheBlk.marks] using hmark hio
  · exact (get_modify_of_ne hm).trans (get_modify_of_ne hm)
  · exact Bool.eq_false_iff.2 hgone
  · exact (get_modify_field (fun b => (hinv b).2.1) l).trans (get_modify_field hstale l)
  · change (((c.modify c.evictedBlk l).modify k l).get l).repl.ioInvalidated = true at hio
    rw [← get_modify_field hrepl l]
    rcases get_modify_self (c := c.modify c.evictedBlk l) (f := k) (l := l) with he | ⟨he, -⟩
    · rw [he] at hio
      exact (hinv _).2.2 rfl hio
    · simp [he] at hio

/-- What becomes of the cache `c` when blocks are put as in `put`, and the block that is worked on,
if any, is at the place and has the marks of `t`. All other blocks are as before or gone. -/
structure Follows (c : Cache) (put : Option (Wanted × ℕ)) (t : Option (Loc × Marks)) (c' : Cache) :
    Prop where
  params : c'.params = c.params
  placed : c'.placed = c.placed ++ c.placements put
  io : ∀ l, (c'.get l).valid = true → (c'.get l).repl.ioInvalidated = true →
    (c.get l).repl.ioInvalidated = true ∧ ∀ w way, put = some (w, way) → l = .way w.set way →
      w.isDdio = false
  left : ∀ d ∈ c'.left, d ∈ c.left ∨ ∃ l, (c.get l).valid = true ∧ c.Departs (c.get l).marks d
  here : ∀ l m, t = some (l, m) → (c'.get l).valid = true → (c'.get l).marks = m
  others : ∀ l, t.map Prod.fst ≠ some l → (c'.get l).valid = true →
    (c.get l).valid = true ∧ (c'.get l).marks = (c.get l).marks

namespace Follows

variable {put : Option (Wanted × ℕ)} {t : Option (Loc × Marks)} {m : Marks} {f : Marks → Marks}

protected theorem refl : Follows c none none c :=
  ⟨rfl, (List.append_nil _).symm, fun _ _ hio => ⟨hio, nofun⟩, fun _ hd => .inl hd, nofun,
    fun _ _ hv => ⟨hv, rfl⟩⟩

theorem of_writeBuffer {wb : List Packet} (h : Follows { c with writeBuffer := wb } put t c') :
    Follows c put t c' :=
  { h with }

theorem quiet (h : Follows c put t c') (q : Quiet c' c'') : Follows c put t c'' where
  params := q.params.trans h.params
  placed := q.placed.trans h.placed
  io l hv hio := h.io l (q.marks l hv).1 (q.io l hv hio)
  left d hd := h.left d (q.left ▸ hd)
  here l m ht hv := by
    obtain ⟨hv', hm⟩ := q.marks l hv
    exact hm.trans (h.here l m ht hv')
  others l hl hv := by
    obtain ⟨hv', hm⟩ := q.marks l hv
    obtain ⟨hv'', hm'⟩ := h.others l hl hv'
    exact ⟨hv'', hm.trans hm'⟩

theorem find (h : Follows c put none c') (l : Loc) :
    Follows c put (some (l, (c'.get l).marks)) c' :=
  { h with
    here := fun k m ht _ => by
      obtain ⟨rfl, rfl⟩ := Prod.mk.inj (Option.some.inj ht)
      rfl
    others := fun k _ hv => h.others k nofun hv }

theorem acts (h : Follows c put (some (l, m)) c') (a : Acts (only l f) c' c'') :
    Follows c put (some (l, f m)) c'' where
  params := a.params.trans h.params
  placed := a.placed.trans h.placed
  io k hv hio := h.io k (a.marks k hv).1 (a.io k hv hio)
  left d hd := h.left d (a.left ▸ hd)
  here k m' ht hv := by
    obtain ⟨rfl, rfl⟩ := Prod.mk.inj (Option.some.inj ht)
    obtain ⟨hv', hk⟩ := a.marks l hv
    rw [hk, only_self, h.here l m rfl hv']
  others k hk hv := by
    have hkl : k ≠ l := fun he => hk (by rw [he]; rfl)
    obtain ⟨hv', hm⟩ := a.marks k hv
    rw [only_of_ne hkl] at hm
    obtain ⟨hv'', hm'⟩ := h.others k hk hv'
    exact ⟨hv'', hm.trans hm'⟩

theorem insert (h : Follows c none none c')
    (hk : ∀ b, (k b).marks = f (b.isDdioHeader, none)
      ∧ (k b).repl.ioInvalidated = b.repl.ioInvalidated)
    (hio : (c'.get l).repl.ioInvalidated = true → (c.get l).repl.ioInvalidated = true) :
    Follows c none (some (l, f ((c'.get l).isDdioHeader, none))) (c'.modify k l) where
  params := modify_params.trans h.params
  placed := modify_placed.trans h.placed
  io j hv hj := by
    rw [get_modify_field (P := fun b => b.repl.ioInvalidated) fun b => (hk b).2] at hj
    by_cases hjl : j = l
    · subst hjl
      exact ⟨hio hj, nofun⟩
    · rw [get_modify_of_ne hjl] at hv
      exact h.io j hv hj
  left d hd := h.left d (by simpa using hd)
  here j m ht hv := by
    obtain ⟨rfl, rfl⟩ := Prod.mk.inj (Option.some.inj ht)
    rw [get_modify_of_valid hv, (hk _).1]
  others j hj hv := by
    have hjl : j ≠ l := fun he => hj (by rw [he]; rfl)
    rw [get_modify_of_ne hjl] at hv ⊢
    exact h.others j nofun hv

theorem evict (h : Follows c put none c') (e : Evicted l c' c'') : Follows c put none c'' where
  params := e.params.trans h.params
  placed := e.placed.trans h.placed
  io k hv hio := by
    by_cases hkl : k = l
    · subst hkl
      simp [e.gone] at hv
    · rw [e.others k hkl] at hv hio
      exact h.io k hv hio
  left d hd := by
    obtain ⟨d', hleft, hd'⟩ := e.left
    rw [hleft, List.mem_append, List.mem_singleton] at hd
    rcases hd with hd | rfl
    · exact h.left d hd
    · obtain ⟨hv, hm⟩ := h.others l nofun e.valid
      rw [hm] at hd'
      exact .inr ⟨l, hv, hd'.1, fun hio => hd'.2 (h.params ▸ hio)⟩
  here := nofun
  others k _ hv := by
    by_cases hkl : k = l
    · subst hkl
      simp [e.gone] at hv
    · rw [e.others k hkl] at hv ⊢
      exact h.others k nofun hv

theorem of_evictions (q : Quiet c c') (h : c'' = c' ∨ Evicted l c' c'') :
    Follows c none none c'' ∧ (c''.get l).isDdioHeader = (c'.get l).isDdioHeader
      ∧ ((c''.get l).repl.ioInvalidated = true → (c'.get l).repl.ioInvalidated = true) := by
  have hstart : Follows c none none c' := Follows.refl.quiet q
  rcases h with rfl | he
  · exact ⟨hstart, rfl, id⟩
  · exact ⟨hstart.evict he, he.stale, he.io⟩

end Follows

/-! ## Allocation -/

def refuses (c : Cache) (l : Loc) : Bool :=
  (c.get l).valid && c.findMshr (c.get l).addr (c.get l).secure

def chosen (c : Cache) (w : Wanted) : Option Loc :=
  match c.chooseVictim w.set w.isDdio with
  | .error _ => none
  | .ok way => if c.refuses (.way w.set way) then none else some (.way w.set way)

/-- The blocks that are put for an allocation, if there is one: none if the victim stays. -/
inductive Places (c : Cache) : Option Wanted → Option (Wanted × ℕ) → Prop
  | none : Places c none none
  | refused {w way} : c.chooseVictim w.set w.isDdio = .ok way →
      c.refuses (.way w.set way) = true → Places c (some w) none
  | put {w way} : c.chooseVictim w.set w.isDdio = .ok way →
      c.refuses (.way w.set way) = false → Places c (some w) (some (w, way))

theorem insertBlock_follows {t : ℕ} (h : Follows c none none c')
    (hio : (c'.get l).repl.ioInvalidated = true → (c.get l).repl.ioInvalidated = true)
    (hi : c'.insertBlock pkt t l = .ok c'') :
    Follows c none (some (l, ((c'.get l).isDdioHeader, none))) c''
      ∧ (c''.get l).repl.ioInvalidated = (c'.get l).repl.ioInvalidated := by
  obtain ⟨_, _, rfl⟩ := bind_pure_ok.1 hi
  refine ⟨h.insert (f := id) (fun _ => ⟨rfl, rfl⟩) hio, ?_⟩
  refine get_modify_field (P := fun b => b.repl.ioInvalidated) (fun b => ?_) l
  rfl

theorem handleEvictions_cases {r : Option Cache} (h : c.handleEvictions l = .ok r) :
    (c.refuses l = true ∧ r = none)
      ∨ (c.refuses l = false ∧ ∃ c', r = some c' ∧ (c' = c ∨ Evicted l c c')) := by
  unfold handleEvictions at h
  dsimp only at h
  unfold refuses
  split_ifs at h with hv hm
  · cases h
    exact .inl ⟨by simp [hv, hm], rfl⟩
  · obtain ⟨c', he, rfl⟩ := bind_pure_ok.1 h
    exact .inr ⟨by simp [hm], c', rfl, .inr (evictBlock_cases he)⟩
  · cases h
    exact .inr ⟨by simp [hv], c, rfl, .inl rfl⟩

theorem victimChosen_field {α : Type*} {P : CacheBlk → α}
    (hP : ∀ b r, P { b with repl := r } = P b) (m : Loc) :
    P ((c.victimChosen isDdio l).get m) = P (c.get m) := by
  unfold victimChosen
  split_ifs
  · exact get_modify_field (fun b => hP b _) m
  · rfl

theorem victimChosen_quiet : Quiet c (c.victimChosen isDdio l) := by
  unfold victimChosen
  split_ifs
  · exact Quiet.modify fun _ hv => ⟨hv, rfl, nofun⟩
  · exact .refl

theorem victimChosen_io
    (h : ((c.victimChosen isDdio l).get l).repl.ioInvalidated = true) :
    isDdio = false ∧ (c.get l).repl.ioInvalidated = true := by
  unfold victimChosen at h
  split_ifs at h with hd
  · rcases get_modify_self (c := c) (l := l)
      (f := fun b => { b with repl := { b.repl with ioInvalidated := false } }) with he | ⟨he, -⟩
    · simp [he] at h
    · simp [he] at h
  · exact ⟨Bool.eq_false_of_not_eq_true hd, h⟩

theorem victimChosen_refuses :
    (c.victimChosen isDdio l).refuses m = c.refuses m := by
  have hmshrs : (c.victimChosen isDdio l).mshrs = c.mshrs := by
    unfold victimChosen
    split_ifs <;> simp
  unfold refuses findMshr
  rw [hmshrs, victimChosen_field (P := CacheBlk.valid) (fun _ _ => rfl),
    victimChosen_field (P := CacheBlk.addr) (fun _ _ => rfl),
    victimChosen_field (P := CacheBlk.secure) (fun _ _ => rfl)]

theorem victimChosen_tempBlock {s w : ℕ} :
    (c.victimChosen isDdio (.way s w)).tempBlock = c.tempBlock := by
  unfold victimChosen
  split_ifs <;> rfl

theorem allocateBlock_cases {io : Bool} {t : ℕ} {r : Option Loc} {w : Wanted}
    (hw : w = ⟨c.params.setOf (c.blockAddr pkt), io, isDdio⟩)
    (h : c.allocateBlock pkt io isDdio t = .ok (c', r)) :
    (c.chosen w = none ∧ Places c (some w) none ∧ r = none ∧ Quiet c c'
        ∧ c'.tempBlock = c.tempBlock)
      ∨ ∃ l put, c.chosen w = some l ∧ Places c (some w) put ∧ r = some l
        ∧ Follows c put (some (l, ((c.get l).isDdioHeader, none))) c' := by
  subst hw
  obtain ⟨way, hway, h⟩ := bind_ok.1 h
  obtain ⟨ev, hev, h⟩ := bind_ok.1 h
  rcases handleEvictions_cases hev with ⟨href, rfl⟩ | ⟨href, c₂, rfl, hc₂⟩
  · rw [victimChosen_refuses] at href
    cases h
    exact .inl ⟨by simp [chosen, hway, href], .refused hway href, rfl, victimChosen_quiet,
      victimChosen_tempBlock⟩
  · rw [victimChosen_refuses] at href
    obtain ⟨c₃, hc₃, h⟩ := bind_ok.1 h
    cases h
    obtain ⟨hfol, hstale, hio⟩ := Follows.of_evictions victimChosen_quiet hc₂
    obtain ⟨hput, hkept⟩ := insertBlock_follows hfol (fun h => (victimChosen_io (hio h)).2) hc₃
    rw [hstale, victimChosen_field (P := CacheBlk.isDdioHeader) (fun _ _ => rfl)] at hput
    refine .inr ⟨_, _, by simp [chosen, hway, href], .put hway href, rfl, ?_⟩
    refine ⟨hput.params, by simpa [placements, placement] using hput.placed, fun l hv hl => ?_,
      hput.left, hput.here, hput.others⟩
    refine ⟨(hput.io l hv hl).1, fun w way' hw hwl => ?_⟩
    obtain ⟨rfl, rfl⟩ := Prod.mk.inj (Option.some.inj hw)
    subst hwl
    exact (victimChosen_io (hio (hkept ▸ hl))).1

end Cache

end Gem5
