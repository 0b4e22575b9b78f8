import Gem5.Proofs.Cache

/-!
# What a step of the cache does

A step puts at most one new block into a way, and works on at most one block. `wanted` is the
allocation that a step asks for and `target` the block it works on, with the marks that the block
gets, both from the state before the step (`step_settles`).
-/

namespace Gem5

open Machine

namespace Cache

variable {c c' c'' : Cache} {l : Loc} {pkt : Packet} {wb : List Packet} {blk : Option Loc}
  {i tick : ℕ}

/-! ## Requests -/

def wrote (pkt : Packet) (m : Marks) : Marks := (m.1, some pkt.isDdioHeader)

def addMark (b : Bool) (m : Marks) : Marks := (b || m.1, m.2)

def marking (c : Cache) (pkt : Packet) : Bool :=
  c.params.isIOCache && decide (pkt.ddioPrefetchDestination ≠ -1)

theorem satisfyRequest_acts {deferred pendingDowngrade : Bool}
    (h : c.satisfyRequest pkt deferred pendingDowngrade l = .ok c') :
    Acts (only l (if pkt.cmd.isWrite then wrote pkt else id)) c c' := by
  obtain ⟨_, _, h⟩ := bind_ok.1 h
  obtain ⟨_, _, h⟩ := bind_ok.1 h
  obtain ⟨_, _, h⟩ := bind_ok.1 h
  obtain ⟨_, _, h⟩ := bind_ok.1 h
  split_ifs at h with hkind
  · cases h
    refine Acts.modify fun b hv => ?_
    unfold satisfiedBlk at hv ⊢
    split_ifs at hv ⊢ <;> exact ⟨hv, rfl, id⟩
  · obtain ⟨_, _, rfl⟩ := bind_pure_ok.1 h
    have hw : pkt.cmd.isWrite = false := by
      revert hkind
      cases pkt.cmd.isWrite <;> simp
    rw [hw]
    exact (Quiet.invalidateBlock _).congr only_id

def reachesTags (c : Cache) (pkt : Packet) : Bool :=
  !pkt.cacheResponding && !pkt.req.flags.uncacheable && !pkt.req.flags.isCacheMaintenance
    && !(pkt.cmd.isEviction && pkt.cmd.isCleanEviction
      && (c.findWrite (c.blockAddr pkt) pkt.isSecure).isSome)
    && !(decide (pkt.cmd = .writebackClean) && c.findMshr (c.blockAddr pkt) pkt.isSecure)

/-- The allocation of a request. A write-back looks for its victim in the whole set. -/
def wantedByReq (c : Cache) (pkt : Packet) (isDdio : Bool) : Option Wanted :=
  if c.reachesTags pkt && (c.findBlock (c.blockAddr pkt) pkt.isSecure).isNone then
    if pkt.cmd.isWriteback then
      some ⟨c.params.setOf (c.blockAddr pkt), pkt.blockIO, false⟩
    else if pkt.cmd = .writeClean ∧ pkt.writeThrough = false then
      some ⟨c.params.setOf (c.blockAddr pkt), pkt.blockIO, isDdio⟩
    else none
  else none

def reqMarks (c : Cache) (pkt : Packet) (l : Loc) : Marks → Marks :=
  if pkt.cmd.isWriteback then wrote pkt
  else if pkt.cmd = .cleanEvict then id
  else if pkt.cmd = .writeClean then wrote pkt ∘ addMark (c.marking pkt && pkt.isDdioHeader)
  else if c.permits pkt l && pkt.cmd.isWrite then wrote pkt
  else id

def reqTarget (c : Cache) (pkt : Packet) (isDdio : Bool) : Option (Loc × Marks) :=
  match c.findBlock (c.blockAddr pkt) pkt.isSecure with
  | some l => if c.reachesTags pkt then some (l, c.reqMarks pkt l (c.get l).marks) else none
  | none => ((c.wantedByReq pkt isDdio).bind c.chosen).map fun l =>
      (l, c.reqMarks pkt l ((c.get l).isDdioHeader, none))

def Reached (c : Cache) (w : Option Wanted) (t : Option (Loc × Marks)) (c' : Cache) : Prop :=
  ∃ put, Places c w put ∧ Follows c put t c'

theorem meetWriteBuffer_cases {done : Bool} (h : c.meetWriteBuffer pkt = .ok (c', done)) :
    (∃ wb, c' = { c with writeBuffer := wb }) ∧ done = (pkt.cmd.isEviction
      && pkt.cmd.isCleanEviction && (c.findWrite (c.blockAddr pkt) pkt.isSecure).isSome) := by
  unfold meetWriteBuffer at h
  by_cases hev : pkt.cmd.isEviction = true
  · rw [if_pos hev] at h
    cases hf : c.findWrite (c.blockAddr pkt) pkt.isSecure with
    | none =>
      rw [hf] at h
      cases h
      exact ⟨⟨c.writeBuffer, rfl⟩, by simp⟩
    | some i =>
      simp only [hf] at h
      split_ifs at h with hclean
      · cases h
        exact ⟨⟨_, rfl⟩, by simp [hev, hclean]⟩
      · obtain ⟨_, _, h⟩ := bind_ok.1 h
        cases h
        exact ⟨⟨_, rfl⟩, by simp [hclean]⟩
  · rw [if_neg hev] at h
    cases h
    exact ⟨⟨c.writeBuffer, rfl⟩, by simp [hev]⟩

namespace Reached

variable {w : Option Wanted} {t : Option (Loc × Marks)}

theorem of_writeBuffer (h : Reached { c with writeBuffer := wb } w t c') :
    Reached c w t c' := by
  obtain ⟨put, hp, hf⟩ := h
  refine ⟨put, ?_, hf.of_writeBuffer⟩
  cases hp with
  | none => exact .none
  | refused hway href => exact .refused hway href
  | put hway href => exact .put hway href

theorem of_follows (h : Follows c none t c') : Reached c none t c' := ⟨none, .none, h⟩

theorem of_quiet (q : Quiet c c') : Reached c none none c' := of_follows (Follows.refl.quiet q)

theorem allocate {io isDdio : Bool} {t : ℕ} {r : Option Loc} {k : CacheBlk → CacheBlk}
    {f : Marks → Marks} {w : Wanted} (hw : w = ⟨c.params.setOf (c.blockAddr pkt), io, isDdio⟩)
    (h : c.allocateBlock pkt io isDdio t = .ok (c', r))
    (hk : Turns k f) :
    Reached c (some w) ((c.chosen w).map fun l => (l, f ((c.get l).isDdioHeader, none)))
      (r.elim c' (c'.modify k)) := by
  rcases allocateBlock_cases hw h with ⟨hch, hp, rfl, hq, -⟩ | ⟨l, put, hch, hp, rfl, hf⟩
  · rw [hch]
    exact ⟨_, hp, Follows.refl.quiet hq⟩
  · rw [hch]
    exact ⟨_, hp, hf.acts (Acts.modify hk)⟩

end Reached

theorem writtenBack_turns {new : Bool} : Turns (c.writtenBack pkt new) (wrote pkt) :=
  fun _ hv => ⟨hv, rfl, id⟩

theorem writtenClean_turns {new : Bool} : Turns (c.writtenClean pkt new)
    (wrote pkt ∘ addMark (c.marking pkt && pkt.isDdioHeader)) :=
  fun _ hv => ⟨hv, rfl, id⟩

theorem Reached.of_dropped (isDdio : Bool) (hr : c.reachesTags pkt = false)
    (h : Follows c none none c') :
    Reached c (c.wantedByReq pkt isDdio) (c.reqTarget pkt isDdio) c' := by
  have hw : c.wantedByReq pkt isDdio = none := by simp [wantedByReq, hr]
  have ht : c.reqTarget pkt isDdio = none := by
    unfold reqTarget
    split <;> simp [hr, hw]
  rw [hw, ht]
  exact .of_follows h

section Access

variable {a : Access} {isDdio : Bool} {t : ℕ}

theorem accessWriteback_new (h : c.accessWriteback none pkt t = .ok a)
    (hdrop : ¬ (pkt.cmd = .writebackClean ∧ c.findMshr (c.blockAddr pkt) pkt.isSecure = true)) :
    Reached c (some ⟨c.params.setOf (c.blockAddr pkt), pkt.blockIO, false⟩)
      ((c.chosen ⟨c.params.setOf (c.blockAddr pkt), pkt.blockIO, false⟩).map fun l =>
        (l, wrote pkt ((c.get l).isDdioHeader, none))) a.cache := by
  obtain ⟨_, _, h⟩ := bind_ok.1 h
  rw [if_neg hdrop] at h
  obtain ⟨⟨c₁, r⟩, halloc, h⟩ := bind_ok.1 h
  have hreached := Reached.allocate (k := c.writtenBack pkt true) rfl halloc writtenBack_turns
  cases r with
  | none | some l =>
    cases h
    exact hreached

theorem accessWriteClean_new (h : c.accessWriteClean none pkt isDdio t = .ok a)
    (hthrough : pkt.writeThrough = false) :
    Reached c (some ⟨c.params.setOf (c.blockAddr pkt), pkt.blockIO, isDdio⟩)
      ((c.chosen ⟨c.params.setOf (c.blockAddr pkt), pkt.blockIO, isDdio⟩).map fun l =>
        (l, (wrote pkt ∘ addMark (c.marking pkt && pkt.isDdioHeader))
          ((c.get l).isDdioHeader, none))) a.cache := by
  obtain ⟨_, _, h⟩ := bind_ok.1 h
  rw [if_neg (by simp [hthrough])] at h
  obtain ⟨⟨c₁, r⟩, halloc, h⟩ := bind_ok.1 h
  have hreached := Reached.allocate (k := c.writtenClean pkt true) rfl halloc writtenClean_turns
  cases r with
  | none | some l =>
    cases h
    exact hreached

/-- What a request does that comes to the tags. -/
inductive AtTags (c : Cache) (blk : Option Loc) (pkt : Packet) (isDdio : Bool) (t : ℕ)
    (a : Access) : Prop
  | writeback (hwb : pkt.cmd.isWriteback = true)
      (hdrop : ¬ (pkt.cmd = .writebackClean ∧ c.findMshr (c.blockAddr pkt) pkt.isSecure = true))
      (h : c.accessWriteback blk pkt t = .ok a)
  | cleanEvict (hwb : pkt.cmd.isWriteback = false) (hce : pkt.cmd = .cleanEvict) (h : a.cache = c)
  | writeClean (hwb : pkt.cmd.isWriteback = false) (hce : pkt.cmd ≠ .cleanEvict)
      (hwc : pkt.cmd = .writeClean) (h : c.accessWriteClean blk pkt isDdio t = .ok a)
  | hit (hwb : pkt.cmd.isWriteback = false) (hce : pkt.cmd ≠ .cleanEvict)
      (hwc : pkt.cmd ≠ .writeClean) (h : c.accessHit blk pkt = .ok a)

def touched (c : Cache) (blk : Option Loc) (t : ℕ) : Cache :=
  blk.elim c (c.modify fun b => { b with repl := b.repl.touch t })

theorem touched_quiet : Quiet c (c.touched blk t) :=
  Quiet.elim fun _ => Quiet.modify fun _ hv => ⟨hv, rfl, id⟩

theorem touched_findWrite {addr : ℕ} {secure : Bool} :
    (c.touched blk t).findWrite addr secure = c.findWrite addr secure := by
  cases blk <;> simp [touched, findWrite]

theorem touched_findMshr {addr : ℕ} {secure : Bool} :
    (c.touched blk t).findMshr addr secure = c.findMshr addr secure := by
  cases blk <;> simp [touched, findMshr]

theorem touched_blockAddr :
    (c.touched blk t).blockAddr pkt = c.blockAddr pkt := by
  cases blk <;> simp [touched, blockAddr]

theorem accessCacheable_cases (hresp : pkt.cacheResponding = false)
    (hunc : pkt.req.flags.uncacheable = false) (h : c.accessCacheable pkt isDdio t = .ok a) :
    (c.reachesTags pkt = false ∧ Quiet c a.cache) ∨ (c.reachesTags pkt = true ∧ ∃ wb,
      AtTags { c.touched (c.findBlock (c.blockAddr pkt) pkt.isSecure) t with writeBuffer := wb }
        (c.findBlock (c.blockAddr pkt) pkt.isSecure) pkt isDdio t a) := by
  obtain ⟨_, _, h⟩ := bind_ok.1 h
  dsimp only at h
  generalize c.findBlock (c.blockAddr pkt) pkt.isSecure = blk at h ⊢
  by_cases hmaint : pkt.req.flags.isCacheMaintenance = true
  · rw [if_pos hmaint] at h
    cases h
    exact .inl ⟨by simp [reachesTags, hmaint], touched_quiet⟩
  rw [if_neg hmaint] at h
  obtain ⟨⟨c₁, done⟩, hmeet, h⟩ := bind_ok.1 h
  obtain ⟨⟨wb, rfl⟩, hdone⟩ := meetWriteBuffer_cases (c := c.touched blk t) hmeet
  have hquiet : Quiet c { c.touched blk t with writeBuffer := wb } :=
    touched_quiet.quiet_trans (.of_get rfl rfl rfl fun _ => rfl)
  rw [touched_blockAddr, touched_findWrite] at hdone
  have hmshr : Cache.findMshr { c.touched blk t with writeBuffer := wb }
      (Cache.blockAddr { c.touched blk t with writeBuffer := wb } pkt) pkt.isSecure
      = c.findMshr (c.blockAddr pkt) pkt.isSecure := by
    change (c.touched blk t).findMshr ((c.touched blk t).blockAddr pkt) pkt.isSecure = _
    rw [touched_blockAddr, touched_findMshr]
  dsimp only at h
  by_cases hd : done = true
  · rw [if_pos hd] at h
    cases h
    exact .inl ⟨by simp [reachesTags, ← hdone, hd], hquiet⟩
  rw [if_neg hd] at h
  by_cases hdrop : pkt.cmd = .writebackClean ∧ c.findMshr (c.blockAddr pkt) pkt.isSecure = true
  · have hwb : pkt.cmd.isWriteback = true := by rw [hdrop.1]; rfl
    rw [if_pos hwb] at h
    obtain ⟨_, _, h⟩ := bind_ok.1 h
    rw [if_pos ⟨hdrop.1, hmshr.trans hdrop.2⟩] at h
    cases h
    exact .inl ⟨by simp [reachesTags, hdrop.1, hdrop.2], hquiet⟩
  have htags : c.reachesTags pkt = true := by
    simp only [reachesTags, hresp, hunc, ← hdone, hmaint, hd]
    simpa [or_iff_not_imp_left] using hdrop
  refine .inr ⟨htags, wb, ?_⟩
  by_cases hwb : pkt.cmd.isWriteback = true
  · rw [if_pos hwb] at h
    exact .writeback hwb (fun hd => hdrop ⟨hd.1, hmshr.symm.trans hd.2⟩) h
  rw [if_neg hwb] at h
  rw [Bool.not_eq_true] at hwb
  by_cases hce : pkt.cmd = .cleanEvict
  · rw [if_pos hce] at h
    cases h
    exact .cleanEvict hwb hce rfl
  rw [if_neg hce] at h
  by_cases hwc : pkt.cmd = .writeClean
  · rw [if_pos hwc] at h
    exact .writeClean hwb hce hwc h
  · rw [if_neg hwc] at h
    exact .hit hwb hce hwc h

theorem AtTags.new (hblk : c.findBlock (c.blockAddr pkt) pkt.isSecure = none)
    (htags : c.reachesTags pkt = true)
    (h : AtTags { c with writeBuffer := wb } none pkt isDdio t a) :
    Reached c (c.wantedByReq pkt isDdio) (c.reqTarget pkt isDdio) a.cache := by
  have hquiet : Quiet c { c with writeBuffer := wb } := .of_get rfl rfl rfl fun _ => rfl
  have htarget : c.reqTarget pkt isDdio = ((c.wantedByReq pkt isDdio).bind c.chosen).map fun l =>
      (l, c.reqMarks pkt l ((c.get l).isDdioHeader, none)) := by
    simp [reqTarget, hblk]
  rw [htarget]
  unfold wantedByReq reqMarks
  rw [if_pos (by simp [hblk, htags])]
  cases h with
  | writeback hwb hdrop h =>
    simp only [if_pos hwb]
    exact (accessWriteback_new h hdrop).of_writeBuffer
  | cleanEvict hwb hce h =>
    rw [h, if_neg (by simp [hwb]), if_neg (by simp [hce])]
    exact .of_quiet hquiet
  | writeClean hwb hce hwc h =>
    simp only [if_neg (ne_true_of_eq_false hwb), if_neg hce, if_pos hwc]
    by_cases hthrough : pkt.writeThrough = true
    · obtain ⟨_, _, h⟩ := bind_ok.1 h
      rw [if_pos ⟨rfl, hthrough⟩] at h
      cases h
      rw [if_neg (by simp [hthrough])]
      exact .of_quiet hquiet
    · rw [Bool.not_eq_true] at hthrough
      rw [if_pos ⟨hwc, hthrough⟩]
      exact (accessWriteClean_new h hthrough).of_writeBuffer
  | hit hwb hce hwc h =>
    cases h
    rw [if_neg (by simp [hwb]), if_neg (by simp [hwc])]
    exact .of_quiet hquiet

theorem touched_permits (l : Loc) : (c.touched (some l) t).permits pkt l = c.permits pkt l := by
  have hfield := fun (P : CacheBlk → Bool) hP => get_modify_field (c := c) (l := l)
    (f := fun b => { b with repl := b.repl.touch t }) (P := P) hP l
  unfold permits touched
  rw [Option.elim_some, hfield CacheBlk.valid fun _ => rfl, hfield CacheBlk.writable fun _ => rfl,
    hfield CacheBlk.readable fun _ => rfl]

theorem accessHit_acts (h : c.accessHit (some l) pkt = .ok a) :
    Acts (only l (if c.permits pkt l && pkt.cmd.isWrite then wrote pkt else id)) c a.cache := by
  unfold accessHit at h
  dsimp only at h
  split_ifs at h with hp
  · obtain ⟨c₁, hsat, rfl⟩ := bind_pure_ok.1 h
    simp only [hp, Bool.true_and]
    exact (satisfyRequest_acts hsat).trans_quiet .maintainClusivity
  · cases h
    simp only [hp, Bool.false_and, Bool.false_eq_true, if_false]
    exact Acts.refl.congr only_id

theorem AtTags.found (hblk : c.findBlock (c.blockAddr pkt) pkt.isSecure = some l)
    (htags : c.reachesTags pkt = true)
    (h : AtTags { c.touched (some l) t with writeBuffer := wb } (some l) pkt isDdio t a) :
    Reached c (c.wantedByReq pkt isDdio) (c.reqTarget pkt isDdio) a.cache := by
  have hw : c.wantedByReq pkt isDdio = none := by simp [wantedByReq, hblk]
  have ht : c.reqTarget pkt isDdio = some (l, c.reqMarks pkt l (c.get l).marks) := by
    simp [reqTarget, hblk, htags]
  rw [hw, ht]
  have hstart : Follows c none (some (l, (c.get l).marks))
      { c.touched (some l) t with writeBuffer := wb } :=
    (Follows.refl.find l).quiet (touched_quiet.quiet_trans (.of_get rfl rfl rfl fun _ => rfl))
  refine .of_follows ?_
  unfold reqMarks
  cases h with
  | writeback hwb hdrop h =>
    obtain ⟨_, _, h⟩ := bind_ok.1 h
    rw [if_neg hdrop] at h
    cases h
    rw [if_pos hwb]
    exact hstart.acts (Acts.modify writtenBack_turns)
  | cleanEvict hwb hce h =>
    rwa [h, if_neg (by simp [hwb]), if_pos hce]
  | writeClean hwb hce hwc h =>
    obtain ⟨_, _, h⟩ := bind_ok.1 h
    rw [if_neg (fun h => nomatch h.1)] at h
    cases h
    have hparams : (c.touched (some l) t).params = c.params := touched_quiet.params
    rw [if_neg (by simp [hwb]), if_neg hce, if_pos hwc, show c.marking pkt
      = (c.touched (some l) t).marking pkt by unfold marking; rw [hparams]]
    exact hstart.acts (Acts.modify writtenClean_turns)
  | hit hwb hce hwc h =>
    rw [if_neg (by simp [hwb]), if_neg hce, if_neg hwc, ← touched_permits (t := t)]
    exact hstart.acts (accessHit_acts h)

theorem access_reached (hresp : pkt.cacheResponding = false)
    (h : c.access pkt isDdio t = .ok a) :
    Reached c (c.wantedByReq pkt isDdio) (c.reqTarget pkt isDdio) a.cache := by
  unfold access at h
  split_ifs at h with hunc
  · refine .of_dropped _ (by simp [reachesTags, hunc]) ?_
    cases hblk : c.findBlock (c.blockAddr pkt) pkt.isSecure with
    | none =>
      rw [hblk] at h
      cases h
      exact .refl
    | some l =>
      rw [hblk] at h
      obtain ⟨c₁, he, rfl⟩ := bind_pure_ok.1 h
      exact Follows.refl.evict (evictBlock_cases he)
  · rw [Bool.not_eq_true] at hunc
    rcases accessCacheable_cases hresp hunc h with ⟨htags, hq⟩ | ⟨htags, wb, hat⟩
    · exact .of_dropped _ htags (Follows.refl.quiet hq)
    · cases hblk : c.findBlock (c.blockAddr pkt) pkt.isSecure with
      | none =>
        rw [hblk] at hat
        exact hat.new hblk htags
      | some l =>
        rw [hblk] at hat
        exact hat.found hblk htags

end Access

/-! ## Responses -/

def wantedByResp (c : Cache) (pkt : Packet) (i : ℕ) (reply : Reply) : Option Wanted :=
  c.mshrs[i]?.bind fun mshr =>
    if !pkt.cmd.isWrite && isFill pkt reply && reply.allocate
        && (c.findBlock (c.blockAddr pkt) pkt.isSecure).isNone then
      some ⟨c.params.setOf (c.blockAddr pkt), mshr.io, mshr.wasBlockIO && c.params.ddioEnabled⟩
    else none

def fillMarks (c : Cache) (pkt : Packet) (mshr : MissEntry) (reply : Reply) : Marks → Marks :=
  if isFill pkt reply then
    addMark (c.marking (markFill pkt mshr) && (markFill pkt mshr).isDdioHeader)
  else id

def servedMarks (pkt : Packet) (reply : Reply) : Served → Marks → Marks
  | .fromCPU tgt =>
    if !tgt.cmd.isSWPrefetch && (!reply.isForward || !pkt.cmd.hasData) && tgt.cmd.isWrite then
      wrote tgt
    else id
  | _ => id

def servedAllMarks (pkt : Packet) (reply : Reply) (ts : List Served) (m : Marks) : Marks :=
  ts.foldl (fun m t => servedMarks pkt reply t m) m

def respTarget (c : Cache) (pkt : Packet) (i : ℕ) (reply : Reply) : Option (Loc × Marks) :=
  c.mshrs[i]?.bind fun mshr =>
    if pkt.cmd.isWrite then none
    else
      match c.findBlock (c.blockAddr pkt) pkt.isSecure with
      | some l => some (l, servedAllMarks pkt reply reply.served (c.fillMarks pkt mshr reply
          (addMark (c.params.isIOCache && pkt.isDdioHeader) (c.get l).marks)))
      | none =>
        if isFill pkt reply then
          let l := ((c.wantedByResp pkt i reply).bind c.chosen).getD .temp
          some (l, servedAllMarks pkt reply reply.served (c.fillMarks pkt mshr reply
            ((c.get l).isDdioHeader, none)))
        else none

theorem Acts.of_invalid {f : Marks → Marks} (hv : (c.get l).valid = false) (q : Quiet c c') :
    Acts (only l f) c c' := by
  refine { q with marks := fun m hm => ?_ }
  obtain ⟨hv', hq⟩ := q.marks m hm
  by_cases hml : m = l
  · subst hml
    simp [hv] at hv'
  · rw [only_of_ne hml]
    exact ⟨hv', hq⟩

section Response

variable {reply : Reply} {t : Served}

theorem serve_acts (h : c.serve pkt reply (some l) t = .ok c') :
    Acts (only l (servedMarks pkt reply t)) c c' := by
  cases t with
  | fromPrefetcher =>
    cases h
    exact Acts.refl.congr only_id
  | fromSnoop tgt =>
    cases h
    exact Quiet.handleSnoop.congr only_id
  | fromCPU tgt =>
    unfold serve at h
    unfold servedMarks
    dsimp only at h ⊢
    by_cases hsw : tgt.cmd.isSWPrefetch = true
    · rw [if_pos hsw] at h
      rw [if_neg (by simp [hsw])]
      cases h
      refine Acts.congr ?_ only_id
      split_ifs
      · exact Quiet.modify fun _ hv => ⟨hv, rfl, id⟩
      · exact .refl
    rw [if_neg hsw] at h
    by_cases hv : (c.get l).valid = true
    · by_cases hdata : (!reply.isForward || !pkt.cmd.hasData) = true
      · rw [if_pos (by simp [hv, hdata])] at h
        simp only [hsw, hdata, Bool.not_false, Bool.true_and]
        exact satisfyRequest_acts h
      · rw [if_neg (by simp [hdata])] at h
        rw [if_neg (by simp [hdata])]
        refine Acts.congr ?_ only_id
        split_ifs at h
        · cases h
          exact .refl
        · cases h
          exact Quiet.invalidateBlock _
        · cases h
          exact .refl
    · rw [Bool.not_eq_true] at hv
      rw [if_neg (by simp [hv])] at h
      refine Acts.of_invalid hv ?_
      split_ifs at h
      · cases h
        exact .refl
      · cases h
        exact Quiet.invalidateBlock _
      · cases h
        exact .refl

theorem serveAll_acts {ts : List Served} (h : serveAll pkt reply (some l) ts c = .ok c') :
    Acts (only l (servedAllMarks pkt reply ts)) c c' := by
  induction ts generalizing c with
  | nil =>
    cases h
    exact Acts.refl.congr only_id
  | cons t ts ih =>
    obtain ⟨c₁, hserve, h⟩ := bind_ok.1 h
    exact (serve_acts hserve).only_trans (ih h)

theorem serveAll_none {ts : List Served} (h : serveAll pkt reply none ts c = .ok c') : c' = c := by
  induction ts with
  | nil =>
    cases h
    rfl
  | cons t ts ih =>
    obtain ⟨c₁, hserve, hrest⟩ := bind_ok.1 h
    have hc : c₁ = c := by cases t <;> cases hserve <;> rfl
    rw [hc] at hrest
    exact ih hrest

theorem Quiet.afterTargets : Quiet c (c.afterTargets pkt reply l) := by
  unfold Cache.afterTargets
  dsimp only
  split_ifs
  · exact maintainClusivity.quiet_trans (invalidateBlock _)
  · exact maintainClusivity.quiet_trans (modify fun _ hv => ⟨hv, rfl, id⟩)
  · exact maintainClusivity
  · exact maintainClusivity

theorem Quiet.finishMshr : Quiet c (c.finishMshr reply i blk) := by
  unfold Cache.finishMshr
  split_ifs
  · exact .of_get rfl rfl rfl fun _ => rfl
  · exact elim fun _ => modify fun _ hv => ⟨hv, rfl, id⟩

theorem markResponse_acts :
    Acts (only l (addMark (c.params.isIOCache && pkt.isDdioHeader))) c
      (c.markResponse pkt (some l)) := by
  unfold markResponse
  split_ifs with hio
  · rw [hio, Bool.true_and]
    exact Acts.modify fun _ hv => ⟨hv, rfl, id⟩
  · rw [Bool.eq_false_of_not_eq_true hio, Bool.false_and]
    exact Acts.refl.congr only_id

theorem blockAddr_markFill {mshr : MissEntry} :
    c.blockAddr (markFill pkt mshr) = c.blockAddr pkt := by
  unfold markFill
  split_ifs <;> rfl

theorem filledBlk_turns :
    Turns (c.filledBlk pkt) (addMark (c.marking pkt && pkt.isDdioHeader)) :=
  fun _ hv => ⟨hv, rfl, id⟩

section Fill

variable {allocate io isDdio : Bool} {tick : ℕ} {loc : Loc}

theorem handleFill_found
    (h : c.handleFill pkt (some l) allocate io isDdio tick = .ok (c', loc)) :
    loc = l ∧ Acts (only l (addMark (c.marking pkt && pkt.isDdioHeader))) c c' := by
  obtain ⟨_, _, h⟩ := bind_ok.1 h
  obtain ⟨_, _, h⟩ := bind_ok.1 h
  cases h
  exact ⟨rfl, Acts.modify filledBlk_turns⟩

theorem handleFill_new (h : c.handleFill pkt none allocate io isDdio tick = .ok (c', loc))
    {w : Option Wanted}
    (hw : w = if allocate then some ⟨c.params.setOf (c.blockAddr pkt), io, isDdio⟩ else none) :
    loc = (w.bind c.chosen).getD .temp ∧ ∃ put, Places c w put
      ∧ Follows c put (some (loc, addMark (c.marking pkt && pkt.isDdioHeader)
        ((c.get loc).isDdioHeader, none))) c' := by
  obtain ⟨_, _, h⟩ := bind_ok.1 h
  obtain ⟨_, _, h⟩ := bind_ok.1 h
  obtain ⟨⟨c₁, r⟩, halloc, h⟩ := bind_ok.1 h
  have htemp : ∀ {c₁ : Cache}, Follows c none none c₁ → c₁.tempBlock = c.tempBlock →
      Follows c none (some (.temp, addMark (c.marking pkt && pkt.isDdioHeader)
        ((c.get .temp).isDdioHeader, none)))
        (c₁.modify (fun b => c.filledBlk pkt (b.insert pkt.addr pkt.isSecure)) .temp) :=
    fun {c₁} hf he => by
      have hget : c.get .temp = c₁.get .temp := he.symm
      rw [hget]
      exact hf.insert (fun _ => ⟨rfl, rfl⟩) fun h => hget ▸ h
  unfold allocateOnFill at halloc
  split_ifs at halloc with ha
  · rw [if_pos ha] at hw
    subst hw
    rcases allocateBlock_cases rfl halloc with ⟨hch, hp, rfl, hq, ht⟩ | ⟨l, put, hch, hp, rfl, hf⟩
    · cases h
      exact ⟨by simp [hch], none, hp, htemp (Follows.refl.quiet hq) ht⟩
    · cases h
      exact ⟨by simp [hch], put, hp, hf.acts (Acts.modify filledBlk_turns)⟩
  · rw [if_neg ha] at hw
    subst hw
    cases halloc
    cases h
    exact ⟨rfl, none, .none, htemp .refl rfl⟩

end Fill

theorem fillOrFind_follows {mshr : MissEntry}
    (hmshr : c.mshrs[i]? = some mshr) (hw : pkt.cmd.isWrite = false)
    (h : c.fillOrFind pkt mshr reply tick = .ok (c', blk)) :
    ∃ put, Places c (c.wantedByResp pkt i reply) put
      ∧ ((blk = none ∧ c.respTarget pkt i reply = none ∧ Follows c put none c')
        ∨ ∃ l m, blk = some l ∧ Follows c put (some (l, m)) c'
          ∧ c.respTarget pkt i reply = some (l, servedAllMarks pkt reply reply.served m)) := by
  unfold fillOrFind at h
  dsimp only at h
  cases hblk : c.findBlock (c.blockAddr pkt) pkt.isSecure with
  | some l =>
    have hwant : c.wantedByResp pkt i reply = none := by simp [wantedByResp, hmshr, hblk]
    have htarget : c.respTarget pkt i reply = some (l, servedAllMarks pkt reply reply.served
        (c.fillMarks pkt mshr reply
          (addMark (c.params.isIOCache && pkt.isDdioHeader) (c.get l).marks))) := by
      simp [respTarget, hmshr, hblk, hw]
    have hstart : Follows c none (some (l, (c.get l).marks)) c := Follows.refl.find l
    have hmark : Follows c none _ (c.markResponse pkt (some l)) := hstart.acts markResponse_acts
    have hparams : (c.markResponse pkt (some l)).params = c.params := hmark.params
    rw [hwant, htarget]
    rw [hblk] at h
    unfold fillMarks
    split_ifs at h ⊢ with hfill
    · obtain ⟨⟨c₂, loc⟩, hf, h⟩ := bind_ok.1 h
      cases h
      obtain ⟨rfl, hacts⟩ := handleFill_found hf
      refine ⟨none, .none, .inr ⟨_, _, rfl, hmark.acts hacts, ?_⟩⟩
      unfold marking
      rw [hparams]
    · cases h
      exact ⟨none, .none, .inr ⟨_, _, rfl, hmark, rfl⟩⟩
  | none =>
    have hc : c.markResponse pkt none = c := by
      unfold markResponse
      split_ifs <;> rfl
    rw [hblk, hc] at h
    split_ifs at h with hfill
    · obtain ⟨⟨c₂, loc⟩, hf, h⟩ := bind_ok.1 h
      cases h
      have hwant : c.wantedByResp pkt i reply = if reply.allocate then
          some ⟨c.params.setOf (c.blockAddr (markFill pkt mshr)), mshr.io,
            mshr.wasBlockIO && c.params.ddioEnabled⟩ else none := by
        simp [wantedByResp, hmshr, hblk, hw, hfill, blockAddr_markFill]
      obtain ⟨hloc, put, hp, hfol⟩ := handleFill_new hf hwant
      refine ⟨put, hp, .inr ⟨loc, _, rfl, hfol, ?_⟩⟩
      simp [respTarget, hmshr, hblk, hw, hfill, fillMarks, ← hloc]
    · cases h
      have hwant : c.wantedByResp pkt i reply = none := by simp [wantedByResp, hmshr, hfill]
      have htarget : c.respTarget pkt i reply = none := by
        simp [respTarget, hmshr, hblk, hfill]
      rw [hwant, htarget]
      exact ⟨none, .none, .inl ⟨rfl, rfl, .refl⟩⟩

end Response

/-! ## A step -/

/-- What becomes of the cache `c` in a step: as in `Follows`, and the block that was worked on may
have left at the end. -/
structure Settles (c : Cache) (put : Option (Wanted × ℕ)) (t : Option (Loc × Marks)) (c' : Cache) :
    Prop where
  params : c'.params = c.params
  placed : c'.placed = c.placed ++ c.placements put
  io : ∀ l, (c'.get l).valid = true → (c'.get l).repl.ioInvalidated = true →
    (c.get l).repl.ioInvalidated = true ∧ ∀ w way, put = some (w, way) → l = .way w.set way →
      w.isDdio = false
  left : ∀ d ∈ c'.left, d ∈ c.left ∨ (∃ l, (c.get l).valid = true ∧ c.Departs (c.get l).marks d)
    ∨ ∃ l m, t = some (l, m) ∧ c.Departs m d
  here : ∀ l m, t = some (l, m) → (c'.get l).valid = true → (c'.get l).marks = m
  others : ∀ l, t.map Prod.fst ≠ some l → (c'.get l).valid = true →
    (c.get l).valid = true ∧ (c'.get l).marks = (c.get l).marks

namespace Settles

variable {put : Option (Wanted × ℕ)} {t : Option (Loc × Marks)} {m : Marks}

theorem of_follows (h : Follows c put t c') : Settles c put t c' :=
  { h with left := fun d hd => (h.left d hd).imp_right .inl }

theorem quiet (h : Settles c put t c') (q : Quiet c' c'') : Settles c put t c'' where
  params := q.params.trans h.params
  placed := q.placed.trans h.placed
  io l hv hio := h.io l (q.marks l hv).1 (q.io l hv hio)
  left d hd := h.left d (q.left ▸ hd)
  here l m ht hv := by
    obtain ⟨hv', hm⟩ := q.marks l hv
    exact hm.trans (h.here l m ht hv')
  others l hl hv := by
    obtain ⟨hv', hm⟩ := q.marks l hv
    obtain ⟨hv'', hm'⟩ := h.others l hl hv'
    exact ⟨hv'', hm.trans hm'⟩

theorem of_evicted (h : Follows c put (some (l, m)) c') (e : Evicted l c' c'') :
    Settles c put (some (l, m)) c'' where
  params := e.params.trans h.params
  placed := e.placed.trans h.placed
  io k hv hio := by
    by_cases hkl : k = l
    · subst hkl
      simp [e.gone] at hv
    · rw [e.others k hkl] at hv hio
      exact h.io k hv hio
  left d hd := by
    obtain ⟨d', hleft, hd'⟩ := e.left
    rw [hleft, List.mem_append, List.mem_singleton] at hd
    rcases hd with hd | rfl
    · exact (h.left d hd).imp_right .inl
    · rw [h.here l m rfl e.valid] at hd'
      exact .inr (.inr ⟨l, m, rfl, hd'.1, fun hio => hd'.2 (h.params ▸ hio)⟩)
  here k m' hk hv := by
    obtain ⟨rfl, rfl⟩ := Prod.mk.inj (Option.some.inj hk)
    simp [e.gone] at hv
  others k hk hv := by
    have hkl : k ≠ l := fun he => hk (by rw [he]; rfl)
    rw [e.others k hkl] at hv ⊢
    exact h.others k hk hv

end Settles

def wanted (c : Cache) (s : Step) : Option Wanted :=
  match s.op with
  | .recvTimingReq pkt =>
    c.wantedByReq (c.promoteWholeLineWrites pkt)
      (Packet.isBlockIO (c.promoteWholeLineWrites pkt) && c.params.ddioEnabled)
  | .recvTimingResp pkt i reply => c.wantedByResp pkt i reply
  | _ => none

/-- The block that a step works on, with its marks after the step. -/
def target (c : Cache) (s : Step) : Option (Loc × Marks) :=
  match s.op with
  | .recvTimingReq pkt =>
    c.reqTarget (c.promoteWholeLineWrites pkt)
      (Packet.isBlockIO (c.promoteWholeLineWrites pkt) && c.params.ddioEnabled)
  | .recvTimingResp pkt i reply => c.respTarget pkt i reply
  | _ => none

theorem markHit_makeTimingResponse :
    c.markHit (makeTimingResponse pkt) blk = c := by
  have hcmd : ∀ cmd : MemCmd, cmd.needsResponse = true →
      cmd.responseCommand ≠ .writeReq ∧ cmd.responseCommand ≠ .writeLineReq := by
    intro cmd
    cases cmd <;> decide
  have hno : ∀ cmd : MemCmd, cmd.needsResponse = false →
      cmd ≠ .writeReq ∧ cmd ≠ .writeLineReq := by
    intro cmd
    cases cmd <;> decide
  have h : (makeTimingResponse pkt).cmd ≠ .writeReq
      ∧ (makeTimingResponse pkt).cmd ≠ .writeLineReq := by
    unfold makeTimingResponse
    split_ifs with hn
    · exact hcmd _ hn
    · exact hno _ (Bool.eq_false_of_not_eq_true hn)
  unfold markHit
  rw [if_neg (by simp [h.1, h.2])]

theorem recvTimingReq_settles {above : List ℕ}
    (h : c.recvTimingReq pkt tick above = .ok c') :
    ∃ put, Places c (c.wanted ⟨.recvTimingReq pkt, tick, above⟩) put
      ∧ Settles c put (c.target ⟨.recvTimingReq pkt, tick, above⟩) c' := by
  unfold recvTimingReq at h
  unfold wanted target
  dsimp only at h ⊢
  generalize c.promoteWholeLineWrites pkt = p at h ⊢
  split_ifs at h with hresp
  · obtain ⟨_, _, rfl⟩ := bind_pure_ok.1 h
    have htags : c.reachesTags p = false := by simp [reachesTags, hresp]
    obtain ⟨put, hp, hf⟩ := Reached.of_dropped (p.isBlockIO && c.params.ddioEnabled) htags .refl
    exact ⟨put, hp, .of_follows hf⟩
  · obtain ⟨a, ha, h⟩ := bind_ok.1 h
    obtain ⟨put, hp, hf⟩ := access_reached (Bool.eq_false_of_not_eq_true hresp) ha
    have hwb : Follows c put _ (a.cache.doWritebacks above) := hf.quiet .doWritebacks
    refine ⟨put, hp, .of_follows ?_⟩
    split_ifs at h
    · cases h
      rwa [markHit_makeTimingResponse]
    · cases h
      exact hwb.quiet .handleTimingReqMiss

theorem evictTemp_settles {put : Option (Wanted × ℕ)} {m : Marks}
    (h : Follows c put (some (l, m)) c')
    (he : c'.evictTemp (some l) = .ok c'') : Settles c put (some (l, m)) c'' := by
  unfold evictTemp at he
  split_ifs at he with htemp
  · obtain rfl := Option.some.inj htemp.1
    exact .of_evicted h (evictBlock_cases he)
  · cases he
    exact .of_follows h

theorem recvTimingResp_settles {reply : Reply} {above : List ℕ}
    (h : c.recvTimingResp pkt i reply tick above = .ok c') :
    ∃ put, Places c (c.wantedByResp pkt i reply) put
      ∧ Settles c put (c.respTarget pkt i reply) c' := by
  obtain ⟨_, _, h⟩ := bind_ok.1 h
  by_cases hw : pkt.cmd.isWrite = true
  · rw [if_pos hw] at h
    obtain ⟨_, _, rfl⟩ := bind_pure_ok.1 h
    have hwant : c.wantedByResp pkt i reply = none := by
      unfold wantedByResp
      cases c.mshrs[i]? <;> simp [hw]
    have htarget : c.respTarget pkt i reply = none := by
      unfold respTarget
      cases c.mshrs[i]? <;> simp [hw]
    rw [hwant, htarget]
    exact ⟨none, .none, .of_follows .refl⟩
  rw [if_neg hw] at h
  cases hmshr : c.mshrs[i]? with
  | none =>
    simp [hmshr] at h
  | some mshr =>
    simp only [hmshr] at h
    obtain ⟨_, _, h⟩ := bind_ok.1 h
    obtain ⟨⟨c₁, blk⟩, hfill, h⟩ := bind_ok.1 h
    obtain ⟨c₃, hserve, h⟩ := bind_ok.1 h
    obtain ⟨c₄, hevict, rfl⟩ := bind_pure_ok.1 h
    obtain ⟨put, hp, ⟨rfl, ht, hf⟩ | ⟨l, m, rfl, hf, ht⟩⟩ :=
      fillOrFind_follows hmshr (Bool.eq_false_of_not_eq_true hw) hfill
    · rw [ht]
      obtain rfl := serveAll_none hserve
      obtain rfl : _ = c₄ := Except.ok.inj ((if_neg (by simp)).symm.trans hevict)
      exact ⟨put, hp, .of_follows ((hf.quiet .finishMshr).quiet .doWritebacks)⟩
    · rw [ht]
      have hread : Quiet c₁ (c₁.modify (fun b => { b with
          readable := (b.valid && pkt.cmd.isClean && !pkt.cmd.isInvalidate) || b.readable }) l) :=
        .modify fun _ hv => ⟨hv, rfl, id⟩
      have hserved : Follows c put (some (l, servedAllMarks pkt reply reply.served m))
          ((c₃.afterTargets pkt reply l).finishMshr reply i (some l)) :=
        (((hf.quiet hread).acts (serveAll_acts hserve)).quiet .afterTargets).quiet .finishMshr
      exact ⟨put, hp, (evictTemp_settles hserved hevict).quiet .doWritebacks⟩

theorem step_settles {s : Step} (h : c.step s = .ok c') :
    ∃ put, Places c (c.wanted s) put ∧ Settles c put (c.target s) c' := by
  obtain ⟨op, tick, above⟩ := s
  cases op with
  | recvTimingReq pkt => exact recvTimingReq_settles h
  | recvTimingResp pkt i reply => exact recvTimingResp_settles h
  | recvTimingSnoopReq pkt putOff =>
    cases h
    exact ⟨none, .none, .of_follows (Follows.refl.quiet .recvTimingSnoopReq)⟩
  | clean addr secure =>
    refine ⟨none, .none, .of_follows (Follows.refl.quiet ?_)⟩
    unfold step at h
    dsimp only at h
    split at h
    · cases h
      exact .refl
    · cases h
      split_ifs
      · exact Quiet.writecleanBlk.quiet_trans Quiet.doWritebacks
      · exact .refl
  | sendWrite i =>
    cases h
    exact ⟨none, .none, .of_follows (Follows.refl.quiet (.of_get rfl rfl rfl fun _ => rfl))⟩

end Cache

end Gem5
