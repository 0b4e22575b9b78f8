import Gem5.DistNet

/-!
# The tick of the next periodic barrier

When the barriers take place, and what for, follows from what the barriers before decided (`plan`).
A process that has left `k` barriers is where the first `k` decisions lead to (`Follows`).
-/

namespace Gem5

namespace DistNet

open DistSync (Decision)
open RecvScheduler (Desc)

/-- Between two barriers. -/
structure Phase where
  /-- The periodic barriers are on. -/
  on : Bool
  /-- A checkpoint is to be taken. -/
  ckpt : Bool
  /-- There was a periodic barrier since they are on. -/
  synced : Bool
  /-- The tick of the next periodic barrier. -/
  syncWhen : ℕ
  /-- The ticks between the last periodic barrier and the next. -/
  period : ℕ

def Phase.next (φ : Phase) (d : Decision) : Phase :=
  if φ.ckpt then { φ with ckpt := false }
  else if φ.on then
    if d.doExit then { φ with on := false, ckpt := d.doCkpt }
    else if d.doStopSync then { φ with on := false, ckpt := d.doCkpt }
    else ⟨true, d.doCkpt, true, φ.syncWhen + d.nextRepeat, d.nextRepeat⟩
  else { φ with on := true, synced := false, syncWhen := d.nextAt }

def plan (ds : List Decision) : Phase := ds.foldl Phase.next ⟨false, false, false, 0, 0⟩

theorem plan_concat (ds : List Decision) (d : Decision) : plan (ds ++ [d]) = (plan ds).next d := by
  simp [plan]

theorem plan_take_succ {ds : List Decision} {k : ℕ} {d : Decision} (h : ds[k]? = some d) :
    plan (ds.take (k + 1)) = (plan (ds.take k)).next d := by
  rw [List.take_add_one, h, Option.toList_some, plan_concat]

theorem plan_period (ds : List Decision) (h : (plan ds).synced = true) :
    ∃ d ∈ ds, (plan ds).period = d.nextRepeat := by
  induction ds using List.reverseRecOn with
  | nil => cases h
  | append_singleton ds d ih =>
    rw [plan_concat] at h ⊢
    have hold : (plan ds).synced = true →
        ∃ d' ∈ ds ++ [d], (plan ds).period = d'.nextRepeat := fun hs => by
      obtain ⟨d', hd', hp⟩ := ih hs
      exact ⟨d', List.mem_append_left _ hd', hp⟩
    unfold Phase.next at h ⊢
    split_ifs at h ⊢
    · exact hold h
    · exact hold h
    · exact hold h
    · exact ⟨d, by simp, rfl⟩

/-- The process waits where the plan has a barrier of that kind. -/
def Phase.Expects (φ : Phase) (p : Proc) : Wait → Prop
  | .process =>
    φ.on = true ∧ φ.ckpt = false ∧ p.curTick = p.syncWhen ∧ p.scheduled = false
  | .start => φ.on = false
  | .drainComplete => φ.ckpt = true

/-- The process is where the decisions of the barriers it has left lead to. -/
structure Follows (ds : List Decision) (p : Proc) : Prop where
  le : p.passed ≤ ds.length
  syncWhen : p.syncWhen = (plan (ds.take p.passed)).syncWhen
  draining : p.draining = (plan (ds.take p.passed)).ckpt
  scheduled : p.exited = false → p.wait ≠ some .process →
    p.scheduled = (plan (ds.take p.passed)).on
  tick : (plan (ds.take p.passed)).on = true → p.curTick ≤ p.syncWhen
  syncRepeat : (plan (ds.take p.passed)).on = true → (plan (ds.take p.passed)).synced = true →
    p.syncRepeat = (plan (ds.take p.passed)).period
  synced : (plan (ds.take p.passed)).on = true → p.synced = (plan (ds.take p.passed)).synced
  lastSync : p.lastSync ≤ p.curTick
  wait : ∀ w, p.wait = some w → (plan (ds.take p.passed)).Expects p w

variable {ds : List Decision} {p p' : Proc}

theorem Follows.init (ds : List Decision) (curTick : ℕ) : Follows ds (.init curTick) where
  le := Nat.zero_le _
  syncWhen := rfl
  draining := rfl
  scheduled _ _ := rfl
  tick := nofun
  syncRepeat := nofun
  synced := nofun
  lastSync := Nat.zero_le _
  wait := nofun

theorem Follows.append (h : Follows ds p) (ds' : List Decision) : Follows (ds ++ ds') p := by
  have hle := h.le
  have ht : (ds ++ ds').take p.passed = ds.take p.passed := List.take_append_of_le_length hle
  exact {
    le := by
      rw [List.length_append]
      omega
    syncWhen := ht ▸ h.syncWhen
    draining := ht ▸ h.draining
    scheduled := ht ▸ h.scheduled
    tick := ht ▸ h.tick
    syncRepeat := ht ▸ h.syncRepeat
    synced := ht ▸ h.synced
    lastSync := h.lastSync
    wait := ht ▸ h.wait }

theorem Follows.of_next {φ : Phase} (hφ : plan (ds.take p.passed) = φ) (le : p.passed ≤ ds.length)
    (hwait : p.wait = none) (hwhen : p.syncWhen = φ.syncWhen) (hdrain : p.draining = φ.ckpt)
    (hsched : p.exited = false → p.scheduled = φ.on) (htick : φ.on = true → p.curTick ≤ φ.syncWhen)
    (hrep : φ.on = true → φ.synced = true → p.syncRepeat = φ.period)
    (hsync : φ.on = true → p.synced = φ.synced) (hlast : p.lastSync ≤ p.curTick) :
    Follows ds p := by
  subst hφ
  exact {
    le := le
    syncWhen := hwhen
    draining := hdrain
    scheduled := fun hx _ => hsched hx
    tick := fun hon => hwhen ▸ htick hon
    syncRepeat := hrep
    synced := hsync
    lastSync := hlast
    wait := fun w hw => by
      rw [hwait] at hw
      cases hw }

theorem Follows.leave (h : Follows ds p) {d : Decision} {w : Wait} (hx : p.exited = false)
    (hw : p.wait = some w) (hd : ds[p.passed]? = some d)
    (hck : (plan (ds.take p.passed)).ckpt = true → d.doCkpt = true) (hl : p.leave d w = .ok p') :
    Follows ds p' := by
  have hnext := plan_take_succ hd
  have hle : p.passed + 1 ≤ ds.length := (List.getElem?_eq_some_iff.1 hd).1
  have hexp := h.wait w hw
  have hwhen := h.syncWhen
  have htick := h.tick
  have hsched := h.scheduled hx
  have hrep := h.syncRepeat
  set φ := plan (ds.take p.passed) with hφ
  cases w with
  | process =>
    obtain ⟨hon, hck', hcur, hoff⟩ := hexp
    cases hl
    simp only [Phase.next, hck', hon, Bool.false_eq_true, if_false, if_true] at hnext
    split_ifs at hnext ⊢
    · exact .of_next hnext hle rfl hwhen rfl nofun nofun nofun nofun le_rfl
    · exact .of_next hnext hle rfl hwhen rfl (fun _ => hoff) nofun nofun nofun le_rfl
    · refine .of_next hnext hle rfl ?_ rfl (fun _ => rfl) (fun _ => ?_) (fun _ _ => rfl)
        (fun _ => rfl) le_rfl
      · show p.curTick + d.nextRepeat = φ.syncWhen + d.nextRepeat
        rw [hcur, hwhen]
      · show p.curTick ≤ φ.syncWhen + d.nextRepeat
        omega
  | start =>
    have hoff : φ.on = false := hexp
    simp only [Proc.leave, Proc.resume, Machine.bind_ok, require_ok] at hl
    obtain ⟨_, hnck, _, -, _, -, _, hcur, _, -, hl⟩ := hl
    cases hl
    have hck' : φ.ckpt = false := by
      rcases hc : φ.ckpt with _ | _
      · rfl
      · simp [hck hc] at hnck
    simp only [Phase.next, hck', hoff, Bool.false_eq_true, if_false] at hnext
    exact .of_next hnext hle rfl rfl (h.draining.trans hck') (fun _ => rfl) (fun _ => hcur) nofun
      (fun _ => rfl) le_rfl
  | drainComplete =>
    have hck' : φ.ckpt = true := hexp
    cases hl
    simp only [Phase.next, hck', if_true] at hnext
    refine .of_next hnext hle rfl hwhen rfl (fun _ => hsched ?_) (fun hon => hwhen ▸ htick hon) hrep
      h.synced le_rfl
    rw [hw]
    nofun

/-- The packet was sent in the period that ends with the next periodic barrier after `ds`. -/
structure InPeriod (ds : List Decision) (x : Desc) : Prop where
  on : (plan ds).on = true
  synced : (plan ds).synced = true
  sent : (plan ds).syncWhen < x.sendTick + (plan ds).period

/-- A packet that is sent between two barriers and arrives at a process that has left as many, or is
about to, is received after the tick of the next barrier there. -/
theorem Follows.arrives (h : Follows ds p) {e linkDelay : ℕ} {x : Desc}
    (hx : InPeriod (ds.take e) x) (he : e ≤ ds.length)
    (hp : e = p.passed ∨ e = p.passed + 1) (hdelay : (plan (ds.take e)).period ≤ linkDelay) :
    p.syncWhen < recvTick linkDelay x ∧ p.curTick < recvTick linkDelay x
      ∧ (p.syncRepeat ≤ p.syncWhen → p.syncWhen - p.syncRepeat < x.sendTick) := by
  obtain ⟨hon, hsynced, hsent⟩ := hx
  rcases hp with rfl | rfl
  · have hrep := h.syncRepeat hon hsynced
    have htick := h.tick hon
    rw [← h.syncWhen, ← hrep] at hsent
    rw [← hrep] at hdelay
    unfold recvTick
    exact ⟨by omega, by omega, fun _ => by omega⟩
  · obtain ⟨d, hd⟩ : ∃ d, ds[p.passed]? = some d := ⟨ds[p.passed], List.getElem?_eq_getElem _⟩
    have hnext := plan_take_succ hd
    have hwhen := h.syncWhen
    have htick := h.tick
    have hrep := h.syncRepeat
    rw [hnext] at hon hsynced hsent hdelay
    set φ := plan (ds.take p.passed) with hφ
    unfold Phase.next at hon hsynced hsent hdelay
    unfold recvTick
    split_ifs at hon hsynced hsent hdelay with hck hφon hex hst
    · have hrep := hrep hon hsynced
      have htick := htick hon
      simp only at hsent hdelay
      exact ⟨by omega, by omega, fun _ => by omega⟩
    · have htick := htick hφon
      simp only at hsent hdelay
      exact ⟨by omega, by omega, fun _ => by omega⟩

end DistNet

end Gem5
