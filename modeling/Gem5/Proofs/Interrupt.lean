import Gem5.Interrupt

/-!
# No interrupt is lost

Whatever may clear a cause or a mask bit ends in `chkInterrupt`, which makes the line right from any
state in which it is asserted only along with `int_assert` (`Wired`). A write of the PCI command
register does not, so what was not posted while interrupts were disabled is not when they are
enabled again.
-/

namespace Gem5

namespace Intr

open Machine

variable {ns : ℕ} {b : Bool} {s s' : Intr}

theorem and_ne_zero_of_or {w : ℕ} {a m : BitVec w} (b : BitVec w) (h : a &&& m ≠ 0) :
    (a ||| b) &&& m ≠ 0 := by
  intro h0
  refine h (BitVec.eq_of_getLsbD_eq fun i hi => ?_)
  have hb := congrArg (·.getLsbD i) h0
  simp only [BitVec.getLsbD_and, BitVec.getLsbD_or, BitVec.ofNat_eq_ofNat, BitVec.getLsbD_zero,
    Bool.and_eq_false_iff, Bool.or_eq_false_iff] at hb ⊢
  exact hb.imp_left And.left

/-- The line is asserted only along with `int_assert`, and the throttling event is not overdue. The
interrupt-disable bit is `b`. -/
structure Wired (b : Bool) (s : Intr) : Prop where
  disabled : s.interruptDisable = b
  wired : s.line = true → s.icr &&& intAssert ≠ 0
  due : ∀ t ∈ s.interEvent, s.curTick ≤ t

/-- The line is asserted only for an unmasked cause. -/
structure Asserted (b : Bool) (s : Intr) : Prop extends Wired b s where
  asserted : s.line = true → s.Pending

structure IntrInv (b : Bool) (s : Intr) : Prop extends Asserted b s where
  posted : b = false → s.Pending → s.line = true ∨ s.interEvent.isSome

theorem init_inv : IntrInv false init where
  disabled := rfl
  wired := by decide
  due := by decide
  asserted := by decide
  posted := by decide

theorem cpuPostInt_line (he : s.interruptDisable = false) (hp : s.Pending) :
    s.cpuPostInt.line = true := by
  simp [cpuPostInt, he, hp]

theorem Asserted.cpuPostInt (hs : Asserted b s) : IntrInv b s.cpuPostInt := by
  unfold Intr.cpuPostInt
  split_ifs with hd hp
  · exact { hs with
      posted := fun hb => by
        rw [hs.disabled, hb] at hd
        cases hd }
  · exact {
      disabled := hs.disabled
      wired := fun _ => by
        show (s.icr ||| s.delayed ||| intAssert) &&& intAssert ≠ 0
        rw [BitVec.or_comm]
        exact and_ne_zero_of_or _ (by decide)
      due := fun t ht => by simp at ht
      asserted := fun _ => and_ne_zero_of_or _ (and_ne_zero_of_or _ hp)
      posted := fun _ _ => .inl rfl }
  · exact { hs with posted := fun _ h => absurd h hp }

theorem schedInter_cases {t : ℕ} (h : s.schedInter t = .ok s') :
    (s.interEvent.isSome ∧ s' = s) ∨ (s.curTick ≤ t ∧ s' = { s with interEvent := some t }) := by
  unfold schedInter at h
  split_ifs at h with hi
  · cases h
    exact .inl ⟨hi, rfl⟩
  · simp only [bind_ok, schedule_ok] at h
    obtain ⟨e, ⟨hle, -, rfl⟩, h⟩ := h
    exact .inr ⟨hle, (Except.ok.inj h).symm⟩

theorem Asserted.schedInter (hs : Asserted b s) {t : ℕ} (h : s.schedInter t = .ok s') :
    IntrInv b s' := by
  rcases schedInter_cases h with ⟨hi, rfl⟩ | ⟨hle, rfl⟩
  · exact { hs with posted := fun _ _ => .inr hi }
  · exact { hs with
      due := fun u hu => by
        obtain rfl := Option.some.inj hu
        exact hle
      posted := fun _ _ => .inr rfl }

theorem postInterrupt_cases {t : BitVec 32} {now : Bool} (h : s.postInterrupt ns t now = .ok s') :
    s' = s
      ∨ s' = cpuPostInt { s with icr := s.icr ||| t, interEvent := none }
      ∨ schedInter { s with icr := s.icr ||| t } (s.intTime ns) = .ok s' := by
  simp only [postInterrupt, bind_ok, require_ok] at h
  obtain ⟨_, -, h⟩ := h
  split_ifs at h with h1 h2
  · exact .inl (Except.ok.inj h).symm
  · exact .inr (.inl (Except.ok.inj h).symm)
  · obtain ⟨_, -, h⟩ := bind_ok.1 h
    exact .inr (.inr h)

theorem postInterrupt_ok {t : BitVec 32} (ht : t ≠ 0) (now : Bool) :
    ∃ s', s.postInterrupt ns t now = .ok s' := by
  unfold postInterrupt
  rw [require, if_pos ht]
  simp only [bind, Except.bind]
  split
  · exact ⟨_, rfl⟩
  · split
    · exact ⟨_, rfl⟩
    · rename_i hlate
      have hlt : s.curTick < intTime ns { s with icr := s.icr ||| t } := by
        by_contra hle
        exact hlate (.inr (.inr (not_lt.1 hle)))
      rw [require, if_pos (by omega)]
      simp only [schedInter]
      split
      · exact ⟨_, rfl⟩
      · rename_i he
        have he : s.interEvent = none := by simpa using he
        exact ⟨_, bind_ok.2 ⟨_, schedule_ok.2 ⟨hlt.le, he, rfl⟩, rfl⟩⟩

theorem IntrInv.postInterrupt (hs : IntrInv b s) {t : BitVec 32} {now : Bool}
    (h : s.postInterrupt ns t now = .ok s') : IntrInv b s' := by
  have hor : Asserted b { s with icr := s.icr ||| t } :=
    { hs with
      wired := fun hl => and_ne_zero_of_or _ (hs.wired hl)
      asserted := fun hl => and_ne_zero_of_or _ (hs.asserted hl) }
  rcases postInterrupt_cases h with rfl | rfl | h
  · exact hs
  · exact Asserted.cpuPostInt { hor with due := fun t ht => by simp at ht }
  · exact hor.schedInter h

theorem Wired.clearUnlessPending (hs : Wired b s) : Asserted b s.clearUnlessPending := by
  unfold Intr.clearUnlessPending
  split_ifs with hp
  · exact { hs with asserted := fun _ => hp }
  · unfold cpuClearInt
    split_ifs with ha
    · exact {
        disabled := hs.disabled
        wired := fun hl => by simp at hl
        due := fun t ht => by simp at ht
        asserted := fun hl => by simp at hl }
    · exact {
        disabled := hs.disabled
        wired := hs.wired
        due := fun t ht => by simp at ht
        asserted := fun hl => absurd (hs.wired hl) ha }

theorem Wired.chkInterrupt (hs : Wired b s) (h : s.chkInterrupt ns = .ok s') : IntrInv b s' := by
  have hc := hs.clearUnlessPending
  simp only [Intr.chkInterrupt] at h
  split_ifs at h with hp hi
  · cases h
    exact hc.cpuPostInt
  · exact hc.schedInter h
  · cases h
    exact { hc with posted := fun _ h => absurd h hp }

theorem and_and_intAssert {m : BitVec 32} (hm : intAssert &&& m = intAssert) {icr : BitVec 32} :
    (icr &&& m) &&& intAssert = icr &&& intAssert := by
  rw [BitVec.and_assoc, BitVec.and_comm m, hm]

theorem intAssert_and_not_low (val : BitVec 32) :
    intAssert &&& ~~~(val &&& 0x7fffffff#32) = intAssert := by
  refine BitVec.eq_of_getLsbD_eq fun i hi => ?_
  simp only [BitVec.getLsbD_and, BitVec.getLsbD_not, hi, decide_true, Bool.true_and]
  have hlow : ∀ i < 32, intAssert.getLsbD i = true → (0x7fffffff#32).getLsbD i = false := by decide
  rcases hb : intAssert.getLsbD i with _ | _
  · rfl
  · simp [hlow i hi hb]

theorem IntrInv.readICR (hs : IntrInv b s) (h : s.readICR ns = .ok s') : IntrInv b s' := by
  refine Wired.chkInterrupt ?_ h
  refine { hs with wired := fun hl => ?_ }
  have hw := hs.wired hl
  simp only [hw, ne_eq, not_false_eq_true, true_or, if_true]
  rwa [and_and_intAssert (by decide)]

theorem IntrInv.writeICR (hs : IntrInv b s) {val : BitVec 32} (h : s.writeICR ns val = .ok s') :
    IntrInv b s' := by
  refine Wired.chkInterrupt ?_ h
  refine { hs with wired := fun hl => ?_ }
  show (~~~(val &&& 0x7fffffff#32) &&& s.icr) &&& intAssert ≠ 0
  rw [BitVec.and_comm (~~~_), and_and_intAssert (intAssert_and_not_low val)]
  exact hs.wired hl

theorem IntrInv.setEvent (hs : IntrInv b s) (e : Option ℕ) : ∀ t, IntrInv b (s.setEvent e t)
  | .rdtr | .radv | .tadv | .tidv => { hs with }

theorem startTimer_ok (delay : ℕ) {t : Timer} (ht : t ≠ .rdtr) :
    ∃ s', s.startTimer delay t = .ok s' := by
  cases t with
  | rdtr => exact absurd rfl ht
  | tidv => exact ⟨_, bind_ok.2 ⟨_, reschedule_ok.2 ⟨Nat.le_add_right _ _, .inl rfl, rfl⟩, rfl⟩⟩
  | radv =>
    simp only [startTimer]
    split_ifs with he
    · exact ⟨_, rfl⟩
    · have he : s.radvEvent = none := by simpa using he
      exact ⟨_, bind_ok.2 ⟨_, schedule_ok.2 ⟨Nat.le_add_right _ _, he, rfl⟩, rfl⟩⟩
  | tadv =>
    simp only [startTimer]
    split_ifs with he
    · exact ⟨_, rfl⟩
    · have he : s.tadvEvent = none := by simpa using he
      exact ⟨_, bind_ok.2 ⟨_, schedule_ok.2 ⟨Nat.le_add_right _ _, he, rfl⟩, rfl⟩⟩

theorem startTimerIf_ok {b : Prop} [Decidable b] (delay : ℕ) {t : Timer} (ht : b → t ≠ .rdtr) :
    ∃ s', s.startTimerIf b delay t = .ok s' := by
  unfold startTimerIf
  split_ifs with hb
  · exact startTimer_ok delay (ht hb)
  · exact ⟨s, rfl⟩

theorem startTimer_cases {delay : ℕ} {t : Timer} (h : s.startTimer delay t = .ok s') :
    s' = s ∨ s' = s.setEvent (some (s.curTick + delay)) t := by
  cases t with
  | rdtr | tidv =>
    simp only [startTimer, bind_ok, reschedule_ok] at h
    obtain ⟨e, ⟨-, -, rfl⟩, h⟩ := h
    exact .inr (Except.ok.inj h).symm
  | radv | tadv =>
    simp only [startTimer] at h
    split_ifs at h
    · exact .inl (Except.ok.inj h).symm
    · simp only [bind_ok, schedule_ok] at h
      obtain ⟨e, ⟨-, -, rfl⟩, h⟩ := h
      exact .inr (Except.ok.inj h).symm

theorem IntrInv.step (hs : IntrInv b s) {o : Op} (ho : s.ClearsPosted o)
    (h : s.step ns o = .ok s') : IntrInv (o.disables b) s' := by
  cases o with
  | postInterrupt t now | writeICS val => exact hs.postInterrupt h
  | readICR => exact hs.readICR h
  | writeICR val => exact hs.writeICR h
  | writeITR val | writeIAM val | writeCtrlExt val =>
    cases h
    exact { hs with }
  | writeIMS val => exact Wired.chkInterrupt (s := { s with imr := s.imr ||| val }) { hs with } h
  | writeIMC val => exact Wired.chkInterrupt (s := { s with imr := s.imr &&& ~~~val }) { hs with } h
  | writeCommand d =>
    cases h
    exact { hs with
      disabled := rfl
      posted := fun hd => ho (congrArg Op.writeCommand hd) }
  | startTimer delay t =>
    rcases startTimer_cases h with rfl | rfl
    · exact hs
    · exact hs.setEvent _ t
  | fireInter =>
    simp only [Intr.step, fireInter] at h
    split_ifs at h
    cases h
    exact Asserted.cpuPostInt { hs with due := fun t ht => by simp at ht }
  | fireTimer t =>
    simp only [Intr.step, fireTimer] at h
    split_ifs at h
    exact (hs.setEvent none t).postInterrupt h
  | advance tick =>
    simp only [Intr.step, advance] at h
    split_ifs at h with ha
    cases h
    exact { hs with due := fun t ht => ha.2 _ (by simp) t ht }

theorem IntrInv.posts (hs : IntrInv false s) (hp : s.Pending) :
    s.line = true ∨ ∃ t, s.interEvent = some t ∧ s.curTick ≤ t
      ∧ ∃ s', Intr.step ns { s with curTick := t } .fireInter = .ok s' ∧ s'.line = true := by
  refine (hs.posted rfl hp).imp_right fun hi => ?_
  obtain ⟨t, ht⟩ := Option.isSome_iff_exists.1 hi
  refine ⟨t, ht, hs.due t ht, _, if_pos ht, ?_⟩
  exact cpuPostInt_line hs.disabled hp

theorem IntrInv.run {ops : List Op} (hops : ∀ o ∈ ops, o ≠ .writeCommand true)
    (h : run (Intr.step ns) init ops = .ok s) : IntrInv false s := by
  refine Admits.inv (I := IntrInv false) (C := fun _ o => o ≠ .writeCommand true)
    (fun s o s' hs ho hst => ?_) (admits_of_forall (fun _ _ ho => ho) hops) init_inv h
  have hs' := hs.step (fun _ => hs.posted rfl) hst
  have hbit : o.disables false = false := by
    rcases o with _ | _ | _ | _ | _ | _ | _ | _ | _ | ⟨_ | _⟩ <;> first | rfl | exact absurd rfl ho
  rwa [hbit] at hs'

/-- While interrupts are not disabled, an unmasked cause has the line asserted, or the throttling
event scheduled for a tick to come, at which it will assert the line, and the line is asserted only
for an unmasked cause. -/
theorem pending_posted {ops : List Op} (hops : ∀ o ∈ ops, o ≠ .writeCommand true) {s : Intr}
    (h : run (step ns) init ops = .ok s) :
    (s.Pending → s.line = true ∨ ∃ t, s.interEvent = some t ∧ s.curTick ≤ t
        ∧ ∃ s', step ns { s with curTick := t } .fireInter = .ok s' ∧ s'.line = true)
      ∧ (s.line = true → s.Pending) := by
  have hs := IntrInv.run hops h
  exact ⟨hs.posts, hs.asserted⟩

/-- Two causes within the throttling interval: the first is acknowledged, the second waits. -/
def throttledOps : List Op :=
  [.writeITR 10, .writeIMS 0x81, .advance 5000000, .postInterrupt txdw false, .readICR,
    .postInterrupt rxt0 false]

theorem pending_posted_throttledOps : ∃ s, run (step 1000) init throttledOps = .ok s
    ∧ (s.line = false ∧ s.Pending)
    ∧ (s.Pending → s.line = true ∨ ∃ t, s.interEvent = some t ∧ s.curTick ≤ t
        ∧ ∃ s', step 1000 { s with curTick := t } .fireInter = .ok s' ∧ s'.line = true)
    ∧ (s.line = true → s.Pending) := by
  have hend : Ends (run (step 1000) init throttledOps)
      fun s => s.line = false ∧ s.Pending := by decide
  obtain ⟨s, hs, hp⟩ := hend.exists
  have hops : ∀ o ∈ throttledOps, o ≠ .writeCommand true := by decide
  exact ⟨s, hs, hp, pending_posted hops hs⟩

/-- Interrupts are disabled and enabled again while no cause is pending, and a packet comes in. -/
def enabledOps : List Op :=
  [.writeIMS rxt0, .writeCommand true, .writeCommand false, .postInterrupt rxt0 false]

end Intr

end Gem5
