import Gem5.Proofs.Interrupt

/-!
# Interrupts are throttled

An interrupt that is not immediate comes from `interEvent`, or at once if the interval since the last one is
over. The event is never scheduled for a tick within that interval, and an interrupt of any kind deschedules
it. So such an interrupt is an interval behind all others before it.
-/

namespace Gem5

namespace Intr

open Machine

variable {ns : ℕ} {s s' : Intr} {now : Bool}

/-- A step leaves the line as it is or lowers it, and schedules the event only behind the interval. Or it
asserts the line: then the event is not scheduled, and the interval is over unless it is immediate. -/
def Outcome (ns : ℕ) (s : Intr) (now : Bool) (s' : Intr) : Prop :=
  s'.itr = s.itr ∧
  (((s'.line = true → s.line = true) ∧ s'.lastInterrupt = s.lastInterrupt ∧ s.curTick ≤ s'.curTick ∧
      ∀ t, s'.interEvent = some t → s.interEvent = some t ∨ s.intTime ns ≤ t) ∨
    (s'.line = true ∧ s'.lastInterrupt = s.curTick ∧ s'.curTick = s.curTick ∧ s'.interEvent = none ∧
      (now = false → s.intTime ns ≤ s.curTick)))

namespace Outcome

theorem refl : Outcome ns s now s :=
  ⟨rfl, .inl ⟨id, rfl, le_rfl, fun _ => .inl⟩⟩

theorem cpuPostInt (hnow : now = false → s.intTime ns ≤ s.curTick) :
    Outcome ns s now s.cpuPostInt := by
  unfold Intr.cpuPostInt
  split_ifs
  · exact refl
  · exact ⟨rfl, .inr ⟨rfl, rfl, rfl, rfl, hnow⟩⟩
  · exact refl

theorem cpuPostInt_desched (hnow : now = false → s.intTime ns ≤ s.curTick) :
    Outcome ns s now { s with interEvent := none }.cpuPostInt := by
  rcases cpuPostInt (s := { s with interEvent := none }) hnow with ⟨hitr, h | h⟩
  · obtain ⟨hline, hlast, htick, hevent⟩ := h
    refine ⟨hitr, .inl ⟨hline, hlast, htick, fun t ht => .inr ?_⟩⟩
    rcases hevent t ht with h | h
    · cases h
    · exact h
  · exact ⟨hitr, .inr h⟩

theorem schedInter {t : ℕ} (ht : s.intTime ns ≤ t) (h : s.schedInter t = .ok s') :
    Outcome ns s now s' := by
  rcases schedInter_cases h with ⟨-, rfl⟩ | ⟨-, rfl⟩
  · exact refl
  · refine ⟨rfl, .inl ⟨id, rfl, le_rfl, ?_⟩⟩
    rintro _ ⟨⟩
    exact .inr ht

theorem intTime_le (hlast : s.lastInterrupt ≤ s.curTick) (h : s.interval = 0) :
    s.intTime ns ≤ s.curTick := by
  rwa [intTime, h, Nat.mul_zero]

theorem postInterrupt (hlast : s.lastInterrupt ≤ s.curTick) {t : BitVec 32}
    (h : s.postInterrupt ns t now = .ok s') : Outcome ns s now s' := by
  simp only [Intr.postInterrupt, bind_ok, require_ok] at h
  obtain ⟨_, -, h⟩ := h
  split_ifs at h with hpending hnow
  · cases h
    exact refl
  · cases h
    refine cpuPostInt_desched (s := { s with icr := s.icr ||| t }) fun hn => ?_
    rcases hnow with hzero | hnow | hover
    · exact intTime_le hlast hzero
    · simp [hn] at hnow
    · exact hover
  · obtain ⟨_, -, h⟩ := bind_ok.1 h
    exact schedInter (s := { s with icr := s.icr ||| t }) le_rfl h

theorem of_cleared {c : Intr} (hitr : c.itr = s.itr) (hline : c.line = true → s.line = true)
    (hlast : c.lastInterrupt = s.lastInterrupt) (htick : c.curTick = s.curTick)
    (hevent : c.interEvent = none ∨ c.interEvent = s.interEvent) (h : Outcome ns c now s') :
    Outcome ns s now s' := by
  have htime : c.intTime ns = s.intTime ns := by rw [intTime, intTime, interval, interval, hitr, hlast]
  obtain ⟨hitr', ⟨hl, hlast', hle, he⟩ | ⟨hl, hlast', htick', he, hover⟩⟩ := h
  · refine ⟨hitr'.trans hitr, .inl ⟨fun h => hline (hl h), hlast'.trans hlast, htick ▸ hle,
      fun t ht => ?_⟩⟩
    rcases he t ht with he | he
    · rcases hevent with hnone | hsame
      · simp [hnone] at he
      · exact .inl (hsame ▸ he)
    · exact .inr (htime ▸ he)
  · exact ⟨hitr'.trans hitr, .inr ⟨hl, hlast'.trans htick, htick'.trans htick, he,
      fun hn => htime ▸ htick ▸ hover hn⟩⟩

theorem chkInterrupt (hlast : s.lastInterrupt ≤ s.curTick) (h : s.chkInterrupt ns = .ok s') :
    Outcome ns s now s' := by
  have hclear : s.clearUnlessPending.itr = s.itr ∧
      (s.clearUnlessPending.line = true → s.line = true) ∧
      s.clearUnlessPending.lastInterrupt = s.lastInterrupt ∧
      s.clearUnlessPending.curTick = s.curTick ∧
      (s.clearUnlessPending.interEvent = none ∨ s.clearUnlessPending.interEvent = s.interEvent) := by
    unfold clearUnlessPending cpuClearInt
    split_ifs
    · exact ⟨rfl, id, rfl, rfl, .inr rfl⟩
    · exact ⟨rfl, (fun h => by cases h), rfl, rfl, .inl rfl⟩
    · exact ⟨rfl, id, rfl, rfl, .inl rfl⟩
  obtain ⟨hitr, hline, hlast', htick, hevent⟩ := hclear
  refine of_cleared hitr hline hlast' htick hevent ?_
  unfold Intr.chkInterrupt at h
  simp only at h
  split_ifs at h with hp hzero
  · cases h
    exact cpuPostInt fun _ => intTime_le (by rw [hlast', htick]; exact hlast) hzero
  · refine schedInter ?_ h
    rw [intTime, hlast', htick]
    exact Nat.add_le_add_right hlast _
  · cases h
    exact refl

theorem chkInterrupt_regs (hlast : s.lastInterrupt ≤ s.curTick) {icr imr : BitVec 32}
    (h : Intr.chkInterrupt ns { s with icr := icr, imr := imr } = .ok s') : Outcome ns s now s' :=
  chkInterrupt (s := { s with icr := icr, imr := imr }) hlast h

theorem startTimer {delay : ℕ} {t : Timer} (h : s.startTimer delay t = .ok s') :
    Outcome ns s now s' := by
  rcases startTimer_cases h with rfl | rfl
  · exact refl
  · cases t <;> exact refl (s := s)

theorem fireTimer (hlast : s.lastInterrupt ≤ s.curTick) {t : Timer}
    (h : s.fireTimer ns t = .ok s') : Outcome ns s false s' := by
  unfold Intr.fireTimer at h
  split_ifs at h
  cases t with
  | rdtr => exact postInterrupt (s := { s with rdtrEvent := none }) hlast h
  | radv => exact postInterrupt (s := { s with radvEvent := none }) hlast h
  | tadv => exact postInterrupt (s := { s with tadvEvent := none }) hlast h
  | tidv => exact postInterrupt (s := { s with tidvEvent := none }) hlast h

end Outcome

theorem step_outcome {o : Op} (hlast : s.lastInterrupt ≤ s.curTick)
    (hlate : ∀ t, s.interEvent = some t → s.intTime ns ≤ t) (ho : ∀ val, o ≠ .writeITR val)
    (h : s.step ns o = .ok s') : Outcome ns s o.immediate s' := by
  cases o with
  | postInterrupt t now | writeICS val => exact Outcome.postInterrupt hlast h
  | readICR | writeICR val | writeIMS val | writeIMC val => exact Outcome.chkInterrupt_regs hlast h
  | writeITR val => exact absurd rfl (ho val)
  | writeIAM val | writeCtrlExt val | writeCommand d =>
    cases h
    exact Outcome.refl (s := s)
  | startTimer delay t => exact Outcome.startTimer h
  | fireInter =>
    simp only [step, fireInter] at h
    split_ifs at h with hdue
    cases h
    exact Outcome.cpuPostInt_desched fun _ => hlate _ hdue
  | fireTimer t => exact Outcome.fireTimer hlast h
  | advance tick =>
    simp only [step, advance] at h
    split_ifs at h with hadv
    cases h
    exact ⟨rfl, .inl ⟨id, rfl, hadv.1, fun _ => .inl⟩⟩

/-! ## The line is not read -/

theorem cpuPostInt_line_eq (a : Bool) :
    ∃ b, cpuPostInt { s with line := a } = { s.cpuPostInt with line := b } := by
  unfold cpuPostInt Pending
  simp only
  split_ifs <;> exact ⟨_, rfl⟩

theorem clearUnlessPending_line_eq (a : Bool) :
    ∃ b, clearUnlessPending { s with line := a } = { s.clearUnlessPending with line := b } := by
  unfold clearUnlessPending cpuClearInt Pending
  simp only
  split_ifs <;> exact ⟨_, rfl⟩

theorem schedInter_line_eq (a : Bool) {t : ℕ} (h : s.schedInter t = .ok s') :
    schedInter { s with line := a } t = .ok { s' with line := a } := by
  unfold schedInter at h ⊢
  simp only
  split_ifs at h ⊢
  · cases h
    rfl
  · obtain ⟨e, he, rfl⟩ := bind_pure_ok.1 h
    rw [he]
    rfl

theorem postInterrupt_line_eq (a : Bool) {t : BitVec 32} (h : s.postInterrupt ns t now = .ok s') :
    ∃ b, postInterrupt ns { s with line := a } t now = .ok { s' with line := b } := by
  unfold postInterrupt intTime interval at h ⊢
  obtain ⟨_, ht, h⟩ := bind_ok.1 h
  simp only [ht, ok_bind] at h ⊢
  split_ifs at h ⊢
  · cases h
    exact ⟨_, rfl⟩
  · cases h
    obtain ⟨b, hb⟩ :=
      cpuPostInt_line_eq (s := { s with icr := s.icr ||| t, interEvent := none }) a
    exact ⟨b, congrArg _ hb⟩
  · obtain ⟨_, hpos, h⟩ := bind_ok.1 h
    refine ⟨a, ?_⟩
    rw [hpos, ok_bind]
    exact schedInter_line_eq a h

theorem chkInterrupt_line_eq (a : Bool) (h : s.chkInterrupt ns = .ok s') :
    ∃ b, chkInterrupt ns { s with line := a } = .ok { s' with line := b } := by
  obtain ⟨b, hb⟩ := clearUnlessPending_line_eq (s := s) a
  unfold chkInterrupt at h ⊢
  rw [hb]
  simp only at h ⊢
  generalize s.clearUnlessPending = c at h ⊢
  by_cases hp : c.Pending
  · have hp' : Pending { c with line := b } := hp
    rw [if_pos hp] at h
    rw [if_pos hp']
    by_cases hzero : c.interval = 0
    · have hzero' : interval { c with line := b } = 0 := hzero
      rw [if_pos hzero] at h
      cases h
      obtain ⟨b', hb'⟩ := cpuPostInt_line_eq (s := c) b
      exact ⟨b', by rw [if_pos hzero', hb']⟩
    · have hzero' : ¬interval { c with line := b } = 0 := hzero
      rw [if_neg hzero] at h
      exact ⟨b, by rw [if_neg hzero']; exact schedInter_line_eq b h⟩
  · have hp' : ¬Pending { c with line := b } := hp
    rw [if_neg hp] at h
    cases h
    exact ⟨b, by rw [if_neg hp']⟩

theorem startTimer_line_eq (a : Bool) {delay : ℕ} {t : Timer} (h : s.startTimer delay t = .ok s') :
    startTimer { s with line := a } delay t = .ok { s' with line := a } := by
  cases t with
  | rdtr | tidv =>
    obtain ⟨e, he, rfl⟩ := bind_pure_ok.1 h
    simp only [startTimer, he, ok_bind]
    rfl
  | radv | tadv =>
    unfold startTimer at h ⊢
    simp only at h ⊢
    split_ifs at h ⊢
    · cases h
      rfl
    · obtain ⟨e, he, rfl⟩ := bind_pure_ok.1 h
      rw [he]
      rfl

theorem fireTimer_line_eq (a : Bool) {t : Timer} (h : s.fireTimer ns t = .ok s') :
    ∃ b, fireTimer ns { s with line := a } t = .ok { s' with line := b } := by
  unfold fireTimer at h
  split_ifs at h with hdue
  obtain ⟨b, hb⟩ := postInterrupt_line_eq a h
  have hset : setEvent { s with line := a } none t = { s.setEvent none t with line := a } := by
    cases t <;> rfl
  have hdue' : event { s with line := a } t = some s.curTick := by
    rw [← hdue]
    cases t <;> rfl
  exact ⟨b, by rw [fireTimer, if_pos hdue', hset, hb]⟩

theorem step_line_eq (a : Bool) {o : Op} (h : s.step ns o = .ok s') :
    ∃ b, step ns { s with line := a } o = .ok { s' with line := b } := by
  cases o with
  | postInterrupt t now | writeICS val => exact postInterrupt_line_eq a h
  | readICR | writeICR val => exact chkInterrupt_line_eq (s := { s with icr := _, imr := _ }) a h
  | writeITR val | writeIAM val | writeCtrlExt val | writeCommand d =>
    cases h
    exact ⟨a, rfl⟩
  | writeIMS val => exact chkInterrupt_line_eq (s := { s with imr := s.imr ||| val }) a h
  | writeIMC val => exact chkInterrupt_line_eq (s := { s with imr := s.imr &&& ~~~val }) a h
  | startTimer delay t => exact ⟨a, startTimer_line_eq a h⟩
  | fireInter =>
    simp only [step, fireInter] at h ⊢
    split_ifs at h ⊢
    cases h
    obtain ⟨b, hb⟩ := cpuPostInt_line_eq (s := { s with interEvent := none }) a
    exact ⟨b, congrArg _ hb⟩
  | fireTimer t => exact fireTimer_line_eq a h
  | advance tick =>
    simp only [step, advance] at h ⊢
    split_ifs at h ⊢
    cases h
    exact ⟨a, rfl⟩

end Intr

namespace IntrLog

open Machine Intr

/-- The event and a later interrupt are an interval behind the last one, which is the last assertion. -/
structure Throttled (ns : ℕ) (itr : BitVec 32) (u : IntrLog) : Prop where
  itr_eq : u.intr.itr = itr
  last_le : u.intr.lastInterrupt ≤ u.intr.curTick
  late : ∀ t, u.intr.interEvent = some t → u.intr.intTime ns ≤ t
  before : ∀ x ∈ u.asserted, x.1 ≤ u.intr.lastInterrupt
  apart : u.asserted.Pairwise fun x y =>
    y.2 = false → x.1 + ns * 256 * (itr.toNat % 2 ^ 16) ≤ y.1

variable {ns : ℕ} {itr : BitVec 32} {u u' : IntrLog}

theorem Throttled.step (hu : u.Throttled ns itr) {o : Op} (ho : ∀ val, o ≠ .writeITR val)
    (h : u.step ns o = .ok u') : u'.Throttled ns itr := by
  obtain ⟨s', hs', h⟩ := bind_ok.1 h
  obtain ⟨b, hb⟩ := step_line_eq false hs'
  have hasserts : u.intr.asserts ns o = b := by rw [asserts, hb]
  have hout : Outcome ns { u.intr with line := false } o.immediate { s' with line := b } :=
    step_outcome hu.last_le hu.late ho hb
  rw [hasserts] at h
  obtain ⟨hitr, ⟨hline, hlast, htick, hevent⟩ | ⟨hline, hlast, htick, hevent, hover⟩⟩ := hout
  · obtain rfl : b = false := by
      cases b with
      | false => rfl
      | true => cases hline rfl
    cases h
    simp only at hitr hlast htick hevent
    refine ⟨hitr.trans hu.itr_eq, ?_, fun t ht => ?_, fun x hx => ?_, hu.apart⟩
    · rw [hlast]
      exact hu.last_le.trans htick
    · have htime : s'.intTime ns = u.intr.intTime ns := by
        rw [intTime, intTime, interval, interval, hitr, hlast]
      rw [htime]
      rcases hevent t ht with he | hle
      · exact hu.late t he
      · exact hle
    · rw [hlast]
      exact hu.before x hx
  · obtain rfl : b = true := hline
    cases h
    simp only at hitr hlast htick hevent
    refine ⟨hitr.trans hu.itr_eq, ?_, fun t ht => ?_, fun x hx => ?_, ?_⟩
    · rw [hlast, htick]
    · simp [hevent] at ht
    · rw [hlast]
      rcases List.mem_append.1 hx with hx | hx
      · exact (hu.before x hx).trans hu.last_le
      · rw [List.mem_singleton.1 hx]
    · refine List.pairwise_append.2 ⟨hu.apart, List.pairwise_singleton _ _, fun x hx y hy hn => ?_⟩
      rw [List.mem_singleton.1 hy] at hn ⊢
      have hle := hover hn
      have hx := hu.before x hx
      simp only [intTime, interval, hu.itr_eq] at hle
      omega

/-- With a constant interval, an assertion of the line that is not immediate is at least an interval behind
every assertion before it. -/
theorem interrupts_apart {ops : List Op} (hops : ∀ o ∈ ops, ∀ val, o ≠ .writeITR val)
    (hrun : run (IntrLog.step ns) ⟨{ init with itr := itr }, []⟩ ops = .ok u) :
    u.asserted.Pairwise fun x y => y.2 = false → x.1 + ns * 256 * (itr.toNat % 2 ^ 16) ≤ y.1 := by
  have hinit : Throttled ns itr ⟨{ init with itr := itr }, []⟩ :=
    ⟨rfl, le_rfl, (fun t h => by cases h), (fun x h => by cases h), .nil⟩
  exact (Admits.inv (C := fun _ o => ∀ val, o ≠ .writeITR val) (fun _ _ _ hu ho h => hu.step ho h)
    (admits_of_forall (fun _ _ h => h) hops) hinit hrun).apart

/-- A cause within the interval of the first one waits for its end, and an immediate one does not. -/
def burstOps : List Op :=
  [.writeIMS 0x91, .advance 512, .postInterrupt txdw false, .writeICR 0xff, .advance 600,
    .postInterrupt rxt0 false, .advance 1024, .fireInter, .readICR, .postInterrupt rxdmt true]

theorem interrupts_apart_burstOps :
    ∃ u, run (IntrLog.step 1) ⟨{ init with itr := 2 }, []⟩ burstOps = .ok u ∧
      u.asserted = [(512, false), (1024, false), (1024, true)] ∧
      u.asserted.Pairwise fun x y => y.2 = false → x.1 + 1 * 256 * (2 % 2 ^ 16) ≤ y.1 := by
  obtain ⟨u, hrun, hlog⟩ : ∃ u, run (IntrLog.step 1) ⟨{ init with itr := 2 }, []⟩ burstOps = .ok u ∧
      u.asserted = [(512, false), (1024, false), (1024, true)] := ⟨_, rfl, rfl⟩
  exact ⟨u, hrun, hlog, interrupts_apart (by simp [burstOps]) hrun⟩

end IntrLog

end Gem5
