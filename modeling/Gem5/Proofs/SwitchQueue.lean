import Gem5.EtherSwitch

/-!
# The output queue of a switch port

The size that is recorded is that of the queue as long as no port sends two frames in one tick. The
event is scheduled exactly when there is a frame, as long as a frame that is too long for the queue
does not get to its head.
-/

namespace Gem5

open Machine List

namespace EtherSwitch

def occupied (l : List PortFifoEntry) : ℕ := (l.map (·.frame.packet.length)).sum

@[simp] theorem occupied_nil : occupied [] = 0 := rfl

@[simp] theorem occupied_cons (e : PortFifoEntry) (l : List PortFifoEntry) :
    occupied (e :: l) = e.frame.packet.length + occupied l := by
  simp [occupied]

@[simp] theorem occupied_append (l l' : List PortFifoEntry) :
    occupied (l ++ l') = occupied l + occupied l' := by
  simp [occupied]

theorem occupied_reverse (l : List PortFifoEntry) : occupied l.reverse = occupied l := by
  simp [occupied]

/-! ## Dropping from the end -/

namespace PortFifo

theorem overfull_iff {maxsize size : BitVec 32} (hmax : maxsize.toNat < 2 ^ 31)
    (hsize : size.toNat ≤ 2 ^ 31 + maxsize.toNat) :
    overfull maxsize size = true ↔ maxsize.toNat < size.toNat := by
  have hlt := size.isLt
  rw [overfull, BitVec.ofNat_eq_ofNat, BitVec.slt_zero_iff_msb_cond, BitVec.msb_eq_decide,
    BitVec.toNat_sub]
  simp only [decide_eq_true_eq]
  omega

/-- What is left is within the capacity, and it is nothing only if the first frame alone is not. The list
is reversed here. -/
theorem dropExtra_spec {maxsize : BitVec 32} (hmax : maxsize.toNat < 2 ^ 31) :
    ∀ {l : List PortFifoEntry} {size : BitVec 32}, size.toNat = occupied l →
      size.toNat ≤ 2 ^ 31 + maxsize.toNat →
      ∃ size' l', dropExtra maxsize size l = .ok (size', l') ∧ l' <:+ l ∧
        size'.toNat = occupied l' ∧ size'.toNat ≤ maxsize.toNat ∧
        ∀ e, l.getLast? = some e → (l' = [] ↔ maxsize.toNat < e.frame.packet.length)
  | [], size, hsize, hle => by
    have hfull : ¬overfull maxsize size = true := by
      rw [overfull_iff hmax hle, hsize]
      simp
    refine ⟨size, [], ?_, suffix_rfl, hsize, ?_, ?_⟩
    · rw [dropExtra, if_neg hfull]
    · rw [hsize]
      exact Nat.zero_le _
    · rintro e ⟨⟩
  | x :: l, size, hsize, hle => by
    rw [occupied_cons] at hsize
    by_cases hfull : overfull maxsize size = true
    · have hlen : x.length.toNat = x.frame.packet.length := by
        have := size.isLt
        rw [PortFifoEntry.length, BitVec.toNat_ofNat, Nat.mod_eq_of_lt (by omega)]
      have hsub : (size - x.length).toNat = occupied l := by
        rw [BitVec.toNat_sub_of_le (by rw [BitVec.le_def]; omega)]
        omega
      obtain ⟨size', l', hdrop, hsuf, hsize', hle', hlast⟩ :=
        dropExtra_spec hmax hsub (by omega)
      refine ⟨size', l', ?_, hsuf.trans (suffix_cons _ _), hsize', hle', fun e he => ?_⟩
      · rw [dropExtra, if_pos hfull, hdrop]
      · cases l with
        | nil =>
          obtain rfl : x = e := Option.some.inj he
          rw [suffix_nil.1 hsuf]
          rw [overfull_iff hmax hle, hsize] at hfull
          simpa using hfull
        | cons y l => exact hlast e (by rwa [getLast?_cons_cons] at he)
    · refine ⟨size, x :: l, ?_, suffix_rfl, by rw [hsize, occupied_cons], ?_, fun e he => ?_⟩
      · rw [dropExtra, if_neg hfull]
      · rw [overfull_iff hmax hle] at hfull
        omega
      · have hmem := mem_of_getLast? he
        have hsum : e.frame.packet.length ≤ occupied (x :: l) :=
          single_le_sum (by simp) _ (mem_map_of_mem hmem)
        rw [overfull_iff hmax hle] at hfull
        rw [occupied_cons] at hsum
        simp only [reduceCtorEq, false_iff]
        omega

/-! ## Putting a frame in its place -/

theorem emplace_spec {e : PortFifoEntry} : ∀ {l : List PortFifoEntry},
    (∀ x ∈ l, ¬(x.recvTick = e.recvTick ∧ x.srcId = e.srcId)) →
    ∃ l₁ l₂, l = l₁ ++ l₂ ∧ emplace e l = l₁ ++ e :: l₂ ∧ (l₁ = [] → ∀ x ∈ l.head?, e.before x = true)
  | [], _ => ⟨[], [], rfl, rfl, fun _ x hx => by cases hx⟩
  | x :: l, hne => by
    by_cases hbefore : e.before x = true
    · refine ⟨[], x :: l, rfl, ?_, fun _ y hy => ?_⟩
      · rw [emplace, if_pos hbefore]
        rfl
      · cases hy
        exact hbefore
    · have hafter : x.before e = true := by
        have hx := hne x mem_cons_self
        unfold PortFifoEntry.before at hbefore ⊢
        by_cases htick : e.recvTick = x.recvTick
        · simp only [htick, if_true, decide_eq_true_eq] at hbefore ⊢
          have hid : x.srcId ≠ e.srcId := fun h => hx ⟨htick.symm, h⟩
          omega
        · have htick' : ¬x.recvTick = e.recvTick := fun h => htick h.symm
          simp only [htick, if_false, decide_eq_true_eq] at hbefore
          simp only [htick', if_false, decide_eq_true_eq]
          omega
      obtain ⟨l₁, l₂, hl, hemp, -⟩ := emplace_spec fun y hy => hne y (mem_cons_of_mem _ hy)
      refine ⟨x :: l₁, l₂, by rw [hl]; rfl, ?_, fun h => by cases h⟩
      rw [emplace, if_neg hbefore, if_pos hafter, hemp]
      rfl

/-- The recorded size is that of the frames and within the capacity, which is not negative as an `int`. -/
structure Accounted (q : PortFifo) : Prop where
  capacity : q.maxsize.toNat < 2 ^ 31
  size_eq : q.size.toNat = occupied q.fifo
  size_le : q.size.toNat ≤ q.maxsize.toNat
  nonempty : ∀ e ∈ q.fifo, 0 < e.frame.packet.length

/-- The frame is not of length 0 and not so long that the free space wraps to a positive number; no frame of
its port came in this tick; and if it is longer than the whole queue, it does not go before another. -/
def Takes (q : PortFifo) (curTick : ℕ) (f : Frame) (senderId : ℕ) : Prop :=
  0 < f.packet.length ∧ f.packet.length ≤ 2 ^ 31 + (q.maxsize.toNat - q.size.toNat) ∧
  (∀ e ∈ q.fifo, ¬(e.recvTick = curTick ∧ e.srcId = senderId)) ∧
  (q.maxsize.toNat < f.packet.length →
    ∀ e ∈ q.fifo.head?, ¬PortFifoEntry.before ⟨f, curTick, senderId⟩ e = true)

instance (q : PortFifo) (curTick : ℕ) (f : Frame) (senderId : ℕ) :
    Decidable (q.Takes curTick f senderId) :=
  inferInstanceAs (Decidable (_ ∧ _ ∧ _ ∧ _))

namespace Accounted

variable {q : PortFifo}

theorem length_le (hq : q.Accounted) {e : PortFifoEntry} (he : e ∈ q.fifo) :
    e.frame.packet.length ≤ q.size.toNat := by
  rw [hq.size_eq]
  exact single_le_sum (by simp) _ (mem_map_of_mem he)

theorem empty_iff (hq : q.Accounted) : q.empty = true ↔ q.fifo = [] := by
  rw [PortFifo.empty, decide_eq_true_eq, ← BitVec.toNat_inj]
  constructor
  · intro h
    cases hf : q.fifo with
    | nil => rfl
    | cons e l =>
      have hle := hq.length_le (e := e) (by rw [hf]; exact mem_cons_self)
      have hpos := hq.nonempty e (by rw [hf]; exact mem_cons_self)
      rw [h, BitVec.ofNat_eq_ofNat, BitVec.toNat_ofNat, Nat.zero_mod] at hle
      omega
  · intro h
    rw [hq.size_eq, h]
    rfl

/-- A queue that takes a frame is empty afterwards only if it was, and then the frame is dropped. The frame
is the head of a queue that was empty. -/
theorem push (hq : q.Accounted) {curTick senderId : ℕ} {f : Frame}
    (ht : q.Takes curTick f senderId) : ∃ q' atHead, q.push curTick f senderId = .ok (q', atHead) ∧
      q'.Accounted ∧ q'.maxsize = q.maxsize ∧ (q'.fifo = [] → q.fifo = [] ∧ atHead = false) ∧
      (q'.fifo ≠ [] → q.fifo = [] → atHead = true) := by
  obtain ⟨hpos, hlen, hnew, hhead⟩ := ht
  have hcap := hq.capacity
  have hle := hq.size_le
  have hlength : PortFifoEntry.length ⟨f, curTick, senderId⟩ = BitVec.ofNat 32 f.packet.length := rfl
  have hnat : (BitVec.ofNat 32 f.packet.length).toNat = f.packet.length := by
    rw [BitVec.toNat_ofNat, Nat.mod_eq_of_lt (by omega)]
  have hne : BitVec.ofNat 32 f.packet.length ≠ 0 := by
    intro h
    rw [h] at hnat
    simp at hnat
    omega
  have hsum : (q.size + BitVec.ofNat 32 f.packet.length).toNat = q.size.toNat + f.packet.length := by
    rw [BitVec.toNat_add, hnat, Nat.mod_eq_of_lt (by omega)]
  obtain ⟨l₁, l₂, hl, hemp, hfirst⟩ := emplace_spec (e := ⟨f, curTick, senderId⟩) hnew
  have hocc : (q.size + BitVec.ofNat 32 f.packet.length).toNat =
      occupied (emplace ⟨f, curTick, senderId⟩ q.fifo).reverse := by
    rw [hsum, occupied_reverse, hemp, hq.size_eq, hl]
    simp only [occupied_append, occupied_cons]
    omega
  obtain ⟨size', l', hdrop, hsuf, hsize', hle', hlast⟩ := dropExtra_spec hcap hocc (by omega)
  have hbefore : l'.reverse <+: l₁ ++ ⟨f, curTick, senderId⟩ :: l₂ := by
    rwa [← hemp, ← reverse_suffix, reverse_reverse]
  have hacc : Accounted { q with fifo := l'.reverse, size := size' } := by
    refine ⟨hcap, by rw [hsize', occupied_reverse], hle', fun e he => ?_⟩
    rcases mem_append.1 (hbefore.subset he) with he | he
    · exact hq.nonempty e (by rw [hl]; exact mem_append_left _ he)
    · rcases mem_cons.1 he with rfl | he
      · exact hpos
      · exact hq.nonempty e (by rw [hl]; exact mem_append_right _ he)
  -- the first frame is the new one or the old first, which fits
  have hnil : l'.reverse = [] → q.fifo = [] := by
    intro h
    rw [reverse_eq_nil_iff] at h
    cases l₁ with
    | nil =>
      have hlong := (hlast ⟨f, curTick, senderId⟩ (by rw [hemp, getLast?_reverse]; rfl)).1 h
      cases hf : q.fifo with
      | nil => rfl
      | cons x l =>
        exact absurd (hfirst rfl x (by rw [hf]; rfl)) (hhead hlong x (by rw [hf]; rfl))
    | cons x l₁ =>
      have hlong := (hlast x (by rw [hemp, getLast?_reverse]; rfl)).1 h
      have hx := hq.length_le (e := x) (by rw [hl]; exact mem_cons_self)
      omega
  simp only [PortFifo.push, hlength, require_of hne, ok_bind, hdrop]
  cases hr : l'.reverse with
  | nil =>
    rw [hr] at hacc
    refine ⟨_, false, ?_, hacc, rfl, fun _ => ⟨hnil hr, rfl⟩, fun h => absurd rfl h⟩
    rw [if_pos (hacc.empty_iff.2 rfl)]
    rfl
  | cons y l =>
    rw [hr] at hacc
    have hempty : ¬PortFifo.empty { q with fifo := y :: l, size := size' } = true := by
      rw [hacc.empty_iff]
      simp
    refine ⟨_, decide (y.frame.ptr = f.ptr), ?_, hacc, rfl, (fun h => by cases h), fun _ h => ?_⟩
    · rw [if_neg hempty]
      rfl
    · rw [h] at hl
      obtain ⟨rfl, rfl⟩ := append_eq_nil_iff.1 hl.symm
      rw [hr] at hbefore
      have hy : y = ⟨f, curTick, senderId⟩ := (cons_prefix_cons.1 hbefore).1
      simp [hy]

theorem pop (hq : q.Accounted) {e : PortFifoEntry} {l : List PortFifoEntry} (hf : q.fifo = e :: l) :
    ∃ q', q.pop = .ok q' ∧ q'.Accounted ∧ q'.maxsize = q.maxsize ∧ q'.fifo = l := by
  have hmem : e ∈ q.fifo := by
    rw [hf]
    exact mem_cons_self
  have hcap := hq.capacity
  have hle := hq.size_le
  have hlen := hq.length_le hmem
  have hsize := hq.size_eq
  have hne : ¬q.empty = true := by
    rw [hq.empty_iff, hf]
    simp
  have hnat : e.length.toNat = e.frame.packet.length := by
    rw [PortFifoEntry.length, BitVec.toNat_ofNat, Nat.mod_eq_of_lt (by omega)]
  have hfits : e.length ≤ q.size := by
    rw [BitVec.le_def]
    omega
  refine ⟨{ q with fifo := l, size := q.size - e.length }, ?_, ⟨hcap, ?_, ?_, ?_⟩, rfl, rfl⟩
  · rw [PortFifo.pop, if_neg hne, hf]
    simp only [require_of hfits, ok_bind]
    rfl
  · rw [hf, occupied_cons] at hsize
    change (q.size - e.length).toNat = occupied l
    rw [BitVec.toNat_sub_of_le hfits]
    omega
  · change (q.size - e.length).toNat ≤ q.maxsize.toNat
    rw [BitVec.toNat_sub_of_le hfits]
    omega
  · intro x hx
    exact hq.nonempty x (by rw [hf]; exact mem_cons_of_mem _ hx)

end Accounted

end PortFifo

/-! ## The port in use -/

namespace PortUse

/-- The accounts of the queue are right, and the event is scheduled exactly when it has a frame. -/
structure Inv (max : BitVec 32) (u : PortUse) : Prop where
  accounted : u.port.outputFifo.Accounted
  maxsize : u.port.outputFifo.maxsize = max
  event : u.port.txEvent.isSome = true ↔ u.port.outputFifo.fifo ≠ []
  ahead : ∀ t, u.port.txEvent = some t → u.curTick ≤ t

def Takes (u : PortUse) : Op → Prop
  | .enqueue f senderId _ => u.port.outputFifo.Takes u.curTick f senderId
  | _ => True

instance (u : PortUse) : DecidablePred u.Takes
  | .enqueue f senderId _ =>
    inferInstanceAs (Decidable (u.port.outputFifo.Takes u.curTick f senderId))
  | .txEvent _ _ => .isTrue trivial
  | .advance _ => .isTrue trivial

variable {u u' : PortUse} {max : BitVec 32}

namespace Inv

theorem enqueue (hu : u.Inv max) {f : Frame} {senderId : ℕ}
    (ht : u.port.outputFifo.Takes u.curTick f senderId) (delay : ℕ) :
    ∃ u', step u (.enqueue f senderId delay) = .ok u' ∧ u'.Inv max := by
  obtain ⟨q', atHead, hpush, hq', hmax, hnil, hsome⟩ := hu.accounted.push ht
  cases atHead with
  | true =>
    have htx : txAfterPush u.curTick u.port.txEvent delay true = .ok (some (u.curTick + delay)) :=
      reschedule_ok.2 ⟨Nat.le_add_right _ _, .inl rfl, rfl⟩
    refine ⟨⟨⟨q', some (u.curTick + delay)⟩, u.curTick⟩, ?_, hq', hmax.trans hu.maxsize, ?_, ?_⟩
    · simp only [step, Interface.enqueue, hpush, ok_bind, htx]
      rfl
    · simp only [Option.isSome_some, true_iff]
      intro h
      cases (hnil h).2
    · rintro _ ⟨⟩
      exact Nat.le_add_right _ _
  | false =>
    refine ⟨⟨⟨q', u.port.txEvent⟩, u.curTick⟩, ?_, hq', hmax.trans hu.maxsize, ?_, hu.ahead⟩
    · simp only [step, Interface.enqueue, hpush, ok_bind]
      rfl
    · refine hu.event.trans ⟨fun h hq => h (hnil hq).1, fun h hq => ?_⟩
      cases hsome h hq

theorem txEvent (hu : u.Inv max) (hdue : u.port.txEvent = some u.curTick) (accepted : Bool)
    (delay : ℕ) : u.port.outputFifo.fifo ≠ [] ∧
      ∃ u', step u (.txEvent accepted delay) = .ok u' ∧ u'.Inv max := by
  have hne : u.port.outputFifo.fifo ≠ [] := hu.event.1 (by rw [hdue]; rfl)
  have hempty : u.port.outputFifo.empty = false := by
    rw [Bool.eq_false_iff]
    exact fun h => hne (hu.accounted.empty_iff.1 h)
  refine ⟨hne, ?_⟩
  obtain ⟨e, l, hf⟩ := exists_cons_of_ne_nil hne
  cases accepted with
  | false =>
    have htx : txAfterBusy u.curTick none = .ok (some (u.curTick + ns)) :=
      schedule_ok.2 ⟨Nat.le_add_right _ _, rfl, rfl⟩
    refine ⟨⟨⟨u.port.outputFifo, some (u.curTick + ns)⟩, u.curTick⟩, ?_, hu.accounted, hu.maxsize,
      ⟨fun _ => hne, fun _ => rfl⟩, ?_⟩
    · simp only [step, hdue, if_true, Interface.transmit, require_of hempty, ok_bind, hf, htx]
      rfl
    · rintro _ ⟨⟩
      exact Nat.le_add_right _ _
  | true =>
    obtain ⟨q', hpop, hq', hmax, hl⟩ := hu.accounted.pop hf
    cases l with
    | nil =>
      have htx : txAfterSend u.curTick none delay q' = .ok none := by
        rw [txAfterSend, if_pos (hq'.empty_iff.2 hl)]
      refine ⟨⟨⟨q', none⟩, u.curTick⟩, ?_, hq', hmax.trans hu.maxsize, ?_, fun t h => by cases h⟩
      · simp only [step, hdue, if_true, Interface.transmit, require_of hempty, ok_bind, hf, hpop, htx]
        rfl
      · simp [hl]
    | cons x l =>
      have hq'ne : ¬q'.empty = true := by
        rw [hq'.empty_iff, hl]
        simp
      have htx : txAfterSend u.curTick none delay q' = .ok (some (u.curTick + delay)) := by
        rw [txAfterSend, if_neg hq'ne]
        exact schedule_ok.2 ⟨Nat.le_add_right _ _, rfl, rfl⟩
      refine ⟨⟨⟨q', some (u.curTick + delay)⟩, u.curTick⟩, ?_, hq', hmax.trans hu.maxsize, ?_, ?_⟩
      · simp only [step, hdue, if_true, Interface.transmit, require_of hempty, ok_bind, hf, hpop, htx]
        rfl
      · simp [hl]
      · rintro _ ⟨⟩
        exact Nat.le_add_right _ _

end Inv

theorem step_inv {o : Op} (hu : u.Inv max) (ho : u.Takes o) (h : step u o = .ok u') : u'.Inv max := by
  cases o with
  | enqueue f senderId delay =>
    obtain ⟨u₁, h₁, hu₁⟩ := hu.enqueue ho delay
    obtain rfl := Except.ok.inj (h₁.symm.trans h)
    exact hu₁
  | txEvent accepted delay =>
    by_cases hdue : u.port.txEvent = some u.curTick
    · obtain ⟨-, u₁, h₁, hu₁⟩ := hu.txEvent hdue accepted delay
      obtain rfl := Except.ok.inj (h₁.symm.trans h)
      exact hu₁
    · simp only [step, hdue, if_false] at h
      cases h
  | advance tick =>
    simp only [step] at h
    split_ifs at h with hadv
    cases h
    exact { hu with ahead := hadv.2 }

theorem init_inv (hmax : max.toNat < 2 ^ 31) : (init max).Inv max where
  accounted := ⟨hmax, rfl, Nat.zero_le _, by simp [init]⟩
  maxsize := rfl
  event := by simp [init]
  ahead := by rintro t ⟨⟩

def frameOf (ptr length : ℕ) : Frame := ⟨ptr, ⟨List.replicate length 0, length, length⟩⟩

/-- Three ports send at the same tick and the last frame is too long for the rest, then one is sent. -/
def threePorts : List Op :=
  [.enqueue (frameOf 1 3) 1 5, .enqueue (frameOf 2 4) 0 5, .enqueue (frameOf 3 9) 2 5, .advance 5,
    .txEvent true 5]

end PortUse

/-! ## The ports of a switch -/

section Switch

variable {s : EtherSwitch} {i : ℕ} {p : Interface}

end Switch

end EtherSwitch

end Gem5
