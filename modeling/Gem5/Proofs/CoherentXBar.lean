import Gem5.CoherentXBar

/-!
# Which caches a prefetch hint reaches

Only the first cache that a packet is shown to sees the mark of a hint: the one behind the first
listed port other than the source, or, if there is none, behind the port that the crossbar then takes
from `snoopPorts`.
-/

namespace Gem5

open Machine

namespace CoherentXBar

variable {x : CoherentXBar} {pkt : Packet} {d : ℕ} {src : Option ℕ} {dests : List ℕ}

/-- The port of the first cache that the packet is shown to is `d`. -/
def ShownFirst (x : CoherentXBar) (d : ℕ) (src : Option ℕ) (dests : List ℕ) : Prop :=
  match dests.filter fun p => src ≠ some p with
  | [] => x.snoopPorts[d]? = some d
  | p :: _ => p = d

instance : Decidable (x.ShownFirst d src dests) := by
  unfold ShownFirst
  split <;> infer_instance

theorem sendTimingSnoopReq_unmarked {s : Snoop} (h : s.pkt.isPrefetchHintPkt = false) (p : ℕ) :
    x.sendTimingSnoopReq s p = s := by
  rw [sendTimingSnoopReq, h, if_neg Bool.false_ne_true]

theorem forwardEach_unmarked (x : CoherentXBar) (src : Option ℕ) (mlcId : ℤ) :
    ∀ (ps : List ℕ) (s : Snoop), s.pkt.isPrefetchHintPkt = false →
      (x.forwardEach src mlcId ps s).notified = s.notified ∧
      (x.forwardEach src mlcId ps s).pkt = s.pkt ∧
      (s.find = true → (x.forwardEach src mlcId ps s).find = true)
  | [], _, _ => ⟨rfl, rfl, id⟩
  | p :: ps, s, h => by
    rw [forwardEach]
    split_ifs
    · simp only [sendTimingSnoopReq_unmarked h]
      have ih := forwardEach_unmarked x src mlcId ps { s with
        fanout := s.fanout + 1
        find := s.find || decide (mlcId = p) } h
      exact ⟨ih.1, ih.2.1, fun hfind => ih.2.2 (by rw [hfind, Bool.true_or])⟩
    · exact forwardEach_unmarked x src mlcId ps s h

theorem forwardEach_marked (x : CoherentXBar) (src : Option ℕ) (mlcId : ℤ) :
    ∀ (ps : List ℕ) (s : Snoop), s.pkt.isPrefetchHintPkt = true →
      (ps.filter (fun p => src ≠ some p) = [] ∧ x.forwardEach src mlcId ps s = s) ∨
      ∃ p rest, ps.filter (fun p => src ≠ some p) = p :: rest ∧
        (x.forwardEach src mlcId ps s).pkt.isPrefetchHintPkt = false ∧
        (x.forwardEach src mlcId ps s).notified = (x.sendTimingSnoopReq s p).notified ∧
        (mlcId = p → (x.forwardEach src mlcId ps s).find = true)
  | [], _, _ => .inl ⟨rfl, rfl⟩
  | p :: ps, s, h => by
    rw [forwardEach]
    by_cases hp : src = some p
    · rw [if_neg (not_not.2 hp), List.filter_cons_of_neg (by simpa using hp)]
      exact forwardEach_marked x src mlcId ps s h
    · have hoff : (x.sendTimingSnoopReq s p).pkt.isPrefetchHintPkt = false := by
        rw [sendTimingSnoopReq, if_pos h]
      rw [if_pos hp, List.filter_cons_of_pos (by simpa using hp)]
      refine .inr ⟨p, _, rfl, ?_⟩
      obtain ⟨hn, hpkt, hfind⟩ := forwardEach_unmarked x src mlcId ps
        { x.sendTimingSnoopReq s p with
          fanout := (x.sendTimingSnoopReq s p).fanout + 1
          find := (x.sendTimingSnoopReq s p).find || decide (mlcId = p) } hoff
      refine ⟨by rw [hpkt]; exact hoff, hn, fun hid => hfind ?_⟩
      rw [decide_eq_true hid, Bool.or_true]

def Numbered (x : CoherentXBar) (d : ℕ) : Prop := ∀ p, x.mlcIdx p = d ↔ p = d

theorem notified_iff (hd : x.Numbered d) (hmark : pkt.isPrefetchHintPkt = true)
    (hdest : pkt.ddioPrefetchDestination = d) (p : ℕ) :
    (x.sendTimingSnoopReq { pkt } p).notified = [d] ↔ p = d := by
  rw [sendTimingSnoopReq, if_pos hmark, hdest]
  constructor
  · intro h
    by_contra hp
    rw [if_neg fun heq => hp ((hd p).1 heq.symm)] at h
    cases h
  · rintro rfl
    rw [if_pos ((hd p).2 rfl).symm]
    rfl

theorem forwardTiming_iff (hd : x.Numbered d) (hmark : pkt.isPrefetchHintPkt = true)
    (hdest : pkt.ddioPrefetchDestination = d) :
    Ends (x.forwardTiming pkt src dests) (fun s => s.notified = [d]) ↔ x.ShownFirst d src dests := by
  have hpos : decide (-1 < pkt.ddioPrefetchDestination) = true := by
    rw [hdest]
    exact decide_eq_true (by omega)
  have hidx : pkt.ddioPrefetchDestination.toNat = d := by rw [hdest, Int.toNat_natCast]
  unfold forwardTiming ShownFirst
  simp only [hpos, Bool.and_true, hidx]
  rcases forwardEach_marked x src pkt.ddioPrefetchDestination dests { pkt } hmark with
    ⟨hnil, hsame⟩ | ⟨p, rest, hcons, hoff, hnot, hid⟩
  · rw [hnil, hsame]
    simp only [Bool.not_false, if_true]
    cases x.snoopPorts[d]? with
    | none => simp [Ends]
    | some p =>
      simp only [Ends, Option.some.injEq]
      exact notified_iff hd hmark hdest p
  · rw [hcons]
    simp only
    split_ifs with hfind
    · -- Nobody that is shown the packet after the first can be notified.
      have hp : p ≠ d := by
        rintro rfl
        simp [hid hdest] at hfind
      have hno : (x.sendTimingSnoopReq { pkt } p).notified ≠ [d] := fun h =>
        hp ((notified_iff hd hmark hdest p).1 h)
      cases x.snoopPorts[d]? with
      | none => simpa [Ends] using hp
      | some q => simpa only [Ends, sendTimingSnoopReq_unmarked hoff, hnot, hp, iff_false] using hno
    · simp only [Ends, hnot]
      exact notified_iff hd hmark hdest p

/-- A hint for the cache behind port `d` notifies that cache and no other, once, exactly when the first
cache that is shown the packet is that one. This is so for every list of ports that a request or a snoop is
forwarded to, and so for the lists of the snoop filter. -/
theorem hint_delivered_iff (hd : x.Numbered d) (hmark : pkt.isPrefetchHintPkt = true)
    (hdest : pkt.ddioPrefetchDestination = d) :
    (∀ src dests, src ≠ some d → (Ends (x.forwardTiming pkt src dests) (fun s => s.notified = [d]) ↔
      x.ShownFirst d src dests)) ∧
    (∀ f port, port ≠ d → pkt.cmd ≠ .writeClean →
      (Ends (x.snoopRequest (some f) pkt port) (fun s => s.notified = [d]) ↔
        Ends (f.lookupRequest pkt port) fun r => x.ShownFirst d (some port) r.2)) ∧
    ∀ f, Ends (x.snoopFromBelow (some f) pkt) (fun s => s.notified = [d]) ↔
      Ends (f.lookupSnoop pkt) fun r => x.ShownFirst d none r.2 := by
  refine ⟨fun src dests _ => forwardTiming_iff hd hmark hdest, fun f port _ hcmd => ?_, fun f => ?_⟩
  · rw [snoopRequest, if_neg hcmd]
    cases f.lookupRequest pkt port with
    | error e => exact Iff.rfl
    | ok r =>
      simp only [ok_bind, hmark, Bool.not_true, Bool.and_false, Bool.false_eq_true, if_false]
      exact forwardTiming_iff hd hmark hdest
  · rw [snoopFromBelow]
    cases f.lookupSnoop pkt with
    | error e => exact Iff.rfl
    | ok r => exact forwardTiming_iff hd hmark hdest

def threeCaches : CoherentXBar := ⟨[true, true, true], fun p => p⟩

def hintPacket : Packet :=
  { Packet.ofRequest ⟨0, 64, {}, 0, 0, 0, 0⟩ .writebackDirty with
    isPrefetchHintPkt := true
    ddioPrefetchDestination := 1 }

theorem hint_delivered_iff_hintPacket :
    Ends (threeCaches.forwardTiming hintPacket (some 0) [0, 1, 2]) fun s => s.notified = [1] :=
  have hd : threeCaches.Numbered 1 := fun p => by simp [threeCaches]
  ((hint_delivered_iff hd (show hintPacket.isPrefetchHintPkt = true from rfl) rfl).1
    (some 0) [0, 1, 2] (by decide)).2 (by decide)

/-- Cache 2 is shown the packet before cache 1. And if port 0 is not snooping and the filter has no port,
the packet goes to port 2. -/
theorem hint_lost :
    (Ends (threeCaches.forwardTiming hintPacket (some 0) [2, 1]) fun s => s.notified = []) ∧
    Ends (CoherentXBar.forwardTiming ⟨[false, true, true], fun p => p⟩ hintPacket (some 0) []) fun s =>
      s.notified = [] := by
  decide


end CoherentXBar

end Gem5
