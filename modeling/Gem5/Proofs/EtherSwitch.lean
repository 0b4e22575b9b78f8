import Gem5.EtherSwitch

/-!
# What the Ethernet switch has learned

As long as no station is heard on another port than the one its entry has, an entry is the last frame
from its address, and an address without one has not been heard for the time to live (`Learned`). A
station that moves keeps its old port.
-/

namespace Gem5

open Machine

namespace EtherSwitch

variable {s s' : EtherSwitch} {port : ℕ} {f : Frame} {delays : List ℕ}

theorem lastFrom_snoc (frames : List Arrival) (x : Arrival) (m : ℕ) :
    lastFrom (frames ++ [x]) m = if x.src = m then some x else lastFrom frames m := by
  unfold lastFrom
  split_ifs with h <;> simp [List.filter_append, h]

/-- An entry is the last frame from its address, and an address without one has not been heard for
the time to live. -/
structure Learned (table : ℕ → Option SwitchTableEntry) (frames : List Arrival) (curTick ttl : ℕ) :
    Prop where
  known : ∀ m e, table m = some e → lastFrom frames m = some ⟨e.lastUseTime, e.interface, m⟩
  heard : ∀ m a, lastFrom frames m = some a → a.tick ≤ curTick
    ∧ (table m = some ⟨a.port, a.tick⟩ ∨ ttl < curTick - a.tick)

namespace Learned

variable {table : ℕ → Option SwitchTableEntry} {frames : List Arrival} {curTick ttl : ℕ}

theorem note (h : Learned table frames curTick ttl) (port src : ℕ) :
    Learned (fun m => if m = src then some ⟨port, curTick⟩ else table m)
      (frames ++ [⟨curTick, port, src⟩]) curTick ttl := by
  refine ⟨fun m e he => ?_, fun m a ha => ?_⟩
  · rw [lastFrom_snoc]
    by_cases hm : m = src
    · subst hm
      rw [if_pos rfl] at he ⊢
      cases he
      rfl
    · rw [if_neg hm] at he
      rw [if_neg (fun h => hm h.symm)]
      exact h.known m e he
  · rw [lastFrom_snoc] at ha
    split_ifs at ha with h₁
    · cases ha
      exact ⟨le_rfl, .inl (if_pos h₁.symm)⟩
    · obtain ⟨hle, ht⟩ := h.heard m a ha
      rw [if_neg (fun h => h₁ h.symm)]
      exact ⟨hle, ht⟩

theorem expire (h : Learned table frames curTick ttl) {dst : ℕ} {e : SwitchTableEntry}
    (he : table dst = some e) (ht : ttl < curTick - e.lastUseTime) :
    Learned (fun m => if m = dst then none else table m) frames curTick ttl := by
  refine ⟨fun m e' he' => ?_, fun m a ha => ?_⟩
  · split_ifs at he'
    exact h.known m e' he'
  · obtain ⟨hle, hm⟩ := h.heard m a ha
    refine ⟨hle, ?_⟩
    split_ifs with hd
    · subst hd
      have := h.known m e he
      rw [ha] at this
      cases this
      exact .inr ht
    · exact hm

theorem advance (h : Learned table frames curTick ttl) {tick : ℕ} (ht : curTick ≤ tick) :
    Learned table frames tick ttl := by
  refine ⟨h.known, fun m a ha => ?_⟩
  obtain ⟨hle, hm⟩ := h.heard m a ha
  exact ⟨hle.trans ht, hm.imp_right fun hlt => by omega⟩

end Learned

/-! ## The table -/

def table (s : EtherSwitch) (m : ℕ) : Option SwitchTableEntry := s.forwardingTable.lookup m

def SameBut (s s' : EtherSwitch) : Prop :=
  s'.ttl = s.ttl ∧ s'.interfaces = s.interfaces ∧ s'.curTick = s.curTick ∧ s'.frames = s.frames

theorem learn_same (a : EthAddr) (port : ℕ) : SameBut s (s.learnSenderAddr a port) := by
  unfold learnSenderAddr
  split <;> exact ⟨rfl, rfl, rfl, rfl⟩

/-- The port that the table has for an address once it was heard on the given one. -/
def portFor (s : EtherSwitch) (m port : ℕ) : ℕ := ((s.table m).map (·.interface)).getD port

theorem learn_table (a : EthAddr) (port : ℕ) :
    (s.learnSenderAddr a port).table
      = fun m => if m = a.toNat then some ⟨s.portFor m port, s.curTick⟩ else s.table m := by
  funext m
  unfold learnSenderAddr
  split
  · rename_i he
    split_ifs with hm
    · have hport : s.portFor a.toNat port = port := by rw [portFor, table, he]; rfl
      rw [hm, hport]
      exact Finmap.lookup_insert _
    · exact Finmap.lookup_insert_of_ne _ hm
  · rename_i e he
    split_ifs with hm
    · have hport : s.portFor a.toNat port = e.interface := by rw [portFor, table, he]; rfl
      rw [hm, hport]
      exact Finmap.lookup_insert _
    · exact Finmap.lookup_insert_of_ne _ hm

theorem learn_table_of_settled {a : EthAddr}
    (h : ∀ e, s.table a.toNat = some e → e.interface = port) :
    (s.learnSenderAddr a port).table
      = fun m => if m = a.toNat then some ⟨port, s.curTick⟩ else s.table m := by
  have hport : s.portFor a.toNat port = port := by
    rw [portFor]
    cases he : s.table a.toNat with
    | none => rfl
    | some e => exact h e he
  rw [learn_table]
  funext m
  split_ifs with hm
  · rw [hm, hport]
  · rfl

theorem lookupDestPort_cases (s : EtherSwitch) (a : EthAddr) :
    (s.table a.toNat = none ∧ s.lookupDestPort a = (s, none))
      ∨ (∃ e, s.table a.toNat = some e ∧ s.ttl < s.curTick - e.lastUseTime
        ∧ ∃ s', s.lookupDestPort a = (s', none) ∧ SameBut s s'
          ∧ s'.table = fun m => if m = a.toNat then none else s.table m)
      ∨ ∃ e, s.table a.toNat = some e ∧ s.curTick - e.lastUseTime ≤ s.ttl
        ∧ s.lookupDestPort a = (s, some e.interface) := by
  unfold lookupDestPort
  split
  · rename_i he
    exact .inl ⟨he, rfl⟩
  · rename_i e he
    split_ifs with ht
    · refine .inr (.inl ⟨e, he, ht, _, rfl, ⟨rfl, rfl, rfl, rfl⟩, ?_⟩)
      funext m
      split_ifs with hm
      · rw [hm]
        exact Finmap.lookup_erase _ _
      · exact Finmap.lookup_erase_ne hm
    · exact .inr (.inr ⟨e, he, not_lt.1 ht, rfl⟩)

theorem SameBut.trans {u v : EtherSwitch} (h : SameBut s u) (h' : SameBut u v) : SameBut s v :=
  ⟨h'.1.trans h.1, h'.2.1.trans h.2.1, h'.2.2.1.trans h.2.2.1, h'.2.2.2.trans h.2.2.2⟩

theorem lookupDestPort_same (s : EtherSwitch) (a : EthAddr) : SameBut s (s.lookupDestPort a).1 := by
  obtain ⟨-, hr⟩ | ⟨_, -, -, s', hr, hsame, -⟩ | ⟨_, -, -, hr⟩ := lookupDestPort_cases s a
  · rw [hr]
    exact ⟨rfl, rfl, rfl, rfl⟩
  · rwa [hr]
  · rw [hr]
    exact ⟨rfl, rfl, rfl, rfl⟩

theorem route_fst (s : EtherSwitch) (port : ℕ) (f : Frame) :
    (s.route port f).1 = ((s.learnSenderAddr f.src port).lookupDestPort f.dest).1 := by
  unfold route
  rcases (s.learnSenderAddr f.src port).lookupDestPort f.dest with ⟨u, _ | r⟩
  · rfl
  · dsimp only
    split_ifs <;> rfl

theorem route_same (s : EtherSwitch) (port : ℕ) (f : Frame) : SameBut s (s.route port f).1 := by
  rw [route_fst]
  exact (learn_same f.src port).trans (lookupDestPort_same _ f.dest)

theorem others_of_same {u : EtherSwitch} (h : SameBut s u) (port : ℕ) :
    u.others port = s.others port := by
  rw [others, others, h.2.1]

theorem group_iff (h : 12 ≤ f.packet.length) :
    (f.dest.multicast || f.dest.broadcast) = !f.dest.unicast := by
  have hlen : f.dest.length = 6 := Bytes.length_slice ((show 0 + 6 ≤ 12 by decide).trans h)
  unfold EthAddr.multicast
  cases hu : f.dest.unicast with
  | false => simp
  | true =>
    suffices f.dest.broadcast = false by simp [this]
    match hd : f.dest, hlen with
    | b :: l, _ =>
      rw [hd] at hu
      by_contra hb
      simp only [EthAddr.broadcast, List.all_cons, Bool.not_eq_false, Bool.and_eq_true,
        beq_iff_eq] at hb
      rw [hb.1] at hu
      simp [EthAddr.unicast] at hu

def Current (s : EtherSwitch) : Prop := Learned s.table s.frames s.curTick s.ttl

theorem route_proper (hs : s.Current) (hf : 12 ≤ f.packet.length)
    (h : ∀ e, s.table f.src.toNat = some e → e.interface = port) :
    (s.route port f).2 = s.properPorts port f
      ∧ Learned (s.route port f).1.table (s.frames ++ [⟨s.curTick, port, f.src.toNat⟩])
        s.curTick s.ttl := by
  have hsame := learn_same (s := s) f.src port
  have hnote := Learned.note hs port f.src.toNat
  rw [← learn_table_of_settled h] at hnote
  set u := s.learnSenderAddr f.src port
  obtain ⟨hn, hr⟩ | ⟨e, he, ht, s', hr, hsame', htable⟩ | ⟨e, he, ht, hr⟩ :=
    lookupDestPort_cases u f.dest
  · have hroute : s.route port f = (u, u.others port) := by rw [route, hr]
    rw [hroute]
    refine ⟨?_, hnote⟩
    rw [properPorts, others_of_same hsame]
    split
    · rfl
    · rename_i a ha
      obtain ⟨hle, hm | hlt⟩ := hnote.heard _ _ ha
      · simp [hn] at hm
      · rw [if_neg (by omega)]
  · have hroute : s.route port f = (s', s'.others port) := by rw [route, hr]
    rw [hroute]
    rw [hsame.2.2.1, hsame.1] at ht
    refine ⟨?_, ?_⟩
    · rw [properPorts, hnote.known _ _ he, others_of_same (hsame.trans hsame')]
      exact (if_neg (by simp only; omega)).symm
    · rw [htable]
      exact hnote.expire he ht
  · have hroute : s.route port f
        = (u, if f.dest.unicast then [e.interface] else u.others port) := by
      rw [route, hr]
      simp only [group_iff hf]
      cases f.dest.unicast <;> rfl
    rw [hroute]
    refine ⟨?_, hnote⟩
    rw [hsame.2.2.1, hsame.1] at ht
    rw [properPorts, hnote.known _ _ he, others_of_same hsame]
    simp only [ht, and_true]

/-! ## The queues -/

theorem enqueue_cases {senderId i : ℕ} (h : s.enqueue f senderId delays i = .ok s') :
    ∃ p, s' = { s with interfaces := s.interfaces.set i p } := by
  unfold enqueue at h
  split at h
  · cases h
  · obtain ⟨pushed, -, h⟩ := bind_ok.1 h
    obtain ⟨tx, -, rfl⟩ := bind_pure_ok.1 h
    exact ⟨_, rfl⟩

theorem enqueueAll_cases {senderId : ℕ} : ∀ {l : List ℕ} {s : EtherSwitch},
    enqueueAll f senderId delays s l = .ok s' →
      ∃ ifs : List Interface, s' = { s with interfaces := ifs }
        ∧ ∀ i, i ∉ l → ifs[i]? = s.interfaces[i]?
  | [], s, h => by
    obtain rfl := Except.ok.inj h
    exact ⟨s.interfaces, rfl, fun _ _ => rfl⟩
  | j :: l, s, h => by
    obtain ⟨u, hu, h⟩ := bind_ok.1 h
    obtain ⟨p, rfl⟩ := enqueue_cases hu
    obtain ⟨ifs, rfl, hifs⟩ := enqueueAll_cases h
    refine ⟨ifs, rfl, fun i hi => ?_⟩
    rw [List.mem_cons, not_or] at hi
    rw [hifs i hi.2, List.getElem?_set_ne (Ne.symm hi.1)]

theorem transmit_cases {i delay : ℕ} {accepted : Bool} (h : s.transmit i accepted delay = .ok s') :
    ∃ p, s' = { s with interfaces := s.interfaces.set i p } := by
  unfold transmit at h
  split at h
  · cases h
  · obtain ⟨_, -, h⟩ := bind_ok.1 h
    split at h
    · cases h
    · obtain ⟨tx, -, rfl⟩ := bind_pure_ok.1 h
      exact ⟨_, rfl⟩
    · obtain ⟨q, -, h⟩ := bind_ok.1 h
      obtain ⟨tx, -, rfl⟩ := bind_pure_ok.1 h
      exact ⟨_, rfl⟩

theorem step_current {o : Op} (hs : s.Current) (ho : s.Settled o) (h : s.step o = .ok s') :
    s'.Current := by
  cases o with
  | recvPacket port f delays =>
    simp only [step] at h
    split_ifs at h
    obtain ⟨_, hlen, h⟩ := bind_ok.1 h
    obtain ⟨-, hl⟩ := route_proper hs (inBounds_ok.1 hlen) ho
    have hsame := route_same s port f
    obtain ⟨ifs, rfl, -⟩ := enqueueAll_cases h
    show Learned (s.route port f).1.table _ (s.route port f).1.curTick (s.route port f).1.ttl
    rwa [hsame.1, hsame.2.2.1]
  | txEvent i accepted delay =>
    simp only [step] at h
    split_ifs at h
    obtain ⟨p, rfl⟩ := transmit_cases h
    exact hs
  | advance tick =>
    simp only [step] at h
    split_ifs at h with ht
    cases h
    exact hs.advance ht.1

theorem init_current (ports : ℕ) (outputBufferSize : BitVec 32) (ttl : ℕ) :
    (init ports outputBufferSize ttl).Current := by
  refine ⟨fun m e he => ?_, fun m a ha => ?_⟩
  · simp [table, init, Finmap.lookup_empty] at he
  · cases ha

/-- A frame from the station with the number `src` to the one with the number `dest`. -/
def stationFrame (ptr dest src : ℕ) : Frame :=
  ⟨ptr, ⟨Bytes.toBE 6 (2 * 256 ^ 5 + dest) ++ Bytes.toBE 6 (2 * 256 ^ 5 + src) ++ [0], 13, 13⟩⟩

def farDelays : List ℕ := [500, 500, 500]

def heardOps : List Op := [.recvPacket 0 (stationFrame 0 2 1) farDelays, .advance 50]

/-- Station 1 is not heard for twice the time to live and then on port 1. -/
def movedOps : List Op :=
  [.recvPacket 0 (stationFrame 0 2 1) farDelays, .advance 200,
    .recvPacket 1 (stationFrame 1 2 1) farDelays, .advance 210]

theorem others_nodup (s : EtherSwitch) (port : ℕ) : (s.others port).Nodup :=
  List.nodup_range.filter _

theorem not_mem_others (s : EtherSwitch) (port : ℕ) : port ∉ s.others port := by
  simp [others]

theorem route_ports (s : EtherSwitch) (port : ℕ) (f : Frame) :
    (s.Elsewhere port f ∧ (s.route port f).2 = s.others port)
      ∨ ∃ r, (r ≠ port ↔ s.Elsewhere port f) ∧ (s.route port f).2 = [r] := by
  have hsame := learn_same (s := s) f.src port
  have htable := learn_table (s := s) f.src port
  set u := s.learnSenderAddr f.src port
  by_cases hg : f.dest.multicast = true ∨ f.dest.broadcast = true
  · refine .inl ⟨hg.elim .inl (.inr ∘ .inl), ?_⟩
    have hg' : (f.dest.multicast || f.dest.broadcast) = true := by simpa using hg
    obtain ⟨-, hr⟩ | ⟨_, -, -, s', hr, hsame', -⟩ | ⟨_, -, -, hr⟩ := lookupDestPort_cases u f.dest
    · rw [route, hr]
      exact others_of_same hsame port
    · rw [route, hr]
      exact others_of_same (hsame.trans hsame') port
    · rw [route, hr]
      simp only [hg', if_true]
      exact others_of_same hsame port
  · have hg' : (f.dest.multicast || f.dest.broadcast) = false := by simpa using hg
    rw [not_or] at hg
    rw [Elsewhere, or_iff_right hg.1, or_iff_right hg.2,
      show s.forwardingTable.lookup f.dest.toNat = s.table f.dest.toNat from rfl]
    obtain ⟨hn, hr⟩ | ⟨e, he, ht, s', hr, hsame', -⟩ | ⟨e, he, ht, hr⟩ :=
      lookupDestPort_cases u f.dest
    · left
      rw [htable] at hn
      simp only at hn
      split_ifs at hn with hd
      rw [hn, route, hr]
      exact ⟨hd, others_of_same hsame port⟩
    · left
      rw [htable] at he
      simp only at he
      rw [hsame.2.2.1, hsame.1] at ht
      split_ifs at he with hd
      · cases he
        simp at ht
      · rw [he, route, hr]
        exact ⟨.inr ⟨hd, ht⟩, others_of_same (hsame.trans hsame') port⟩
    · right
      refine ⟨e.interface, ?_, by rw [route, hr]; simp only [hg']; rfl⟩
      rw [htable] at he
      simp only at he
      rw [hsame.2.2.1, hsame.1] at ht
      split_ifs at he with hd
      · cases he
        rw [portFor]
        cases s.table f.dest.toNat with
        | none | some e => simp [hd]
      · rw [he]
        simp only
        constructor
        · exact .inl
        · rintro (h | ⟨-, h⟩)
          · exact h
          · omega

/-- Whatever the switch has learned, a frame is put on every port at most once, and it stays off the
port it came in on just when it is not for a station that the switch has there. -/
theorem not_reflected_iff (s : EtherSwitch) (port : ℕ) (f : Frame) (delays : List ℕ) :
    ((s.route port f).2.Nodup ∧ port ∉ (s.route port f).2 ↔ s.Elsewhere port f)
      ∧ (s.Elsewhere port f → ∀ s', s.step (.recvPacket port f delays) = .ok s' →
        s'.interfaces[port]? = s.interfaces[port]?) := by
  have hiff : (s.route port f).2.Nodup ∧ port ∉ (s.route port f).2 ↔ s.Elsewhere port f := by
    obtain ⟨he, hports⟩ | ⟨r, hr, hports⟩ := route_ports s port f
    · rw [hports]
      exact iff_of_true ⟨s.others_nodup port, s.not_mem_others port⟩ he
    · rw [hports, ← hr]
      simp [eq_comm]
  refine ⟨hiff, fun he s' hst => ?_⟩
  simp only [step] at hst
  split_ifs at hst
  obtain ⟨_, -, hst⟩ := bind_ok.1 hst
  obtain ⟨ifs, rfl, hifs⟩ := enqueueAll_cases hst
  refine (hifs port (hiff.2 he).2).trans ?_
  exact congrArg (·[port]?) (route_same s port f).2.1

theorem not_reflected_heardOps : ∃ s s', run step (init 3 10000 100) heardOps = .ok s
    ∧ s.step (.recvPacket 2 (stationFrame 1 1 2) farDelays) = .ok s'
    ∧ s.Elsewhere 2 (stationFrame 1 1 2) ∧ s'.interfaces[2]? = s.interfaces[2]? := by
  refine ⟨_, _, rfl, rfl, ?_⟩
  have he : (0 : ℕ) ≠ 2 := by decide
  exact ⟨.inr (.inr (Or.inl he)),
    (not_reflected_iff _ 2 (stationFrame 1 1 2) farDelays).2 (.inr (.inr (Or.inl he))) _ rfl⟩

def neighbourOps : List Op :=
  [.recvPacket 0 (stationFrame 0 3 1) farDelays, .advance 50,
    .recvPacket 0 (stationFrame 1 3 2) farDelays, .advance 60]

/-- A frame between two stations behind one port is put into the queue of that port. -/
theorem reflected_between_neighbours : ∃ s s', run step (init 3 10000 100) neighbourOps = .ok s
    ∧ s.step (.recvPacket 0 (stationFrame 2 1 2) farDelays) = .ok s'
    ∧ (s.interfaces[0]?.map (·.outputFifo.fifo)) = some []
    ∧ (s'.interfaces[0]?.map (·.outputFifo.fifo)) = some [⟨stationFrame 2 1 2, 60, 0⟩]
    ∧ ¬ s.Elsewhere 0 (stationFrame 2 1 2) := by
  refine ⟨_, _, rfl, rfl, rfl, rfl, ?_⟩
  rintro (h | h | h | ⟨-, h⟩)
  · cases h
  · cases h
  · exact h rfl
  · exact absurd h (by decide)

end EtherSwitch

end Gem5
