import Gem5.Proofs.PacketFifo

/-!
# The packet FIFO in use

An entry's number says which of the accepted packets it is. What came out and what is still there is in the
order of these numbers, and the accounts of `Accounted` hold in every state.
-/

namespace Gem5

open Machine List

namespace PacketFifo

variable {q q' : PacketFifo} {p : EthPacket}

theorem push_inv {res : Option PacketFifo} (h : q.push p = .ok res) : res = none ∨ res = some { q with
    fifo := q.fifo ++ [⟨p, q.counter, 0⟩]
    counter := q.counter + 1
    size := q.size + BitVec.ofNat 32 p.length
    reserved := 0 } := by
  obtain ⟨-, -, h⟩ := bind_ok.1 h
  obtain ⟨-, -, h⟩ := bind_ok.1 h
  split_ifs at h
  · exact .inl (Except.ok.inj h).symm
  · exact .inr (Except.ok.inj h).symm

theorem pop_inv (h : q.pop = .ok q') : q' = q ∨ ∃ e rest, q.fifo = e :: rest ∧ q' = { q with
    fifo := rest
    size := q.size - BitVec.ofNat 32 e.packet.length - e.slack } := by
  unfold pop at h
  split_ifs at h
  · exact .inl (Except.ok.inj h).symm
  · cases hf : q.fifo with
    | nil =>
      simp [hf] at h
    | cons e rest =>
      rw [hf] at h
      exact .inr ⟨e, rest, rfl, (Except.ok.inj h).symm⟩

theorem front_inv (h : q.front = .ok p) : ∃ e rest, q.fifo = e :: rest ∧ e.packet = p := by
  unfold front at h
  split at h
  · cases h
  · rename_i e rest hf
    exact ⟨e, rest, hf, Except.ok.inj h⟩

namespace Accounted

theorem push_cases (hq : Accounted q) (hlt : p.length < 2 ^ 32) {res : Option PacketFifo}
    (h : q.push p = .ok res) : res = none ∨ ∃ q', res = some q' ∧ Accounted q' ∧
      q'.fifo = q.fifo ++ [⟨p, q.counter, 0⟩] ∧ q'.counter = q.counter + 1 := by
  simp only [PacketFifo.push, bind_ok, require_ok] at h
  obtain ⟨-, hne, -, hres, h⟩ := h
  have hlen : (BitVec.ofNat 32 p.length).toNat = p.length := by
    rw [BitVec.toNat_ofNat, Nat.mod_eq_of_lt hlt]
  have hav := hq.avail_toNat
  have hcap := hq.size_le
  have hmax := q.maxsize.isLt
  split_ifs at h with hroom
  · exact .inl (Except.ok.inj h).symm
  · refine .inr ⟨_, (Except.ok.inj h).symm, ?_, rfl, rfl⟩
    rw [BitVec.le_def] at hres
    have hdiff : (BitVec.ofNat 32 p.length - q.reserved).toNat = p.length - q.reserved.toNat := by
      bv_omega
    rw [BitVec.lt_def, hdiff, hav] at hroom
    have hsum : (q.size + BitVec.ofNat 32 p.length).toNat = q.size.toNat + p.length := by bv_omega
    have hpos : p.length ≠ 0 := by
      intro h₀
      rw [h₀] at hne
      exact hne rfl
    exact hq.snoc hpos hsum (by omega)

theorem pop_cases (hq : Accounted q) : ∃ q', q.pop = .ok q' ∧ Accounted q' ∧
    q'.counter = q.counter ∧
    q.fifo.map (·.tag) =
      (if q.empty then [] else q.fifo.head?.toList.map (·.tag)) ++ q'.fifo.map (·.tag) := by
  cases hf : q.fifo with
  | nil =>
    have he : q.empty = true := hq.empty_iff.2 hf
    exact ⟨q, by rw [PacketFifo.pop, if_pos he], hq, rfl, by rw [if_pos he, hf]; rfl⟩
  | cons e rest =>
    obtain ⟨q', hpop, hq', hfifo, -, -, hcount⟩ := hq.pop hf
    refine ⟨q', hpop, hq', hcount, ?_⟩
    rw [hq.empty_eq_false hf, hfifo]
    rfl

theorem clear (q : PacketFifo) : Accounted q.clear where
  size_eq := rfl
  size_le := by simp [PacketFifo.clear]
  nonempty := by simp [PacketFifo.clear]

theorem stored_remove {l : List PacketFifoEntry} {e prev : PacketFifoEntry}
    {pre post : List PacketFifoEntry} (hl : l = pre ++ prev :: e :: post)
    (hlt : stored l < 2 ^ 32) :
    stored (pre ++ { prev with
      slack := prev.slack + BitVec.ofNat 32 e.packet.length + e.slack } :: post) = stored l := by
  subst hl
  simp only [stored_append, stored_cons] at hlt ⊢
  have hlen : (BitVec.ofNat 32 e.packet.length).toNat = e.packet.length := by
    rw [BitVec.toNat_ofNat, Nat.mod_eq_of_lt (by omega)]
  have hslack : (prev.slack + BitVec.ofNat 32 e.packet.length + e.slack).toNat =
      prev.slack.toNat + e.packet.length + e.slack.toNat := by bv_omega
  rw [hslack]
  omega

end Accounted

theorem modify_eraseIdx (f : PacketFifoEntry → PacketFifoEntry) (prev e : PacketFifoEntry)
    (post : List PacketFifoEntry) : ∀ pre : List PacketFifoEntry,
      ((pre ++ prev :: e :: post).modify pre.length f).eraseIdx (pre.length + 1) =
        pre ++ f prev :: post
  | [] => rfl
  | x :: pre => by
    simp only [cons_append, length_cons, modify_succ_cons, eraseIdx_cons_succ,
      modify_eraseIdx f prev e post pre]

theorem remove_cases {i : ℕ} (h : q.remove i = .ok q') :
    (∃ e rest, i = 0 ∧ q.fifo = e :: rest ∧ q' = { q with
      fifo := rest, size := q.size - BitVec.ofNat 32 e.packet.length - e.slack }) ∨
    ∃ pre prev e post, i = pre.length + 1 ∧ q.fifo = pre ++ prev :: e :: post ∧ q' = { q with
      fifo := pre ++ { prev with
        slack := prev.slack + BitVec.ofNat 32 e.packet.length + e.slack } :: post } := by
  unfold remove at h
  cases hi : q.fifo[i]? with
  | none =>
    simp [hi] at h
  | some e =>
    obtain ⟨hlt, hget⟩ := List.getElem?_eq_some_iff.1 hi
    cases i with
    | zero =>
      cases hf : q.fifo with
      | nil => simp [hf] at hi
      | cons e' rest =>
        simp only [hf, getElem?_cons_zero, if_true, eraseIdx_cons_zero] at h
        exact .inl ⟨e', rest, rfl, rfl, (Except.ok.inj h).symm⟩
    | succ k =>
      have hk : k < q.fifo.length := by omega
      have hlen : (q.fifo.take k).length = k := by rw [length_take, min_eq_left hk.le]
      have hsplit : q.fifo = q.fifo.take k ++ q.fifo[k] :: e :: q.fifo.drop (k + 2) := by
        rw [← hget, ← drop_eq_getElem_cons hlt, ← drop_eq_getElem_cons hk,
          take_append_drop]
      simp only [hi, Nat.succ_ne_zero, if_false, Nat.add_sub_cancel] at h
      refine .inr ⟨q.fifo.take k, q.fifo[k], e, q.fifo.drop (k + 2), by rw [hlen], hsplit, ?_⟩
      have hlist := modify_eraseIdx (fun prev => { prev with
        slack := prev.slack + BitVec.ofNat 32 e.packet.length + e.slack }) q.fifo[k] e
          (q.fifo.drop (k + 2)) (q.fifo.take k)
      rw [hlen, ← hsplit] at hlist
      rw [hlist] at h
      exact (Except.ok.inj h).symm

theorem remove_tags {i : ℕ} (h : q.remove i = .ok q') : ∃ pre e post,
    q.fifo.map (·.tag) = pre ++ e.tag :: post ∧ q.fifo[i]? = some e ∧
      q'.fifo.map (·.tag) = pre ++ post ∧ q'.counter = q.counter := by
  rcases remove_cases h with ⟨e, rest, rfl, hf, rfl⟩ | ⟨pre, prev, e, post, rfl, hf, rfl⟩
  · exact ⟨[], e, rest.map (·.tag), by rw [hf]; rfl, by rw [hf]; rfl, rfl, rfl⟩
  · refine ⟨pre.map (·.tag) ++ [prev.tag], e, post.map (·.tag), ?_, ?_, ?_, rfl⟩
    · rw [hf]
      simp
    · rw [hf]
      simp
    · simp [PacketFifoEntry.tag]

theorem remove_ok {i : ℕ} (hi : i < q.fifo.length) : ∃ q', q.remove i = .ok q' := by
  unfold remove
  rw [getElem?_eq_getElem hi]
  simp only
  split_ifs <;> exact ⟨_, rfl⟩

theorem Accounted.remove (hq : Accounted q) {i : ℕ} (h : q.remove i = .ok q') : Accounted q' := by
  have hcap := hq.size_le
  have hmax := q.maxsize.isLt
  have hsize := hq.size_eq
  rcases remove_cases h with ⟨e, rest, -, hf, rfl⟩ | ⟨pre, prev, e, post, -, hf, rfl⟩
  · exact hq.tail hf
  · refine ⟨?_, hcap, ?_⟩
    · rw [hsize]
      exact (stored_remove hf (by omega)).symm
    · intro e' he'
      rcases mem_append.1 he' with he' | he'
      · exact hq.nonempty e' (by rw [hf]; exact mem_append_left _ he')
      · rcases mem_cons.1 he' with rfl | he'
        · exact hq.nonempty prev (by rw [hf]; simp)
        · exact hq.nonempty e' (by rw [hf]; simp [he'])

end PacketFifo

namespace FifoUse

open PacketFifo

/-- The entries that came out and those still there, in this order. -/
def seen (u : FifoUse) : List (ℕ × EthPacket) := u.out ++ u.q.fifo.map (·.tag)

/-- Those are accepted packets in the order of their numbers, and with the ones that were dropped they are
all accepted packets. -/
structure Inv (u : FifoUse) : Prop where
  accounted : u.q.Accounted
  counter : u.q.counter = u.accepted.length
  sorted : u.seen.Pairwise fun x y => x.1 < y.1
  numbered : ∀ x ∈ u.seen ++ u.dropped, u.accepted[x.1]? = some x.2
  all : ((u.seen ++ u.dropped).map Prod.fst).Perm (List.range u.accepted.length)

/-- A packet has at most the length that an `unsigned` can hold. -/
def Fits (_ : FifoUse) : Op → Prop
  | .push p => p.length < 2 ^ 32
  | _ => True

instance (u : FifoUse) : DecidablePred u.Fits
  | .push _ => inferInstanceAs (Decidable (_ < _))
  | .reserve _ => .isTrue trivial
  | .pop => .isTrue trivial
  | .remove _ => .isTrue trivial
  | .clear => .isTrue trivial

variable {u u' : FifoUse}

theorem Inv.keep (hu : u.Inv) (hq : u'.q.Accounted) (hcount : u'.q.counter = u.q.counter)
    (hacc : u'.accepted = u.accepted) (hsub : u'.seen.Sublist u.seen)
    (hperm : (u'.seen ++ u'.dropped).Perm (u.seen ++ u.dropped)) : u'.Inv where
  accounted := hq
  counter := by rw [hcount, hacc, hu.counter]
  sorted := hu.sorted.sublist hsub
  numbered x hx := by
    rw [hacc]
    exact hu.numbered x (hperm.mem_iff.1 hx)
  all := by
    rw [hacc]
    exact (hperm.map Prod.fst).trans hu.all

theorem Inv.push (hu : u.Inv) {p : EthPacket} {q' : PacketFifo} (hq' : q'.Accounted)
    (hfifo : q'.fifo = u.q.fifo ++ [⟨p, u.q.counter, 0⟩]) (hcount : q'.counter = u.q.counter + 1) :
    Inv { u with q := q', accepted := u.accepted ++ [p] } := by
  have hseen : seen { u with q := q', accepted := u.accepted ++ [p] } =
      u.seen ++ [(u.accepted.length, p)] := by
    rw [seen, seen, hfifo, hu.counter, map_append, List.append_assoc]
    rfl
  have hlt : ∀ x ∈ u.seen ++ u.dropped, x.1 < u.accepted.length := fun x hx =>
    (List.getElem?_eq_some_iff.1 (hu.numbered x hx)).1
  have hperm : (u.seen ++ [(u.accepted.length, p)] ++ u.dropped).Perm
      (u.seen ++ u.dropped ++ [(u.accepted.length, p)]) := by
    rw [List.append_assoc, List.append_assoc]
    exact List.Perm.append_left _ List.perm_append_comm
  refine ⟨hq', ?_, ?_, fun x hx => ?_, ?_⟩
  · simp [hcount, hu.counter]
  · rw [hseen, pairwise_append]
    refine ⟨hu.sorted, pairwise_singleton _ _, fun x hx y hy => ?_⟩
    rw [mem_singleton.1 hy]
    exact hlt x (mem_append_left _ hx)
  · rw [hseen] at hx
    rcases mem_append.1 (hperm.mem_iff.1 hx) with hx | hx
    · rw [getElem?_append_left (hlt x hx)]
      exact hu.numbered x hx
    · rw [mem_singleton.1 hx]
      exact getElem?_concat_length
  · rw [hseen, length_append, length_singleton, range_succ]
    refine (hperm.map Prod.fst).trans ?_
    rw [map_append]
    exact hu.all.append_right _

theorem step_inv {o : Op} (hu : u.Inv) (ho : u.Fits o) (h : step u o = .ok u') : u'.Inv := by
  cases o with
  | push p =>
    obtain ⟨res, hpush, h⟩ := bind_ok.1 h
    rcases hu.accounted.push_cases ho hpush with rfl | ⟨q', rfl, hq', hfifo, hcount⟩
    · cases h
      exact hu
    · cases h
      exact hu.push hq' hfifo hcount
  | reserve len =>
    obtain ⟨q', hq, rfl⟩ := bind_pure_ok.1 h
    obtain ⟨hacc, -, hfifo, hcount⟩ := hu.accounted.reserve hq
    have hseen : seen { u with q := q' } = u.seen := by rw [seen, seen, hfifo]
    exact hu.keep hacc hcount rfl (by rw [hseen]) (by rw [hseen])
  | pop =>
    obtain ⟨q', hpop, hq', hcount, hfifo⟩ := hu.accounted.pop_cases
    simp only [step, hpop, ok_bind] at h
    cases h
    have hseen : seen { u with
        q := q'
        out := u.out ++ if u.q.empty then [] else u.q.fifo.head?.toList.map (·.tag) } = u.seen := by
      rw [seen, seen, hfifo, List.append_assoc]
    exact hu.keep hq' hcount rfl (by rw [hseen]) (by rw [hseen])
  | remove i =>
    obtain ⟨q', hq, rfl⟩ := bind_pure_ok.1 h
    obtain ⟨pre, e, post, hfifo, hi, hfifo', hcount⟩ := remove_tags hq
    have hsub : (q'.fifo.map (·.tag)).Sublist (u.q.fifo.map (·.tag)) := by
      rw [hfifo, hfifo']
      exact List.Sublist.append_left (sublist_cons_self _ _) _
    refine hu.keep (hu.accounted.remove hq) hcount rfl (hsub.append_left _) ?_
    simp only [seen, hfifo, hfifo', hi, Option.toList_some, map_cons, map_nil]
    simp only [List.append_assoc]
    refine List.Perm.append_left _ (List.Perm.append_left _ ?_)
    rw [cons_append, ← List.append_assoc]
    exact perm_append_singleton _ _
  | clear =>
    cases h
    refine hu.keep (Accounted.clear u.q) rfl rfl ?_ ?_
    · exact List.Sublist.append_left (nil_sublist _) _
    · simp only [seen, PacketFifo.clear, map_nil, append_nil, List.append_assoc]
      exact List.Perm.append_left _ List.perm_append_comm

theorem step_maxsize {o : Op} (h : step u o = .ok u') : u'.q.maxsize = u.q.maxsize := by
  cases o with
  | push p =>
    obtain ⟨res, hpush, h⟩ := bind_ok.1 h
    rcases push_inv hpush with rfl | rfl
    · cases h
      rfl
    · cases h
      rfl
  | reserve len =>
    obtain ⟨q', hq, rfl⟩ := bind_pure_ok.1 h
    obtain ⟨-, -, rfl⟩ := bind_pure_ok.1 hq
    rfl
  | pop =>
    obtain ⟨q', hq, rfl⟩ := bind_pure_ok.1 h
    rcases pop_inv hq with rfl | ⟨e, rest, -, rfl⟩ <;> rfl
  | remove i =>
    obtain ⟨q', hq, rfl⟩ := bind_pure_ok.1 h
    rcases remove_cases hq with ⟨e, rest, -, -, rfl⟩ | ⟨pre, prev, e, post, -, -, rfl⟩ <;> rfl
  | clear =>
    cases h
    rfl

theorem init_inv (max : BitVec 32) : Inv ⟨PacketFifo.init max, [], [], []⟩ where
  accounted := Accounted.init max
  counter := rfl
  sorted := .nil
  numbered := by simp [seen, PacketFifo.init]
  all := by simp [seen, PacketFifo.init]

/-- In every state of a FIFO in use the recorded size is that of the entries, with what is reserved it is
within the capacity, and the packets that came out and those still there are in the order in which they were
taken, with none lost but those removed or cleared. A push that is refused changes nothing, and no `pop` and
no `remove` of an entry fails. -/
theorem fifo_accounting {max : BitVec 32} {ops : List Op}
    (hops : Admits step Fits ⟨PacketFifo.init max, [], [], []⟩ ops)
    (hrun : run step ⟨PacketFifo.init max, [], [], []⟩ ops = .ok u) :
    u.q.size.toNat = (u.q.fifo.map fun e => e.packet.length + e.slack.toNat).sum ∧
    u.q.size.toNat + u.q.reserved.toNat ≤ max.toNat ∧
    u.seen.Pairwise (fun x y => x.1 < y.1) ∧
    (∀ x ∈ u.seen ++ u.dropped, u.accepted[x.1]? = some x.2) ∧
    ((u.seen ++ u.dropped).map Prod.fst).Perm (List.range u.accepted.length) ∧
    (∀ p, u.q.push p = .ok none → step u (.push p) = .ok u) ∧
    (∃ u', step u .pop = .ok u') ∧
    ∀ i < u.q.fifo.length, ∃ u', step u (.remove i) = .ok u' := by
  have hu : u.Inv := hops.inv (fun _ _ _ hu ho h => step_inv hu ho h) (init_inv max) hrun
  have hmax : u.q.maxsize = max := run_inv (I := fun u => u.q.maxsize = max)
    (fun _ _ _ hm h => (step_maxsize h).trans hm) rfl hrun
  refine ⟨hu.accounted.size_eq, hmax ▸ hu.accounted.size_le, hu.sorted, hu.numbered, hu.all,
    fun p hp => ?_, ?_, fun i hi => ?_⟩
  · rw [step, hp]
    rfl
  · obtain ⟨q', hpop, -⟩ := hu.accounted.pop_cases
    exact ⟨_, by rw [step, hpop]; rfl⟩
  · obtain ⟨q', hq'⟩ := remove_ok hi
    exact ⟨_, by rw [step, hq']; rfl⟩

/-- Three packets, of which the middle one is removed and the first comes out, and one that is refused. -/
def removeOps : List Op :=
  [.push ⟨[1, 2], 2, 2⟩, .push ⟨[3], 1, 1⟩, .push ⟨[4, 5], 2, 2⟩, .remove 1, .pop, .reserve 1,
    .push ⟨[6, 7, 8, 9, 10, 11, 12], 7, 7⟩]

theorem fifo_accounting_removeOps : ∃ u, run step ⟨PacketFifo.init 8, [], [], []⟩ removeOps = .ok u ∧
    u.out = [(0, ⟨[1, 2], 2, 2⟩)] ∧ u.q.size.toNat + u.q.reserved.toNat ≤ 8 := by
  obtain ⟨u, hrun, hout⟩ : ∃ u, run step ⟨PacketFifo.init 8, [], [], []⟩ removeOps = .ok u ∧
      u.out = [(0, ⟨[1, 2], 2, 2⟩)] := ⟨_, rfl, rfl⟩
  exact ⟨u, hrun, hout, (fifo_accounting (by decide) hrun).2.1⟩

end FifoUse

namespace PacketFifo

variable {q q' : PacketFifo}

/-! ## Counting -/

def Counts (q : PacketFifo) : Prop := ∀ i < q.fifo.length,
  q.countPacketsBefore i = i ∧ q.countPacketsAfter i = q.fifo.length - 1 - i

def Gapless (l : List PacketFifoEntry) : Prop := ∃ first, l.map (·.number) = List.range' first l.length

/-- A push continues the numbers, and only the first or the last entry is removed. -/
def Continues (q : PacketFifo) : Op → Prop
  | .push _ => ∀ e ∈ q.fifo.getLast?, q.counter = e.number + 1
  | .remove i => i = 0 ∨ i + 1 = q.fifo.length
  | _ => True

instance (q : PacketFifo) : DecidablePred q.Continues
  | .push _ => inferInstanceAs (Decidable (∀ e ∈ q.fifo.getLast?, _))
  | .pop => .isTrue trivial
  | .remove _ => inferInstanceAs (Decidable (_ ∨ _))
  | .roundTrip => .isTrue trivial

theorem countBetween_add (first : ℕ) {i : ℕ} (hi : i < 2 ^ 31) :
    countBetween first (first + i) = i := by
  have hdiff : BitVec.ofNat 64 (first + i) - BitVec.ofNat 64 first = BitVec.ofNat 64 i := by
    rw [BitVec.ofNat_add, BitVec.add_comm, BitVec.add_sub_cancel]
  rw [countBetween, hdiff, BitVec.toInt_eq_toNat_of_lt]
  · simp
    omega
  · simp
    omega

theorem Gapless.number {l : List PacketFifoEntry} {first i : ℕ} {e : PacketFifoEntry}
    (hl : l.map (·.number) = List.range' first l.length) (hi : l[i]? = some e) :
    e.number = first + i := by
  have hlt := (List.getElem?_eq_some_iff.1 hi).1
  have hget : (l.map (·.number))[i]? = some e.number := by rw [List.getElem?_map, hi]; rfl
  rw [hl, List.getElem?_range' hlt] at hget
  have := Option.some.inj hget
  omega

theorem Gapless.counts (hq : Gapless q.fifo) (hlen : q.fifo.length ≤ 2 ^ 31) : q.Counts := by
  intro i hi
  obtain ⟨first, hl⟩ := hq
  have hpos : 0 < q.fifo.length := by omega
  have hpred : q.fifo.length - 1 < q.fifo.length := by omega
  have he := getElem?_eq_getElem hi
  have hhead := getElem?_eq_getElem hpos
  have hlast := getElem?_eq_getElem hpred
  have hnum := Gapless.number hl he
  have hfirst := Gapless.number hl hhead
  have hend := Gapless.number hl hlast
  rw [countPacketsBefore, countPacketsAfter, head?_eq_getElem?, getLast?_eq_getElem?, he,
    hhead, hlast]
  simp only [hnum, hfirst, hend]
  refine ⟨countBetween_add _ (by omega), ?_⟩
  have hadd : first + (q.fifo.length - 1) = first + i + (q.fifo.length - 1 - i) := by omega
  rw [hadd, countBetween_add _ (by omega)]
  omega

theorem Gapless.push {l : List PacketFifoEntry} (hl : Gapless l) {p : EthPacket} {n : ℕ}
    (hn : ∀ e ∈ l.getLast?, n = e.number + 1) : Gapless (l ++ [⟨p, n, 0⟩]) := by
  obtain ⟨first, hl⟩ := hl
  cases hlast : l.getLast? with
  | none =>
    rw [getLast?_eq_none_iff] at hlast
    subst hlast
    exact ⟨n, rfl⟩
  | some e =>
    have hnum := Gapless.number hl (by rw [← getLast?_eq_getElem?]; exact hlast)
    have hne : l.length ≠ 0 := by
      intro h
      simp [length_eq_zero_iff.1 h] at hlast
    refine ⟨first, ?_⟩
    rw [map_append, hl, length_append, length_singleton, List.range'_1_concat]
    simp only [map_cons, map_nil, hn e hlast, hnum]
    congr 2
    omega

theorem Gapless.tail {e : PacketFifoEntry} {l : List PacketFifoEntry} (hl : Gapless (e :: l)) :
    Gapless l := by
  obtain ⟨first, hl⟩ := hl
  rw [length_cons, List.range'_succ, map_cons] at hl
  exact ⟨first + 1, (List.cons.inj hl).2⟩

theorem Gapless.dropLast {e : PacketFifoEntry} {l l' : List PacketFifoEntry}
    (hl : Gapless (l ++ [e])) (hl' : l'.map (·.number) = l.map (·.number)) : Gapless l' := by
  obtain ⟨first, hl⟩ := hl
  have hlen : l'.length = l.length := by simpa using congrArg List.length hl'
  rw [map_append, length_append, length_singleton, List.range'_1_concat] at hl
  exact ⟨first, by rw [hl', hlen]; exact (append_inj' hl rfl).1⟩

theorem step_gapless {o : Op} (hq : Gapless q.fifo) (ho : q.Continues o) (h : q.step o = .ok q') :
    Gapless q'.fifo := by
  cases o with
  | push p =>
    obtain ⟨res, hpush, rfl⟩ := bind_pure_ok.1 h
    rcases push_inv hpush with rfl | rfl
    · exact hq
    · exact hq.push ho
  | pop =>
    rcases pop_inv h with rfl | ⟨e, rest, hf, rfl⟩
    · exact hq
    · exact Gapless.tail (hf ▸ hq)
  | remove i =>
    rcases remove_cases h with ⟨e, rest, -, hf, rfl⟩ | ⟨pre, prev, e, post, rfl, hf, rfl⟩
    · exact Gapless.tail (hf ▸ hq)
    · have hpost : post = [] := by
        rcases ho with ho | ho
        · cases ho
        · rw [hf] at ho
          simp only [length_append, length_cons] at ho
          exact length_eq_zero_iff.1 (by omega)
      subst hpost
      refine Gapless.dropLast (l := pre ++ [prev]) (e := e) ?_ (by simp)
      rw [List.append_assoc]
      exact hf ▸ hq
  | roundTrip =>
    cases h
    exact hq

/-- Where every push continues the numbers of the entries, and only the first and the last entry are
removed, the counts are right in every state. An `int` counts up to `2 ^ 31` entries. -/
theorem packet_counts_right {max : BitVec 32} {ops : List Op}
    (hops : Admits step Continues (init max) ops) (hrun : run step (init max) ops = .ok q)
    (hlen : q.fifo.length ≤ 2 ^ 31) : q.Counts := by
  have hq : Gapless q.fifo := hops.inv (I := fun q => Gapless q.fifo)
    (fun _ _ _ hq ho h => step_gapless hq ho h) ⟨0, rfl⟩ hrun
  exact hq.counts hlen

/-- Of four packets the first comes out and the last is removed, after a checkpoint. -/
def endsOps : List Op :=
  [.push ⟨[1], 1, 1⟩, .push ⟨[2], 1, 1⟩, .push ⟨[3], 1, 1⟩, .push ⟨[4], 1, 1⟩, .roundTrip, .pop,
    .remove 2]

theorem packet_counts_right_endsOps :
    ∃ q, run step (init 8) endsOps = .ok q ∧ q.fifo.length = 2 ∧ q.Counts := by
  obtain ⟨q, hrun, hlen⟩ : ∃ q, run step (init 8) endsOps = .ok q ∧ q.fifo.length = 2 :=
    ⟨_, rfl, rfl⟩
  exact ⟨q, hrun, hlen, packet_counts_right (by decide) hrun (by omega)⟩

/-- Without the middle one of three packets the last still has two before it, and after a checkpoint the
numbers start again. -/
theorem packet_counts_wrong :
    (∃ q, run step (init 8) [.push ⟨[1], 1, 1⟩, .push ⟨[2], 1, 1⟩, .push ⟨[3], 1, 1⟩, .remove 1] =
      .ok q ∧ q.fifo.length = 2 ∧ q.countPacketsBefore 1 = 2) ∧
    ∃ q, run step (init 8) [.push ⟨[1], 1, 1⟩, .push ⟨[2], 1, 1⟩, .roundTrip, .push ⟨[3], 1, 1⟩] =
      .ok q ∧ q.fifo.length = 3 ∧ q.countPacketsBefore 2 = 0 :=
  ⟨⟨_, rfl, rfl, by decide⟩, ⟨_, rfl, rfl, by decide⟩⟩

end PacketFifo

end Gem5
