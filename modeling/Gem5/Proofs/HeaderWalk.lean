import Gem5.HeaderWalk

/-!
# When the walks over headers end

A walk over options goes on by the length of each, so it ends unless it meets one of length 0
(`options_end_iff`). An extension header of length 0, which has the length field 248, is read once
and then again if the header it announces is one that the walk goes on at.
-/

namespace Gem5

namespace Inet

open Bytes Loop

/-! ## Options -/

section Options

variable {optLen : ℕ → ℕ} {w w' : OptionWalk} {start k n : ℕ} {all : ℤ}

theorem optionTurn_again (h : optionTurn optLen w = .again w') :
    0 < w.all ∧ optLen w.data ≤ w.all
      ∧ w' = ⟨w.data + optLen w.data, w.all - optLen w.data, w.vec ++ [w.data]⟩ := by
  unfold optionTurn at h
  split_ifs at h with hall hlen
  cases h
  exact ⟨hall, not_lt.1 hlen, rfl⟩

theorem options_never (hall : 0 < w.all) (hzero : optLen w.data = 0) (n : ℕ) :
    loop (optionTurn optLen) n w = none := by
  refine loop_eq_none (I := fun t => 0 < t.all ∧ optLen t.data = 0) (fun t ht => ?_) ⟨hall, hzero⟩ n
  obtain ⟨hall, hzero⟩ := ht
  refine ⟨⟨t.data, t.all, t.vec ++ [t.data]⟩, ?_, hall, hzero⟩
  simp [optionTurn, hall, hzero, not_lt.2 hall.le]

theorem options_left (hpos : ∀ k w, after (optionTurn optLen) k ⟨start, all, []⟩ = some w →
    0 < w.all → 0 < optLen w.data) (h : after (optionTurn optLen) k ⟨start, all, []⟩ = some w) :
    k + w.all ≤ all ∧ (0 < k → 0 ≤ w.all) := by
  refine after_inv (I := fun k w => k + w.all ≤ all ∧ (0 < k → 0 ≤ w.all)) ⟨by simp, by simp⟩
    (fun k t t' ht hI hturn => ?_) h
  obtain ⟨hall, hle, rfl⟩ := optionTurn_again hturn
  have hlen := hpos k t ht hall
  push_cast
  exact ⟨by linarith [hI.1, Int.ofNat_lt.2 hlen], fun _ => by linarith⟩

/-- The walk ends within as many steps as there are bytes exactly if each option that it meets has a
length. -/
theorem options_end_iff : (loop (optionTurn optLen) all.toNat ⟨start, all, []⟩).isSome = true ↔
    ∀ k w, after (optionTurn optLen) k ⟨start, all, []⟩ = some w → 0 < w.all →
      0 < optLen w.data := by
  constructor
  · intro h k w hw hall
    by_contra hzero
    obtain ⟨r, hr⟩ := Option.isSome_iff_exists.1 h
    have hmore := loop_mono hr (Nat.le_add_left all.toNat k)
    rw [loop_of_after hw, options_never hall (by omega)] at hmore
    cases hmore
  · intro hpos
    rw [loop_isSome_iff, Option.eq_none_iff_forall_ne_some]
    intro w hw
    obtain ⟨hle, hall⟩ := options_left hpos hw
    have := hall (Nat.succ_pos _)
    push_cast at hle
    omega

end Options

/-! ## Extension headers -/

namespace Ip6

variable {d : List Byte} {want : Option ℕ} {s s' : ℕ × ℕ} {k n : ℕ}

theorem extTurn_again (h : extTurn d want s = .again s') : Goes want s.1 ∧ s'.2 ≤ plen d
    ∧ s' = (u8 d (ethSize d + 40 + s.2), s.2 + optLen d (ethSize d + 40 + s.2)) := by
  obtain ⟨nxt, len⟩ := s
  simp only [extTurn] at h
  split_ifs at h with hgoes hle
  cases h
  exact ⟨hgoes, hle, rfl⟩

theorem extTurn_of_le (hgoes : Goes want s.1)
    (hle : s.2 + optLen d (ethSize d + 40 + s.2) ≤ plen d) : extTurn d want s =
      .again (u8 d (ethSize d + 40 + s.2), s.2 + optLen d (ethSize d + 40 + s.2)) := by
  obtain ⟨nxt, len⟩ := s
  simp only [extTurn]
  rw [if_pos hgoes, if_pos hle]

theorem scan_never (hgoes : Goes want s.1) (hle : s.2 ≤ plen d)
    (hzero : optLen d (ethSize d + 40 + s.2) = 0)
    (hnext : Goes want (u8 d (ethSize d + 40 + s.2))) (n : ℕ) :
    loop (extTurn d want) n s = none := by
  refine loop_eq_none (I := fun t => Goes want t.1 ∧ t.2 = s.2) (fun t ht => ?_) ⟨hgoes, rfl⟩ n
  obtain ⟨ht, hlen⟩ := ht
  refine ⟨(u8 d (ethSize d + 40 + t.2), t.2), ?_, hlen ▸ hnext, hlen⟩
  rw [extTurn_of_le ht (by rw [hlen, hzero]; exact hle), hlen, hzero]
  rfl

theorem visited_le (h : after (extTurn d want) k (nxt d, 0) = some s) : s.2 ≤ plen d :=
  after_inv (I := fun _ s => s.2 ≤ plen d) (Nat.zero_le _)
    (fun _ _ _ _ _ hturn => (extTurn_again hturn).2.1) h

theorem visited_length (hzero : ∀ k s, after (extTurn d want) k (nxt d, 0) = some s →
    Goes want s.1 → optLen d (ethSize d + 40 + s.2) = 0 →
      ¬ Goes want (u8 d (ethSize d + 40 + s.2)))
    (h : after (extTurn d want) k (nxt d, 0) = some s) : Goes want s.1 → k ≤ s.2 := by
  refine after_inv (I := fun k s => Goes want s.1 → k ≤ s.2) (fun _ => le_rfl)
    (fun k t t' ht hI hturn hgoes => ?_) h
  obtain ⟨hgoes', -, rfl⟩ := extTurn_again hturn
  have hlen := hI hgoes'
  have hpos : optLen d (ethSize d + 40 + t.2) ≠ 0 := fun h0 => hzero k t ht hgoes' h0 hgoes
  change k + 1 ≤ t.2 + optLen d (ethSize d + 40 + t.2)
  omega

theorem scan_of_loop {r : Except Halt (ℕ × ℕ)}
    (h : loop (extTurn d want) n (nxt d, 0) = some r) : scan d want (plen d + 1) = some r := by
  have hzero : ∀ k s, after (extTurn d want) k (nxt d, 0) = some s → Goes want s.1 →
      optLen d (ethSize d + 40 + s.2) = 0 → ¬ Goes want (u8 d (ethSize d + 40 + s.2)) := by
    intro k s hs hgoes h0 hnext
    have hmore := loop_mono h (Nat.le_add_left n k)
    simp [loop_of_after hs, scan_never hgoes (visited_le hs) h0 hnext] at hmore
  have hend : (scan d want (plen d + 1)).isSome = true := by
    rw [scan, loop_isSome_iff, Option.eq_none_iff_forall_ne_some]
    intro s hs
    obtain ⟨t, ht, hturn⟩ := exists_of_after_succ hs
    have hlen := visited_length hzero ht (extTurn_again hturn).1
    have hle := visited_le ht
    omega
  obtain ⟨r', hr'⟩ := Option.isSome_iff_exists.1 hend
  rw [hr', loop_unique h hr']

/-- A walk ends within as many steps as the payload has bytes exactly if each header of length 0
that it meets is followed by none that it goes on at, and comes before that many steps. -/
theorem scan_end_iff : (scan d want (plen d)).isSome = true ↔
    ∀ k s, after (extTurn d want) k (nxt d, 0) = some s → Goes want s.1 →
      optLen d (ethSize d + 40 + s.2) = 0 →
        ¬ Goes want (u8 d (ethSize d + 40 + s.2)) ∧ k < plen d := by
  constructor
  · intro h k s hs hgoes h0
    obtain ⟨r, hr⟩ := Option.isSome_iff_exists.1 h
    refine ⟨fun hnext => ?_, ?_⟩
    · have hmore := loop_mono hr (Nat.le_add_left (plen d) k)
      simp [loop_of_after hs, scan_never hgoes (visited_le hs) h0 hnext] at hmore
    · by_contra hk
      -- the turn at this header is one more than the walk has
      have hle : s.2 + optLen d (ethSize d + 40 + s.2) ≤ plen d := by
        rw [h0, Nat.add_zero]
        exact visited_le hs
      have hmore := loop_mono hr (not_lt.1 hk)
      have hnone : loop (extTurn d want) (k + 0) (nxt d, 0) = none := by
        rw [loop_of_after hs]
        simp only [loop, extTurn_of_le hgoes hle]
      simp [Nat.add_zero, hmore] at hnone
  · intro hzero
    rw [scan, loop_isSome_iff, Option.eq_none_iff_forall_ne_some]
    intro s hs
    obtain ⟨t, ht, hturn⟩ := exists_of_after_succ hs
    obtain ⟨hgoes, hle, rfl⟩ := extTurn_again hturn
    have hlen := visited_length (fun k s hs hg h0 => (hzero k s hs hg h0).1) ht hgoes
    have hle : t.2 + optLen d (ethSize d + 40 + t.2) ≤ plen d := hle
    have hk := (hzero _ t ht hgoes (by omega)).2
    omega

end Ip6

/-- For every packet, the walks over the IP options, over the options of a TCP header and over the
extension headers, for whatever extension, end within as many steps as there are bytes exactly if
no option that they meet has length 0 and no extension header of length 0 announces another header
that the walk goes on at (or is met when so many steps are made already). -/
theorem walks_end_iff (d : List Byte) (tcp : ℕ) (want : Option ℕ) :
    ((Ip.options d (Ip.optionWalk d).all.toNat).isSome = true ↔
      ∀ k w, after (optionTurn (Ip.optLen d)) k (Ip.optionWalk d) = some w → 0 < w.all →
        0 < Ip.optLen d w.data)
    ∧ ((Tcp.options d tcp (Tcp.optionWalk d tcp).all.toNat).isSome = true ↔
      ∀ k w, after (optionTurn (Tcp.optLen d)) k (Tcp.optionWalk d tcp) = some w → 0 < w.all →
        0 < Tcp.optLen d w.data)
    ∧ ((Ip6.scan d want (Ip6.plen d)).isSome = true ↔
      ∀ k s, after (Ip6.extTurn d want) k (Ip6.nxt d, 0) = some s → Ip6.Goes want s.1 →
        Ip6.optLen d (ethSize d + 40 + s.2) = 0 →
          ¬ Ip6.Goes want (u8 d (ethSize d + 40 + s.2)) ∧ k < Ip6.plen d) :=
  ⟨options_end_iff, options_end_iff, Ip6.scan_end_iff⟩

/-- An IP packet with a header of 24 bytes and a record-route option of length 0. -/
def zeroOption : List Byte :=
  List.replicate 12 0 ++ [8, 0, 0x46] ++ List.replicate 19 0 ++ [7, 0]

/-- A TCP header of 24 bytes at offset 0, with a maximum-segment-size option of length 0. -/
def zeroTcpOption : List Byte := List.replicate 12 0 ++ [0x60] ++ List.replicate 7 0 ++ [2, 0]

/-- An IPv6 packet with a hop-by-hop extension header of length 0 that announces another one. -/
def zeroExtension : List Byte :=
  List.replicate 12 0 ++ [0x86, 0xdd] ++ [0x60, 0, 0, 0, 0, 16] ++ List.replicate 34 0 ++ [0, 248]

/-- The walks over these never end. -/
theorem walks_never_end : (∀ n, Ip.options zeroOption n = none)
    ∧ (∀ n, Tcp.options zeroTcpOption 0 n = none)
    ∧ ∀ n, Ip6.scan zeroExtension none n = none :=
  ⟨options_never (by decide) (by decide), options_never (by decide) (by decide),
    Ip6.scan_never (by decide) (by decide) (by decide) (by decide)⟩

end Inet

end Gem5
