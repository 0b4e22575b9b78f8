import Gem5.Proofs.Inet
import Gem5.Tso

/-!
# The headers of a segment

A finished segment has the header of the job and its part of the payload, and then the fields that
differ from segment to segment are rewritten in place. Checksums are written where the descriptor
asks for them and nowhere else.
-/

namespace Gem5

open Bytes Inet Machine

namespace TxPath

variable {s : TxPath} {d : List Byte} {eth tcp : ℕ}

/-- The lengths and the numbers a segment has of its own. -/
structure Numbered (s : TxPath) (eth tcp : ℕ) (d d' : List Byte) : Prop where
  same : SameBut (rewritten eth tcp) d d'
  len : be16 d' (eth + 2) = (d.length - eth) % 2 ^ 16
  id : be16 d' (eth + 4) = (be16 d (eth + 4) + s.tsoPkts) % 2 ^ 16
  seq : be32 d' (tcp + 4) = (be32 d (tcp + 4) + s.tsoPrevSeq) % 2 ^ 32
  flags : u8 d' (tcp + 13) =
    if s.tsoUsedLen = s.tsoTotalLen then u8 d (tcp + 13) else u8 d (tcp + 13) &&& 0x36

theorem flags_and (x : ℕ) : x % 64 &&& 0x36 = x &&& 0x36 := by
  have h : x % 64 = x &&& (2 ^ 6 - 1) := (Nat.and_two_pow_sub_one_eq_mod x 6).symm
  rw [h, Nat.and_assoc]
  rfl

theorem ofNat_flags (x : ℕ) : (BitVec.ofNat 8 (x &&& 0x36)).toNat = x &&& 0x36 := by
  rw [BitVec.toNat_ofNat, Nat.mod_eq_of_lt]
  exact lt_of_le_of_lt Nat.and_le_right (by decide)

theorem segmentHeaders_ok (hd : HasTcp d eth tcp) :
    ∃ d', s.segmentHeaders d = .ok d' ∧ Numbered s eth tcp d d' := by
  have hlen := hd.hlen
  have hl := hd.length
  set d₁ := Ip.setId d (Ip.id d + s.tsoPkts) with hd₁
  set d₂ := Ip.setLen d₁ (d.length - ethSize d) with hd₂
  set d₃ := Tcp.setSeq d₂ tcp (Tcp.seq d₂ tcp + s.tsoPrevSeq) with hd₃
  set d₄ := if s.tsoUsedLen ≠ s.tsoTotalLen then
    Tcp.setFlags d₃ tcp (Tcp.flags d₃ tcp &&& 0x36) else d₃ with hd₄
  have e₁ : SameBut (Set.Ico (eth + 4) (eth + 6)) d d₁ := setId_same hd.size _
  have w₁ : HasTcp d₁ eth tcp := hd.same (e₁.mono fun i hi => by
    rw [Set.mem_Ico] at hi
    rw [mem_rewritten]
    omega)
  have e₂ : SameBut (Set.Ico (eth + 2) (eth + 4)) d₁ d₂ := setLen_same w₁.size _
  have w₂ : HasTcp d₂ eth tcp := w₁.same (e₂.mono fun i hi => by
    rw [Set.mem_Ico] at hi
    rw [mem_rewritten]
    omega)
  have e₃ : SameBut (Set.Ico (tcp + 4) (tcp + 8)) d₂ d₃ := setSeq_same _ _ _
  have e₄ : SameBut (Set.Ico (tcp + 13) (tcp + 14)) d₃ d₄ := by
    rw [hd₄]
    split_ifs
    · exact setFlags_same _ _ _
    · exact .refl _ _
  have hsame : SameBut (rewritten eth tcp) d d₄ := by
    refine (e₁.mono ?_).trans ((e₂.mono ?_).trans ((e₃.mono ?_).trans (e₄.mono ?_))) <;>
      · intro i hi
        rw [Set.mem_Ico] at hi
        rw [mem_rewritten]
        omega
  have hlen₄ : d₄.length = d.length := hsame.length
  refine ⟨d₄, ?_, hsame, ?_, ?_, ?_, ?_⟩
  · have hnot : ¬ IsIp6 d₂ := not_ip6 w₂.ip
    have hudp : udpPtr d₄ = .ok none := (hd.same hsame).udpPtr
    rw [segmentHeaders]
    simp only [if_pos hd.ip]
    rw [← hd₁, ← hd₂, if_neg hnot, w₂.tcpPtr]
    simp only [bind, Except.bind]
    rw [← hd₃, ← hd₄, hudp]
    rfl
  · rw [e₄.be16 (by simp; omega) (by simp; omega), e₃.be16 (by simp; omega) (by simp; omega), hd₂,
      Ip.setLen, w₁.size, be16_splice (by rw [e₁.length]; omega), hd.size]
  · rw [e₄.be16 (by simp; omega) (by simp; omega), e₃.be16 (by simp; omega) (by simp; omega),
      e₂.be16 (by simp) (by simp), hd₁, Ip.setId, hd.size, be16_splice (by omega), Ip.id, hd.size]
  · rw [e₄.be32 (fun i _ _ => by simp; omega), hd₃, Tcp.setSeq,
      be32_splice (by rw [e₂.length, e₁.length]; omega), Tcp.seq,
      e₂.be32 (fun i _ _ => by simp; omega), e₁.be32 (fun i _ _ => by simp; omega)]
  · have hflags : u8 d₃ (tcp + 13) = u8 d (tcp + 13) := by
      rw [e₃.u8 (by simp), e₂.u8 (by simp; omega), e₁.u8 (by simp; omega)]
    by_cases hlast : s.tsoUsedLen = s.tsoTotalLen
    · rw [hd₄, if_neg (not_not.2 hlast), if_pos hlast, hflags]
    · rw [hd₄, if_pos hlast, if_neg hlast, Tcp.setFlags, ← Nat.add_zero (tcp + 13),
        u8_splice (by rw [e₃.length, e₂.length, e₁.length, List.length_singleton]; omega)
          (by simp), Nat.add_zero]
      simp only [u8, List.getD_cons_zero]
      rw [Tcp.flags, flags_and, ofNat_flags, hflags]
      rfl

def sums (eth tcp : ℕ) : Set ℕ := Set.Ico (eth + 10) (eth + 12) ∪ Set.Ico (tcp + 16) (tcp + 18)

theorem sums_subset : sums eth tcp ⊆ rewritten eth tcp := by
  intro i hi
  simp only [sums, Set.mem_union, Set.mem_Ico] at hi
  rw [mem_rewritten]
  omega

theorem ipChecksum_same (desc : TxDesc) (hsize : ethSize d = eth) :
    SameBut (Set.Ico (eth + 10) (eth + 12)) d (ipChecksum desc d) := by
  unfold ipChecksum
  split_ifs
  · have h := setIpSum_same hsize 0
    have hsize' : ethSize (Ip.setSum d 0) = eth := by
      refine (eth_congr fun i hi => h.u8 ?_).1.trans hsize
      rw [Set.mem_Ico]
      omega
    exact h.trans (setIpSum_same hsize' _)
  · exact .refl _ _

theorem offloadChecksums_same {S : Set ℕ} (desc : TxDesc) (hip : IsIp d)
    (h₁ : SameBut S d (ipChecksum desc d))
    (h₂ : ∃ d', tuChecksum (ipChecksum desc d) = .ok d' ∧ SameBut S (ipChecksum desc d) d') :
    ∃ d', offloadChecksums desc d = .ok d' ∧ SameBut S d d' := by
  obtain ⟨d', hd', h₂⟩ := h₂
  unfold offloadChecksums
  split
  · rw [require, if_pos (.inl hip)]
    simp only [bind, Except.bind]
    split_ifs
    · exact ⟨d', hd', h₁.trans h₂⟩
    · exact ⟨_, rfl, h₁⟩
  · exact ⟨d, rfl, .refl _ _⟩

theorem tuChecksum_ok (hd : HasTcp d eth tcp) :
    ∃ d', tuChecksum d = .ok d' ∧ SameBut (sums eth tcp) d d' := by
  have h₁ := (setSum_same d tcp 0).mono (T := sums eth tcp) Set.subset_union_right
  obtain ⟨sum, hsum⟩ := cksum_ok (hd.same (h₁.mono sums_subset)).ip
  have h₂ := (setSum_same (Tcp.setSum d tcp 0) tcp sum).mono (T := sums eth tcp)
    Set.subset_union_right
  refine ⟨_, ?_, h₁.trans h₂⟩
  rw [tuChecksum, hd.tcpPtr, hd.udpPtr]
  simp only [bind, Except.bind, hsum]
  rfl

theorem offloadChecksums_ok (desc : TxDesc) (hd : HasTcp d eth tcp) :
    ∃ d', offloadChecksums desc d = .ok d' ∧ SameBut (sums eth tcp) d d' := by
  have h₁ : SameBut (sums eth tcp) d (ipChecksum desc d) :=
    (ipChecksum_same desc hd.size).mono Set.subset_union_left
  exact offloadChecksums_same desc hd.ip h₁ (tuChecksum_ok (hd.same (h₁.mono sums_subset)))

end TxPath

namespace TsoJob

variable {P : NicParams} {j : TsoJob P} {s : TxPath} {k : ℕ}

theorem count_eq (h : 0 < j.payload.length) : j.count = (j.payload.length - 1) / j.mss + 1 := by
  have hm : 0 < j.mss := j.mss_pos
  rw [count, show j.payload.length + j.mss - 1 = j.payload.length - 1 + j.mss by omega,
    Nat.add_div_right _ hm]

theorem last_iff {n : ℕ} (h : 0 < n) (hlo : k * j.mss < n) (hhi : n ≤ (k + 1) * j.mss)
    (hn : n ≤ j.payload.length) (hfull : n = (k + 1) * j.mss ∨ n = j.payload.length) :
    n = j.payload.length ↔ k + 1 = j.count := by
  have hm : 0 < j.mss := j.mss_pos
  rw [count_eq (by omega)]
  rw [Nat.add_right_cancel_iff, eq_comm (a := k), Nat.div_eq_iff hm]
  rw [Nat.add_mul, Nat.one_mul] at hhi hfull
  omega

theorem isSegment {p : EthPacket} (desc : TxDesc) (htso : s.useTso = true) (hpkts : s.tsoPkts = k)
    (hseq : s.tsoPrevSeq = k * j.mss)
    (hlast : s.tsoUsedLen = s.tsoTotalLen ↔ k + 1 = j.count)
    (hp : p.data = j.header ++ j.chunk k) :
    ∃ d d', s.segmentData p.data = .ok d ∧ TxPath.offloadChecksums desc d = .ok d'
      ∧ HasTcp p.data j.ipStart j.tcpStart ∧ j.IsSegment k { p with data := d' } := by
  have hd : HasTcp p.data j.ipStart j.tcpStart := by
    rw [hp]
    exact j.tcp.append _
  obtain ⟨d, hok, hnum⟩ := TxPath.segmentHeaders_ok (s := s) hd
  have hd₁ := hd.same hnum.same
  obtain ⟨d', hok', hsums⟩ := TxPath.offloadChecksums_ok desc hd₁
  have hlen : j.tcpStart + 20 ≤ j.header.length := j.tcp.length
  have hhlen : j.ipStart + 20 ≤ j.tcpStart := j.tcp.hlen
  have hsame : SameBut (rewritten j.ipStart j.tcpStart) p.data d' :=
    hnum.same.trans (hsums.mono TxPath.sums_subset)
  have hdata : d'.length = j.header.length + (j.chunk k).length := by
    rw [hsame.length, hp, List.length_append]
  have hget : ∀ i < j.header.length, u8 p.data i = u8 j.header i := fun i hi => by
    rw [hp, u8_append hi]
  have hb16 : ∀ i, i + 1 < j.header.length → be16 p.data i = be16 j.header i := fun i hi => by
    simp only [be16]
    rw [hget i (by omega), hget (i + 1) hi]
  refine ⟨d, d', ?_, hok', hd, ?_, hdata, ?_, ?_, ?_, ?_, ?_⟩
  · rw [TxPath.segmentData, if_pos htso]
    exact hok
  · refine List.ext_getElem? fun i => ?_
    rw [List.getElem?_drop, hsame.get, hp, List.getElem?_append_right (Nat.le_add_right _ _),
      Nat.add_sub_cancel_left]
    rw [mem_rewritten]
    omega
  · intro i hi hni
    rw [hsame.get i hni, hp, List.getElem?_append_left hi]
  · rw [hsums.be16 (by simp [TxPath.sums]; omega) (by simp [TxPath.sums]; omega), hnum.len,
      EthPacket.length, hsame.length]
  · rw [hsums.be16 (by simp [TxPath.sums]; omega) (by simp [TxPath.sums]; omega), hnum.id, hpkts,
      hb16 _ (by omega)]
    rfl
  · rw [Tcp.seq, hsums.be32 (fun i _ _ => by simp [TxPath.sums]; omega), hnum.seq,
      hseq, be32, hb16 _ (by omega), hb16 _ (by omega)]
    rfl
  · rw [hsums.u8 (by simp [TxPath.sums]; omega), hnum.flags,
      hget _ (by omega)]
    simp only [hlast]
    rfl

end TsoJob

end Gem5
