import Gem5.Inet

/-!
# Writing a field of a header

A field that is written is read back, and every byte outside it stays (`SameBut`). The fields that
are rewritten on the way through the device lie apart from those that say what the packet is and
where its headers are (`HasTcp.same`).
-/

namespace Gem5

open List

namespace Inet

open Bytes

variable {d d' d'' new : List Byte} {S T : Set ℕ} {i off eth tcp udp : ℕ}

/-- The packets are as long as each other and differ in the bytes at `S` at most. -/
structure SameBut (S : Set ℕ) (d d' : List Byte) : Prop where
  length : d'.length = d.length
  get : ∀ i ∉ S, d'[i]? = d[i]?

namespace SameBut

theorem refl (S : Set ℕ) (d : List Byte) : SameBut S d d := ⟨rfl, fun _ _ => rfl⟩

theorem trans (h : SameBut S d d') (h' : SameBut S d' d'') : SameBut S d d'' :=
  ⟨h'.length.trans h.length, fun i hi => (h'.get i hi).trans (h.get i hi)⟩

theorem mono (h : SameBut S d d') (hT : S ⊆ T) : SameBut T d d' :=
  ⟨h.length, fun i hi => h.get i fun hS => hi (hT hS)⟩

theorem splice (d : List Byte) (off : ℕ) (new : List Byte) :
    SameBut (Set.Ico off (off + new.length)) d (Bytes.splice d off new) := by
  refine ⟨length_splice, fun i hi => getElem?_splice_of_outside ?_⟩
  rw [Set.mem_Ico] at hi
  omega

theorem u8 (h : SameBut S d d') (hi : i ∉ S) : Inet.u8 d' i = Inet.u8 d i := by
  simp only [Inet.u8, getD_eq_getElem?_getD, h.get i hi]

theorem be16 (h : SameBut S d d') (h₀ : i ∉ S) (h₁ : i + 1 ∉ S) :
    Inet.be16 d' i = Inet.be16 d i := by
  simp only [Inet.be16, h.u8 h₀, h.u8 h₁]

theorem be32 (h : SameBut S d d') (hi : ∀ j, i ≤ j → j < i + 4 → j ∉ S) :
    Inet.be32 d' i = Inet.be32 d i := by
  simp only [Inet.be32]
  rw [h.be16 (hi _ (by omega) (by omega)) (hi _ (by omega) (by omega)),
    h.be16 (hi _ (by omega) (by omega)) (hi _ (by omega) (by omega))]

end SameBut

theorem u8_append (h : i < d.length) : u8 (d ++ d') i = u8 d i := by
  simp only [u8, getD_eq_getElem?_getD, getElem?_append_left h]

theorem u8_splice (h : off + new.length ≤ d.length) (hi : i < new.length) :
    u8 (splice d off new) (off + i) = u8 new i := by
  simp only [u8, getD_eq_getElem?_getD, getElem?_splice_add h hi]

theorem be16_splice (h : off + 2 ≤ d.length) (x : ℕ) :
    be16 (splice d off (toBE 2 x)) off = x % 2 ^ 16 := by
  have h₀ : u8 (splice d off (toBE 2 x)) (off + 0) = u8 (toBE 2 x) 0 :=
    u8_splice (by simpa using h) (by simp)
  have h₁ : u8 (splice d off (toBE 2 x)) (off + 1) = u8 (toBE 2 x) 1 :=
    u8_splice (by simpa using h) (by simp)
  have hb : toBE 2 x = [BitVec.ofNat 8 (x / 256), BitVec.ofNat 8 x] := rfl
  rw [hb] at h₀ h₁ ⊢
  rw [Nat.add_zero] at h₀
  rw [be16, h₀, h₁]
  simp only [u8, getD_cons_zero, getD_cons_succ, BitVec.toNat_ofNat]
  omega

theorem be32_splice (h : off + 4 ≤ d.length) (x : ℕ) :
    be32 (splice d off (toBE 4 x)) off = x % 2 ^ 32 := by
  have hb : toBE 4 x = [BitVec.ofNat 8 (x / 256 / 256 / 256), BitVec.ofNat 8 (x / 256 / 256),
    BitVec.ofNat 8 (x / 256), BitVec.ofNat 8 x] := rfl
  have hi : ∀ i < 4, u8 (splice d off (toBE 4 x)) (off + i) = u8 (toBE 4 x) i := fun i hi =>
    u8_splice (by simpa using h) (by simpa using hi)
  have h₀ := hi 0 (by omega)
  have h₁ := hi 1 (by omega)
  have h₂ := hi 2 (by omega)
  have h₃ := hi 3 (by omega)
  rw [Nat.add_zero] at h₀
  simp only [be32, be16, Nat.add_assoc, Nat.reduceAdd]
  rw [h₀, h₁, h₂, h₃, hb]
  simp only [u8, getD_cons_zero, getD_cons_succ, BitVec.toNat_ofNat]
  omega

theorem mem_rewritten : i ∈ rewritten eth tcp ↔ eth + 2 ≤ i ∧ i < eth + 6
    ∨ eth + 10 ≤ i ∧ i < eth + 12 ∨ tcp + 4 ≤ i ∧ i < tcp + 8 ∨ i = tcp + 13
    ∨ tcp + 16 ≤ i ∧ i < tcp + 18 := Iff.rfl

theorem mem_rewrittenUdp : i ∈ rewrittenUdp eth udp ↔ eth + 2 ≤ i ∧ i < eth + 6
    ∨ eth + 10 ≤ i ∧ i < eth + 12 ∨ udp + 4 ≤ i ∧ i < udp + 8 := Iff.rfl

theorem ethSize_ge (d : List Byte) : 14 ≤ ethSize d := by
  unfold ethSize
  split_ifs <;> omega

theorem eth_congr (h : ∀ i < ethSize d, u8 d' i = u8 d i) :
    ethSize d' = ethSize d ∧ ethType d' = ethType d := by
  have hge := ethSize_ge d
  have h₁₂ : be16 d' 12 = be16 d 12 := by
    simp only [be16]
    rw [h 12 (by omega), h 13 (by omega)]
  have hv : isVlan d' ↔ isVlan d := by simp only [isVlan, h₁₂]
  refine ⟨by simp only [ethSize, hv], ?_⟩
  unfold ethType
  by_cases hvlan : isVlan d
  · have hsize : ethSize d = 18 := if_pos hvlan
    rw [if_pos (hv.2 hvlan), if_pos hvlan]
    simp only [be16]
    rw [h 16 (by omega), h 17 (by omega)]
  · rw [if_neg (fun h => hvlan (hv.1 h)), if_neg hvlan, h₁₂]

theorem ip_congr (hip : IsIp d) (hsize : ethSize d = eth) (h : ∀ i < eth, u8 d' i = u8 d i)
    (h₀ : u8 d' eth = u8 d eth) (h₉ : u8 d' (eth + 9) = u8 d (eth + 9)) :
    IsIp d' ∧ ethSize d' = eth ∧ Ip.proto d' = Ip.proto d ∧ Ip.pstart d' = Ip.pstart d := by
  have hlt : ∀ i < ethSize d, u8 d' i = u8 d i := by
    rwa [hsize]
  obtain ⟨hs, ht⟩ := eth_congr hlt
  have heth := hs.trans hsize
  refine ⟨ht.trans hip, heth, ?_, ?_⟩
  · rw [Ip.proto, Ip.proto, heth, hsize, h₉]
  · rw [Ip.pstart, Ip.pstart, Ip.hlen, Ip.hlen, heth, hsize, h₀]

theorem HasTcp.congr (hd : HasTcp d eth tcp) (hl : tcp + 20 ≤ d'.length)
    (h : ∀ i < eth, u8 d' i = u8 d i) (h₀ : u8 d' eth = u8 d eth)
    (h₉ : u8 d' (eth + 9) = u8 d (eth + 9)) : HasTcp d' eth tcp := by
  obtain ⟨hip, hsize, hproto, hstart⟩ := ip_congr hd.ip hd.size h h₀ h₉
  exact ⟨hip, hproto.trans hd.proto, hsize, hstart.trans hd.start, hd.hlen, hl⟩

theorem HasUdp.same (hd : HasUdp d eth udp) (h : SameBut (rewrittenUdp eth udp) d d') :
    HasUdp d' eth udp := by
  have hlen := hd.hlen
  have hout : ∀ i ≤ eth, i ∉ rewrittenUdp eth udp := fun i hi => by
    rw [mem_rewrittenUdp]
    omega
  have hout₉ : eth + 9 ∉ rewrittenUdp eth udp := by
    rw [mem_rewrittenUdp]
    omega
  obtain ⟨hip, hsize, hproto, hstart⟩ := ip_congr hd.ip hd.size
    (fun i hi => h.u8 (hout i hi.le)) (h.u8 (hout eth le_rfl)) (h.u8 hout₉)
  exact ⟨hip, hproto.trans hd.proto, hsize, hstart.trans hd.start, hlen, by
    rw [h.length]
    exact hd.length⟩

theorem HasTcp.same (hd : HasTcp d eth tcp) (h : SameBut (rewritten eth tcp) d d') :
    HasTcp d' eth tcp := by
  have hlen := hd.hlen
  refine hd.congr (by rw [h.length]; exact hd.length) (fun i hi => h.u8 ?_) (h.u8 ?_) (h.u8 ?_) <;>
    · rw [mem_rewritten]
      omega

theorem HasTcp.append (hd : HasTcp d eth tcp) (l : List Byte) : HasTcp (d ++ l) eth tcp := by
  have hlen := hd.hlen
  have hl := hd.length
  refine hd.congr ?_ (fun i hi => u8_append ?_) (u8_append ?_) (u8_append ?_)
  · rw [length_append]
    omega
  all_goals omega

theorem not_ip6 (h : IsIp d) : ¬ IsIp6 d := fun h6 => by
  rw [IsIp] at h
  rw [IsIp6, h] at h6
  omega

theorem HasTcp.tcpPtr (hd : HasTcp d eth tcp) : Inet.tcpPtr d = .ok (some tcp) := by
  rw [Inet.tcpPtr, transport, if_pos hd.ip, if_pos hd.proto, hd.start]

theorem HasTcp.udpPtr (hd : HasTcp d eth tcp) : Inet.udpPtr d = .ok none := by
  rw [Inet.udpPtr, transport, if_pos hd.ip, if_neg (by rw [hd.proto]; omega)]

theorem HasUdp.tcpPtr (hd : HasUdp d eth udp) : Inet.tcpPtr d = .ok none := by
  rw [Inet.tcpPtr, transport, if_pos hd.ip, if_neg (by rw [hd.proto]; omega)]

theorem HasUdp.udpPtr (hd : HasUdp d eth udp) : Inet.udpPtr d = .ok (some udp) := by
  rw [Inet.udpPtr, transport, if_pos hd.ip, if_pos hd.proto, hd.start]

theorem cksum_ok (h : IsIp d) : ∃ sum, Inet.cksum d = .ok sum := ⟨_, if_pos h⟩

section Ip

variable (hsize : ethSize d = eth)

include hsize

theorem setId_same (id : ℕ) : SameBut (Set.Ico (eth + 4) (eth + 6)) d (Ip.setId d id) := by
  have h := SameBut.splice d (eth + 4) (toBE 2 id)
  rw [length_toBE] at h
  rwa [Ip.setId, hsize]

theorem setLen_same (len : ℕ) : SameBut (Set.Ico (eth + 2) (eth + 4)) d (Ip.setLen d len) := by
  have h := SameBut.splice d (eth + 2) (toBE 2 len)
  rw [length_toBE] at h
  rwa [Ip.setLen, hsize]

theorem setIpSum_same (sum : ℕ) :
    SameBut (Set.Ico (eth + 10) (eth + 12)) d (Ip.setSum d sum) := by
  have h := SameBut.splice d (eth + 10) (toLE 2 sum)
  rw [length_toLE] at h
  rwa [Ip.setSum, hsize]

end Ip

theorem setSeq_same (d : List Byte) (tcp seq : ℕ) :
    SameBut (Set.Ico (tcp + 4) (tcp + 8)) d (Tcp.setSeq d tcp seq) := by
  have h := SameBut.splice d (tcp + 4) (toBE 4 seq)
  rwa [length_toBE] at h

theorem setFlags_same (d : List Byte) (tcp flags : ℕ) :
    SameBut (Set.Ico (tcp + 13) (tcp + 14)) d (Tcp.setFlags d tcp flags) :=
  .splice d (tcp + 13) [BitVec.ofNat 8 flags]

theorem setSum_same (d : List Byte) (tcp sum : ℕ) :
    SameBut (Set.Ico (tcp + 16) (tcp + 18)) d (Tcp.setSum d tcp sum) := by
  have h := SameBut.splice d (tcp + 16) (toLE 2 sum)
  rwa [length_toLE] at h

theorem setUdpLen_same (d : List Byte) (udp len : ℕ) :
    SameBut (Set.Ico (udp + 4) (udp + 6)) d (Udp.setLen d udp len) := by
  have h := SameBut.splice d (udp + 4) (toBE 2 len)
  rwa [length_toBE] at h

theorem setUdpSum_same (d : List Byte) (udp sum : ℕ) :
    SameBut (Set.Ico (udp + 6) (udp + 8)) d (Udp.setSum d udp sum) := by
  have h := SameBut.splice d (udp + 6) (toLE 2 sum)
  rwa [length_toLE] at h

end Inet

end Gem5
