import Gem5.Proofs.HeaderWalk
import Gem5.Proofs.Inet

/-!
# The walks over a chain of extension headers

`Ip6Opt::len` is eight more than the length field, in eight bits, and so is the length of a header
only if the field is 0. Up to the first header with another one the walk goes along the chain
(`chain_walk_iff`), and from there on it takes the bytes where it happens to be for headers.
-/

namespace Gem5

open List

namespace Inet

open Bytes Loop Machine

namespace Ip6

variable {d : List Byte} {nxt len proto total i n : ℕ}

/-! ## The walk of `extensions` is the loop -/

theorem walk_succ (n nxt len : ℕ) : walk d (ethSize d + 40) (plen d) (n + 1) nxt len
    = match extTurn d none (nxt, len) with
      | .stop r => r
      | .again s => walk d (ethSize d + 40) (plen d) n s.1 s.2 := by
  by_cases h : Extension nxt
  · have hgoes : Goes none nxt := ⟨h, nofun⟩
    by_cases hle : len + optLen d (ethSize d + 40 + len) ≤ plen d
    · rw [walk, if_pos h, extTurn_of_le (s := (nxt, len)) hgoes hle]
      simp [require, hle, ok_bind]
    · simp only [walk, if_pos h, extTurn, if_pos hgoes, if_neg hle]
      simp [require, hle]
      rfl
  · have hstop : ¬ Goes none nxt := fun hgoes => h hgoes.1
    simp [walk, h, extTurn, hstop]

theorem walk_eq : walk d (ethSize d + 40) (plen d) (n + 1) nxt len
    = (loop (extTurn d none) n (nxt, len)).getD
        (.error (.undefined "while (ip6Extension(nxt))")) := by
  induction n generalizing nxt len with
  | zero =>
    rw [walk_succ]
    cases hturn : extTurn d none (nxt, len) with
    | stop r => rw [loop_stop hturn, Option.getD_some]
    | again s => simp [walk, loop, hturn]
  | succ n ih =>
    rw [walk_succ]
    cases hturn : extTurn d none (nxt, len) with
    | stop r => rw [loop_stop hturn, Option.getD_some]
    | again s => rw [loop_again hturn, ← ih]

theorem extensions_iff : extensions d = .ok (proto, total) ↔
    ∃ n, loop (extTurn d none) n (Ip6.nxt d, 0) = some (.ok (proto, total)) := by
  rw [extensions, walk_eq]
  constructor
  · intro h
    rcases hloop : loop (extTurn d none) (plen d + 1) (Ip6.nxt d, 0) with _ | r
    · simp [hloop] at h
    · rw [hloop, Option.getD_some] at h
      exact ⟨plen d + 1, by rw [hloop, h]⟩
  · rintro ⟨n, h⟩
    have hscan := scan_of_loop h
    rw [scan] at hscan
    rw [hscan, Option.getD_some]

/-! ## Along the chain -/

theorem not_extension_of_loop {s : ℕ × ℕ}
    (h : loop (extTurn d none) n s = some (.ok (proto, total))) : ¬ Extension proto := by
  obtain ⟨⟨nxt, len⟩, ht⟩ := exists_of_loop h
  by_cases hgoes : Goes none nxt
  · simp only [extTurn, if_pos hgoes] at ht
    split_ifs at ht
    cases ht
  · simp only [extTurn, if_neg hgoes] at ht
    cases ht
    exact fun hext => hgoes ⟨hext, by simp⟩

theorem extension_iff (h : ¬ Chained nxt) : Extension nxt ↔ nxt = 50 ∨ nxt = 51 := by
  simp only [Chained, mem_cons, not_mem_nil, or_false, not_or] at h
  simp only [Extension, mem_cons, not_mem_nil, or_false]
  omega

theorem extension_of_chained (h : Chained nxt) : Extension nxt := by
  simp only [Chained, mem_cons, not_mem_nil, or_false] at h
  simp only [Extension, mem_cons, not_mem_nil, or_false]
  omega

theorem exists_loop_iff (h : Extension nxt) {r : ℕ × ℕ} :
    (∃ n, loop (extTurn d none) n (nxt, len) = some (.ok r)) ↔
      len + optLen d (ethSize d + 40 + len) ≤ plen d
        ∧ ∃ n, loop (extTurn d none) n (u8 d (ethSize d + 40 + len),
          len + optLen d (ethSize d + 40 + len)) = some (.ok r) := by
  have hgoes : Goes none nxt := ⟨h, nofun⟩
  by_cases hle : len + optLen d (ethSize d + 40 + len) ≤ plen d
  · have hturn := extTurn_of_le (s := (nxt, len)) hgoes hle
    simp only [hle, true_and]
    constructor
    · rintro ⟨n, hn⟩
      have hmore := loop_mono hn (Nat.le_succ n)
      rw [loop_again hturn] at hmore
      exact ⟨n, hmore⟩
    · rintro ⟨n, hn⟩
      exact ⟨n + 1, (loop_again hturn n).trans hn⟩
  · have hturn : extTurn d none (nxt, len) = .stop (.error (.assertion "all >= 0")) := by
      simp only [extTurn, if_pos hgoes, if_neg hle]
    simp only [hle, false_and, iff_false]
    rintro ⟨n, hn⟩
    simp [loop_stop hturn] at hn

/-- From a header of the chain on the walk ends as the chain does exactly if it reads on along the
chain, or comes to the same end from where it has left it. -/
theorem chain_walk_iff (hchain : Chain d nxt i proto total) (hi : i = ethSize d + 40 + len)
    (hfits : len + total ≤ plen d) {fuel : ℕ} (hfuel : total < fuel) :
    (∃ n, loop (extTurn d none) n (nxt, len) = some (.ok (proto, len + total))) ↔
      match misread d fuel nxt len with
      | none => proto ≠ 50 ∧ proto ≠ 51
      | some s => s.2 ≤ plen d
        ∧ ∃ n, loop (extTurn d none) n s = some (.ok (proto, len + total)) := by
  induction hchain generalizing len fuel with
  | @done nxt i h =>
    obtain ⟨fuel, rfl⟩ : ∃ f, fuel = f + 1 := ⟨fuel - 1, by omega⟩
    simp only [misread, if_neg h]
    rw [← not_or, ← extension_iff h]
    constructor
    · rintro ⟨n, hn⟩
      exact not_extension_of_loop hn
    · intro hext
      have hstop : ¬ Goes none nxt := fun hgoes => hext hgoes.1
      exact ⟨0, loop_stop (by simp only [extTurn, if_neg hstop, Nat.add_zero]) 0⟩
  | @header nxt i proto total h rest ih =>
    obtain ⟨fuel, rfl⟩ : ∃ f, fuel = f + 1 := ⟨fuel - 1, by omega⟩
    subst hi
    rw [exists_loop_iff (extension_of_chained h)]
    by_cases hzero : u8 d (ethSize d + 40 + len + 1) = 0
    · -- the header is eight bytes long, and the walk goes on behind it
      have hopt : optLen d (ethSize d + 40 + len) = 8 := by rw [optLen, hzero]
      have htrue : trueLen d nxt (ethSize d + 40 + len) = 8 := by
        rw [trueLen, hzero]
        split_ifs <;> rfl
      rw [htrue] at ih hfits hfuel ⊢
      rw [hopt, misread, if_pos h, if_pos hzero, ← Nat.add_assoc]
      have hle : len + 8 ≤ plen d := by omega
      simp only [hle, true_and]
      exact ih (by omega) (by omega) (by omega)
    · simp only [misread, if_pos h, if_neg hzero]

/-! ## What is read at the end of the walk -/

theorem extensionLength_of (h : extensions d = .ok (proto, total)) :
    extensionLength d = .ok total := by
  rw [extensionLength, h]
  rfl

theorem proto_of (h : extensions d = .ok (proto, total)) : Ip6.proto d = .ok proto := by
  rw [Ip6.proto, h]
  rfl

theorem pstart_of (h : extensions d = .ok (proto, total)) :
    pstart d = .ok (ethSize d + 40 + total) := by
  rw [pstart, extensionLength_of h]
  rfl

theorem extensions_of (hlen : extensionLength d = .ok total) (hproto : Ip6.proto d = .ok proto) :
    extensions d = .ok (proto, total) := by
  obtain ⟨⟨p, l⟩, hext, hl⟩ := bind_ok.1 hlen
  rw [proto_of hext] at hproto
  cases hl
  cases hproto
  exact hext

theorem transport_of (h6 : IsIp6 d) (h : extensions d = .ok (proto, total)) (p : ℕ) :
    transport d p = .ok (if proto = p then some (ethSize d + 40 + total) else none) := by
  have hip : ¬ IsIp d := fun hip => not_ip6 hip h6
  rw [transport, if_neg hip, if_pos h6, proto_of h, pstart_of h]
  by_cases hp : proto = p
  · simp [ok_bind, hp]
  · simp [ok_bind, hp]
    rfl

theorem hsplit_of (h6 : IsIp6 d) (h : extensions d = .ok (proto, total)) :
    hsplit d = .ok (headersEnd d proto (ethSize d + 40 + total)) := by
  have hip : ¬ IsIp d := fun hip => not_ip6 hip h6
  rw [hsplit, tcpPtr, udpPtr, transport_of h6 h, transport_of h6 h, ok_bind, ok_bind, headersEnd]
  by_cases hu : proto = 17
  · simp [hu]
    rfl
  · by_cases ht : proto = 6
    · simp [ht]
      rfl
    · simp [hu, ht, hip, h6, pstart_of h]

theorem cksum_of (h6 : IsIp6 d) (h : extensions d = .ok (proto, total)) :
    cksum d = .ok (transportCksum d proto total) := by
  have hip : ¬ IsIp d := fun hip => not_ip6 hip h6
  rw [cksum, if_neg hip, if_pos h6, tuCksum6, h]
  rfl

end Ip6

/-- An IPv6 packet with a destination-options header of `8 * (field + 1)` bytes and a UDP header. -/
def dstOptions (field : ℕ) : List Byte :=
  List.replicate 12 0 ++ [0x86, 0xdd] ++ [0x60, 0, 0, 0, 0, BitVec.ofNat 8 (8 * field + 16), 60, 1]
    ++ List.replicate 32 0 ++ [17, BitVec.ofNat 8 field] ++ List.replicate (8 * field + 6) 1
    ++ [0, 9, 0, 9, 0, 8, 0, 0]

theorem dstOptions_hasChain (field : ℕ) (h : field = 0 ∨ field = 1) :
    Ip6.HasChain (dstOptions field) 17 (8 * (field + 1)) := by
  have hchain : Ip6.Chain (dstOptions field) 60 54 17 (8 * (field + 1) + 0) := by
    have hlen : Ip6.trueLen (dstOptions field) 60 54 = 8 * (field + 1) := by
      rcases h with rfl | rfl <;> decide
    have hnxt : u8 (dstOptions field) 54 = 17 := by
      rcases h with rfl | rfl <;> decide
    rw [← hlen]
    refine .header (by decide) ?_
    rw [hnxt]
    exact .done _ (by decide)
  rcases h with rfl | rfl <;> exact ⟨by decide, hchain, by decide, by decide⟩

end Inet

end Gem5
