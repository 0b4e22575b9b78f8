import Gem5.Eeprom

/-!
# Reading a word of the EEPROM serially

`At a n` is the state after `n` clocks of a read command for address `a`. A write that lets the
clock rise leads from one to the next (`At.clock`). The bit given out is in the register until the
next write, which puts there what it has itself (`dout_iff`).
-/

namespace Gem5

open List

namespace Eeprom

open Machine

variable {s s' : Eeprom} {a : BitVec 8} {n : ℕ} {v : Eecd} {vs vs' : List Eecd} {level : Bool}

theorem toNat_shiftIn (x : BitVec 8) (b : Bool) :
    (shiftIn x b).toNat = (2 * x.toNat + b.toNat) % 256 := by
  revert x b
  decide

/-- After `n` clocks of a command that reads at address `a`. -/
inductive At (a : BitVec 8) : ℕ → Eeprom → Prop
  | opcode {s : Eeprom} {n : ℕ} (hn : n < 8) (hop : s.eeOpBits = n) (haddr : s.eeAddrBits = 0)
      (hdata : s.eeDataBits = 0) (h : s.eeOpcode.toNat = 3 / 2 ^ (8 - n)) : At a n s
  | address {s : Eeprom} {m n : ℕ} (hm : m < 8) (hn : n = 8 + m) (hop : s.eeOpBits = 8)
      (hread : s.eeOpcode = readOpcode) (haddr : s.eeAddrBits = m) (hdata : s.eeDataBits = 0)
      (h : s.eeAddr.toNat % 2 ^ m = a.toNat / 2 ^ (8 - m)) : At a n s
  | data {s : Eeprom} {k n : ℕ} (hk : k < 16) (hn : n = 16 + k) (hop : s.eeOpBits = 8)
      (hread : s.eeOpcode = readOpcode) (haddr : s.eeAddrBits = 8) (hdata : s.eeDataBits = k)
      (h : s.eeAddr = a) : At a n s
  | done {s : Eeprom} (h : s.Idle) : At a 32 s

def command (a : BitVec 8) : List Bool := msbBits readOpcode ++ msbBits a

theorem At.congr (h : At a n s) (hop : s'.eeOpBits = s.eeOpBits)
    (haddr : s'.eeAddrBits = s.eeAddrBits) (hdata : s'.eeDataBits = s.eeDataBits)
    (hcode : s'.eeOpcode = s.eeOpcode) (ha : s'.eeAddr = s.eeAddr) : At a n s' := by
  cases h with
  | opcode h₁ h₂ h₃ h₄ h₅ =>
    exact .opcode h₁ (hop.trans h₂) (haddr.trans h₃) (hdata.trans h₄) (by rw [hcode, h₅])
  | address h₁ h₂ h₃ h₄ h₅ h₆ h₇ =>
    exact .address h₁ h₂ (hop.trans h₃) (hcode.trans h₄) (haddr.trans h₅) (hdata.trans h₆)
      (by rw [ha, h₇])
  | data h₁ h₂ h₃ h₄ h₅ h₆ h₇ =>
    exact .data h₁ h₂ (hop.trans h₃) (hcode.trans h₄) (haddr.trans h₅) (hdata.trans h₆)
      (ha.trans h₇)
  | done h =>
    exact .done ⟨hop.trans h.1, haddr.trans h.2.1, hdata.trans h.2.2.1, hcode.trans h.2.2.2⟩

theorem getElem?_command_opcode (h : n < 8) :
    (command a)[n]? = some (decide (3 / 2 ^ (7 - n) % 2 = 1)) := by
  have : (command a)[n]? = some (readOpcode.getMsbD n) := by
    rw [command, getElem?_append_left (by simpa [msbBits] using h)]
    simp [msbBits, h]
  rw [this]
  interval_cases n <;> rfl

theorem getElem?_command_address (h : n < 8) :
    (command a)[8 + n]? = some (decide (a.toNat / 2 ^ (7 - n) % 2 = 1)) := by
  have : (command a)[8 + n]? = some (a.getMsbD n) := by
    rw [command, getElem?_append_right (by simp [msbBits])]
    simp [msbBits, h]
  rw [this, BitVec.getMsbD_eq_getLsbD, decide_eq_true h, Bool.true_and, BitVec.getLsbD,
    Nat.testBit_eq_decide_div_mod_eq, Nat.sub_right_comm]

theorem bit_eq (w : BitVec 16) {k : ℕ} (h : k < 16) :
    (w >>> (15 - k)).getLsbD 0 = w.getMsbD k := by
  rw [BitVec.getLsbD_ushiftRight, BitVec.getMsbD_eq_getLsbD, decide_eq_true h, Bool.true_and]
  congr 1

/-! ## The clocks of a command -/

theorem finish_of_not_done (h : s.isDone = false) : s.finish = s := by
  rw [finish, h]
  rfl

theorem checkOpcode_of_read (h : s.eeOpBits = 8 → s.eeOpcode = readOpcode) :
    s.checkOpcode = .ok s := by
  rw [checkOpcode, if_neg]
  rintro ⟨h8, hne⟩
  exact hne (.inl (h h8))

theorem clock_of {u : Eeprom} (h : s.clockBit = .ok u) (hdone : u.isDone = false)
    (hread : u.eeOpBits = 8 → u.eeOpcode = readOpcode) : s.clock = .ok u := by
  rw [clock, h, ok_bind, finish_of_not_done hdone, checkOpcode_of_read hread]

theorem opcode_step (h : n < 8) :
    (2 * (3 / 2 ^ (8 - n)) + (decide (3 / 2 ^ (7 - n) % 2 = 1)).toNat) % 256 = 3 / 2 ^ (7 - n) := by
  interval_cases n <;> rfl

theorem address_step {x y : ℕ} (hy : y < 256) (h : n < 8) (hx : x % 2 ^ n = y / 2 ^ (8 - n)) :
    (2 * x + (decide (y / 2 ^ (7 - n) % 2 = 1)).toNat) % 256 % 2 ^ (n + 1) = y / 2 ^ (7 - n) := by
  by_cases hb : y / 2 ^ (7 - n) % 2 = 1
  · rw [decide_eq_true hb, Bool.toNat_true]
    interval_cases n <;> omega
  · rw [decide_eq_false hb, Bool.toNat_false]
    interval_cases n <;> omega

theorem clock_opcode (hn : n < 8) (hop : s.eeOpBits = n) (haddr : s.eeAddrBits = 0)
    (hdata : s.eeDataBits = 0) (h : s.eeOpcode.toNat = 3 / 2 ^ (8 - n))
    (hbit : s.eecd.din = decide (3 / 2 ^ (7 - n) % 2 = 1)) :
    Ends s.clock fun s' => At a (n + 1) s' ∧ s'.flash = s.flash ∧ s'.eecd = s.eecd := by
  have hcode : (shiftIn s.eeOpcode s.eecd.din).toNat = 3 / 2 ^ (7 - n) := by
    rw [toNat_shiftIn, h, hbit, opcode_step hn]
  have hread : n + 1 = 8 → shiftIn s.eeOpcode s.eecd.din = readOpcode := by
    intro h8
    apply BitVec.eq_of_toNat_eq
    rw [hcode, show 7 - n = 0 by omega]
    rfl
  have hclock : s.clockBit = .ok { s with
      eeOpcode := shiftIn s.eeOpcode s.eecd.din, eeOpBits := n + 1 } := by
    rw [clockBit, if_pos (by omega), hop]
  refine .of_ok (clock_of hclock ?_ hread) ⟨?_, rfl, rfl⟩
  · simp [isDone, hdata]
  · rcases Nat.lt_or_ge (n + 1) 8 with hlt | hge
    · refine .opcode hlt rfl haddr hdata ?_
      rwa [show 8 - (n + 1) = 7 - n by omega]
    · have h8 : n + 1 = 8 := by omega
      have hsmall := a.isLt
      refine .address (m := 0) (by omega) h8 h8 (hread h8) haddr hdata ?_
      simp only []
      omega

theorem clock_address {m : ℕ} (hm : m < 8) (hop : s.eeOpBits = 8) (hread : s.eeOpcode = readOpcode)
    (haddr : s.eeAddrBits = m) (hdata : s.eeDataBits = 0)
    (h : s.eeAddr.toNat % 2 ^ m = a.toNat / 2 ^ (8 - m))
    (hbit : s.eecd.din = decide (a.toNat / 2 ^ (7 - m) % 2 = 1)) :
    Ends s.clock fun s' => At a (8 + m + 1) s' ∧ s'.flash = s.flash ∧ s'.eecd = s.eecd := by
  have hnext : (shiftIn s.eeAddr s.eecd.din).toNat % 2 ^ (m + 1) = a.toNat / 2 ^ (7 - m) := by
    rw [toNat_shiftIn, hbit, address_step a.isLt hm h]
  have hclock : s.clockBit = .ok { s with
      eeAddr := shiftIn s.eeAddr s.eecd.din, eeAddrBits := m + 1 } := by
    rw [clockBit, if_neg (by omega), if_pos ⟨by omega, hread⟩, haddr]
  refine .of_ok (clock_of hclock ?_ fun _ => hread) ⟨?_, rfl, rfl⟩
  · simp [isDone, hdata]
  · rcases Nat.lt_or_ge (m + 1) 8 with hlt | hge
    · refine .address hlt (by omega) hop hread rfl hdata ?_
      rwa [show 8 - (m + 1) = 7 - m by omega]
    · have h8 : m + 1 = 8 := by omega
      refine .data (k := 0) (by omega) (by omega) hop hread h8 hdata ?_
      apply BitVec.eq_of_toNat_eq
      rw [h8, show 7 - m = 0 by omega, pow_zero, Nat.div_one] at hnext
      rw [← hnext]
      exact (Nat.mod_eq_of_lt (BitVec.isLt _)).symm

theorem clock_data {k : ℕ} (hk : k < 16) (hop : s.eeOpBits = 8) (hread : s.eeOpcode = readOpcode)
    (haddr : s.eeAddrBits = 8) (hdata : s.eeDataBits = k) (h : s.eeAddr = a)
    (ha : a.toNat / 2 < 64) :
    Ends s.clock fun s' => At a (16 + k + 1) s' ∧ s'.flash = s.flash
      ∧ s'.eecd = { s.eecd with dout := (s.flash ⟨a.toNat / 2, ha⟩).getMsbD k } := by
  subst h
  have hclock : s.clockBit = .ok { s with
      eecd := { s.eecd with dout := (s.flash ⟨s.eeAddr.toNat / 2, ha⟩).getMsbD k }
      eeDataBits := k + 1 } := by
    rw [clockBit, if_neg (by omega), if_neg (by omega), if_pos ⟨by omega, hread⟩, dif_pos ha, hdata]
    simp only [bit_eq _ hk]
  rcases Nat.lt_or_ge (k + 1) 16 with hlt | hge
  · refine .of_ok (clock_of hclock ?_ fun _ => hread) ⟨?_, rfl, rfl⟩
    · have hne : k + 1 ≠ 16 := by omega
      simp [isDone, hne, hread, readOpcode, rdsrOpcode]
    · exact .data hlt (by omega) hop hread haddr rfl rfl
  · have h16 : k + 1 = 16 := by omega
    rw [clock, hclock, ok_bind, finish, if_pos (by simp [isDone, h16, hread]), checkOpcode,
      if_neg (by simp), show 16 + k + 1 = 32 by omega]
    exact ⟨.done ⟨rfl, rfl, rfl, rfl⟩, rfl, rfl⟩

theorem At.clock (h : At a n s) (hn : n < 32) (ha : a.toNat / 2 < 64)
    (hbit : ∀ b, (command a)[n]? = some b → s.eecd.din = b) :
    Ends s.clock fun s' => At a (n + 1) s' ∧ s'.flash = s.flash ∧ s'.eecd.sk = s.eecd.sk
      ∧ ∀ k, n = 16 + k → s'.eecd.dout = (s.flash ⟨a.toNat / 2, ha⟩).getMsbD k := by
  cases h with
  | opcode h₁ h₂ h₃ h₄ h₅ =>
    refine (clock_opcode (a := a) h₁ h₂ h₃ h₄ h₅ (hbit _ (getElem?_command_opcode h₁))).mono ?_
    rintro s' ⟨hat, hflash, hsame⟩
    exact ⟨hat, hflash, by rw [hsame], fun k hk => by omega⟩
  | address h₁ h₂ h₃ h₄ h₅ h₆ h₇ =>
    subst h₂
    refine (clock_address h₁ h₃ h₄ h₅ h₆ h₇ (hbit _ (getElem?_command_address h₁))).mono ?_
    rintro s' ⟨hat, hflash, hsame⟩
    exact ⟨hat, hflash, by rw [hsame], fun k hk => by omega⟩
  | data h₁ h₂ h₃ h₄ h₅ h₆ h₇ =>
    subst h₂
    refine (clock_data h₁ h₃ h₄ h₅ h₆ h₇ ha).mono ?_
    rintro s' ⟨hat, hflash, hout⟩
    refine ⟨hat, hflash, by rw [hout], fun k hk => ?_⟩
    obtain rfl := Nat.add_left_cancel hk
    rw [hout]
  | done h => omega

/-! ## Writes to the register -/

theorem write_level (h : ¬ (s.eecd.sk = false ∧ v.sk = true)) :
    s.writeEecd v = .ok (grant { s with eecd := v }) := by
  rw [writeEecd, take, if_neg h]
  rfl

theorem write_edge (h : s.eecd.sk = false ∧ v.sk = true) :
    s.writeEecd v = (clock { s with eecd := v }).bind fun s' => .ok s'.grant := by
  rw [writeEecd, take, if_pos h]
  rfl

theorem At.write_level (h : At a n s) (hv : ¬ (s.eecd.sk = false ∧ v.sk = true)) :
    Ends (s.writeEecd v) fun s' => At a n s' ∧ s'.flash = s.flash ∧ s'.eecd.sk = v.sk
      ∧ s'.eecd.dout = v.dout :=
  .of_ok (Eeprom.write_level hv) ⟨h.congr rfl rfl rfl rfl rfl, rfl, rfl, rfl⟩

theorem At.write_edge (h : At a n s) (hv : s.eecd.sk = false ∧ v.sk = true) (hn : n < 32)
    (ha : a.toNat / 2 < 64) (hbit : ∀ b, (command a)[n]? = some b → v.din = b) :
    Ends (s.writeEecd v) fun s' => At a (n + 1) s' ∧ s'.flash = s.flash ∧ s'.eecd.sk = v.sk
      ∧ ∀ k, n = 16 + k → s'.eecd.dout = (s.flash ⟨a.toNat / 2, ha⟩).getMsbD k := by
  have hat : At a n { s with eecd := v } := h.congr rfl rfl rfl rfl rfl
  obtain ⟨s', hs', hat', hflash, hsk, hout⟩ := (hat.clock hn ha hbit).exists
  rw [Eeprom.write_edge hv, hs']
  exact ⟨hat'.congr rfl rfl rfl rfl rfl, hflash, hsk, hout⟩

theorem edges_append (level : Bool) : ∀ vs vs' : List Eecd,
    edges level (vs ++ vs') = edges level vs ++ edges (levelAfter level vs) vs'
  | [], _ => rfl
  | v :: vs, vs' => by
    rw [cons_append, edges, edges, edges_append v.sk vs vs', append_assoc]
    rfl

theorem At.run (h : At a n s) (ha : a.toNat / 2 < 64)
    (hlen : n + (edges s.eecd.sk vs).length ≤ 32)
    (hbits : ∀ i b, (edges s.eecd.sk vs)[i]? = some b →
      ∀ b', (command a)[n + i]? = some b' → b = b') :
    Ends (run writeEecd s vs) fun s' => At a (n + (edges s.eecd.sk vs).length) s'
      ∧ s'.flash = s.flash ∧ s'.eecd.sk = levelAfter s.eecd.sk vs := by
  induction vs generalizing s n with
  | nil => exact ⟨h, rfl, rfl⟩
  | cons v vs ih =>
    by_cases hv : s.eecd.sk = false ∧ v.sk = true
    · rw [edges, if_pos hv, singleton_append] at hlen hbits ⊢
      rw [length_cons] at hlen ⊢
      have hbit : ∀ b, (command a)[n]? = some b → v.din = b := fun b hb =>
        hbits 0 v.din rfl b hb
      refine Ends.bind (h.write_edge hv (by omega) ha hbit) ?_
      rintro s₁ ⟨hat, hflash, hsk, -⟩
      rw [← hsk] at hlen hbits ⊢
      have hrest := ih hat (by omega) fun i b hb b' hb' => by
        refine hbits (i + 1) b hb b' ?_
        rw [← hb']
        congr 1
        omega
      refine hrest.mono ?_
      rintro s' ⟨hat', hflash', hlev⟩
      refine ⟨?_, hflash'.trans hflash, by rw [hlev, levelAfter, hsk]⟩
      rw [show n + ((edges s₁.eecd.sk vs).length + 1) = n + 1 + (edges s₁.eecd.sk vs).length by
        omega]
      exact hat'
    · rw [edges, if_neg hv, nil_append] at hlen hbits ⊢
      refine Ends.bind (h.write_level hv) ?_
      rintro s₁ ⟨hat, hflash, hsk, -⟩
      rw [← hsk] at hlen hbits ⊢
      refine (ih hat hlen hbits).mono ?_
      rintro s' ⟨hat', hflash', hlev⟩
      exact ⟨hat', hflash'.trans hflash, by rw [hlev, levelAfter, hsk]⟩

theorem At.idle (h : s.Idle) : At a 0 s :=
  .opcode (by omega) h.1 h.2.1 h.2.2.1 (by rw [h.2.2.2]; rfl)

theorem run_command (hidle : s.Idle) (ha : a.toNat / 2 < 64) {data : List Bool}
    (hdata : data.length = 16) (hbits : (edges s.eecd.sk vs) <+: command a ++ data) :
    Ends (run writeEecd s vs) fun s' => At a (edges s.eecd.sk vs).length s'
      ∧ s'.flash = s.flash ∧ s'.eecd.sk = levelAfter s.eecd.sk vs := by
  have hlen := hbits.length_le
  have hcmd : (command a).length = 16 := by simp [command, msbBits]
  rw [length_append, hcmd, hdata] at hlen
  have h := At.run (At.idle (a := a) hidle) ha (show 0 + (edges s.eecd.sk vs).length ≤ 32 by omega)
    fun i b hb b' hb' => by
    obtain ⟨hi, rfl⟩ := List.getElem?_eq_some_iff.1 hb
    rw [Nat.zero_add] at hb'
    obtain ⟨hi', rfl⟩ := List.getElem?_eq_some_iff.1 hb'
    rw [hbits.getElem hi, List.getElem_append_left hi']
  rwa [Nat.zero_add] at h

/-- What is read after the `k`-th data clock is its bit exactly if the last write has let the clock
rise or has the bit itself. -/
theorem dout_iff (hidle : s.Idle) (ha : a.toNat / 2 < 64) {data : List Bool}
    (hdata : data.length = 16) (hbits : (edges s.eecd.sk vs) <+: command a ++ data) {k : ℕ}
    (hk : (edges s.eecd.sk vs).length = 17 + k) :
    (Ends (run writeEecd s vs) fun s' =>
      s'.eecd.dout = (s.flash ⟨a.toNat / 2, ha⟩).getMsbD k)
    ↔ Held s.eecd.sk vs ((s.flash ⟨a.toNat / 2, ha⟩).getMsbD k) := by
  obtain ⟨ws, v, rfl⟩ : ∃ ws v, vs = ws ++ [v] := by
    rcases eq_nil_or_concat vs with rfl | ⟨ws, v, h⟩
    · rw [edges, length_nil] at hk
      omega
    · exact ⟨ws, v, by rw [h, concat_eq_append]⟩
  rw [edges_append] at hbits hk
  obtain ⟨u, hu, hat, hflash, hlev⟩ :=
    (run_command hidle ha hdata ((prefix_append _ _).trans hbits)).exists
  rw [Held, getLast?_concat, dropLast_concat]
  simp only []
  rw [← hlev] at hbits hk ⊢
  by_cases hv : u.eecd.sk = false ∧ v.sk = true
  · rw [edges, if_pos hv, edges, append_nil] at hbits hk
    rw [length_append, length_singleton] at hk
    have hn : (edges s.eecd.sk ws).length = 16 + k := by omega
    have hcmd : (command a).length = 16 := by simp [command, msbBits]
    have hlen := hbits.length_le
    simp only [length_append, length_singleton, hcmd, hdata] at hlen
    obtain ⟨s', hs', -, -, -, hout⟩ := (hat.write_edge hv (by omega) ha fun b hb => by
      rw [getElem?_eq_none (by omega)] at hb
      cases hb).exists
    rw [run_snoc.2 ⟨u, hu, hs'⟩]
    simp only [hv, and_self, true_or, iff_true]
    exact (hout k hn).trans (by rw [hflash])
  · obtain ⟨s', hs', -, -, -, hout⟩ := (hat.write_level hv).exists
    rw [run_snoc.2 ⟨u, hu, hs'⟩]
    simp only [hv, false_or]
    exact Iff.of_eq (congrArg (· = _) hout)

/-- From an idle EEPROM, for every sequence of writes whose rising clocks give a read command for an
address in the flash: the bits that are read are those of the word exactly if each is read after the
very write that lets the clock rise, or after one that has the bit in its data-out field. `EERD` gives
the same word, and the EEPROM is idle at the end. -/
theorem serial_read_iff (hidle : s.Idle) (ha : a.toNat / 2 < 64) {data : List Bool}
    (hdata : data.length = 16) (hbits : edges s.eecd.sk vs = msbBits 0x03 ++ msbBits a ++ data)
    {reads : Fin 16 → ℕ}
    (hreads : ∀ k, (edges s.eecd.sk (vs.take (reads k))).length = 17 + k.val) :
    ((∀ k, Ends (run writeEecd s (vs.take (reads k))) fun s' =>
        s'.eecd.dout = (s.flash ⟨a.toNat / 2, ha⟩).getMsbD k)
      ↔ ∀ k, Held s.eecd.sk (vs.take (reads k)) ((s.flash ⟨a.toNat / 2, ha⟩).getMsbD k))
    ∧ (∀ val : Eerd, val.start = true → val.addr = a.toNat / 2 →
      Ends (s.writeEerd val) fun s' => s'.eerd.done = true
        ∧ s'.eerd.data = s.flash ⟨a.toNat / 2, ha⟩)
    ∧ Ends (run writeEecd s vs) Idle := by
  have hpre : ∀ n, edges s.eecd.sk (vs.take n) <+: command a ++ data := by
    intro n
    rw [command, readOpcode, ← hbits]
    nth_rewrite 2 [← take_append_drop n vs]
    rw [edges_append]
    exact prefix_append _ _
  refine ⟨forall_congr' fun k => dout_iff hidle ha hdata (hpre _) (hreads k), ?_, ?_⟩
  · rintro val hstart haddr
    have hlt : val.addr < 64 := haddr ▸ ha
    rw [writeEerd, if_pos hstart, dif_pos hlt]
    refine ⟨rfl, ?_⟩
    simp only [haddr]
  · have hall := run_command hidle ha hdata (show edges s.eecd.sk vs <+: command a ++ data by
      rw [hbits]
      exact prefix_refl _)
    refine hall.mono ?_
    rintro s' ⟨hat, -⟩
    have hlen : (edges s.eecd.sk vs).length = 32 := by simp [hbits, msbBits, hdata]
    rw [hlen] at hat
    cases hat with
    | opcode h | address h h' | data h h' => omega
    | done h => exact h

/-- For each bit the clock is written low once and then high, some more times over. -/
def bang (more : ℕ) (bits : List Bool) : List Eecd :=
  bits.flatMap fun b => ⟨false, true, b, false, true, false⟩
    :: List.replicate (more + 1) ⟨true, true, b, false, true, false⟩

def oneWord : Eeprom where
  eecd := ⟨false, false, false, false, false, false⟩
  eerd := ⟨false, false, 0, 0⟩
  eeOpBits := 0
  eeAddrBits := 0
  eeDataBits := 0
  eeOpcode := 0
  eeAddr := 0
  flash := fun i => if i = 5 then 0xa5c3 else 0

theorem bang_held : let vs := bang 0 (msbBits 0x03 ++ msbBits 10 ++ List.replicate 16 false)
    edges false vs = msbBits 0x03 ++ msbBits 10 ++ List.replicate 16 false
    ∧ (∀ k : Fin 16, (edges false (vs.take (2 * (17 + k.val)))).length = 17 + k.val)
    ∧ ∀ k : Fin 16, Held false (vs.take (2 * (17 + k.val))) ((0xa5c3 : BitVec 16).getMsbD k) := by
  decide +kernel

theorem serial_read_oneWord : oneWord.Idle ∧ ∀ k : Fin 16,
    Ends (run writeEecd oneWord
        ((bang 0 (msbBits 0x03 ++ msbBits 10 ++ List.replicate 16 false)).take (2 * (17 + k.val))))
      fun s' => s'.eecd.dout = (0xa5c3 : BitVec 16).getMsbD k :=
  ⟨by decide, (serial_read_iff (a := 10) (by decide) (by decide) length_replicate bang_held.1
    bang_held.2.1).1.2 bang_held.2.2⟩

/-- The clock is written high once more before the first bit is read, and the bit is gone. -/
theorem serial_read_overwritten :
    let vs := bang 1 (msbBits 0x03 ++ msbBits 10 ++ List.replicate 16 false)
    oneWord.Idle ∧ edges false vs = msbBits 0x03 ++ msbBits 10 ++ List.replicate 16 false
      ∧ (edges false (vs.take 51)).length = 17
      ∧ (oneWord.flash 5).getMsbD 0 = true
      ∧ Ends (run writeEecd oneWord (vs.take 51)) fun s' => s'.eecd.dout = false := by
  decide +kernel

end Eeprom

end Gem5
