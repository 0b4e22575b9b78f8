import Gem5.Machine
import Gem5.Basic

/-!
# The EEPROM of the NIC

The registers `EECD` and `EERD` of `i8254xGBe.cc`. Through `EECD` the driver works the serial
interface of the EEPROM bit by bit, through `EERD` it reads a word at once. The fields of the
registers that nothing here looks at are left out.
-/

namespace Gem5

structure Eecd where
  sk : Bool
  cs : Bool
  din : Bool
  dout : Bool
  eeReq : Bool
  eeGnt : Bool
  deriving DecidableEq, Repr

structure Eerd where
  start : Bool
  done : Bool
  addr : ℕ
  data : BitVec 16
  deriving DecidableEq, Repr

structure Eeprom where
  eecd : Eecd
  eerd : Eerd
  eeOpBits : ℕ
  eeAddrBits : ℕ
  eeDataBits : ℕ
  eeOpcode : BitVec 8
  eeAddr : BitVec 8
  flash : Fin 64 → BitVec 16

namespace Eeprom

/-- `x << 1 | b`. -/
def shiftIn (x : BitVec 8) (b : Bool) : BitVec 8 := x <<< 1 ||| if b then 1#8 else 0#8

def readOpcode : BitVec 8 := 0x03

def rdsrOpcode : BitVec 8 := 0x05

variable (s : Eeprom)

def clockBit : Except Halt Eeprom :=
  if s.eeOpBits < 8 then
    .ok { s with eeOpcode := shiftIn s.eeOpcode s.eecd.din, eeOpBits := s.eeOpBits + 1 }
  else if s.eeAddrBits < 8 ∧ s.eeOpcode = readOpcode then
    .ok { s with eeAddr := shiftIn s.eeAddr s.eecd.din, eeAddrBits := s.eeAddrBits + 1 }
  else if s.eeDataBits < 16 ∧ s.eeOpcode = readOpcode then
    if h : s.eeAddr.toNat / 2 < 64 then
      let bit := (s.flash ⟨s.eeAddr.toNat / 2, h⟩ >>> (15 - s.eeDataBits)).getLsbD 0
      .ok { s with eecd := { s.eecd with dout := bit }, eeDataBits := s.eeDataBits + 1 }
    else .error (.assertion "eeAddr>>1 < EEPROM_SIZE")
  else if s.eeDataBits < 8 ∧ s.eeOpcode = rdsrOpcode then
    .ok { s with eecd := { s.eecd with dout := false }, eeDataBits := s.eeDataBits + 1 }
  else .error (.panic "What's going on with eeprom interface?")

def isDone : Bool :=
  s.eeDataBits = 16 ∧ s.eeOpcode = readOpcode ∨ s.eeDataBits = 8 ∧ s.eeOpcode = rdsrOpcode

def finish : Eeprom :=
  if s.isDone then
    { s with eeOpBits := 0, eeAddrBits := 0, eeDataBits := 0, eeOpcode := 0, eeAddr := 0 }
  else s

def checkOpcode : Except Halt Eeprom :=
  if s.eeOpBits = 8 ∧ ¬ (s.eeOpcode = readOpcode ∨ s.eeOpcode = rdsrOpcode) then
    .error (.panic "Unknown eeprom opcode")
  else .ok s

def clock : Except Halt Eeprom := do
  let s' ← s.clockBit
  s'.finish.checkOpcode

def grant : Eeprom := { s with eecd := { s.eecd with eeGnt := s.eecd.eeReq } }

/-- What a write to `EECD` does by its clock, of which `oldClk` is the level before. -/
def take (oldClk : Bool) : Except Halt Eeprom :=
  if oldClk = false ∧ s.eecd.sk = true then s.clock else .ok s

def writeEecd (val : Eecd) : Except Halt Eeprom := do
  let s' ← take { s with eecd := val } s.eecd.sk
  return s'.grant

def writeEerd (val : Eerd) : Except Halt Eeprom :=
  if val.start then
    if h : val.addr < 64 then
      .ok { s with eerd := { val with done := true, data := s.flash ⟨val.addr, h⟩, start := false } }
    else .error (.assertion "regs.eerd.addr() < EEPROM_SIZE")
  else .ok { s with eerd := val }

def Idle : Prop := s.eeOpBits = 0 ∧ s.eeAddrBits = 0 ∧ s.eeDataBits = 0 ∧ s.eeOpcode = 0

instance : Decidable s.Idle := inferInstanceAs (Decidable (_ ∧ _))

def levelAfter (level : Bool) : List Eecd → Bool
  | [] => level
  | v :: vs => levelAfter v.sk vs

def edges (level : Bool) : List Eecd → List Bool
  | [] => []
  | v :: vs => (if level = false ∧ v.sk = true then [v.din] else []) ++ edges v.sk vs

def msbBits (x : BitVec 8) : List Bool := (List.range 8).map x.getMsbD

/-- The last of the writes lets the clock rise, or has the bit in its data-out field. -/
def Held (level : Bool) (vs : List Eecd) (bit : Bool) : Prop :=
  match vs.getLast? with
  | none => False
  | some v => (levelAfter level vs.dropLast = false ∧ v.sk = true) ∨ v.dout = bit

instance (level : Bool) (vs : List Eecd) (bit : Bool) : Decidable (Held level vs bit) :=
  match h : vs.getLast? with
  | none => .isFalse (by simp [Held, h])
  | some v =>
    decidable_of_iff ((levelAfter level vs.dropLast = false ∧ v.sk = true) ∨ v.dout = bit)
      (by simp [Held, h])

end Eeprom

end Gem5
