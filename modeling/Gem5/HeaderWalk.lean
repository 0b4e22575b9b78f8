import Gem5.Inet
import Gem5.Loop

/-!
# Walks over options and extension headers

The loops of `inet.cc`: `IpHdr::options` and `TcpHdr::options` over the options behind a header, and
`extensionLength`, `proto` and `getExt` over the extension headers of IPv6. Each goes on by a length
that it reads from the packet.
-/

namespace Gem5

namespace Inet

open Bytes Loop

/-- The loop variables of `options`: the offset of the next option, the bytes left and the options
found. -/
structure OptionWalk where
  data : ℕ
  all : ℤ
  vec : List ℕ
  deriving DecidableEq, Repr

/-- One turn of `options`. The result is the value returned and the options found. -/
def optionTurn (optLen : ℕ → ℕ) (w : OptionWalk) : Turn OptionWalk (Bool × List ℕ) :=
  if 0 < w.all then
    if w.all < optLen w.data then .stop (false, w.vec)
    else .again ⟨w.data + optLen w.data, w.all - optLen w.data, w.vec ++ [w.data]⟩
  else .stop (true, w.vec)

def optionLen (d : List Byte) (i : ℕ) : ℕ :=
  if u8 d i = 0 ∨ u8 d i = 1 then 1 else u8 d (i + 1)

namespace Ip

/-- `IpOpt::len`. -/
def optLen (d : List Byte) (i : ℕ) : ℕ := optionLen d i

def optionWalk (d : List Byte) : OptionWalk := ⟨ethSize d + 20, (hlen d : ℤ) - 20, []⟩

/-- `IpHdr::options`, if it ends within `n` steps. -/
def options (d : List Byte) (n : ℕ) : Option (Bool × List ℕ) :=
  loop (optionTurn (optLen d)) n (optionWalk d)

end Ip

namespace Tcp

/-- `TcpOpt::len`. -/
def optLen (d : List Byte) (i : ℕ) : ℕ := optionLen d i

def optionWalk (d : List Byte) (tcp : ℕ) : OptionWalk := ⟨tcp + 20, (off d tcp : ℤ) - 20, []⟩

/-- `TcpHdr::options`, if it ends within `n` steps. -/
def options (d : List Byte) (tcp n : ℕ) : Option (Bool × List ℕ) :=
  loop (optionTurn (optLen d)) n (optionWalk d tcp)

end Tcp

namespace Ip6

/-- The walks go on at an extension header, `getExt` only until it has the one it looks for. -/
def Goes (want : Option ℕ) (nxt : ℕ) : Prop := Extension nxt ∧ want ≠ some nxt

instance (want : Option ℕ) (nxt : ℕ) : Decidable (Goes want nxt) :=
  inferInstanceAs (Decidable (_ ∧ _))

/-- One turn of a walk, with the protocol of the next header and the length of those before it. -/
def extTurn (d : List Byte) (want : Option ℕ) :
    ℕ × ℕ → Turn (ℕ × ℕ) (Except Halt (ℕ × ℕ))
  | (nxt, len) =>
    if Goes want nxt then
      let len' := len + optLen d (ethSize d + 40 + len)
      if len' ≤ plen d then .again (u8 d (ethSize d + 40 + len), len')
      else .stop (.error (.assertion "all >= 0"))
    else .stop (.ok (nxt, len))

def scan (d : List Byte) (want : Option ℕ) (n : ℕ) : Option (Except Halt (ℕ × ℕ)) :=
  loop (extTurn d want) n (nxt d, 0)

/-- `getExt`: the offset of the extension header, if there is one. -/
def getExt (d : List Byte) (extType n : ℕ) : Option (Except Halt (Option ℕ)) :=
  (scan d (some extType) n).map fun r => do
    let (nxt, len) ← r
    return if Extension nxt then some (ethSize d + 40 + len) else none

/-- The length of an extension header by RFC 8200: that of a fragment header is fixed, the others
have it in units of eight bytes, the first of which is not counted. -/
def trueLen (d : List Byte) (nxt i : ℕ) : ℕ := if nxt = 44 then 8 else 8 * (u8 d (i + 1) + 1)

def Chained (nxt : ℕ) : Prop := nxt ∈ [0, 43, 44, 60]

instance (nxt : ℕ) : Decidable (Chained nxt) := inferInstanceAs (Decidable (_ ∈ _))

/-- From the header `nxt` at offset `i` on there are extension headers of `total` bytes, and the
header behind them is `proto`. -/
inductive Chain (d : List Byte) : ℕ → ℕ → ℕ → ℕ → Prop
  | done {nxt : ℕ} (i : ℕ) (h : ¬ Chained nxt) : Chain d nxt i nxt 0
  | header {nxt i proto total : ℕ} (h : Chained nxt)
      (rest : Chain d (u8 d i) (i + trueLen d nxt i) proto total) :
      Chain d nxt i proto (trueLen d nxt i + total)

structure HasChain (d : List Byte) (proto total : ℕ) : Prop where
  ip6 : IsIp6 d
  chain : Chain d (nxt d) (ethSize d + 40) proto total
  fits : total ≤ plen d
  length : ethSize d + 40 + plen d ≤ d.length

/-- Where the headers end if the header behind the extensions is `proto`, at `start`. -/
def headersEnd (d : List Byte) (proto start : ℕ) : ℕ :=
  if proto = 17 then start + 8 else if proto = 6 then start + Tcp.off d start else start

/-- The checksum of a transport header behind `ext` bytes of extensions. -/
def transportCksum (d : List Byte) (proto ext : ℕ) : ℕ :=
  let tcplen : ℤ := plen d - ext
  let sum := cksumAdd d (ethSize d + 40 + ext) tcplen 0
  let sum := cksumAdd d (ethSize d + 8) 32 sum
  cksumCarry (sum + htons (proto + tcplen))

/-- How the walk goes wrong: at the first header of the chain with a length field that is not 0 it
goes on by another number of bytes than the header has. This is where it is then. -/
def misread (d : List Byte) : ℕ → ℕ → ℕ → Option (ℕ × ℕ)
  | 0, _, _ => none
  | fuel + 1, nxt, len =>
    let i := ethSize d + 40 + len
    if Chained nxt then
      if u8 d (i + 1) = 0 then misread d fuel (u8 d i) (len + 8)
      else some (u8 d i, len + optLen d i)
    else none

/-- The walk gets the chain right: all headers have a length field of 0 and what follows is neither
AH nor ESP, or the bytes that it takes for headers from there on lead to the same end. -/
def ReadsChain (d : List Byte) (proto total : ℕ) : Prop :=
  match misread d (plen d + 1) (nxt d) 0 with
  | none => proto ≠ 50 ∧ proto ≠ 51
  | some s => s.2 ≤ plen d ∧ ∃ n, loop (extTurn d none) n s = some (.ok (proto, total))

end Ip6

end Inet

end Gem5
