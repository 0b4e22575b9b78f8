import Gem5.Basic
import Gem5.Bytes

/-!
# Ethernet, IP, TCP and UDP headers

The part of `base/inet.hh` and `inet.cc` that the NIC looks at packets with. `EthPtr`, `IpPtr`,
`TcpPtr` and their like are offsets into the bytes of the packet. A byte past the end of the packet
reads as 0 and a write there is lost: in the source it meets whatever the buffer holds there.
-/

namespace Gem5

namespace Inet

open Bytes

def u8 (d : List Byte) (i : ℕ) : ℕ := (d.getD i 0).toNat

def be16 (d : List Byte) (i : ℕ) : ℕ := 256 * u8 d i + u8 d (i + 1)

def be32 (d : List Byte) (i : ℕ) : ℕ := 65536 * be16 d i + be16 d (i + 2)

def le16 (d : List Byte) (i : ℕ) : ℕ := u8 d i + 256 * u8 d (i + 1)

def isVlan (d : List Byte) : Prop := be16 d 12 = 0x8100

instance (d : List Byte) : Decidable (isVlan d) := inferInstanceAs (Decidable (_ = _))

/-- `EthHdr::type`. -/
def ethType (d : List Byte) : ℕ := if isVlan d then be16 d 16 else be16 d 12

/-- `EthHdr::size`, which is also `off` of the IP pointers. -/
def ethSize (d : List Byte) : ℕ := if isVlan d then 18 else 14

def IsIp (d : List Byte) : Prop := ethType d = 0x0800

instance (d : List Byte) : Decidable (IsIp d) := inferInstanceAs (Decidable (_ = _))

def IsIp6 (d : List Byte) : Prop := ethType d = 0x86dd

instance (d : List Byte) : Decidable (IsIp6 d) := inferInstanceAs (Decidable (_ = _))

namespace Ip

def hlen (d : List Byte) : ℕ := u8 d (ethSize d) % 16 * 4

def len (d : List Byte) : ℕ := be16 d (ethSize d + 2)

def id (d : List Byte) : ℕ := be16 d (ethSize d + 4)

def proto (d : List Byte) : ℕ := u8 d (ethSize d + 9)

def pstart (d : List Byte) : ℕ := ethSize d + hlen d

def setLen (d : List Byte) (len : ℕ) : List Byte := splice d (ethSize d + 2) (toBE 2 len)

def setId (d : List Byte) (id : ℕ) : List Byte := splice d (ethSize d + 4) (toBE 2 id)

def setSum (d : List Byte) (sum : ℕ) : List Byte := splice d (ethSize d + 10) (toLE 2 sum)

end Ip

namespace Ip6

def plen (d : List Byte) : ℕ := be16 d (ethSize d + 4)

def nxt (d : List Byte) : ℕ := u8 d (ethSize d + 6)

def setPlen (d : List Byte) (plen : ℕ) : List Byte := splice d (ethSize d + 4) (toBE 2 plen)

/-- `ip6Extension`: hop-by-hop options, routing, fragment, ESP, AH, destination options. -/
def Extension (nxt : ℕ) : Prop := nxt ∈ [0, 43, 44, 50, 51, 60]

instance (nxt : ℕ) : Decidable (Extension nxt) := inferInstanceAs (Decidable (_ ∈ _))

/-- `Ip6Opt::len`, in eight bits. -/
def optLen (d : List Byte) (i : ℕ) : ℕ := (u8 d (i + 1) + 8) % 256

/-- The walk over the extension headers: the protocol behind them and their length. An extension of
length 0 that another one follows is walked for ever, so a walk of more steps than `all` has bytes
does not end. -/
def walk (d : List Byte) (start all : ℕ) : ℕ → ℕ → ℕ → Except Halt (ℕ × ℕ)
  | 0, _, _ => .error (.undefined "while (ip6Extension(nxt))")
  | fuel + 1, nxt, len =>
    if Extension nxt then do
      let len' := len + optLen d (start + len)
      require (len' ≤ all) "all >= 0"
      walk d start all fuel (u8 d (start + len)) len'
    else .ok (nxt, len)

def extensions (d : List Byte) : Except Halt (ℕ × ℕ) :=
  walk d (ethSize d + 40) (plen d) (plen d + 2) (nxt d) 0

def extensionLength (d : List Byte) : Except Halt ℕ := do
  let (_, len) ← extensions d
  return len

def proto (d : List Byte) : Except Halt ℕ := do
  let (nxt, _) ← extensions d
  return nxt

def pstart (d : List Byte) : Except Halt ℕ := do
  let len ← extensionLength d
  return ethSize d + 40 + len

end Ip6

/-- `TcpPtr` and `UdpPtr` of a packet that is IP or else IPv6: where the header is. -/
def transport (d : List Byte) (proto : ℕ) : Except Halt (Option ℕ) :=
  if IsIp d then .ok (if Ip.proto d = proto then some (Ip.pstart d) else none)
  else if IsIp6 d then do
    let p ← Ip6.proto d
    if p = proto then
      let start ← Ip6.pstart d
      return some start
    else return none
  else .ok none

def tcpPtr (d : List Byte) : Except Halt (Option ℕ) := transport d 6

def udpPtr (d : List Byte) : Except Halt (Option ℕ) := transport d 17

namespace Tcp

def seq (d : List Byte) (tcp : ℕ) : ℕ := be32 d (tcp + 4)

def flags (d : List Byte) (tcp : ℕ) : ℕ := u8 d (tcp + 13) % 64

/-- `TcpHdr::off`, the length of the header. -/
def off (d : List Byte) (tcp : ℕ) : ℕ := u8 d (tcp + 12) / 16 * 4

def setSeq (d : List Byte) (tcp seq : ℕ) : List Byte := splice d (tcp + 4) (toBE 4 seq)

def setFlags (d : List Byte) (tcp flags : ℕ) : List Byte :=
  splice d (tcp + 13) [BitVec.ofNat 8 flags]

def setSum (d : List Byte) (tcp sum : ℕ) : List Byte := splice d (tcp + 16) (toLE 2 sum)

end Tcp

namespace Udp

def setLen (d : List Byte) (udp len : ℕ) : List Byte := splice d (udp + 4) (toBE 2 len)

def setSum (d : List Byte) (udp sum : ℕ) : List Byte := splice d (udp + 6) (toLE 2 sum)

end Udp

/-- `ip_cksum_add`. The first two bytes are added whatever the length is, which may be negative. -/
def cksumAdd (d : List Byte) (start : ℕ) (len : ℤ) (sum : ℕ) : ℕ :=
  let words := max 1 (len / 2).toNat
  sum + ((List.range words).map fun i => le16 d (start + 2 * i)).sum
    + if len % 2 = 1 then u8 d (start + 2 * words) else 0

/-- `ip_cksum_carry`. -/
def cksumCarry (x : ℕ) : ℕ :=
  let x := x / 65536 + x % 65536
  65535 - (x + x / 65536) % 65536

/-- `htons` on a number cut to 16 bits. -/
def htons (x : ℤ) : ℕ := (x / 256 % 256).toNat + 256 * (x % 256).toNat

/-- `cksum` of an IP header. -/
def ipCksum (d : List Byte) : ℕ := cksumCarry (cksumAdd d (ethSize d) (Ip.hlen d) 0)

/-- `__tu_cksum`. -/
def tuCksum (d : List Byte) : ℕ :=
  let tcplen : ℤ := Ip.len d - Ip.hlen d
  let sum := cksumAdd d (Ip.pstart d) tcplen 0
  let sum := cksumAdd d (ethSize d + 12) 8 sum
  cksumCarry (sum + htons (Ip.proto d + tcplen))

/-- `__tu_cksum6`. -/
def tuCksum6 (d : List Byte) : Except Halt ℕ := do
  let (proto, ext) ← Ip6.extensions d
  let tcplen : ℤ := Ip6.plen d - ext
  let sum := cksumAdd d (ethSize d + 40 + ext) tcplen 0
  let sum := cksumAdd d (ethSize d + 8) 32 sum
  return cksumCarry (sum + htons (proto + tcplen))

/-- `cksum` of a TCP or a UDP header. -/
def cksum (d : List Byte) : Except Halt ℕ :=
  if IsIp d then .ok (tuCksum d)
  else if IsIp6 d then tuCksum6 d
  else .error (.panic "Unrecognized IP packet format")

def hsplit (d : List Byte) : Except Halt ℕ := do
  let tcp ← tcpPtr d
  let udp ← udpPtr d
  match udp, tcp with
  | some udp, _ => return udp + 8
  | none, some tcp => return tcp + Tcp.off d tcp
  | none, none =>
    if IsIp d then return Ip.pstart d
    else if IsIp6 d then Ip6.pstart d
    else return 0

/-- The packet is IP with a TCP header at `tcp`, behind an Ethernet header of `eth` bytes. -/
structure HasTcp (d : List Byte) (eth tcp : ℕ) : Prop where
  ip : IsIp d
  proto : Ip.proto d = 6
  size : ethSize d = eth
  start : Ip.pstart d = tcp
  hlen : eth + 20 ≤ tcp
  length : tcp + 20 ≤ d.length

/-- The fields that the device rewrites in a segment: length, id and checksum of the IP header, and
sequence number, flags and checksum of the TCP header. -/
def rewritten (eth tcp : ℕ) : Set ℕ :=
  {i | eth + 2 ≤ i ∧ i < eth + 6 ∨ eth + 10 ≤ i ∧ i < eth + 12 ∨ tcp + 4 ≤ i ∧ i < tcp + 8
    ∨ i = tcp + 13 ∨ tcp + 16 ≤ i ∧ i < tcp + 18}

/-- The packet is IP with a UDP header at `udp`, behind an Ethernet header of `eth` bytes. -/
structure HasUdp (d : List Byte) (eth udp : ℕ) : Prop where
  ip : IsIp d
  proto : Ip.proto d = 17
  size : ethSize d = eth
  start : Ip.pstart d = udp
  hlen : eth + 20 ≤ udp
  length : udp + 8 ≤ d.length

/-- The fields that the device rewrites then: the same of the IP header, and length and checksum of
the UDP header. -/
def rewrittenUdp (eth udp : ℕ) : Set ℕ :=
  {i | eth + 2 ≤ i ∧ i < eth + 6 ∨ eth + 10 ≤ i ∧ i < eth + 12 ∨ udp + 4 ≤ i ∧ i < udp + 8}

end Inet

end Gem5
