import Mathlib.Algebra.Group.Nat.Defs
import Mathlib.Data.List.Basic
import Mathlib.Data.Nat.Basic

/-! # The packets of `udp_send`

The headers as bytes, the checksum and the packets that one call builds: a first
fragment with the UDP header, and the rest of the data in fragments of at most one MTU.
Host words are little-endian; `rte_cpu_to_be_16` puts the high byte first. A packet is
what has been appended to its mbuf.
-/

namespace DistLab.Udp

abbrev Byte := UInt8

abbrev Packet := List Byte

def be16 (v : ℕ) : List Byte := [UInt8.ofNat (v / 256), UInt8.ofNat v]

def be32 (v : ℕ) : List Byte := be16 (v / 65536) ++ be16 v

def not16 (v : ℕ) : ℕ := 65535 - v % 65536

/-- The carry of a 32-bit sum, added to its low half. -/
def fold16 (sum : ℕ) : ℕ := sum / 65536 + sum % 65536

def checksumLoop (sum : ℕ) : List Byte → ℕ
  | [] => sum
  | [b] => fold16 ((sum + b.toNat) % 2 ^ 32)
  | lo :: hi :: rest =>
    checksumLoop (fold16 ((sum + (lo.toNat + 256 * hi.toNat)) % 2 ^ 32)) rest

def checksum (start : List Byte) : ℕ := checksumLoop 0 start % 65536

def etherHdr : List Byte :=
  [0x00, 0x0c, 0x29, 0x8e, 0xae, 0xf9] ++ [0x00, 0x0c, 0x29, 0x8e, 0xae, 0xf9] ++ be16 0x0800

/-- The fragment offset in units of eight bytes, with the flag for more fragments. -/
def fragmentOffset (off : ℕ) (more : Bool) : ℕ :=
  if more then (off / 8) % 65536 ||| 0x2000 else (off / 8) % 65536

def ipv4Fields (off : ℕ) (more : Bool) (len chksum : ℕ) : List Byte :=
  [0x45, 0] ++ be16 len ++ be16 111 ++ be16 (fragmentOffset off more) ++ [64, 17] ++
    be16 chksum ++ be32 0x01010101 ++ be32 0x01010101

def fillIpv4Hdr (off : ℕ) (more : Bool) (len : ℕ) : List Byte :=
  ipv4Fields off more len (not16 (checksum (ipv4Fields off more len 0)))

def udpFields (dataLen chksum : ℕ) : List Byte :=
  be16 80 ++ be16 80 ++ be16 dataLen ++ be16 chksum

def fillUdpHdr (dataLen chksum : ℕ) : List Byte :=
  -- the complement is taken of an `int` and turned into 32 bits
  let chksum1 := (2 ^ 32 - 1 - checksum (udpFields dataLen 0) + chksum % 65536) % 2 ^ 32
  udpFields dataLen (not16 (fold16 chksum1 % 65536))

def fillHdr (off : ℕ) (more : Bool) (dataLen : ℕ) : List Byte :=
  etherHdr ++ fillIpv4Hdr off more (dataLen + 20)

/-- The UDP header of the first fragment. The checksum reads eight bytes at eight headers before
the UDP header, which lie in the headroom of the mbuf. -/
def udpHdr (headroom data : List Byte) : List Byte :=
  fillUdpHdr data.length (fold16 ((checksum headroom + checksum data) % 2 ^ 32))

def mtu : ℕ := 1496

def sendRest (data : List Byte) (off : ℕ) : List Packet :=
  if off < data.length then
    let ipDataLen := min (data.length - off) mtu
    (fillHdr off (data.length - off > mtu) ipDataLen ++ (data.drop off).take ipDataLen) ::
      sendRest data (off + ipDataLen)
  else []
termination_by data.length - off
decreasing_by
  have : 0 < mtu := by decide
  omega

def udpSend (headroom data : List Byte) : List Packet :=
  let ipDataLen := min (data.length + 8) mtu
  -- one offset counts the bytes of the datagram sent so far and is the index into the data
  (fillHdr 0 (data.length + 8 > mtu) ipDataLen ++ udpHdr headroom data ++
    data.take (ipDataLen - 8)) :: sendRest data ipDataLen

@[simp] theorem length_fillIpv4Hdr (off : ℕ) (more : Bool) (len : ℕ) :
    (fillIpv4Hdr off more len).length = 20 := rfl

@[simp] theorem length_udpHdr (headroom data : List Byte) : (udpHdr headroom data).length = 8 := rfl

end DistLab.Udp
