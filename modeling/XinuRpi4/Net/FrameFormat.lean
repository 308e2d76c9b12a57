import XinuRpi4.Foundation.ByteWords
import XinuRpi4.Net.Tcp

/-!
# The frames that `tcp_send` builds

Ethernet, IPv4 and TCP headers with their checksums, the payload, and zeros up to the
shortest frame. A frame is handed to the driver without its checksum of four bytes.
-/

namespace XinuRpi4.Net

open XinuRpi4.Foundation

/-- The stations at both ends, and the addresses of the server. -/
structure Link where
  myMac : Fin 6 → UInt8
  peerMac : Fin 6 → UInt8
  cfg : Config

/-- `(unsigned char)(n >> 8)` and `(unsigned char)(n & 0xFF)` -/
def halves (n : ℕ) : List UInt8 := [UInt8.ofNat (n / 256), UInt8.ofNat n]

def macBytes (mac : Fin 6 → UInt8) : List UInt8 := [mac 0, mac 1, mac 2, mac 3, mac 4, mac 5]

def ipBytes (ip : Ip4) : List UInt8 := [ip 0, ip 1, ip 2, ip 3]

/-- `ip_checksum` -/
def ipChecksum (data : List UInt8) : ℕ := complement (wordSum data)

/-- The sum of the pseudo header, with the segment. -/
def segmentSum (srcIp dstIp : Ip4) (tcp : List UInt8) : ℕ :=
  wordSum (ipBytes srcIp) + wordSum (ipBytes dstIp) + 6 + tcp.length + wordSum tcp

/-- `tcp_checksum` -/
def tcpChecksum (srcIp dstIp : Ip4) (tcp : List UInt8) : ℕ := complement (segmentSum srcIp dstIp tcp)

namespace Tx

variable (L : Link) (tx : Tx)

def ipTotal : ℕ := 20 + (20 + tx.payload.length)

/-- The IPv4 header, with its checksum field. -/
def ipHeader (sum : ℕ) : List UInt8 :=
  [0x45, 0] ++ halves tx.ipTotal ++ [0, 0, 0, 0, 64, 6] ++ halves sum ++
    (ipBytes L.cfg.myIp ++ ipBytes tx.ip)

/-- The TCP header, with its checksum field, and the payload. -/
def tcpSegment (sum : ℕ) : List UInt8 :=
  bytes16 L.cfg.listenPort ++ bytes16 tx.port ++ bytes32 tx.seq ++ bytes32 tx.ack ++
    [0x50, tx.flags, 0x20, 0x00] ++ halves sum ++ ([0, 0] ++ tx.payload)

/-- The frame up to the end of the IP packet. -/
def packet : List UInt8 :=
  macBytes L.peerMac ++ macBytes L.myMac ++ [0x08, 0x00] ++
    tx.ipHeader L (ipChecksum (tx.ipHeader L 0)) ++
      tx.tcpSegment L (tcpChecksum L.cfg.myIp tx.ip (tx.tcpSegment L 0))

/-- The frame that is handed to `genet_tx_frame`. -/
def frame : List UInt8 := tx.packet L ++ List.replicate (60 - (tx.packet L).length) 0

end Tx

/-- The fields of a frame as its receiver reads them. -/
structure FrameWellFormed (L : Link) (c : TcpConn) (flags : UInt8) (payload f : List UInt8) : Prop where
  ipSum : foldCarry (wordSum ((f.drop 14).take 20)) = 0xFFFF
  total : be16 (f.getD · 0) 16 = UInt16.ofNat (40 + payload.length)
  srcIp : (f.drop 26).take 4 = ipBytes L.cfg.myIp
  dstIp : (f.drop 30).take 4 = ipBytes c.peerIp
  tcpSum : foldCarry (segmentSum L.cfg.myIp c.peerIp ((f.drop 34).take (20 + payload.length))) = 0xFFFF
  srcPort : be16 (f.getD · 0) 34 = L.cfg.listenPort
  dstPort : be16 (f.getD · 0) 36 = c.peerPort
  seq : be32 (f.getD · 0) 38 = c.mySeq.toUInt32
  ack : be32 (f.getD · 0) 42 = c.peerSeq.toUInt32
  flag : f.getD 47 0 = flags
  data : (f.drop 54).take payload.length = payload
  padding : ∀ b ∈ f.drop (54 + payload.length), b = 0
  shortest : 60 ≤ f.length
  longest : f.length ≤ 1514

section Fields

variable (b : ℕ → UInt8) (o : ℕ)

theorem be16_toNat : (be16 b o).toNat = (b o).toNat * 256 + (b (o + 1)).toNat := by
  have hhigh := (b o).toNat_lt
  have hlow := (b (o + 1)).toNat_lt
  have hor := Nat.two_pow_add_eq_or_of_lt (i := 8) (b := (b (o + 1)).toNat) hlow (b o).toNat
  have hshift : ((b o).toUInt16 <<< 8).toNat = 2 ^ 8 * (b o).toNat := by
    rw [UInt16.toNat_shiftLeft, UInt8.toNat_toUInt16, Nat.shiftLeft_eq]
    have : (8 : UInt16).toNat % 16 = 8 := rfl
    rw [this]
    omega
  rw [be16, UInt16.toNat_or, hshift, UInt8.toNat_toUInt16, ← hor]
  omega

theorem be32_toNat : (be32 b o).toNat = (b o).toNat * 2 ^ 24 + (b (o + 1)).toNat * 2 ^ 16 +
    (b (o + 2)).toNat * 2 ^ 8 + (b (o + 3)).toNat := by
  have h₀ := shifted_toNat (b o) (k := 24) (by decide)
  have h₁ := shifted_toNat (b (o + 1)) (k := 16) (by decide)
  have h₂ := shifted_toNat (b (o + 2)) (k := 8) (by decide)
  have h₃ := UInt8.toNat_toUInt32 (b (o + 3))
  have hk₀ : (24 : UInt32).toNat = 24 := rfl
  have hk₁ : (16 : UInt32).toNat = 16 := rfl
  have hk₂ : (8 : UInt32).toNat = 8 := rfl
  rw [hk₀] at h₀
  rw [hk₁] at h₁
  rw [hk₂] at h₂
  have hb₁ := (b (o + 1)).toNat_lt
  have hb₂ := (b (o + 2)).toNat_lt
  have hb₃ := (b (o + 3)).toNat_lt
  have hfirst := or_toNat (k := 24) (x := (b o).toUInt32 <<< 24) (y := (b (o + 1)).toUInt32 <<< 16)
    (by omega) (by omega)
  have hsecond := or_toNat (k := 16)
    (x := (b o).toUInt32 <<< 24 ||| (b (o + 1)).toUInt32 <<< 16)
    (y := (b (o + 2)).toUInt32 <<< 8) (by omega) (by omega)
  rw [be32, or_toNat (k := 8) (by omega) (by omega), hsecond, hfirst, h₀, h₁, h₂, h₃]

/-- The two bytes of a number are read back. -/
theorem be16_bytes16 {n : UInt16} (h : b o = (n >>> 8).toUInt8) (h' : b (o + 1) = n.toUInt8) :
    be16 b o = n := by
  have hn := n.toNat_lt
  have hshift : (n >>> 8).toNat = n.toNat / 256 := by
    rw [UInt16.toNat_shiftRight, Nat.shiftRight_eq_div_pow]
    rfl
  rw [← UInt16.toNat_inj, be16_toNat, h, h', UInt16.toNat_toUInt8, UInt16.toNat_toUInt8, hshift]
  omega

theorem be16_halves {n : ℕ} (hn : n < 65536) (h : b o = UInt8.ofNat (n / 256))
    (h' : b (o + 1) = UInt8.ofNat n) : be16 b o = UInt16.ofNat n := by
  rw [← UInt16.toNat_inj, be16_toNat, h, h', UInt8.toNat_ofNat', UInt8.toNat_ofNat',
    UInt16.toNat_ofNat']
  omega

theorem be32_bytes32 {n : UInt32} (h₀ : b o = (n >>> 24).toUInt8) (h₁ : b (o + 1) = (n >>> 16).toUInt8)
    (h₂ : b (o + 2) = (n >>> 8).toUInt8) (h₃ : b (o + 3) = n.toUInt8) : be32 b o = n := by
  have hn := n.toNat_lt
  have hshift (k : UInt32) (hk : k.toNat < 32) : (n >>> k).toNat = n.toNat / 2 ^ k.toNat := by
    rw [UInt32.toNat_shiftRight, Nat.shiftRight_eq_div_pow, Nat.mod_eq_of_lt hk]
  have h24 := hshift 24 (by decide)
  have h16 := hshift 16 (by decide)
  have h8 := hshift 8 (by decide)
  have hk₀ : (24 : UInt32).toNat = 24 := rfl
  have hk₁ : (16 : UInt32).toNat = 16 := rfl
  have hk₂ : (8 : UInt32).toNat = 8 := rfl
  rw [hk₀] at h24
  rw [hk₁] at h16
  rw [hk₂] at h8
  rw [← UInt32.toNat_inj, be32_toNat, h₀, h₁, h₂, h₃, UInt32.toNat_toUInt8, UInt32.toNat_toUInt8,
    UInt32.toNat_toUInt8, UInt32.toNat_toUInt8, h24, h16, h8]
  omega

end Fields

section Sums

variable {L : Link} {tx : Tx}

/-- A word in the middle of some bytes. -/
theorem wordSum_halves {xs ys : List UInt8} {n : ℕ} (hxs : xs.length % 2 = 0) (hn : n < 65536) :
    wordSum (xs ++ halves n ++ ys) = wordSum xs + wordSum ys + n := by
  have hlen : (xs ++ halves n).length % 2 = 0 := by
    rw [List.length_append]
    simp only [halves, List.length_cons, List.length_nil]
    omega
  rw [wordSum_append _ _ hlen, wordSum_append _ _ hxs, halves, wordSum_word hn]
  omega

theorem wordSum_ipHeader {sum : ℕ} (h : sum < 65536) :
    wordSum (tx.ipHeader L sum) = wordSum (tx.ipHeader L 0) + sum := by
  have hword (n : ℕ) (hn : n < 65536) : wordSum (tx.ipHeader L n) =
      wordSum ([0x45, 0] ++ halves tx.ipTotal ++ [0, 0, 0, 0, 64, 6]) +
        wordSum (ipBytes L.cfg.myIp ++ ipBytes tx.ip) + n := wordSum_halves (by simp [halves]) hn
  rw [hword sum h, hword 0 (by decide), Nat.add_zero]

theorem wordSum_tcpSegment {sum : ℕ} (h : sum < 65536) :
    wordSum (tx.tcpSegment L sum) = wordSum (tx.tcpSegment L 0) + sum := by
  have hword (n : ℕ) (hn : n < 65536) : wordSum (tx.tcpSegment L n) =
      wordSum (bytes16 L.cfg.listenPort ++ bytes16 tx.port ++ bytes32 tx.seq ++ bytes32 tx.ack ++
        [0x50, tx.flags, 0x20, 0x00]) + wordSum ([0, 0] ++ tx.payload) + n :=
    wordSum_halves (by simp [bytes16, bytes32]) hn
  rw [hword sum h, hword 0 (by decide), Nat.add_zero]

theorem length_tcpSegment (sum : ℕ) : (tx.tcpSegment L sum).length = 20 + tx.payload.length := by
  simp only [Tx.tcpSegment, List.length_append, bytes16, bytes32, halves, List.length_cons,
    List.length_nil]
  omega

theorem ipHeader_verifies :
    foldCarry (wordSum (tx.ipHeader L (ipChecksum (tx.ipHeader L 0)))) = 0xFFFF := by
  rw [ipChecksum, wordSum_ipHeader (complement_lt _)]
  exact foldCarry_add_complement _

theorem tcpSegment_verifies : foldCarry (segmentSum L.cfg.myIp tx.ip
    (tx.tcpSegment L (tcpChecksum L.cfg.myIp tx.ip (tx.tcpSegment L 0)))) = 0xFFFF := by
  have hsum (n : ℕ) (hn : n < 65536) : segmentSum L.cfg.myIp tx.ip (tx.tcpSegment L n) =
      segmentSum L.cfg.myIp tx.ip (tx.tcpSegment L 0) + n := by
    unfold segmentSum
    rw [length_tcpSegment, length_tcpSegment, wordSum_tcpSegment hn]
    omega
  rw [tcpChecksum, hsum _ (complement_lt _)]
  exact foldCarry_add_complement _

end Sums

section Layout

variable (L : Link) (tx : Tx)

theorem length_packet : (tx.packet L).length = 54 + tx.payload.length := by
  simp only [Tx.packet, List.length_append, length_tcpSegment, macBytes, Tx.ipHeader, ipBytes, halves,
    List.length_cons, List.length_nil]
  omega

theorem length_frame : (tx.frame L).length = max 60 (54 + tx.payload.length) := by
  rw [Tx.frame, List.length_append, List.length_replicate, length_packet]
  omega

/-- The fields of the frame of a segment. -/
theorem frame_wellFormed {c : TcpConn} {flags : UInt8} {payload : List UInt8}
    (hlen : payload.length ≤ 1460)
    (htx : tx = { ip := c.peerIp, port := c.peerPort, flags := flags, seq := c.mySeq.toUInt32,
                  ack := c.peerSeq.toUInt32, payload := payload }) :
    FrameWellFormed L c flags payload (tx.frame L) := by
  have hpacket := length_packet L tx
  have hip : ((tx.frame L).drop 14).take 20 = tx.ipHeader L (ipChecksum (tx.ipHeader L 0)) := rfl
  have hseg : (tx.frame L).drop 34 =
      tx.tcpSegment L (tcpChecksum L.cfg.myIp tx.ip (tx.tcpSegment L 0)) ++
        List.replicate (60 - (tx.packet L).length) 0 := rfl
  have hdata : (tx.frame L).drop 54 = tx.payload ++ List.replicate (60 - (tx.packet L).length) 0 := rfl
  have hframe := length_frame L tx
  have hpayload : tx.payload = payload := by rw [htx]
  have hlength : 20 + tx.payload.length = 20 + payload.length := by rw [hpayload]
  have htotal : tx.ipTotal = 40 + payload.length := by
    unfold Tx.ipTotal
    omega
  constructor
  · rw [hip]
    exact ipHeader_verifies
  · rw [← htotal]
    exact be16_halves _ _ (by omega) rfl rfl
  · rfl
  · rw [htx]
    rfl
  · rw [hseg, List.take_left' ((length_tcpSegment _).trans hlength)]
    have hip' : tx.ip = c.peerIp := by rw [htx]
    rw [← hip']
    exact tcpSegment_verifies
  · exact be16_bytes16 _ _ rfl rfl
  · rw [htx]
    exact be16_bytes16 _ _ rfl rfl
  · rw [htx]
    exact be32_bytes32 _ _ rfl rfl rfl rfl
  · rw [htx]
    exact be32_bytes32 _ _ rfl rfl rfl rfl
  · rw [htx]
    rfl
  · rw [hdata, hpayload, List.take_left' rfl]
  · have hdrop : (tx.frame L).drop (54 + payload.length) =
        ((tx.frame L).drop 54).drop payload.length := by rw [List.drop_drop]
    rw [hdrop, hdata, hpayload, List.drop_left' rfl]
    intro b hb
    exact List.eq_of_mem_replicate hb
  · omega
  · omega

/-- Every frame that is sent is well formed if and only if its payload fits into an IP packet
of 1500 bytes. -/
theorem frame_wellFormed_iff (c : TcpConn) (flags : UInt8) (payload : List UInt8)
    (h : tx ∈ c.tcpSend flags payload) :
    FrameWellFormed L c flags payload (tx.frame L) ↔ payload.length ≤ 1460 := by
  rw [TcpConn.tcpSend] at h
  split_ifs at h with hlong
  · cases h
  · have htx := List.mem_singleton.mp h
    constructor
    · intro hwf
      have hlongest := hwf.longest
      have hpayload : tx.payload = payload := by rw [htx]
      rw [length_frame, hpayload] at hlongest
      omega
    · intro hlen
      exact frame_wellFormed L tx hlen htx

/-- A link between two stations. -/
def wire : Link where
  myMac := fun _ => 2
  peerMac := fun _ => 4
  cfg := server

/-- An established connection to 192.168.3.2. -/
def openConn : TcpConn :=
  { Tcp.start.conns 0 with
    state := .established, peerIp := ![192, 168, 3, 2], peerPort := 5000, mySeq := 101, peerSeq := 7 }

/-- The segment with a payload on that connection. -/
def openTx (payload : List UInt8) : Tx where
  ip := openConn.peerIp
  port := openConn.peerPort
  flags := flagPsh ||| flagAck
  seq := openConn.mySeq.toUInt32
  ack := openConn.peerSeq.toUInt32
  payload := payload

theorem openTx_mem {payload : List UInt8} (h : payload.length ≤ 1464) :
    openTx payload ∈ openConn.tcpSend (flagPsh ||| flagAck) payload := by
  rw [TcpConn.tcpSend, if_neg (by omega)]
  exact List.mem_cons_self

theorem frame_wellFormed_short :
    FrameWellFormed wire openConn (flagPsh ||| flagAck) [111, 107] ((openTx [111, 107]).frame wire) ↔
      [111, 107].length ≤ 1460 :=
  frame_wellFormed_iff wire (openTx [111, 107]) openConn (flagPsh ||| flagAck) [111, 107]
    (openTx_mem (by decide))

/-- With 1461 bytes the frame is longer than 1514 bytes. -/
theorem frame_too_long : openTx (List.replicate 1461 65) ∈
      openConn.tcpSend (flagPsh ||| flagAck) (List.replicate 1461 65) ∧
    ¬ FrameWellFormed wire openConn (flagPsh ||| flagAck) (List.replicate 1461 65)
      ((openTx (List.replicate 1461 65)).frame wire) := by
  constructor
  · apply openTx_mem
    rw [List.length_replicate]
    decide
  · intro h
    have hlongest := h.longest
    have hpayload : (openTx (List.replicate 1461 65)).payload.length = 1461 := List.length_replicate
    rw [length_frame, hpayload] at hlongest
    omega

end Layout

end XinuRpi4.Net
