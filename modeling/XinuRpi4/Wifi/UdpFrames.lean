import XinuRpi4.Net.Tcp

/-!
# UDP datagrams in frames from the WiFi chip

A frame is read with the headers of the chip in front of the Ethernet frame. The
readers of UDP datagrams check the same fields of it and look on from the offset
of the UDP header. The buffer is kept from frame to frame, so there are bytes
behind the length of a frame too.
-/

namespace XinuRpi4.Wifi

open XinuRpi4.Net

/-- The bytes of a C string of at most `n` characters. -/
def CString (n : ℕ) : Type := { s : List UInt8 // s.length ≤ n ∧ 0 ∉ s }
deriving DecidableEq

structure UdpTx where
  sport : UInt16
  dport : UInt16
  payload : List UInt8
deriving DecidableEq

/-- `wifi_udp_tx`: what does not fit the frame buffer is not sent. -/
def udpTx (sport dport : UInt16) (p : List UInt8) : List UdpTx :=
  if 14 + 20 + 8 + p.length > 1600 then [] else [{ sport, dport, payload := p }]

theorem mem_udpTx {sport dport : UInt16} {p : List UInt8} {t : UdpTx}
    (h : t ∈ udpTx sport dport p) : t = { sport, dport, payload := p } := by
  unfold udpTx at h
  split_ifs at h
  · cases h
  · exact List.mem_singleton.mp h

/-- The channel in the header that `wifi_read_frame` has read. -/
def chan (f : Frame) : UInt8 := f.bytes 5 &&& 0xF

def doff (f : Frame) : ℕ := (f.bytes 7).toNat

/-- Where the Ethernet frame begins, behind the second header of the chip. -/
def etherOffset (f : Frame) : ℕ := doff f + (4 + (f.bytes (doff f + 3)).toNat * 4)

/-- Where the UDP header is, when the frame has `minLen` bytes behind the headers of
the chip and a datagram of `peer` to the port in it. -/
def udpFrom (peer : Ip4) (port : UInt16) (minLen : ℕ) (f : Frame) : Option ℕ :=
  let e := etherOffset f
  let ip4 := e + 14
  let udp := ip4 + (f.bytes ip4 &&& 0xF).toNat * 4
  if chan f ≠ 2 ∨ f.len < doff f + 4 then none
  else if f.len < e + minLen ∨ f.bytes (e + 12) ≠ 0x08 ∨ f.bytes (e + 13) ≠ 0x00 then none
  else if f.bytes (ip4 + 9) ≠ 17 ∨ be16 f.bytes (udp + 2) ≠ port then none
  else if ip4At f.bytes (ip4 + 12) ≠ peer then none
  else some udp

/-- The offset depends on bytes of the frame only, when the datagram is in it. -/
theorem udpFrom_same {peer : Ip4} {port : UInt16} {minLen udp : ℕ} {f g : Frame}
    (hlen : f.len = g.len) (hbytes : ∀ o < f.len, f.bytes o = g.bytes o) (hmin : 34 ≤ minLen)
    (hin : udp + 8 ≤ f.len) (h : udpFrom peer port minLen f = some udp) :
    udpFrom peer port minLen g = some udp := by
  unfold udpFrom at h
  simp only [Option.ite_none_left_eq_some, not_or, Option.some.injEq] at h
  obtain ⟨⟨hchan, hdoff⟩, ⟨hshort, htype⟩, hport, hpeer, hudp⟩ := h
  have hether : etherOffset f + 34 ≤ f.len := by omega
  have hle : doff f + 4 ≤ etherOffset f := by simp only [etherOffset]; omega
  have hchan' : chan g = chan f := by rw [chan, chan, hbytes 5 (by omega)]
  have hdoff' : doff g = doff f := by rw [doff, doff, hbytes 7 (by omega)]
  have hether' : etherOffset g = etherOffset f := by
    rw [etherOffset, etherOffset, hdoff', hbytes (doff f + 3) (by omega)]
  have hihl : etherOffset f + 14 ≤ udp := by omega
  have hat := hbytes (etherOffset f + 14) (by omega)
  have hfields : g.bytes (etherOffset f + 12) = f.bytes (etherOffset f + 12) ∧
      g.bytes (etherOffset f + 13) = f.bytes (etherOffset f + 13) ∧
      g.bytes (etherOffset f + 14 + 9) = f.bytes (etherOffset f + 14 + 9) :=
    ⟨(hbytes _ (by omega)).symm, (hbytes _ (by omega)).symm, (hbytes _ (by omega)).symm⟩
  have hpeer' : ip4At g.bytes (etherOffset f + 14 + 12) = peer := by
    rw [← not_not.mp hpeer]
    funext k
    exact (hbytes _ (by omega)).symm
  have hport' : be16 g.bytes (udp + 2) = be16 f.bytes (udp + 2) := by
    rw [be16, be16, hbytes (udp + 2) (by omega), hbytes (udp + 2 + 1) (by omega)]
  unfold udpFrom
  simp only [hchan', hdoff', hether', ← hlen, ← hat, hfields, hpeer', hudp, hport']
  rw [hudp] at hport
  rw [if_neg (by tauto), if_neg (by tauto), if_neg (by tauto), if_neg (by tauto)]

/-- The headers in front of a datagram of `n` bytes: those of the chip, Ethernet, IPv4
without options and UDP. -/
def udpHeader (peer : Ip4) (sport dport n : UInt16) : List UInt8 :=
  [0, 0, 0, 0, 0, 2, 0, 12, 0, 0, 0, 0, 0, 0, 0, 0,
    0, 0, 0, 0, 0, 0, 0, 0, 0, 0, 0, 0, 0x08, 0x00,
    0x45, 0, 0, 0, 0, 0, 0, 0, 0, 17, 0, 0, peer 0, peer 1, peer 2, peer 3, 0, 0, 0, 0,
    (sport >>> 8).toUInt8, sport.toUInt8, (dport >>> 8).toUInt8, dport.toUInt8,
    (n >>> 8).toUInt8, n.toUInt8, 0, 0]

/-- A frame with a UDP datagram in it. -/
def udpFrame (peer : Ip4) (sport dport : UInt16) (payload : List UInt8) : Frame where
  bytes o := (udpHeader peer sport dport (UInt16.ofNat (payload.length + 8)) ++ payload).getD o 0
  len := 58 + payload.length

theorem be16_of_bytes (x : UInt16) :
    ((x >>> 8).toUInt8.toUInt16 <<< 8) ||| x.toUInt8.toUInt16 = x := by
  apply UInt16.eq_of_toBitVec_eq
  apply BitVec.eq_of_getLsbD_eq
  intro i hi
  simp [hi, -UInt16.toUInt16_toUInt8]
  grind

section UdpFrame

variable (peer : Ip4) (sport dport : UInt16) (payload : List UInt8)

@[simp] theorem udpFrame_len : (udpFrame peer sport dport payload).len = 58 + payload.length := rfl

theorem udpFrame_dport : be16 (udpFrame peer sport dport payload).bytes 52 = dport :=
  be16_of_bytes dport

theorem udpFrame_payload (k : ℕ) :
    (udpFrame peer sport dport payload).bytes (58 + k) = payload.getD k 0 := by
  have hlen : (udpHeader peer sport dport (UInt16.ofNat (payload.length + 8))).length = 58 := rfl
  simp only [udpFrame, List.getD_eq_getElem?_getD]
  rw [List.getElem?_append_right (by omega), hlen, Nat.add_sub_cancel_left]

/-- A datagram is found where it was put. -/
theorem udpFrom_udpFrame {minLen : ℕ} (hlen : minLen ≤ 42 + payload.length) :
    udpFrom peer dport minLen (udpFrame peer sport dport payload) = some 50 := by
  have hdoff : doff (udpFrame peer sport dport payload) = 12 := rfl
  have hether : etherOffset (udpFrame peer sport dport payload) = 16 := rfl
  have hihl : (udpFrame peer sport dport payload).bytes 30 = 0x45 := rfl
  have hchan : chan (udpFrame peer sport dport payload) = 2 := by
    rw [chan, show (udpFrame peer sport dport payload).bytes 5 = 2 from rfl]
    decide
  have htype : (udpFrame peer sport dport payload).bytes 28 = 0x08 ∧
      (udpFrame peer sport dport payload).bytes 29 = 0x00 := ⟨rfl, rfl⟩
  have hproto : (udpFrame peer sport dport payload).bytes 39 = 17 := rfl
  have hpeer : ip4At (udpFrame peer sport dport payload).bytes 42 = peer := by
    funext k
    fin_cases k <;> rfl
  have hport := udpFrame_dport peer sport dport payload
  unfold udpFrom
  simp only [hether, hdoff, hchan, htype, hihl, hproto, hpeer, udpFrame_len]
  rw [if_neg (by simp; omega), if_neg (by simp; omega), if_neg (by simp [hport]), if_neg (by simp)]
  rfl

end UdpFrame

end XinuRpi4.Wifi
