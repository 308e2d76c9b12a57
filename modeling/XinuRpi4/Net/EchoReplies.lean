import XinuRpi4.Foundation.TextBuffer
import XinuRpi4.Net.FrameFormat

/-!
# The ARP and echo responder of the wired port

A reply is built in one buffer that is kept from frame to frame. An echo reply is the
request with the addresses swapped, the type cleared and both checksums written anew; as
many bytes are copied as the IP header says.
-/

namespace XinuRpi4.Net

open XinuRpi4.Foundation

/-- The addresses of a station. -/
structure Station where
  mac : Fin 6 → UInt8
  ip : Ip4

/-- `(ip[0] & 0x0F) * 4` -/
def ihl (f : Frame) : ℕ := (f.bytes 14 &&& 0x0F).toNat * 4

/-- `(ip[2] << 8) | ip[3]` -/
def ipTotal (f : Frame) : ℕ := (be16 f.bytes 16).toNat

/-- The two bytes at `field` become the checksum of the `n` bytes from `o` on, which is
summed up over zeros there. -/
def putChecksum (b : ℕ → UInt8) (field o n : ℕ) : ℕ → UInt8 :=
  let b := fill b field [0, 0]
  fill b field (halves (ipChecksum (slice b o n)))

/-- The ARP reply of 42 bytes, padded to 60. -/
def arpReply (us : Station) (txReply : ℕ → UInt8) (f : Frame) : ℕ → UInt8 :=
  let b := fill txReply 0 (List.replicate 60 0)
  let b := fill b 0 (slice f.bytes 6 6)
  let b := fill b 6 (macBytes us.mac ++ [0x08, 0x06])
  let b := fill b 14 [0x00, 0x01, 0x08, 0x00, 6, 4, 0x00, 0x02]
  let b := fill b 22 (macBytes us.mac ++ ipBytes us.ip)
  let b := fill b 32 (slice f.bytes 6 6)
  fill b 38 (slice f.bytes 28 4)

/-- The stations and the addresses at both ends. -/
def putEnds (b : ℕ → UInt8) (dstMac srcMac srcIp dstIp : List UInt8) : ℕ → UInt8 :=
  fill (fill (fill (fill b 0 dstMac) 6 srcMac) 26 srcIp) 30 dstIp

def echoReply (us : Station) (txReply : ℕ → UInt8) (f : Frame) : ℕ → UInt8 :=
  let b := fill txReply 0 (slice f.bytes 0 (14 + ipTotal f))
  let b := putEnds b (slice f.bytes 6 6) (macBytes us.mac) (ipBytes us.ip) (slice f.bytes 26 4)
  let b := putChecksum b 24 14 (ihl f)
  let b := fill b (14 + ihl f) [0]
  putChecksum b (14 + ihl f + 2) (14 + ihl f) (ipTotal f - ihl f)

/-- The buffer afterwards, and the frames that are handed to `genet_tx_frame`. -/
def netResponderHandle (us : Station) (txReply : ℕ → UInt8) (f : Frame) :
    (ℕ → UInt8) × List (List UInt8) :=
  if f.len < 14 then (txReply, [])
  else if be16 f.bytes 12 = 0x0806 ∧ 14 + 28 ≤ f.len then
    if be16 f.bytes 20 ≠ 0x0001 then (txReply, [])
    else if ip4At f.bytes 38 ≠ us.ip then (txReply, [])
    else (arpReply us txReply f, [slice (arpReply us txReply f) 0 60])
  else if be16 f.bytes 12 = 0x0800 ∧ 14 + 20 ≤ f.len then
    if ihl f < 20 then (txReply, [])
    else if ip4At f.bytes 30 ≠ us.ip then (txReply, [])
    else if f.bytes 23 = 1 ∧ 14 + ihl f + 8 ≤ f.len then
      if f.bytes (14 + ihl f) ≠ 8 then (txReply, [])
      else if ipTotal f < ihl f + 8 ∨ 1518 < ipTotal f + 14 then (txReply, [])
      else
        let replyLen := 14 + ipTotal f
        (echoReply us txReply f,
          [slice (echoReply us txReply f) 0 (if replyLen < 60 then 60 else replyLen)])
    else (txReply, [])
  else (txReply, [])

/-- The buffer after some frames; it is zero at first. -/
def txReplyAfter (us : Station) : List Frame → ℕ → UInt8 :=
  List.foldl (fun b f => (netResponderHandle us b f).1) fun _ => 0

/-- What is transmitted for a frame that comes behind others. -/
def wiredReplies (us : Station) (earlier : List Frame) (f : Frame) : List (List UInt8) :=
  (netResponderHandle us (txReplyAfter us earlier) f).2

/-- An echo request for the station, up to the length that the IP header says. -/
structure EchoShape (us : Station) (f : Frame) : Prop where
  ethertype : be16 f.bytes 12 = 0x0800
  header : 20 ≤ ihl f
  proto : f.bytes 23 = 1
  dst : ip4At f.bytes 30 = us.ip
  inside : 14 + ihl f + 8 ≤ f.len
  request : f.bytes (14 + ihl f) = 8
  message : ihl f + 8 ≤ ipTotal f

instance (us : Station) (f : Frame) : Decidable (EchoShape us f) :=
  decidable_of_iff (be16 f.bytes 12 = 0x0800 ∧ 20 ≤ ihl f ∧ f.bytes 23 = 1 ∧
      ip4At f.bytes 30 = us.ip ∧ 14 + ihl f + 8 ≤ f.len ∧ f.bytes (14 + ihl f) = 8 ∧
      ihl f + 8 ≤ ipTotal f)
    ⟨fun ⟨h₁, h₂, h₃, h₄, h₅, h₆, h₇⟩ => ⟨h₁, h₂, h₃, h₄, h₅, h₆, h₇⟩,
      fun ⟨h₁, h₂, h₃, h₄, h₅, h₆, h₇⟩ => ⟨h₁, h₂, h₃, h₄, h₅, h₆, h₇⟩⟩

/-- The IP packet lies in the frame. -/
structure EchoRequest (us : Station) (f : Frame) : Prop extends EchoShape us f where
  total : 14 + ipTotal f ≤ f.len

/-- An ARP request for the address of the station. -/
def ArpRequest (us : Station) (f : Frame) : Prop :=
  42 ≤ f.len ∧ be16 f.bytes 12 = 0x0806 ∧ be16 f.bytes 20 = 1 ∧ ip4At f.bytes 38 = us.ip

instance (us : Station) (f : Frame) : Decidable (ArpRequest us f) :=
  inferInstanceAs (Decidable (_ ∧ _ ∧ _ ∧ _))

/-- The reply to an echo request that comes from the station `src`. -/
structure EchoAnswer (us : Station) (src : List UInt8) (f : Frame) (r : List UInt8) : Prop where
  long : 14 + ipTotal f ≤ r.length
  dstMac : r.take 6 = slice f.bytes 6 6
  srcMac : (r.drop 6).take 6 = src
  header : (r.drop 12).take 12 = slice f.bytes 12 12
  ipSum : foldCarry (wordSum ((r.drop 14).take (ihl f))) = 0xFFFF
  srcIp : (r.drop 26).take 4 = ipBytes us.ip
  dstIp : (r.drop 30).take 4 = slice f.bytes 26 4
  options : (r.drop 34).take (ihl f - 20) = slice f.bytes 34 (ihl f - 20)
  type : (r.drop (14 + ihl f)).take 1 = [0]
  code : (r.drop (14 + ihl f + 1)).take 1 = slice f.bytes (14 + ihl f + 1) 1
  icmpSum : foldCarry (wordSum ((r.drop (14 + ihl f)).take (ipTotal f - ihl f))) = 0xFFFF
  rest : (r.drop (14 + ihl f + 4)).take (ipTotal f - ihl f - 4) =
    slice f.bytes (14 + ihl f + 4) (ipTotal f - ihl f - 4)
  padding : ∀ b ∈ r.drop (14 + ipTotal f), b = 0

section Checksum

variable {b b' : ℕ → UInt8} {field o p n m i : ℕ}

theorem length_halves (k : ℕ) : (halves k).length = 2 := rfl

theorem putChecksum_of_lt (h : i < field) : putChecksum b field p m i = b i := by
  unfold putChecksum
  rw [fill_before _ h, fill_before _ h]

theorem putChecksum_of_le (h : field + 2 ≤ i) : putChecksum b field p m i = b i := by
  unfold putChecksum
  rw [fill_behind _ (by simpa [length_halves] using h), fill_behind _ (by simpa using h)]

theorem slice_putChecksum_of_disjoint (h : o + n ≤ field ∨ field + 2 ≤ o) :
    slice (putChecksum b field p m) o n = slice b o n := by
  apply slice_congr
  intro i hlo hhi
  obtain h | h := h
  · exact putChecksum_of_lt (by omega)
  · exact putChecksum_of_le (by omega)

/-- What the checksum was written for sums up to 0xFFFF. -/
theorem putChecksum_verifies (hfield : field = o + m) (heven : m % 2 = 0) (hle : m + 2 ≤ n) :
    foldCarry (wordSum (slice (putChecksum b field o n) o n)) = 0xFFFF := by
  subst hfield
  obtain ⟨k, rfl⟩ := Nat.exists_eq_add_of_le hle
  have hparts (s : List UInt8) (hs : s.length = 2) (c : ℕ → UInt8) :
      slice (fill c (o + m) s) o (m + 2 + k) =
        slice c o m ++ s ++ slice c (o + m + 2) k := by
    rw [slice_add, slice_add, slice_fill_of_disjoint s (Or.inl (by omega)), ← hs, slice_fill,
      slice_fill_of_disjoint s (Or.inr (by omega))]
    congr 2
    omega
  have hzero : [0, 0] = halves 0 := rfl
  have hlen : (slice b o m).length % 2 = 0 := by rwa [length_slice]
  have hsum (c : ℕ) (hc : c < 65536) : wordSum (slice b o m ++ halves c ++ slice b (o + m + 2) k) =
      wordSum (slice b o m) + wordSum (slice b (o + m + 2) k) + c := wordSum_halves hlen hc
  unfold putChecksum
  dsimp only
  rw [hparts [0, 0] rfl b, hparts _ (length_halves _), slice_fill_of_disjoint _ (Or.inl (by omega)),
    slice_fill_of_disjoint [0, 0] (Or.inr (by simp)), hzero, ipChecksum, hsum _ (complement_lt _),
    hsum 0 (by decide), Nat.add_zero]
  exact foldCarry_add_complement _

/-- Buffers with the same first bytes have the same first bytes with the checksum. -/
theorem putChecksum_congr {N : ℕ} (h : ∀ i < N, b i = b' i) (hin : o + n ≤ N) :
    ∀ i < N, putChecksum b field o n i = putChecksum b' field o n i := by
  intro i hi
  have hzero (j : ℕ) (hj : j < N) := fill_congr field [0, 0] (h j hj)
  have hslice : slice (fill b field [0, 0]) o n = slice (fill b' field [0, 0]) o n :=
    slice_congr fun j _ hj => hzero j (by omega)
  unfold putChecksum
  rw [hslice]
  exact fill_congr field _ (hzero i hi)

end Checksum

section Reply

variable {us : Station} {tx : ℕ → UInt8} {f g : Frame}

/-- The request, as far as it is copied. -/
theorem copied_at {i m : ℕ} (h : i < m) : fill tx 0 (slice f.bytes 0 m) i = f.bytes i := by
  have hlt : i < (slice f.bytes 0 m).length := by rwa [length_slice]
  rw [fill_get hlt, List.get_eq_getElem, getElem_slice, Nat.zero_add]

/-- A buffer that holds the request between the ends of the reply. -/
structure Readdressed (us : Station) (src : List UInt8) (f : Frame) (b : ℕ → UInt8) : Prop where
  dstMac : slice b 0 6 = slice f.bytes 6 6
  srcMac : slice b 6 6 = src
  header : slice b 12 12 = slice f.bytes 12 12
  srcIp : slice b 26 4 = ipBytes us.ip
  dstIp : slice b 30 4 = slice f.bytes 26 4
  options : slice b 34 (ihl f - 20) = slice f.bytes 34 (ihl f - 20)
  code : slice b (14 + ihl f + 1) 1 = slice f.bytes (14 + ihl f + 1) 1
  rest : slice b (14 + ihl f + 4) (ipTotal f - ihl f - 4) =
    slice f.bytes (14 + ihl f + 4) (ipTotal f - ihl f - 4)

theorem slice_putEnds_of_disjoint {b : ℕ → UInt8} {dm sm si di : List UInt8} {o n : ℕ}
    (hdm : dm.length = 6) (hsm : sm.length = 6) (hsi : si.length = 4) (hdi : di.length = 4)
    (h : 12 ≤ o ∧ o + n ≤ 26 ∨ 34 ≤ o) : slice (putEnds b dm sm si di) o n = slice b o n := by
  unfold putEnds
  rw [slice_fill_of_disjoint di (by omega), slice_fill_of_disjoint si (by omega),
    slice_fill_of_disjoint sm (by omega), slice_fill_of_disjoint dm (by omega)]

theorem slice_putEnds (b : ℕ → UInt8) {dm sm si di : List UInt8} (hdm : dm.length = 6)
    (hsm : sm.length = 6) (hsi : si.length = 4) (hdi : di.length = 4) :
    slice (putEnds b dm sm si di) 0 6 = dm ∧ slice (putEnds b dm sm si di) 6 6 = sm ∧
      slice (putEnds b dm sm si di) 26 4 = si ∧ slice (putEnds b dm sm si di) 30 4 = di := by
  have hself (c : ℕ → UInt8) (o n : ℕ) (s : List UInt8) (hs : s.length = n) :
      slice (fill c o s) o n = s := by
    rw [← hs]
    exact slice_fill c o s
  unfold putEnds
  refine ⟨?_, ?_, ?_, hself _ 30 4 di hdi⟩
  · rw [slice_fill_of_disjoint di (by omega), slice_fill_of_disjoint si (by omega),
      slice_fill_of_disjoint sm (by omega), hself _ 0 6 dm hdm]
  · rw [slice_fill_of_disjoint di (by omega), slice_fill_of_disjoint si (by omega),
      hself _ 6 6 sm hsm]
  · rw [slice_fill_of_disjoint di (by omega), hself _ 26 4 si hsi]

/-- A buffer that holds the request, with the ends of the reply put in. -/
theorem readdressed_putEnds {b : ℕ → UInt8} {src : List UInt8} (hf : EchoShape us f)
    (hb : ∀ i < 14 + ipTotal f, b i = f.bytes i) (hsrc : src.length = 6) :
    Readdressed us src f (putEnds b (slice f.bytes 6 6) src (ipBytes us.ip) (slice f.bytes 26 4)) := by
  have hheader := hf.header
  have hmessage := hf.message
  have hsame {o n : ℕ} (h : o + n ≤ 14 + ipTotal f) : slice b o n = slice f.bytes o n :=
    slice_congr fun i _ hi => hb i (by omega)
  have hdst : (slice f.bytes 6 6).length = 6 := length_slice
  have hip : (ipBytes us.ip).length = 4 := rfl
  have hpeer : (slice f.bytes 26 4).length = 4 := length_slice
  have hout {o n : ℕ} (h : 12 ≤ o ∧ o + n ≤ 26 ∨ 34 ≤ o) :
      slice (putEnds b (slice f.bytes 6 6) src (ipBytes us.ip) (slice f.bytes 26 4)) o n = slice b o n :=
    slice_putEnds_of_disjoint hdst hsrc hip hpeer h
  obtain ⟨hdm, hsm, hsi, hdi⟩ := slice_putEnds b hdst hsrc hip hpeer
  constructor
  · exact hdm
  · exact hsm
  · exact (hout (by omega)).trans (hsame (by omega))
  · exact hsi
  · exact hdi
  · exact (hout (by omega)).trans (hsame (by omega))
  · exact (hout (by omega)).trans (hsame (by omega))
  · exact (hout (by omega)).trans (hsame (by omega))

/-- What is written into the fields of the type and of the checksums changes nothing else. -/
theorem Readdressed.congr {b c : ℕ → UInt8} {src : List UInt8} (h : Readdressed us src f b)
    (hheader : 20 ≤ ihl f) (hbytes : ∀ i, i ≠ 24 → i ≠ 25 → i ≠ 14 + ihl f → i ≠ 14 + ihl f + 2 →
      i ≠ 14 + ihl f + 3 → c i = b i) : Readdressed us src f c := by
  constructor
  · exact (slice_congr fun i _ _ => by apply hbytes <;> omega).trans h.dstMac
  · exact (slice_congr fun i _ _ => by apply hbytes <;> omega).trans h.srcMac
  · exact (slice_congr fun i _ _ => by apply hbytes <;> omega).trans h.header
  · exact (slice_congr fun i _ _ => by apply hbytes <;> omega).trans h.srcIp
  · exact (slice_congr fun i _ _ => by apply hbytes <;> omega).trans h.dstIp
  · exact (slice_congr fun i _ _ => by apply hbytes <;> omega).trans h.options
  · exact (slice_congr fun i _ _ => by apply hbytes <;> omega).trans h.code
  · exact (slice_congr fun i _ _ => by apply hbytes <;> omega).trans h.rest

/-- What the buffer of an answer holds. -/
structure EchoBuffer (us : Station) (src : List UInt8) (f : Frame) (c : ℕ → UInt8) : Prop
    extends Readdressed us src f c where
  ipSum : foldCarry (wordSum (slice c 14 (ihl f))) = 0xFFFF
  type : slice c (14 + ihl f) 1 = [0]
  icmpSum : foldCarry (wordSum (slice c (14 + ihl f) (ipTotal f - ihl f))) = 0xFFFF

theorem EchoBuffer.answer {src : List UInt8} {c : ℕ → UInt8} {m : ℕ} (h : EchoBuffer us src f c)
    (hf : EchoShape us f) (hm : 14 + ipTotal f ≤ m)
    (hpad : ∀ i, 14 + ipTotal f ≤ i → i < m → c i = 0) : EchoAnswer us src f (slice c 0 m) := by
  have hheader := hf.header
  have hmessage := hf.message
  constructor
  · rw [length_slice]
    exact hm
  · exact (drop_take_slice (by omega)).trans h.dstMac
  · exact (drop_take_slice (by omega)).trans h.srcMac
  · exact (drop_take_slice (by omega)).trans h.header
  · rw [drop_take_slice (by omega)]
    exact h.ipSum
  · exact (drop_take_slice (by omega)).trans h.srcIp
  · exact (drop_take_slice (by omega)).trans h.dstIp
  · exact (drop_take_slice (by omega)).trans h.options
  · exact (drop_take_slice (by omega)).trans h.type
  · exact (drop_take_slice (by omega)).trans h.code
  · rw [drop_take_slice (by omega)]
    exact h.icmpSum
  · exact (drop_take_slice (by omega)).trans h.rest
  · intro b hb
    obtain ⟨k, hk, rfl⟩ := List.mem_iff_getElem.mp hb
    rw [List.length_drop, length_slice] at hk
    rw [List.getElem_drop, getElem_slice, Nat.zero_add]
    exact hpad _ (by omega) (by omega)

theorem putChecksum_of_ne {b : ℕ → UInt8} {field o n i : ℕ} (h : i ≠ field) (h' : i ≠ field + 1) :
    putChecksum b field o n i = b i := by
  obtain h | h := Nat.lt_or_ge i field
  · exact putChecksum_of_lt h
  · exact putChecksum_of_le (by omega)

theorem echoReply_buffer (tx : ℕ → UInt8) (hf : EchoShape us f) :
    EchoBuffer us (macBytes us.mac) f (echoReply us tx f) := by
  have hheader := hf.header
  have hmessage := hf.message
  have hmac : (macBytes us.mac).length = 6 := rfl
  have hends := readdressed_putEnds (b := fill tx 0 (slice f.bytes 0 (14 + ipTotal f))) hf
    (fun i hi => copied_at hi) hmac
  constructor
  · refine hends.congr hheader fun i h₁ h₂ h₃ h₄ h₅ => ?_
    unfold echoReply
    rw [putChecksum_of_ne h₄ h₅, fill, fill, Function.update_of_ne h₃, putChecksum_of_ne h₁ h₂]
  · unfold echoReply
    dsimp only
    rw [slice_putChecksum_of_disjoint (by omega), slice_fill_of_disjoint _ (by omega)]
    exact putChecksum_verifies (m := 10) rfl rfl (by omega)
  · unfold echoReply
    dsimp only
    rw [slice_putChecksum_of_disjoint (by omega)]
    exact slice_fill _ _ [0]
  · exact putChecksum_verifies (m := 2) rfl rfl (by omega)

/-- Two frames with the same bytes. -/
structure SameBytes (f g : Frame) : Prop where
  len : f.len = g.len
  bytes : ∀ o < f.len, f.bytes o = g.bytes o

theorem SameBytes.be16 (h : SameBytes f g) {o : ℕ} (ho : o + 2 ≤ f.len) :
    be16 f.bytes o = be16 g.bytes o := by
  rw [Net.be16, Net.be16, h.bytes o (by omega), h.bytes (o + 1) (by omega)]

theorem SameBytes.ip4At (h : SameBytes f g) {o : ℕ} (ho : o + 4 ≤ f.len) :
    ip4At f.bytes o = ip4At g.bytes o := by
  funext k
  exact h.bytes _ (by omega)

theorem SameBytes.slice (h : SameBytes f g) {o n : ℕ} (ho : o + n ≤ f.len) :
    slice f.bytes o n = slice g.bytes o n :=
  slice_congr fun i _ _ => h.bytes i (by omega)

theorem SameBytes.ihl (h : SameBytes f g) (hlen : 15 ≤ f.len) : ihl f = ihl g := by
  rw [Net.ihl, Net.ihl, h.bytes 14 (by omega)]

theorem SameBytes.ipTotal (h : SameBytes f g) (hlen : 18 ≤ f.len) : ipTotal f = ipTotal g := by
  rw [Net.ipTotal, Net.ipTotal, h.be16 (by omega)]

/-- A reply that is inside the frame depends on the frame alone. -/
theorem echoReply_congr (h : SameBytes f g) (tx tx' : ℕ → UInt8) (hf : EchoShape us f)
    (hin : 14 + ipTotal f ≤ f.len) :
    ∀ i < 14 + ipTotal f, echoReply us tx f i = echoReply us tx' g i := by
  have hheader := hf.header
  have hmessage := hf.message
  have hcopied (i : ℕ) (hi : i < 14 + ipTotal f) : fill tx 0 (slice f.bytes 0 (14 + ipTotal f)) i =
      fill tx' 0 (slice g.bytes 0 (14 + ipTotal f)) i := by
    rw [copied_at hi, copied_at hi, h.bytes i (by omega)]
  unfold echoReply putEnds
  rw [← h.ihl (by omega), ← h.ipTotal (by omega), ← h.slice (o := 6) (n := 6) (by omega),
    ← h.slice (o := 26) (n := 4) (by omega)]
  refine putChecksum_congr (fun i hi => fill_congr _ _ ?_) (by omega)
  refine putChecksum_congr (fun i hi => ?_) (by omega) i hi
  exact fill_congr _ _ (fill_congr _ _ (fill_congr _ _ (fill_congr _ _ (hcopied i hi))))

/-- An ARP reply depends on the request alone. -/
theorem arpReply_congr (h : SameBytes f g) (tx tx' : ℕ → UInt8) (hlen : 42 ≤ f.len) :
    ∀ i < 60, arpReply us tx f i = arpReply us tx' g i := by
  intro i hi
  have hzero : fill tx 0 (List.replicate 60 0) i = fill tx' 0 (List.replicate 60 0) i := by
    have hlt : i < (List.replicate 60 (0 : UInt8)).length := by rwa [List.length_replicate]
    rw [fill_get hlt, fill_get hlt]
  unfold arpReply
  rw [← h.slice (o := 6) (n := 6) (by omega), ← h.slice (o := 28) (n := 4) (by omega)]
  exact fill_congr _ _ (fill_congr _ _ (fill_congr _ _ (fill_congr _ _ (fill_congr _ _
    (fill_congr _ _ hzero)))))

theorem SameBytes.symm (h : SameBytes f g) : SameBytes g f :=
  ⟨h.len.symm, fun o ho => (h.bytes o (h.len ▸ ho)).symm⟩

theorem SameBytes.arpRequest (h : SameBytes f g) (hf : ArpRequest us f) : ArpRequest us g := by
  obtain ⟨hlen, htype, hoper, htpa⟩ := hf
  refine ⟨h.len ▸ hlen, ?_, ?_, ?_⟩
  · rwa [← h.be16 (by omega)]
  · rwa [← h.be16 (by omega)]
  · rwa [← h.ip4At (by omega)]

theorem SameBytes.echoShape (h : SameBytes f g) (hf : EchoShape us f) : EchoShape us g := by
  have hheader := hf.header
  have hinside := hf.inside
  have hihl := h.ihl (by omega)
  have htotal := h.ipTotal (by omega)
  constructor
  · rw [← h.be16 (by omega)]
    exact hf.ethertype
  · exact hihl ▸ hf.header
  · rw [← h.bytes 23 (by omega)]
    exact hf.proto
  · rw [← h.ip4At (by omega)]
    exact hf.dst
  · exact hihl ▸ h.len ▸ hinside
  · rw [← hihl, ← h.bytes _ (by omega)]
    exact hf.request
  · exact hihl ▸ htotal ▸ hf.message

theorem SameBytes.arpRequest_iff (h : SameBytes f g) : ArpRequest us f ↔ ArpRequest us g :=
  ⟨h.arpRequest, h.symm.arpRequest⟩

theorem SameBytes.echoShape_iff (h : SameBytes f g) : EchoShape us f ↔ EchoShape us g :=
  ⟨h.echoShape, h.symm.echoShape⟩

theorem not_echoShape_of_arp (h : be16 f.bytes 12 = 0x0806) : ¬ EchoShape us f := by
  intro hf
  rw [hf.ethertype] at h
  exact absurd h (by decide)

theorem netResponderHandle_arp (tx : ℕ → UInt8) (h : ArpRequest us f) :
    netResponderHandle us tx f = (arpReply us tx f, [slice (arpReply us tx f) 0 60]) := by
  obtain ⟨hlen, htype, hoper, htpa⟩ := h
  rw [netResponderHandle, if_neg (by omega), if_pos ⟨htype, hlen⟩, if_neg (not_not.mpr hoper),
    if_neg (not_not.mpr htpa)]

theorem netResponderHandle_echo (tx : ℕ → UInt8) (h : EchoShape us f) (hmax : ipTotal f + 14 ≤ 1518) :
    netResponderHandle us tx f =
      (echoReply us tx f, [slice (echoReply us tx f) 0 (max 60 (14 + ipTotal f))]) := by
  have hnot : ¬ (be16 f.bytes 12 = 0x0806 ∧ 14 + 28 ≤ f.len) := fun harp =>
    not_echoShape_of_arp harp.1 h
  have hlen : (if 14 + ipTotal f < 60 then 60 else 14 + ipTotal f) = max 60 (14 + ipTotal f) := by
    split_ifs <;> omega
  obtain ⟨htype, hheader, hproto, hdst, hinside, hreq, hmessage⟩ := h
  rw [netResponderHandle, if_neg (by omega), if_neg hnot, if_pos ⟨htype, by omega⟩, if_neg (by omega),
    if_neg (not_not.mpr hdst), if_pos ⟨hproto, hinside⟩, if_neg (not_not.mpr hreq), if_neg (by omega)]
  simp only [hlen]

/-- A reply is transmitted for ARP and echo requests only. -/
theorem netResponderHandle_sent (us : Station) (tx : ℕ → UInt8) (f : Frame) :
    (netResponderHandle us tx f).2 =
      if ArpRequest us f then [slice (arpReply us tx f) 0 60]
      else if EchoShape us f ∧ ipTotal f + 14 ≤ 1518 then
        [slice (echoReply us tx f) 0 (max 60 (14 + ipTotal f))]
      else [] := by
  by_cases harp : ArpRequest us f
  · rw [if_pos harp, netResponderHandle_arp tx harp]
  · rw [if_neg harp]
    by_cases hecho : EchoShape us f ∧ ipTotal f + 14 ≤ 1518
    · rw [if_pos hecho, netResponderHandle_echo tx hecho.1 hecho.2]
    · rw [if_neg hecho]
      unfold netResponderHandle
      split_ifs with h₁ h₂ h₃ h₄ h₅ h₆ h₇ h₈ h₉ h₁₀ <;> try rfl
      · exact absurd ⟨h₂.2, h₂.1, not_not.mp h₃, not_not.mp h₄⟩ harp
      · refine absurd ⟨⟨h₅.1, ?_, h₈.1, not_not.mp h₇, h₈.2, not_not.mp h₉, ?_⟩, ?_⟩ hecho <;> omega

/-- What has been copied from an earlier frame stays in the buffer. -/
theorem echoReply_payload {i : ℕ} (tx : ℕ → UInt8) (hf : EchoShape us f) (hlo : 14 + ihl f + 4 ≤ i)
    (hhi : i < 14 + ipTotal f) : echoReply us tx f i = f.bytes i := by
  have hheader := hf.header
  have hrest := (echoReply_buffer tx hf).rest
  have hget := congrArg (fun s => s[i - (14 + ihl f + 4)]?) hrest
  rw [List.getElem?_eq_getElem (by rw [length_slice]; omega),
    List.getElem?_eq_getElem (by rw [length_slice]; omega)] at hget
  simp only [getElem_slice, Option.some.injEq] at hget
  rwa [Nat.add_sub_cancel' hlo] at hget

theorem echoReply_behind {i : ℕ} (tx : ℕ → UInt8) (hf : EchoShape us f) (hi : 14 + ipTotal f ≤ i) :
    echoReply us tx f i = tx i := by
  have hheader := hf.header
  have hmessage := hf.message
  unfold echoReply putEnds
  rw [putChecksum_of_le (by omega), fill, fill, Function.update_of_ne (by omega),
    putChecksum_of_le (by omega), fill_behind _ (by rw [length_slice]; omega),
    fill_behind _ (by simp [ipBytes]; omega), fill_behind _ (by simp [macBytes]; omega),
    fill_behind _ (by rw [length_slice]; omega), fill_behind _ (by rw [length_slice]; omega)]

end Reply

end XinuRpi4.Net
