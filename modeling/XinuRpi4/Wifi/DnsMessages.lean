import XinuRpi4.Wifi.Resolve

/-!
# Responses of a DNS server

A well-formed response has one question, and behind it the records of its three sections. The
resolver finds the first address among the answers. Whatever a message holds, the loops end and
read inside of it.
-/

namespace XinuRpi4.Wifi

open XinuRpi4.Net

/-- Labels, and the pointer that stands for the rest of the name if there is one. -/
structure DnsName where
  labels : List { l : List UInt8 // l ≠ [] ∧ l.length ≤ 63 }
  pointer : Option { p : UInt8 × UInt8 // p.1 &&& 0xC0 = 0xC0 }

def encodeLabels : List { l : List UInt8 // l ≠ [] ∧ l.length ≤ 63 } → List UInt8
  | [] => []
  | l :: ls => UInt8.ofNat l.val.length :: (l.val ++ encodeLabels ls)

def DnsName.ending (n : DnsName) : List UInt8 :=
  match n.pointer with
  | none => [0]
  | some p => [p.val.1, p.val.2]

def DnsName.encode (n : DnsName) : List UInt8 := encodeLabels n.labels ++ n.ending

def encode16 (x : UInt16) : List UInt8 := [(x >>> 8).toUInt8, x.toUInt8]

/-- A record; an A record has an address of four bytes. -/
structure DnsRecord where
  name : DnsName
  type : UInt16
  cls : UInt16
  ttl : Ip4
  rdata : List UInt8
  rdata_length : rdata.length < 65536
  address : type = 1 → rdata.length = 4

namespace DnsRecord

/-- The fields between the name and the data. -/
def fields (r : DnsRecord) : List UInt8 :=
  encode16 r.type ++ encode16 r.cls ++ List.ofFn r.ttl ++ encode16 (UInt16.ofNat r.rdata.length)

def encode (r : DnsRecord) : List UInt8 := r.name.encode ++ r.fields ++ r.rdata

def ip4 (r : DnsRecord) : Ip4 := fun k => r.rdata.getD k 0

end DnsRecord

/-- The address of the first A record. -/
def firstA (rs : List DnsRecord) : Option Ip4 := (rs.find? fun r => r.type = 1).map DnsRecord.ip4

structure DnsMessage where
  id : UInt16
  flags : UInt16
  question : DnsName
  qtype : UInt16
  qclass : UInt16
  answers : List DnsRecord
  authority : List DnsRecord
  additional : List DnsRecord
  answers_length : answers.length < 65536

namespace DnsMessage

variable (msg : DnsMessage)

def header : List UInt8 :=
  encode16 msg.id ++ encode16 msg.flags ++ encode16 1 ++
    encode16 (UInt16.ofNat msg.answers.length) ++ encode16 (UInt16.ofNat msg.authority.length) ++
    encode16 (UInt16.ofNat msg.additional.length)

def encode : List UInt8 :=
  msg.header ++ (msg.question.encode ++ (encode16 msg.qtype ++ encode16 msg.qclass)) ++
    msg.answers.flatMap DnsRecord.encode ++
    (msg.authority.flatMap DnsRecord.encode ++ msg.additional.flatMap DnsRecord.encode)

end DnsMessage

/-- The bytes stand in the message from an offset on. -/
def Has (m : ℕ → UInt8) (o : ℕ) (bs : List UInt8) : Prop :=
  ∀ i, (h : i < bs.length) → m (o + i) = bs[i]

section Has

variable {m : ℕ → UInt8} {o mlen : ℕ}

theorem has_append {bs cs : List UInt8} :
    Has m o (bs ++ cs) ↔ Has m o bs ∧ Has m (o + bs.length) cs := by
  constructor
  · intro h
    refine ⟨fun i hi => ?_, fun i hi => ?_⟩
    · rw [h i (by simp; omega), List.getElem_append_left hi]
    · rw [Nat.add_assoc, h (bs.length + i) (by simp; omega),
        List.getElem_append_right (Nat.le_add_right _ _)]
      simp
  · rintro ⟨hb, hc⟩ i hi
    rcases Nat.lt_or_ge i bs.length with hlt | hge
    · rw [hb i hlt, List.getElem_append_left hlt]
    · obtain ⟨k, rfl⟩ := Nat.exists_eq_add_of_le hge
      rw [← Nat.add_assoc, hc k (by simp at hi; omega), List.getElem_append_right hge]
      simp

theorem has_cons {b : UInt8} {bs : List UInt8} :
    Has m o (b :: bs) ↔ m o = b ∧ Has m (o + 1) bs := by
  rw [← List.singleton_append, has_append]
  refine and_congr ⟨fun h => h 0 Nat.one_pos, fun h i hi => ?_⟩ Iff.rfl
  obtain rfl : i = 0 := by simpa using hi
  exact h

theorem Has.be16 {x : UInt16} (h : Has m o (encode16 x)) : be16 m o = x := by
  rw [encode16, has_cons, has_cons] at h
  rw [Net.be16, h.1, h.2.1, be16_of_bytes]

theorem label_length {l : List UInt8} (h : l ≠ [] ∧ l.length ≤ 63) :
    UInt8.ofNat l.length &&& 0xC0 ≠ 0xC0 ∧ UInt8.ofNat l.length ≠ 0 ∧
      (UInt8.ofNat l.length).toNat = l.length := by
  have hsmall : ∀ n < 64, 0 < n →
      UInt8.ofNat n &&& 0xC0 ≠ 0xC0 ∧ UInt8.ofNat n ≠ 0 ∧ (UInt8.ofNat n).toNat = n := by decide
  exact hsmall l.length (Nat.lt_succ_of_le h.2) (List.length_pos_iff.mpr h.1)

theorem dnsSkipName_labels (ls : List { l : List UInt8 // l ≠ [] ∧ l.length ≤ 63 })
    (h : Has m o (encodeLabels ls)) (hlen : o + (encodeLabels ls).length < mlen) :
    dnsSkipName m mlen o = dnsSkipName m mlen (o + (encodeLabels ls).length) := by
  induction ls generalizing o with
  | nil => rfl
  | cons l ls ih =>
    obtain ⟨hptr, hzero, hval⟩ := label_length l.property
    rw [encodeLabels, has_cons, has_append] at h
    obtain ⟨hfirst, -, hrest⟩ := h
    rw [encodeLabels, List.length_cons, List.length_append] at hlen ⊢
    rw [dnsSkipName_turn, if_pos (by omega), hfirst, if_neg hptr, if_neg hzero, hval,
      ← Nat.add_assoc, ih hrest (by omega)]
    congr 1
    omega

/-- A name in the message is skipped. -/
theorem dnsSkipName_encode (n : DnsName) (h : Has m o n.encode)
    (hlen : o + n.encode.length ≤ mlen) : dnsSkipName m mlen o = o + n.encode.length := by
  obtain ⟨ls, pointer⟩ := n
  rw [DnsName.encode, has_append] at h
  obtain ⟨hlabels, hend⟩ := h
  rw [DnsName.encode, List.length_append] at hlen ⊢
  dsimp only at hlabels hend hlen ⊢
  cases pointer with
  | none =>
    have hlast := (has_cons.mp hend).1
    have hone : (DnsName.ending ⟨ls, none⟩).length = 1 := rfl
    rw [dnsSkipName_labels ls hlabels (by omega), dnsSkipName_turn, if_pos (by omega), hlast,
      if_neg (by decide), if_pos rfl, hone, Nat.add_assoc]
  | some p =>
    have hlast := (has_cons.mp hend).1
    have htwo : (DnsName.ending ⟨ls, some p⟩).length = 2 := rfl
    rw [dnsSkipName_labels ls hlabels (by omega), dnsSkipName_turn, if_pos (by omega), hlast,
      if_pos p.property, htwo, Nat.add_assoc]

theorem DnsRecord.fields_length (r : DnsRecord) : r.fields.length = 10 := by
  simp [fields, encode16]

theorem firstAddress_encode (rs : List DnsRecord) (h : Has m o (rs.flatMap DnsRecord.encode))
    (hlen : o + (rs.flatMap DnsRecord.encode).length ≤ mlen) :
    firstAddress m mlen rs.length o = firstA rs := by
  induction rs generalizing o with
  | nil => rfl
  | cons r rs ih =>
    rw [List.flatMap_cons, has_append, DnsRecord.encode, has_append, has_append] at h
    obtain ⟨⟨⟨hname, hfields⟩, hdata⟩, hrest⟩ := h
    have hten := r.fields_length
    rw [List.flatMap_cons, List.length_append, DnsRecord.encode, List.length_append,
      List.length_append, hten] at hlen
    rw [List.length_append, hten] at hdata
    rw [List.length_append, List.length_append, hten] at hrest
    obtain ⟨q, hq⟩ : ∃ q, q = o + r.name.encode.length := ⟨_, rfl⟩
    rw [← hq] at hfields
    rw [← Nat.add_assoc, ← hq] at hdata
    rw [← Nat.add_assoc, ← Nat.add_assoc, ← hq] at hrest
    have hskip : dnsSkipName m mlen o = q := by rw [hq]; exact dnsSkipName_encode r.name hname (by omega)
    have htype : be16 m q = r.type := by
      rw [DnsRecord.fields, has_append, has_append, has_append] at hfields
      exact hfields.1.1.1.be16
    have hrdl : (be16 m (q + 8)).toNat = r.rdata.length := by
      rw [DnsRecord.fields, has_append] at hfields
      have height : (encode16 r.type ++ encode16 r.cls ++ List.ofFn r.ttl).length = 8 := by
        simp [encode16]
      have hlast := hfields.2
      rw [height] at hlast
      rw [hlast.be16, UInt16.toNat_ofNat', Nat.mod_eq_of_lt r.rdata_length]
    have hnext := ih hrest (by omega)
    simp only [List.length_cons, firstAddress, hskip, htype]
    rw [if_neg (by omega), if_neg (by omega), hrdl, hnext, firstA, firstA, List.find?_cons]
    by_cases ha : r.type = 1
    · have hfour := r.address ha
      have hfour' : be16 m (q + 8) = 4 := UInt16.toNat.inj (hrdl.trans hfour)
      rw [if_pos ⟨ha, hfour', by omega⟩]
      simp only [ha, decide_true, Option.map_some]
      congr 1
      funext k
      have hk : k.val < r.rdata.length := by omega
      rw [ip4At, hdata k hk]
      simp [DnsRecord.ip4, hk]
    · rw [if_neg (fun hc => ha hc.1)]
      simp [ha]

/-- The address in a response. -/
theorem dnsAddress_encode (msg : DnsMessage) (h : Has m 0 msg.encode)
    (hlen : msg.encode.length ≤ mlen) : dnsAddress m mlen = firstA msg.answers := by
  have htwelve : msg.header.length = 12 := by simp [DnsMessage.header, encode16]
  have hfour : (encode16 msg.qtype ++ encode16 msg.qclass).length = 4 := by simp [encode16]
  rw [DnsMessage.encode, has_append, has_append, has_append, has_append] at h
  obtain ⟨⟨⟨hheader, hquestion, -⟩, hanswers⟩, -⟩ := h
  rw [DnsMessage.encode] at hlen
  rw [List.length_append] at hfour
  simp only [List.length_append, htwelve, hfour, Nat.zero_add] at hlen hquestion hanswers
  have hcount : (be16 m 6).toNat = msg.answers.length := by
    rw [DnsMessage.header, has_append, has_append, has_append] at hheader
    have hsix : (encode16 msg.id ++ encode16 msg.flags ++ encode16 1).length = 6 := by simp [encode16]
    have hat := hheader.1.1.2
    rw [hsix] at hat
    rw [hat.be16, UInt16.toNat_ofNat', Nat.mod_eq_of_lt msg.answers_length]
  have hskip : dnsSkipName m mlen 12 = 12 + msg.question.encode.length :=
    dnsSkipName_encode msg.question hquestion (by omega)
  rw [dnsAddress, hcount, hskip, Nat.add_assoc]
  exact firstAddress_encode msg.answers hanswers (by omega)

end Has

/-- `dns_skip_name`, where a read may fail and more than `n` turns have no result. -/
def skipNameReads (rd : ℕ → Option UInt8) (mlen : ℕ) : ℕ → ℕ → Option ℕ
  | 0, _ => none
  | n + 1, o =>
    if o < mlen then do
      let b ← rd o
      if b &&& 0xC0 = 0xC0 then some (o + 2)
      else if b = 0 then some (o + 1)
      else skipNameReads rd mlen n (o + (1 + b.toNat))
    else some mlen

def be16Reads (rd : ℕ → Option UInt8) (o : ℕ) : Option UInt16 := do
  let hi ← rd o
  let lo ← rd (o + 1)
  return (hi.toUInt16 <<< 8) ||| lo.toUInt16

def ip4Reads (rd : ℕ → Option UInt8) (o : ℕ) : Option Ip4 := do
  let a ← rd o
  let b ← rd (o + 1)
  let c ← rd (o + 2)
  let d ← rd (o + 3)
  return ![a, b, c, d]

/-- The loop over the records, with at most `turns` turns for a name. -/
def firstAddressReads (rd : ℕ → Option UInt8) (mlen turns : ℕ) : ℕ → ℕ → Option (Option Ip4)
  | 0, _ => some none
  | n + 1, o =>
    if mlen < o + 10 then some none
    else do
      let o ← skipNameReads rd mlen turns o
      if mlen < o + 10 then some none
      else do
        let type ← be16Reads rd o
        let rdl ← be16Reads rd (o + 8)
        if type = 1 ∧ rdl = 4 ∧ o + 10 + 4 ≤ mlen then (ip4Reads rd (o + 10)).map some
        else firstAddressReads rd mlen turns n (o + 10 + rdl.toNat)

/-- Only the bytes of the message can be read. -/
def inside (m : ℕ → UInt8) (mlen : ℕ) : ℕ → Option UInt8 :=
  fun k => if k < mlen then some (m k) else none

section Reads

variable {m : ℕ → UInt8} {mlen o : ℕ}

theorem inside_of_lt (h : o < mlen) : inside m mlen o = some (m o) := if_pos h

/-- There is a turn for each byte, and one more. -/
theorem skipNameReads_eq {turns : ℕ} (h : mlen ≤ turns + o) :
    skipNameReads (inside m mlen) mlen (turns + 1) o = some (dnsSkipName m mlen o) := by
  induction turns generalizing o with
  | zero =>
    have ho : ¬o < mlen := by omega
    rw [skipNameReads, dnsSkipName_turn, if_neg ho, if_neg ho]
  | succ turns ih =>
    rw [skipNameReads, dnsSkipName_turn]
    by_cases ho : o < mlen
    · rw [if_pos ho, if_pos ho, inside_of_lt ho]
      by_cases hptr : m o &&& 0xC0 = 0xC0
      · simp [hptr]
      · by_cases hzero : m o = 0
        · simp [hzero]
        · simp only [Option.bind_eq_bind, Option.bind_some, if_neg hptr, if_neg hzero]
          exact ih (by omega)
    · rw [if_neg ho, if_neg ho]

theorem be16Reads_eq (h : o + 1 < mlen) : be16Reads (inside m mlen) o = some (be16 m o) := by
  rw [be16Reads, inside_of_lt (by omega), inside_of_lt h]
  rfl

theorem ip4Reads_eq (h : o + 3 < mlen) : ip4Reads (inside m mlen) o = some (ip4At m o) := by
  rw [ip4Reads, inside_of_lt (by omega), inside_of_lt (by omega), inside_of_lt (by omega),
    inside_of_lt h]
  refine congrArg some (funext fun k => ?_)
  fin_cases k <;> rfl

theorem firstAddressReads_eq (n : ℕ) : firstAddressReads (inside m mlen) mlen (mlen + 1) n o =
    some (firstAddress m mlen n o) := by
  induction n generalizing o with
  | zero => rfl
  | succ n ih =>
    rw [firstAddressReads, firstAddress]
    by_cases hend : mlen < o + 10
    · rw [if_pos hend, if_pos hend]
    · rw [if_neg hend, if_neg hend, skipNameReads_eq (by omega)]
      simp only [Option.bind_eq_bind, Option.bind_some]
      by_cases hrecord : mlen < dnsSkipName m mlen o + 10
      · rw [if_pos hrecord, if_pos hrecord]
      · rw [if_neg hrecord, if_neg hrecord, be16Reads_eq (by omega), be16Reads_eq (by omega)]
        simp only [Option.bind_some]
        split_ifs with ha
        · rw [ip4Reads_eq (by omega)]
          rfl
        · exact ih

end Reads

/-- The first address of the answer section is returned, and none when there is none; and on any
bytes the loops end without a read behind the message. -/
theorem dns_response :
    (∀ (dns : Ip4) (c : Resolve) (f : Frame) (udp : ℕ) (msg : DnsMessage),
      udpFrom dns dnsPort (14 + 20 + 8 + 12) f = some udp → Has f.bytes (udp + 8) msg.encode →
        udp + 8 + msg.encode.length ≤ f.len → c.frame dns f = .returned (firstA msg.answers)) ∧
    ∀ (m : ℕ → UInt8) (mlen n o : ℕ),
      skipNameReads (inside m mlen) mlen (mlen + 1) o = some (dnsSkipName m mlen o) ∧
        firstAddressReads (inside m mlen) mlen (mlen + 1) n o = some (firstAddress m mlen n o) := by
  refine ⟨fun dns c f udp msg hudp hbytes hlen => ?_, fun m mlen n o => ?_⟩
  · have hmsg : Has (fun k => f.bytes (udp + 8 + k)) 0 msg.encode := fun i hi => by
      rw [Nat.zero_add]
      exact hbytes i hi
    rw [Resolve.frame, resolveIn, hudp, Option.map_some, dnsAddress_encode msg hmsg (by omega)]
  · exact ⟨skipNameReads_eq (Nat.le_add_right _ _), firstAddressReads_eq n⟩

/-- A response with an alias in front of the address. -/
def aliasMessage : DnsMessage where
  id := 0x1234
  flags := 0x8180
  question := ⟨[⟨[0x61], by decide⟩], none⟩
  qtype := 1
  qclass := 1
  answers := [
    { name := ⟨[], some ⟨(0xC0, 0x0C), by decide⟩⟩, type := 5, cls := 1, ttl := ![0, 0, 0, 60]
      rdata := [1, 0x62, 0], rdata_length := by decide, address := by decide },
    { name := ⟨[⟨[0x62], by decide⟩], none⟩, type := 1, cls := 1, ttl := ![0, 0, 0, 60]
      rdata := [10, 0, 0, 1], rdata_length := by decide, address := by decide }]
  authority := []
  additional := []
  answers_length := by decide

theorem dns_response_alias : (Resolve.start ⟨[0x61], by decide⟩).frame ![10, 0, 0, 2]
    (udpFrame ![10, 0, 0, 2] 53 dnsPort aliasMessage.encode) = .returned (some ![10, 0, 0, 1]) := by
  have hudp := udpFrom_udpFrame ![10, 0, 0, 2] 53 dnsPort aliasMessage.encode
    (show 14 + 20 + 8 + 12 ≤ 42 + aliasMessage.encode.length by decide)
  refine (dns_response.1 _ _ _ 50 aliasMessage hudp (fun i hi => ?_) ?_).trans ?_
  · rw [udpFrame_payload]
    simp [hi]
  · rw [udpFrame_len]
  · refine congrArg (ResolveTurn.returned ∘ some) (funext fun k => ?_)
    fin_cases k <;> rfl

end XinuRpi4.Wifi
