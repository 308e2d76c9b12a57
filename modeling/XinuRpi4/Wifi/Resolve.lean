import XinuRpi4.Wifi.UdpFrames

/-!
# The DNS resolver

A call of `wifi_resolve` sends one query and looks for an address in the first
datagram that comes from the DNS server to its port. Nothing in the datagram is
compared with the query.
-/

namespace XinuRpi4.Wifi

open XinuRpi4.Net

/-- A host name for which the query fits `q`. -/
abbrev HostName : Type := CString 282

/-- The local port of every query. -/
def dnsPort : UInt16 := 0xD0E5

/-- The labels of a name, each behind its length. `label` is the part of the first one
that has been read; nothing stands for an empty label at the end. -/
def labels (label : List UInt8) : List UInt8 → List UInt8
  | [] => if label = [] then [] else UInt8.ofNat label.length :: label
  | c :: cs =>
    if c = 0x2E then UInt8.ofNat label.length :: label ++ labels [] cs else labels (label ++ [c]) cs

def dnsQuery (host : HostName) : List UInt8 :=
  [0x12, 0x34, 0x01, 0x00, 0, 1, 0, 0, 0, 0, 0, 0] ++ labels [] host.val ++ [0, 0, 1, 0, 1]

/-- The loop of `dns_skip_name`, in at most `n` turns. -/
def skipName (m : ℕ → UInt8) (mlen : ℕ) : ℕ → ℕ → ℕ
  | 0, _ => mlen
  | n + 1, o =>
    if o < mlen then
      if m o &&& 0xC0 = 0xC0 then o + 2
      else if m o = 0 then o + 1
      else skipName m mlen n (o + (1 + (m o).toNat))
    else mlen

/-- The offset behind the name at `o`. -/
def dnsSkipName (m : ℕ → UInt8) (mlen o : ℕ) : ℕ := skipName m mlen mlen o

/-- More turns than bytes are never made. -/
theorem skipName_turns {m : ℕ → UInt8} {mlen n k o : ℕ} (hn : mlen ≤ n + o)
    (hk : mlen ≤ k + o) : skipName m mlen n o = skipName m mlen k o := by
  induction n generalizing k o with
  | zero =>
    cases k with
    | zero => rfl
    | succ k => simp [skipName, show ¬ o < mlen by omega]
  | succ n ih =>
    cases k with
    | zero => simp [skipName, show ¬ o < mlen by omega]
    | succ k =>
      simp only [skipName]
      rw [ih (k := k) (by omega) (by omega)]

/-- One turn of the loop. -/
theorem dnsSkipName_turn (m : ℕ → UInt8) (mlen o : ℕ) :
    dnsSkipName m mlen o =
      if o < mlen then
        if m o &&& 0xC0 = 0xC0 then o + 2
        else if m o = 0 then o + 1
        else dnsSkipName m mlen (o + (1 + (m o).toNat))
      else mlen :=
  skipName_turns (n := mlen) (k := mlen + 1) (by omega) (by omega)

theorem dnsSkipName_end {m : ℕ → UInt8} {mlen o : ℕ} (ho : mlen ≤ o) :
    dnsSkipName m mlen o = mlen := by
  rw [dnsSkipName_turn, if_neg (by omega)]

/-- Only bytes of the message are read. -/
theorem skipName_congr {m m' : ℕ → UInt8} {mlen : ℕ} (h : ∀ k < mlen, m k = m' k) (n o : ℕ) :
    skipName m mlen n o = skipName m' mlen n o := by
  induction n generalizing o with
  | zero => rfl
  | succ n ih =>
    simp only [skipName, ih]
    split_ifs with ho
    all_goals simp_all

/-- The first address in the `n` records from offset `o` on. -/
def firstAddress (m : ℕ → UInt8) (mlen : ℕ) : ℕ → ℕ → Option Ip4
  | 0, _ => none
  | n + 1, o =>
    if mlen < o + 10 then none
    else
      let o := dnsSkipName m mlen o
      if mlen < o + 10 then none
      else
        let rdl := be16 m (o + 8)
        if be16 m o = 1 ∧ rdl = 4 ∧ o + 10 + 4 ≤ mlen then some (ip4At m (o + 10))
        else firstAddress m mlen n (o + 10 + rdl.toNat)

/-- The address in a message: behind the question, which is skipped. -/
def dnsAddress (m : ℕ → UInt8) (mlen : ℕ) : Option Ip4 :=
  firstAddress m mlen (be16 m 6).toNat (dnsSkipName m mlen 12 + 4)

theorem firstAddress_congr {m m' : ℕ → UInt8} {mlen : ℕ} (h : ∀ k < mlen, m k = m' k)
    (n o : ℕ) : firstAddress m mlen n o = firstAddress m' mlen n o := by
  induction n generalizing o with
  | zero => rfl
  | succ n ih =>
    have hskip : dnsSkipName m mlen o = dnsSkipName m' mlen o := skipName_congr h mlen o
    simp only [firstAddress, hskip]
    by_cases hend : mlen < o + 10
    · rw [if_pos hend, if_pos hend]
    rw [if_neg hend, if_neg hend]
    generalize dnsSkipName m' mlen o = q
    by_cases hrecord : mlen < q + 10
    · rw [if_pos hrecord, if_pos hrecord]
    have htype : be16 m q = be16 m' q := by
      rw [be16, be16, h q (by omega), h (q + 1) (by omega)]
    have hrdl : be16 m (q + 8) = be16 m' (q + 8) := by
      rw [be16, be16, h (q + 8) (by omega), h (q + 8 + 1) (by omega)]
    rw [if_neg hrecord, if_neg hrecord, htype, hrdl, ih]
    split_ifs with ha
    · congr 1
      funext k
      exact h _ (by omega)
    · rfl

/-- An address is found behind the header and the question only. -/
theorem length_of_dnsAddress {m : ℕ → UInt8} {mlen : ℕ} {ip : Ip4}
    (h : dnsAddress m mlen = some ip) : 12 < mlen := by
  by_contra hshort
  rw [dnsAddress, dnsSkipName_end (by omega)] at h
  cases hn : (be16 m 6).toNat with
  | zero => simp [hn, firstAddress] at h
  | succ n => simp [hn, firstAddress, show mlen < mlen + 4 + 10 by omega] at h

theorem dnsAddress_congr {m m' : ℕ → UInt8} {mlen : ℕ} {ip : Ip4} (h : ∀ k < mlen, m k = m' k)
    (hm : dnsAddress m mlen = some ip) : dnsAddress m' mlen = some ip := by
  have hlen := length_of_dnsAddress hm
  have hskip : dnsSkipName m mlen 12 = dnsSkipName m' mlen 12 := skipName_congr h mlen 12
  rw [dnsAddress, be16, h 6 (by omega), h 7 (by omega), hskip, firstAddress_congr h] at hm
  exact hm

/-- What a frame says when there is a datagram of the DNS server in it. The message
goes on to the end of the frame; it is empty when the frame ends before it. -/
def resolveIn (dns : Ip4) (f : Frame) : Option (Option Ip4) :=
  (udpFrom dns dnsPort (14 + 20 + 8 + 12) f).map fun udp =>
    dnsAddress (fun k => f.bytes (udp + 8 + k)) (f.len - (udp + 8))

/-- The same frame has been read, maybe over other bytes. -/
def SameFrame (f g : Frame) : Prop := f.len = g.len ∧ ∀ o < f.len, f.bytes o = g.bytes o

theorem SameFrame.refl (f : Frame) : SameFrame f f := ⟨rfl, fun _ _ => rfl⟩

theorem SameFrame.symm {f g : Frame} (h : SameFrame f g) : SameFrame g f :=
  ⟨h.1.symm, fun o ho => (h.2 o (h.1 ▸ ho)).symm⟩

instance (f g : Frame) : Decidable (SameFrame f g) := inferInstanceAs (Decidable (_ ∧ _))

/-- An address does not come from the bytes behind the frame. -/
theorem resolveIn_same {dns : Ip4} {f g : Frame} {ip : Ip4} (h : SameFrame f g)
    (hf : resolveIn dns f = some (some ip)) : resolveIn dns g = some (some ip) := by
  obtain ⟨udp, hudp, haddress⟩ := Option.map_eq_some_iff.mp hf
  have hlen := length_of_dnsAddress haddress
  have hudp' := udpFrom_same h.1 h.2 (by decide) (by omega) hudp
  rw [resolveIn, hudp', Option.map_some, ← h.1]
  exact congrArg some (dnsAddress_congr (fun k hk => h.2 _ (by omega)) haddress)

/-- A response with one address in it. -/
def addressMessage : List UInt8 :=
  [0x12, 0x34, 0x81, 0x80, 0, 1, 0, 1, 0, 0, 0, 0, 0, 0, 1, 0, 1] ++
    [0, 0, 1, 0, 1, 0, 0, 0, 60, 0, 4, 10, 0, 0, 1]

def addressFrame (dns : Ip4) : Frame := udpFrame dns 53 dnsPort addressMessage

theorem resolveIn_addressFrame (dns : Ip4) :
    resolveIn dns (addressFrame dns) = some (some ![10, 0, 0, 1]) := by
  have hudp : udpFrom dns dnsPort (14 + 20 + 8 + 12) (addressFrame dns) = some 50 :=
    udpFrom_udpFrame dns 53 dnsPort addressMessage (by decide)
  have hmessage : ∀ k, (addressFrame dns).bytes (50 + 8 + k) = addressMessage.getD k 0 :=
    udpFrame_payload dns 53 dnsPort addressMessage
  rw [resolveIn, hudp, Option.map_some]
  simp only [hmessage]
  exact congrArg some (by decide : dnsAddress (addressMessage.getD · 0) 32 = _)

structure Resolve where
  host : HostName
  w : ℕ

inductive ResolveTurn
  | more (c : Resolve)
  | returned (got : Option Ip4)

namespace Resolve

variable (c : Resolve)

def start (host : HostName) : Resolve where
  host := host
  w := 0

def query : UdpTx where
  sport := dnsPort
  dport := 53
  payload := dnsQuery c.host

/-- A turn in which no frame is read, or one that is not looked at. -/
def next : ResolveTurn := if c.w + 1 < 300 then .more { c with w := c.w + 1 } else .returned none

def frame (dns : Ip4) (f : Frame) : ResolveTurn :=
  match resolveIn dns f with
  | none => c.next
  | some got => .returned got

variable {c}

theorem next_host {c' : Resolve} (h : c.next = .more c') : c'.host = c.host := by
  unfold next at h
  split_ifs at h
  cases h
  rfl

theorem next_returned {got : Option Ip4} (h : c.next = .returned got) : got = none := by
  unfold next at h
  split_ifs at h
  cases h
  rfl

theorem frame_host {dns : Ip4} {f : Frame} {c' : Resolve} (h : c.frame dns f = .more c') :
    c'.host = c.host := by
  unfold frame at h
  cases hf : resolveIn dns f with
  | none =>
    rw [hf] at h
    exact next_host h
  | some got => simp [hf] at h

/-- An address that a turn returns is the one in the frame. -/
theorem frame_returned {dns : Ip4} {f : Frame} {ip : Ip4}
    (h : c.frame dns f = .returned (some ip)) : resolveIn dns f = some (some ip) := by
  unfold frame at h
  cases hf : resolveIn dns f with
  | none =>
    rw [hf] at h
    exact absurd (next_returned h) nofun
  | some got =>
    rw [hf] at h
    cases h
    rfl

end Resolve

end XinuRpi4.Wifi
