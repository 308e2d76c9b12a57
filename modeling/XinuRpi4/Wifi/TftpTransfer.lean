import XinuRpi4.Wifi.Tftp
import XinuRpi4.Foundation.Runs

/-!
# TFTP transfers

Calls of the client after each other, against a server that starts a session for
every request that reaches it and sends the blocks of the file in lockstep. What
was sent stays on its way: it can arrive at any later time, any number of times,
or never.

Every transfer uses the same local port, and a block is accepted by its number
alone. What does not fit in `maxlen` bytes is dropped without a word. Apart from
that a call that succeeds has fetched the file.
-/

namespace XinuRpi4.Wifi

open XinuRpi4.Foundation XinuRpi4.Net

/-- A session of the server, in which the client has acknowledged `acked` blocks. -/
structure TftpSession where
  file : FileName
  tid : UInt16
  acked : ℕ
deriving DecidableEq

/-- A datagram that the server has sent, with the file that it is a block of. -/
structure TftpDatagram where
  msg : TftpMsg
  source : Option FileName
deriving DecidableEq

structure TftpResult where
  fname : FileName
  maxlen : ℤ
  got : Option (List UInt8)
deriving DecidableEq

inductive TftpEvent
  /-- A call; it returns at once when there is no way to the server. -/
  | get (fname : FileName) (maxlen : ℤ) (reachable : Bool)
  | quiet
  | frame (f : Frame)
  /-- A request reaches the server, which answers from the port `tid`. -/
  | serve (fname : FileName) (tid : UInt16)
  /-- The server sends an error. -/
  | refuse (tid code : UInt16)
  /-- The ACK of its current block reaches the session. -/
  | ack (i : ℕ)
  /-- The session sends its current block. -/
  | transmit (i : ℕ)

/-- The call under way with the number of its turns, the results of the earlier
ones, and what client and server have sent. -/
structure TftpSystem where
  call : Option TftpGet
  turns : ℕ
  results : List TftpResult
  sent : List UdpTx
  sessions : List TftpSession
  datagrams : List TftpDatagram
deriving DecidableEq

/-- The block behind the first `k` ones. -/
def fileBlock (content : List UInt8) (k : ℕ) : List UInt8 := (content.drop (512 * k)).take 512

namespace TftpSession

variable (s : TftpSession)

/-- The message with the current block; its number has 16 bits. -/
def block (content : List UInt8) : TftpMsg where
  ssport := s.tid
  op := 3
  blk := UInt16.ofNat (s.acked + 1)
  data := fileBlock content s.acked

/-- The ACK that the session waits for. -/
def awaited : UdpTx where
  sport := tftpPort
  dport := s.tid
  payload := ackPayload (UInt16.ofNat (s.acked + 1))

end TftpSession

namespace TftpSystem

def boot : TftpSystem where
  call := none
  turns := 0
  results := []
  sent := []
  sessions := []
  datagrams := []

/-- A turn of the call under way has come out. -/
def afterTurn (s : TftpSystem) (c : TftpGet) : TftpTurn × List UdpTx → TftpSystem
  | (.more c', txs) => { s with call := some c', turns := s.turns + 1, sent := s.sent ++ txs }
  | (.returned got, txs) =>
    { s with
      call := none
      results := s.results ++ [{ fname := c.fname, maxlen := c.maxlen, got }]
      sent := s.sent ++ txs }

/-- The frame is of another sender or another port, or it has a datagram in it that
the server has sent. -/
def Delivers (srv : Ip4) (s : TftpSystem) (f : Frame) : Prop :=
  ∀ m ∈ tftpIn srv f, ∃ d ∈ s.datagrams, d.msg = m

instance (srv : Ip4) (s : TftpSystem) (f : Frame) : Decidable (s.Delivers srv f) :=
  inferInstanceAs (Decidable (∀ m ∈ tftpIn srv f, _))

variable (files : FileName → Option (List UInt8)) (srv : Ip4)

def step (s : TftpSystem) : TftpEvent → Option TftpSystem
  | .get fname maxlen reachable =>
    if s.call.isSome then none
    else if reachable then
      some
        { s with
          call := some (.start fname maxlen)
          turns := 0
          sent := s.sent ++ (TftpGet.start fname maxlen).rrq }
    else some { s with results := s.results ++ [{ fname, maxlen, got := none }] }
  | .quiet => s.call.map fun c => s.afterTurn c c.quiet
  | .frame f =>
    if s.Delivers srv f then s.call.map fun c => s.afterTurn c (c.frame srv f) else none
  | .serve fname tid =>
    if { sport := tftpPort, dport := 69, payload := rrqPayload fname } ∈ s.sent then
      if (files fname).isSome then
        some { s with sessions := s.sessions ++ [{ file := fname, tid, acked := 0 }] }
      else none
    else none
  | .refuse tid code =>
    some
      { s with
        datagrams := s.datagrams ++
          [{ msg := { ssport := tid, op := 5, blk := code, data := [] }, source := none }] }
  | .ack i =>
    s.sessions[i]?.bind fun v =>
      if v.awaited ∈ s.sent then
        some { s with sessions := s.sessions.set i { v with acked := v.acked + 1 } }
      else none
  | .transmit i =>
    s.sessions[i]?.bind fun v =>
      (files v.file).bind fun content =>
        if 512 * v.acked ≤ content.length then
          some { s with datagrams := s.datagrams ++ [{ msg := v.block content, source := v.file }] }
        else none

/-- What a call has returned is the whole file, and not more than it was to be. -/
def Sound (s : TftpSystem) : Prop :=
  ∀ r ∈ s.results, ∀ bytes ∈ r.got, files r.fname = some bytes ∧ (bytes.length : ℤ) ≤ r.maxlen

/-- A call returns in the end, whatever comes in. -/
def Bounded (s : TftpSystem) : Prop := s.call.isSome → s.turns < 8000 * 65536

/-- A block that the call accepts was sent as a block of a file with the content of
the requested one, and there is room for it. -/
def Genuine (s : TftpSystem) : TftpEvent → Prop
  | .frame f =>
    ∀ c ∈ s.call, ∀ m ∈ tftpIn srv f, m.op = 3 → m.blk.toNat = c.nextblk →
      (∃ d ∈ s.datagrams, d.msg = m ∧ ∃ file ∈ d.source, files file = files c.fname) ∧
        (c.dst.length + m.data.length : ℤ) ≤ c.maxlen
  | _ => True

/-- How far a call has got after a number of turns: the blocks are numbered from 1,
block 65536 can never come, and between two blocks there are fewer than 8000 turns. -/
structure Counted (turns : ℕ) (c : TftpGet) : Prop where
  waiting : c.w < 8000
  first : 1 ≤ c.nextblk
  last : c.nextblk ≤ 65536
  unanswered : c.nextblk = 1 → c.srvTid = 0
  turns : turns ≤ 8000 * (c.nextblk - 1) + c.w

/-- A block as the server numbers it. -/
def Numbered (d : TftpDatagram) : Prop :=
  d.msg.op = 3 → ∀ file ∈ d.source, ∃ content, files file = some content ∧
    ∃ k < 65536, d.msg.blk = UInt16.ofNat (k + 1) ∧ d.msg.data = fileBlock content k

/-- What holds whatever the client accepts. No ACK has the number 0, so no session
gets beyond block 65536. -/
structure Inv (s : TftpSystem) : Prop where
  call : ∀ c ∈ s.call, Counted s.turns c
  acks : ∀ t ∈ s.sent, ∀ blk, t.payload = ackPayload blk → blk ≠ 0
  sessions : ∀ v ∈ s.sessions, v.acked < 65536
  datagrams : ∀ d ∈ s.datagrams, Numbered files d

/-- The call under way has stored the blocks before the next one. -/
def Fetched (s : TftpSystem) : Prop :=
  ∀ c ∈ s.call, ∀ content, files c.fname = some content →
    c.dst = content.take (512 * (c.nextblk - 1))

instance (s : TftpSystem) : DecidablePred (s.Genuine files srv)
  | .frame f => inferInstanceAs (Decidable (∀ c ∈ s.call, ∀ m ∈ tftpIn srv f, _))
  | .get .. | .quiet | .serve .. | .refuse .. | .ack _ | .transmit _ => .isTrue trivial

variable {files srv}

theorem start_counted (fname : FileName) (maxlen : ℤ) : Counted 0 (.start fname maxlen) where
  waiting := Nat.zero_lt_succ _
  first := le_rfl
  last := Nat.succ_le_succ (Nat.zero_le _)
  unanswered _ := rfl
  turns := Nat.zero_le _

/-- One more turn without a new block. -/
theorem Counted.next {turns : ℕ} {c c' : TftpGet} (h : Counted turns c)
    (hnext : c.next = .more c') : Counted (turns + 1) c' := by
  unfold TftpGet.next at hnext
  split_ifs at hnext with hw
  cases hnext
  exact { h with waiting := hw, turns := Nat.succ_le_succ h.turns }

theorem Counted.accept {turns : ℕ} {c c' : TftpGet} {m : TftpMsg} (h : Counted turns c)
    (hblk : m.blk.toNat = c.nextblk) (hnext : (c.accept m).next = .more c') :
    Counted (turns + 1) c' := by
  have hfirst := h.first
  have hwaiting := h.waiting
  have hturns := h.turns
  have hsmall := m.blk.toNat_lt
  unfold TftpGet.next at hnext
  split_ifs at hnext with hw
  cases hnext
  exact
    { waiting := hw
      first := Nat.succ_le_succ (Nat.zero_le _)
      last := by
        simp only [TftpGet.accept]
        omega
      unanswered := by
        simp only [TftpGet.accept]
        omega
      turns := by
        simp only [TftpGet.accept]
        omega }

theorem rrq_ack {c : TftpGet} {t : UdpTx} {blk : UInt16} (ht : t ∈ c.rrq) :
    t.payload ≠ ackPayload blk := by
  cases mem_udpTx ht
  exact rrqPayload_ne_ackPayload c.fname blk

/-- An ACK is repeated only after a block has been accepted. -/
theorem reAck_ack {turns : ℕ} {c : TftpGet} {t : UdpTx} {blk : UInt16} (h : Counted turns c)
    (ht : t ∈ c.reAck) (hblk : t.payload = ackPayload blk) : blk ≠ 0 := by
  have hlast := h.last
  have hfirst := h.first
  unfold TftpGet.reAck at ht
  split_ifs at ht with htid
  · have hnot : c.nextblk ≠ 1 := fun h1 => htid (h.unanswered h1)
    cases mem_udpTx ht
    cases ackPayload_injective hblk
    rw [Ne, ← UInt16.toNat_inj, UInt16.toNat_ofNat']
    simp only [UInt16.toNat_zero]
    omega
  · cases ht

theorem turned_counted {turns : ℕ} {c c' : TftpGet} {i : Option TftpMsg} {txs : List UdpTx}
    (h : Counted turns c) (hturn : c.Turned i (.more c', txs)) : Counted (turns + 1) c' := by
  generalize hr : (TftpTurn.more c', txs) = r at hturn
  cases hturn with
  | failed => cases hr
  | waited _ => exact h.next (congrArg Prod.fst hr).symm
  | accepted _ hblk =>
    have hfirst := congrArg Prod.fst hr
    split_ifs at hfirst
    exact h.accept hblk hfirst.symm

theorem turned_acks {turns : ℕ} {c : TftpGet} {i : Option TftpMsg} {r : TftpTurn × List UdpTx}
    (h : Counted turns c) (hturn : c.Turned i r) {t : UdpTx} (ht : t ∈ r.2) {blk : UInt16}
    (hblk : t.payload = ackPayload blk) : blk ≠ 0 := by
  cases hturn with
  | failed => cases ht
  | waited htxs =>
    rcases htxs t ht with hrrq | hack
    · exact absurd hblk (rrq_ack hrrq)
    · exact reAck_ack h hack hblk
  | @accepted m _ hnext =>
    have hfirst := h.first
    have ht : t ∈ udpTx tftpPort m.ssport (ackPayload m.blk) := ht
    rw [mem_udpTx ht] at hblk
    cases ackPayload_injective hblk
    rintro h0
    rw [h0] at hnext
    simp only [UInt16.toNat_zero] at hnext
    omega

/-- A turn sends the ACKs it may send and leaves the server alone. -/
theorem afterTurn_inv {s : TftpSystem} {c : TftpGet} {i : Option TftpMsg}
    {r : TftpTurn × List UdpTx} (h : s.Inv files) (hc : c ∈ s.call) (hturn : c.Turned i r) :
    (s.afterTurn c r).Inv files := by
  have hcounted := h.call c hc
  have hacks : ∀ t ∈ s.sent ++ r.2, ∀ blk, t.payload = ackPayload blk → blk ≠ 0 := by
    intro t ht blk hblk
    rcases List.mem_append.mp ht with ht | ht
    · exact h.acks t ht blk hblk
    · exact turned_acks hcounted hturn ht hblk
  rcases r with ⟨c' | got, txs⟩
  · refine { h with call := ?_, acks := hacks }
    rintro _ ⟨⟩
    exact turned_counted hcounted hturn
  · exact { h with call := nofun, acks := hacks }

theorem boot_inv : boot.Inv files where
  call := nofun
  acks := nofun
  sessions := nofun
  datagrams := nofun

/-- Two blocks of a session have different numbers as long as no ACK has the number 0. -/
theorem acked_inv {s : TftpSystem} {v : TftpSession} (h : s.Inv files) (hv : v ∈ s.sessions)
    (hack : v.awaited ∈ s.sent) : v.acked + 1 < 65536 := by
  have hle := h.sessions v hv
  have hne := h.acks _ hack _ rfl
  rw [Ne, ← UInt16.toNat_inj, UInt16.toNat_ofNat'] at hne
  simp only [UInt16.toNat_zero] at hne
  omega

theorem step_inv {s s' : TftpSystem} {e : TftpEvent} (h : s.Inv files)
    (hstep : s.step files srv e = some s') : s'.Inv files := by
  cases e with
  | get fname maxlen reachable =>
    simp only [step] at hstep
    split_ifs at hstep <;> cases hstep
    · refine { h with call := ?_, acks := ?_ }
      · rintro _ ⟨⟩
        exact start_counted fname maxlen
      · intro t ht blk hblk
        rcases List.mem_append.mp ht with ht | ht
        · exact h.acks t ht blk hblk
        · exact absurd hblk (rrq_ack ht)
    · exact { h with }
  | quiet =>
    obtain ⟨c, hc, rfl⟩ := Option.map_eq_some_iff.mp hstep
    exact afterTurn_inv h hc c.quiet_turned
  | frame f =>
    simp only [step] at hstep
    split_ifs at hstep
    obtain ⟨c, hc, rfl⟩ := Option.map_eq_some_iff.mp hstep
    exact afterTurn_inv h hc (c.frame_turned srv f)
  | serve fname tid =>
    simp only [step] at hstep
    split_ifs at hstep
    cases hstep
    exact { h with sessions := forall_mem_snoc h.sessions (Nat.zero_lt_succ _) }
  | refuse tid code =>
    cases hstep
    exact { h with datagrams := forall_mem_snoc h.datagrams fun _ => nofun }
  | ack i =>
    obtain ⟨v, hv, hstep⟩ := Option.bind_eq_some_iff.mp hstep
    split_ifs at hstep with hack
    cases hstep
    refine { h with sessions := ?_ }
    intro v' hv'
    rcases List.mem_or_eq_of_mem_set hv' with hv' | rfl
    · exact h.sessions v' hv'
    · exact acked_inv h (List.mem_of_getElem? hv) hack
  | transmit i =>
    obtain ⟨v, hv, hstep⟩ := Option.bind_eq_some_iff.mp hstep
    obtain ⟨content, hcontent, hstep⟩ := Option.bind_eq_some_iff.mp hstep
    split_ifs at hstep
    cases hstep
    refine { h with datagrams := forall_mem_snoc h.datagrams ?_ }
    rintro - _ ⟨⟩
    exact ⟨content, hcontent, v.acked, h.sessions v (List.mem_of_getElem? hv), rfl, rfl⟩

theorem Inv.bounded {s : TftpSystem} (h : s.Inv files) : s.Bounded := by
  intro hcall
  obtain ⟨c, hc⟩ := Option.isSome_iff_exists.mp hcall
  have hcounted := h.call c hc
  have hwaiting := hcounted.waiting
  have hlast := hcounted.last
  have hturns := hcounted.turns
  omega

/-- A block of the requested file that fits is the next part of it, and a short one
the last. -/
theorem accept_genuine {s : TftpSystem} {c : TftpGet} {m : TftpMsg} (h : s.Inv files)
    (hfetched : s.Fetched files) (hc : c ∈ s.call) (hop : m.op = 3)
    (hblk : m.blk.toNat = c.nextblk)
    (hsource : ∃ d ∈ s.datagrams, d.msg = m ∧ ∃ file ∈ d.source, files file = files c.fname)
    (hroom : (c.dst.length + m.data.length : ℤ) ≤ c.maxlen) :
    ∃ content, files c.fname = some content ∧
      (c.accept m).dst = content.take (512 * c.nextblk) ∧
      ((c.accept m).dst.length : ℤ) ≤ c.maxlen ∧
      (m.data.length < 512 → (c.accept m).dst = content) := by
  obtain ⟨d, hd, rfl, file, hfile, hsame⟩ := hsource
  obtain ⟨content, hcontent, k, hk, hnum, hdata⟩ := h.datagrams d hd hop file hfile
  have hrequested : files c.fname = some content := hsame ▸ hcontent
  have hfirst := (h.call c hc).first
  have hnext : c.nextblk = k + 1 := by
    rw [hnum, UInt16.toNat_ofNat'] at hblk
    omega
  have hfits : (c.accept d.msg).dst = c.dst ++ d.msg.data := by
    rw [TftpGet.accept, List.take_of_length_le (by omega)]
  have hdst : (c.accept d.msg).dst = content.take (512 * c.nextblk) := by
    rw [hfits, hfetched c hc content hrequested, hdata, hnext, Nat.add_sub_cancel, fileBlock,
      Nat.mul_succ, List.take_add]
  refine ⟨content, hrequested, hdst, ?_, fun hshort => ?_⟩
  · rw [hfits, List.length_append]
    exact_mod_cast hroom
  · rw [hdst, List.take_of_length_le]
    rw [hdata, fileBlock, List.length_take, List.length_drop] at hshort
    omega

/-- A call that has not taken a block. -/
theorem next_fetched {s : TftpSystem} {c c' : TftpGet} (h : s.Fetched files) (hc : c ∈ s.call)
    (hnext : c.next = .more c') {content : List UInt8} (hfile : files c'.fname = some content) :
    c'.dst = content.take (512 * (c'.nextblk - 1)) := by
  unfold TftpGet.next at hnext
  split_ifs at hnext
  cases hnext
  exact h c hc content hfile

/-- A turn whose block is genuine keeps what is stored in order, and what a call
returns in it is the file. -/
theorem afterTurn_sound {s : TftpSystem} {c : TftpGet} {i : Option TftpMsg}
    {r : TftpTurn × List UdpTx} (h : s.Inv files) (hfetched : s.Fetched files)
    (hsound : s.Sound files) (hc : c ∈ s.call) (hturn : c.Turned i r)
    (hgenuine : ∀ m ∈ i, m.op = 3 → m.blk.toNat = c.nextblk →
      (∃ d ∈ s.datagrams, d.msg = m ∧ ∃ file ∈ d.source, files file = files c.fname) ∧
        (c.dst.length + m.data.length : ℤ) ≤ c.maxlen) :
    (s.afterTurn c r).Fetched files ∧ (s.afterTurn c r).Sound files := by
  have hresults : ∀ got : Option (List UInt8),
      (∀ bytes ∈ got, files c.fname = some bytes ∧ (bytes.length : ℤ) ≤ c.maxlen) →
      ∀ q ∈ s.results ++ [({ fname := c.fname, maxlen := c.maxlen, got } : TftpResult)],
        ∀ bytes ∈ q.got, files q.fname = some bytes ∧ (bytes.length : ℤ) ≤ q.maxlen := by
    intro got hgot
    exact forall_mem_snoc hsound hgot
  have hnext : ∀ txs, (s.afterTurn c (c.next, txs)).Fetched files ∧
      (s.afterTurn c (c.next, txs)).Sound files := by
    intro txs
    cases hend : c.next with
    | more c' =>
      refine ⟨?_, hsound⟩
      rintro _ ⟨⟩ content
      exact next_fetched hfetched hc hend
    | returned got =>
      refine ⟨nofun, hresults got ?_⟩
      unfold TftpGet.next at hend
      split_ifs at hend
      cases hend
      exact nofun
  cases hturn with
  | failed => exact ⟨nofun, hresults none nofun⟩
  | waited _ => exact hnext _
  | @accepted m hop hblk =>
    obtain ⟨hsource, hroom⟩ := hgenuine m rfl hop hblk
    obtain ⟨content, hfile, hdst, hlen, hlast⟩ :=
      accept_genuine h hfetched hc hop hblk hsource hroom
    by_cases hshort : m.data.length < 512
    · rw [if_pos hshort]
      refine ⟨nofun, hresults _ ?_⟩
      rintro _ ⟨⟩
      exact ⟨hlast hshort ▸ hfile, hlen⟩
    · rw [if_neg hshort]
      refine ⟨?_, hsound⟩
      rintro _ ⟨⟩ content' hfile'
      cases hfile.symm.trans hfile'
      exact hdst

theorem step_sound {s s' : TftpSystem} {e : TftpEvent}
    (h : s.Inv files ∧ s.Fetched files ∧ s.Sound files) (he : s.Genuine files srv e)
    (hstep : s.step files srv e = some s') :
    s'.Inv files ∧ s'.Fetched files ∧ s'.Sound files := by
  obtain ⟨hinv, hfetched, hsound⟩ := h
  refine ⟨step_inv hinv hstep, ?_⟩
  cases e with
  | get fname maxlen reachable =>
    simp only [step] at hstep
    split_ifs at hstep <;> cases hstep
    · refine ⟨?_, hsound⟩
      rintro _ ⟨⟩ content -
      rfl
    · exact ⟨hfetched, forall_mem_snoc hsound nofun⟩
  | quiet =>
    obtain ⟨c, hc, rfl⟩ := Option.map_eq_some_iff.mp hstep
    exact afterTurn_sound hinv hfetched hsound hc c.quiet_turned nofun
  | frame f =>
    simp only [step] at hstep
    split_ifs at hstep
    obtain ⟨c, hc, rfl⟩ := Option.map_eq_some_iff.mp hstep
    exact afterTurn_sound hinv hfetched hsound hc (c.frame_turned srv f) (he c hc)
  | serve fname tid =>
    simp only [step] at hstep
    split_ifs at hstep
    cases hstep
    exact ⟨hfetched, hsound⟩
  | refuse tid code =>
    cases hstep
    exact ⟨hfetched, hsound⟩
  | ack i =>
    obtain ⟨v, -, hstep⟩ := Option.bind_eq_some_iff.mp hstep
    split_ifs at hstep
    cases hstep
    exact ⟨hfetched, hsound⟩
  | transmit i =>
    obtain ⟨v, -, hstep⟩ := Option.bind_eq_some_iff.mp hstep
    obtain ⟨content, -, hstep⟩ := Option.bind_eq_some_iff.mp hstep
    split_ifs at hstep
    cases hstep
    exact ⟨hfetched, hsound⟩

/-- Every call returns, and as long as the blocks that are accepted are genuine, what
a call returns is the file. -/
theorem genuine_sound (files : FileName → Option (List UInt8)) (srv : Ip4)
    (es : List TftpEvent) :
    Always (step files srv) Bounded boot es ∧
      (EachStep (step files srv) (Genuine files srv) boot es →
        Always (step files srv) (Sound files) boot es) := by
  constructor
  · exact always_of_invariant (Inv files) Bounded (fun _ h => h.bounded) (fun _ _ _ => step_inv)
      boot_inv es
  · intro hgenuine
    refine always_of_eachStep (fun s => s.Inv files ∧ s.Fetched files ∧ s.Sound files)
      (Sound files) (fun _ h => h.2.2) ?_ ⟨boot_inv, nofun, nofun⟩ hgenuine
    exact fun _ _ _ => step_sound

def kernelFile : FileName := ⟨[0x6B], by decide⟩

def configFile : FileName := ⟨[0x63], by decide⟩

def twoFiles (fname : FileName) : Option (List UInt8) :=
  if fname = configFile then some [1] else if fname = kernelFile then some [2] else none

/-- A file in two blocks. -/
def twoBlocks (fname : FileName) : Option (List UInt8) :=
  if fname = kernelFile then some (List.replicate 512 7 ++ [8]) else none

def firstBlock : TftpMsg := { ssport := 5, op := 3, blk := 1, data := List.replicate 512 7 }

/-- The data stand behind byte 62 and are all the same. -/
def firstFrame : Frame :=
  { tftpFrame 0 firstBlock with
    bytes := fun i => if i < 62 then (tftpFrame 0 firstBlock).bytes i else 7 }

/-- Both blocks come from the session that the call has asked for, the first one twice. -/
def twoBlocksRun : List TftpEvent :=
  [.get kernelFile 1024 true, .serve kernelFile 5, .transmit 0, .frame firstFrame, .ack 0,
    .transmit 0, .frame firstFrame,
    .frame (tftpFrame 0 { ssport := 5, op := 3, blk := 2, data := [8] })]

theorem kernel_fetched :
    EachStep (step twoBlocks 0) (Genuine twoBlocks 0) boot twoBlocksRun ∧
      Always (step twoBlocks 0) (Sound twoBlocks) boot twoBlocksRun ∧
      (exec (step twoBlocks 0) boot twoBlocksRun).map (·.results) =
        some [{ fname := kernelFile, maxlen := 1024, got := some (List.replicate 512 7 ++ [8]) }] := by
  have hgenuine : EachStep (step twoBlocks 0) (Genuine twoBlocks 0) boot twoBlocksRun := by
    decide +kernel
  exact ⟨hgenuine, (genuine_sound twoBlocks 0 twoBlocksRun).2 hgenuine, by decide +kernel⟩

/-- The only block of one file comes a second time when the other one is requested. -/
def lateBlock : List TftpEvent :=
  let f := tftpFrame 0 { ssport := 5, op := 3, blk := 1, data := [1] }
  [.get configFile 512 true, .serve configFile 5, .transmit 0, .frame f,
    .get kernelFile 512 true, .frame f]

/-- The second call returns the first file. -/
theorem late_block_accepted :
    ¬ (Always (step twoFiles 0) Bounded boot lateBlock ∧
      Always (step twoFiles 0) (Sound twoFiles) boot lateBlock) := by
  rintro ⟨-, hsound⟩
  have hrun : (exec (step twoFiles 0) boot lateBlock).any fun s =>
      { fname := kernelFile, maxlen := 512, got := some [1] } ∈ s.results := by
    decide
  obtain ⟨s, hs, hresult⟩ := (Option.any_eq_true _ _).mp hrun
  have hfile := (hsound.of_exec hs _ (of_decide_eq_true hresult) [1] rfl).1
  exact absurd hfile (by decide)

end TftpSystem

end XinuRpi4.Wifi
