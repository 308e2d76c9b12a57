import XinuRpi4.Net.TcpSteps

/-!
# Whether a whole response reaches the wire

`tcp_app_flush` sends the response and a FIN, and counts both as sent whatever `tcp_send`
answers. The driver may take a frame or fail.
-/

namespace XinuRpi4.Net

open XinuRpi4.Foundation

namespace TcpConn

variable (c : TcpConn)

/-- `tcp_send`, with a driver that takes the frame or fails. -/
def tcpSendVia (up : Bool) (flags : UInt8) (payload : List UInt8) : List Tx :=
  if up then c.tcpSend flags payload else []

/-- The two segments of a response. -/
def sendLastVia (up upFin : Bool) (payload : List UInt8) : TcpConn × List Tx :=
  let out := c.tcpSendVia up (flagPsh ||| flagAck) payload
  let c := { c with mySeq := c.mySeq + UInt64.ofNat payload.length }
  let out := out ++ c.tcpSendVia upFin (flagFin ||| flagAck) []
  ({ c with mySeq := c.mySeq + 1, state := .finWait1 }, out)

theorem sendLastVia_up (payload : List UInt8) : c.sendLastVia true true payload = c.sendLast payload :=
  rfl

end TcpConn

/-- `tcp_app_flush`, with what it puts on the wire. -/
def Tcp.flushVia (s : Tcp) (up upFin : Bool) : Tcp × List Tx :=
  if s.appState = .done then
    match s.gAppConnIdx with
    | some i =>
      if (s.conns i).state = .established then
        let (c, out) := (s.conns i).sendLastVia up upFin s.gAppResp
        ({ s.setConn i c out with gAppConnIdx := none, appState := .idle }.drainPendingToApp, out)
      else ({ s with gAppConnIdx := none, appState := .idle }.drainPendingToApp, [])
    | none => ({ s with gAppConnIdx := none, appState := .idle }.drainPendingToApp, [])
  else (s, [])

/-- How far a segment advances the sequence number. -/
def Tx.carried (tx : Tx) : ℕ := tx.payload.length + if tx.flags &&& flagFin ≠ 0 then 1 else 0

/-- Each segment begins where the one before it ends. -/
def Consecutive : UInt64 → List Tx → Prop
  | _, [] => True
  | q, tx :: out => tx.seq = q.toUInt32 ∧ Consecutive (q + UInt64.ofNat tx.carried) out

/-- From `c` to `c'` the response has been sent, with the FIN behind it; what the driver
refused has not been counted. -/
structure WholeResponse (c c' : TcpConn) (up upFin : Bool) (resp : List UInt8) (out : List Tx) :
    Prop where
  payload : up = true → (out.map Tx.payload).flatten = resp
  fin : upFin = true → ∃ tx ∈ out.getLast?, tx.flags &&& flagFin ≠ 0 ∧
    tx.seq = (c.mySeq + UInt64.ofNat resp.length).toUInt32
  inOrder : Consecutive c.mySeq out
  advanced : c'.mySeq = c.mySeq + UInt64.ofNat (out.map Tx.carried).sum

/-- The response goes to the connection that asked for it, as long as that is established. -/
def FlushOk (s : Tcp) (up upFin : Bool) : Prop :=
  match s.gAppConnIdx with
  | some i =>
    if (s.conns i).state = .established then
      WholeResponse (s.conns i) ((s.flushVia up upFin).1.conns i) up upFin s.gAppResp
        (s.flushVia up upFin).2
    else (s.flushVia up upFin).2 = [] ∧ (s.flushVia up upFin).1.conns = s.conns
  | none => (s.flushVia up upFin).2 = [] ∧ (s.flushVia up upFin).1.conns = s.conns

section Delivery

variable {c : TcpConn} {s : Tcp} {up upFin : Bool} {resp : List UInt8} {q : UInt64}

/-- When every segment of a response is sent and the numbers are right. -/
def Deliverable (up upFin : Bool) (resp : List UInt8) : Prop :=
  resp.length ≤ 1464 ∧ upFin = true ∧ (up = true ∨ resp = [])

/-- The segment of the response. -/
def TcpConn.dataTx (c : TcpConn) (resp : List UInt8) : Tx where
  ip := c.peerIp
  port := c.peerPort
  flags := flagPsh ||| flagAck
  seq := c.mySeq.toUInt32
  ack := c.peerSeq.toUInt32
  payload := resp

/-- The FIN behind a response. -/
def TcpConn.finTx (c : TcpConn) (resp : List UInt8) : Tx where
  ip := c.peerIp
  port := c.peerPort
  flags := flagFin ||| flagAck
  seq := (c.mySeq + UInt64.ofNat resp.length).toUInt32
  ack := c.peerSeq.toUInt32
  payload := []

theorem sendLastVia_out : (c.sendLastVia up upFin resp).2 =
    (if up = true ∧ resp.length ≤ 1464 then [c.dataTx resp] else []) ++
      (if upFin = true then [c.finTx resp] else []) := by
  have hdata : c.tcpSendVia up (flagPsh ||| flagAck) resp =
      if up = true ∧ resp.length ≤ 1464 then [c.dataTx resp] else [] := by
    unfold TcpConn.tcpSendVia TcpConn.tcpSend
    split_ifs with hup hlong hsent hsent hsent
    · omega
    · rfl
    · rfl
    · exact absurd ⟨hup, by omega⟩ hsent
    · exact absurd hsent.1 hup
    · rfl
  rw [← hdata]
  rfl

theorem sendLastVia_mySeq :
    (c.sendLastVia up upFin resp).1.mySeq = c.mySeq + UInt64.ofNat resp.length + 1 := rfl

theorem dataTx_flags : ¬ (c.dataTx resp).flags &&& flagFin ≠ 0 :=
  show ¬ (flagPsh ||| flagAck) &&& flagFin ≠ 0 by decide

theorem finTx_flags : (c.finTx resp).flags &&& flagFin ≠ 0 :=
  show (flagFin ||| flagAck) &&& flagFin ≠ 0 by decide

theorem carried_dataTx : (c.dataTx resp).carried = resp.length := by
  rw [Tx.carried, if_neg dataTx_flags]
  rfl

theorem carried_finTx : (c.finTx resp).carried = 1 := by
  rw [Tx.carried, if_pos finTx_flags]
  rfl

/-- A sequence number tells how far it is from another one. -/
theorem add_ofNat_inj {m n : ℕ} (hm : m < 2 ^ 32) (hn : n < 2 ^ 32)
    (h : q + UInt64.ofNat n = q + UInt64.ofNat m) : n = m := by
  have hnat := congrArg UInt64.toNat h
  rw [UInt64.toNat_add, UInt64.toNat_add, UInt64.toNat_ofNat', UInt64.toNat_ofNat'] at hnat
  omega

theorem mySeq_eq (n : ℕ) : q + UInt64.ofNat n + 1 = q + UInt64.ofNat (n + 1) := by
  rw [UInt64.ofNat_add, UInt64.add_assoc]
  rfl

theorem whole_of_deliverable (h : Deliverable up upFin resp) :
    WholeResponse c (c.sendLastVia up upFin resp).1 up upFin resp (c.sendLastVia up upFin resp).2 := by
  obtain ⟨hshort, rfl, hup⟩ := h
  cases up with
  | true =>
    have hout : (c.sendLastVia true true resp).2 = [c.dataTx resp, c.finTx resp] := by
      rw [sendLastVia_out, if_pos ⟨rfl, hshort⟩]
      rfl
    rw [hout]
    constructor
    · intro _
      simp [TcpConn.dataTx, TcpConn.finTx]
    · intro _
      exact ⟨c.finTx resp, rfl, finTx_flags, rfl⟩
    · refine ⟨rfl, ?_, trivial⟩
      rw [carried_dataTx]
      rfl
    · rw [sendLastVia_mySeq, mySeq_eq, List.map_cons, List.map_cons, carried_dataTx, carried_finTx]
      rfl
  | false =>
    obtain rfl := hup.resolve_left Bool.false_ne_true
    have hout : (c.sendLastVia false true []).2 = [c.finTx []] := rfl
    rw [hout]
    constructor
    · intro hup
      cases hup
    · intro _
      exact ⟨c.finTx [], rfl, finTx_flags, rfl⟩
    · exact ⟨congrArg UInt64.toUInt32 (UInt64.add_zero _), trivial⟩
    · rw [sendLastVia_mySeq, mySeq_eq, List.map_cons, carried_finTx]
      rfl

theorem sum_carried : ((c.sendLastVia up upFin resp).2.map Tx.carried).sum =
    (if up = true ∧ resp.length ≤ 1464 then resp.length else 0) + if upFin = true then 1 else 0 := by
  rw [sendLastVia_out, List.map_append, List.sum_append]
  split_ifs <;> simp [carried_dataTx, carried_finTx]

theorem deliverable_of_whole (hlen : resp.length ≤ 16384)
    (h : WholeResponse c (c.sendLastVia up upFin resp).1 up upFin resp
      (c.sendLastVia up upFin resp).2) : Deliverable up upFin resp := by
  have hadvanced := h.advanced
  rw [sendLastVia_mySeq, mySeq_eq, sum_carried] at hadvanced
  have hsum := add_ofNat_inj (by split_ifs <;> omega) (by omega) hadvanced
  by_cases hsent : up = true ∧ resp.length ≤ 1464
  · rw [if_pos hsent] at hsum
    split_ifs at hsum with hfin
    · exact ⟨hsent.2, hfin, Or.inl hsent.1⟩
    · omega
  · rw [if_neg hsent] at hsum
    split_ifs at hsum with hfin
    · have hempty : resp = [] := List.eq_nil_of_length_eq_zero (by omega)
      rw [hempty]
      exact ⟨by decide, hfin, Or.inr rfl⟩
    · omega

theorem whole_iff (hlen : resp.length ≤ 16384) :
    WholeResponse c (c.sendLastVia up upFin resp).1 up upFin resp (c.sendLastVia up upFin resp).2 ↔
      Deliverable up upFin resp := ⟨deliverable_of_whole hlen, whole_of_deliverable⟩

end Delivery

section Flush

variable {s : Tcp} {up upFin : Bool} {i : Fin nconn}

theorem flushVia_conns (hdone : s.appState = .done) (hi : s.gAppConnIdx = some i)
    (hstate : (s.conns i).state = .established) :
    (s.flushVia up upFin).1.conns i = ((s.conns i).sendLastVia up upFin s.gAppResp).1 ∧
      (s.flushVia up upFin).2 = ((s.conns i).sendLastVia up upFin s.gAppResp).2 := by
  simp only [Tcp.flushVia, if_pos hdone, hi, if_pos hstate, Tcp.drainPendingToApp_conns,
    Tcp.setConn, Function.update_self, and_self]

/-- A flush without an established connection. -/
theorem flushVia_gone (hdone : s.appState = .done)
    (h : ∀ i, s.gAppConnIdx = some i → (s.conns i).state ≠ .established) :
    (s.flushVia up upFin).2 = [] ∧ (s.flushVia up upFin).1.conns = s.conns := by
  unfold Tcp.flushVia
  rw [if_pos hdone]
  cases hi : s.gAppConnIdx with
  | none => exact ⟨rfl, Tcp.drainPendingToApp_conns⟩
  | some i =>
    dsimp only
    rw [if_neg (h i hi)]
    exact ⟨rfl, Tcp.drainPendingToApp_conns⟩

/-- With a driver that takes every frame this is the flush of the server. -/
theorem flushVia_up (h : s.appState = .done) :
    (s.flushVia true true).1.conns = s.tcpAppFlush.conns := by
  rw [Tcp.tcpAppFlush, if_pos h, Tcp.drainPendingToApp_conns]
  unfold Tcp.flushVia Tcp.respond
  rw [if_pos h]
  cases s.gAppConnIdx with
  | none => exact Tcp.drainPendingToApp_conns
  | some i =>
    dsimp only
    split_ifs with hstate hlong
    · exact Tcp.drainPendingToApp_conns
    · exact Tcp.drainPendingToApp_conns
    · exact Tcp.drainPendingToApp_conns

theorem flushOk_iff (hdone : s.appState = .done) (hlen : s.gAppResp.length ≤ 16384)
    (hi : s.gAppConnIdx = some i) (hstate : (s.conns i).state = .established) :
    FlushOk s up upFin ↔ Deliverable up upFin s.gAppResp := by
  obtain ⟨hconn, hout⟩ : (s.flushVia up upFin).1.conns i =
      ((s.conns i).sendLastVia up upFin s.gAppResp).1 ∧ (s.flushVia up upFin).2 =
        ((s.conns i).sendLastVia up upFin s.gAppResp).2 := flushVia_conns hdone hi hstate
  unfold FlushOk
  rw [hi]
  dsimp only
  rw [if_pos hstate, hconn, hout, whole_iff hlen]

theorem flushOk_of_gone (hdone : s.appState = .done)
    (h : ∀ i, s.gAppConnIdx = some i → (s.conns i).state ≠ .established) : FlushOk s up upFin := by
  have hgone : (s.flushVia up upFin).2 = [] ∧ (s.flushVia up upFin).1.conns = s.conns :=
    flushVia_gone hdone h
  unfold FlushOk
  cases hi : s.gAppConnIdx with
  | none => exact hgone
  | some i =>
    dsimp only
    rw [if_neg (h i hi)]
    exact hgone

/-- The whole response reaches the wire, and nothing is counted that does not, if and only if
it fits into one segment and the driver takes the segments. -/
theorem response_delivered_iff (s : Tcp) (up upFin : Bool) (hdone : s.appState = .done)
    (hlen : s.gAppResp.length ≤ 16384) :
    FlushOk s up upFin ↔ ∀ i, s.gAppConnIdx = some i → (s.conns i).state = .established →
      Deliverable up upFin s.gAppResp := by
  constructor
  · intro h i hi hstate
    exact (flushOk_iff hdone hlen hi hstate).mp h
  · intro h
    by_cases hgone : ∀ i, s.gAppConnIdx = some i → (s.conns i).state ≠ .established
    · exact flushOk_of_gone hdone hgone
    · push Not at hgone
      obtain ⟨i, hi, hstate⟩ := hgone
      exact (flushOk_iff hdone hlen hi hstate).mpr (h i hi hstate)

/-- A server whose worker has built a response for slot 0. -/
def answered (resp : List UInt8) : Tcp :=
  { Tcp.start with
    conns := Function.update Tcp.start.conns 0
      { Tcp.start.conns 0 with state := .established, mySeq := 101 }
    appState := .done
    gAppConnIdx := some 0
    gAppResp := resp }

theorem response_delivered_short : FlushOk (answered [111, 107]) true true ↔
    ∀ i, (answered [111, 107]).gAppConnIdx = some i →
      ((answered [111, 107]).conns i).state = .established →
        Deliverable true true (answered [111, 107]).gAppResp :=
  response_delivered_iff (answered [111, 107]) true true rfl (by decide)

/-- Of a response of 1465 bytes nothing is sent, and the FIN follows behind a gap. -/
theorem response_lost : ¬ FlushOk (answered (List.replicate 1465 65)) true true := by
  intro h
  have hlen : (answered (List.replicate 1465 65)).gAppResp.length = 1465 := List.length_replicate
  have hshort := ((flushOk_iff rfl (by omega) rfl rfl).mp h).1
  omega

end Flush

end XinuRpi4.Net
