import XinuRpi4.Foundation.MemoryProgram
import XinuRpi4.Net.FrameFormat
import XinuRpi4.Net.TcpSteps

/-!
# The bytes of a frame that are read

The handling of a frame as a program that reads bytes, in the order of the source. The
lengths that the headers give are added up and never compared with the length of the
frame, so that the reads can leave it. What they bring is handled as before.
-/

namespace XinuRpi4.Net

open XinuRpi4.Foundation XinuRpi4.Foundation.MemoryProgram

abbrev FrameProgram (α : Type) := MemoryProgram ℕ UInt8 α

def read16 (o : ℕ) : FrameProgram UInt16 := do
  let a ← fetch o
  let b ← fetch (o + 1)
  pure ((a.toUInt16 <<< 8) ||| b.toUInt16)

def read32 (o : ℕ) : FrameProgram UInt32 := do
  let a ← fetch o
  let b ← fetch (o + 1)
  let c ← fetch (o + 2)
  let d ← fetch (o + 3)
  pure ((a.toUInt32 <<< 24) ||| (b.toUInt32 <<< 16) ||| (c.toUInt32 <<< 8) ||| d.toUInt32)

def readBytes (o : ℕ) : ℕ → FrameProgram (List UInt8)
  | 0 => pure []
  | n + 1 => do
    let b ← fetch o
    let bs ← readBytes (o + 1) n
    pure (b :: bs)

/-- The comparison ends at the first byte that differs. -/
def readMatch (o : ℕ) : List UInt8 → FrameProgram Bool
  | [] => pure true
  | x :: xs => do
    let b ← fetch o
    if b = x then readMatch (o + 1) xs else pure false

/-- The length of the IP header, when the frame is TCP and for us. -/
def readIpHeader (cfg : Config) : FrameProgram (Option ℕ) := do
  let ether ← readMatch 12 [0x08, 0x00]
  if ether then
    let version ← fetch 14
    if version >>> 4 = 4 then
      let ihl ← fetch 14
      let proto ← fetch 23
      if proto = 6 then
        let dest ← readMatch 30 (ipBytes cfg.myIp)
        if dest then pure (some ((ihl &&& 0x0F).toNat * 4)) else pure none
      else pure none
    else pure none
  else pure none

/-- The headers of a segment, where its data is and how much of it there should be. -/
structure Header where
  seg : Segment
  dataAt : ℕ
  dataLen : ℕ

/-- The address of the peer is read here for `g_last_ip`; `find_conn` and the opening of a
slot read the same bytes again. -/
def readTcpHeader (cfg : Config) (ihl : ℕ) : FrameProgram (Option Header) := do
  let tcp := 14 + ihl
  let sport ← read16 tcp
  let dport ← read16 (tcp + 2)
  let ip ← readBytes 26 4
  if dport = cfg.listenPort then
    let seq ← read32 (tcp + 4)
    let ack ← read32 (tcp + 8)
    let off ← fetch (tcp + 12)
    let flags ← fetch (tcp + 13)
    let total ← read16 16
    let dataOff := (off >>> 4).toNat * 4
    pure (some
      { seg :=
          { ip := fun k => ip.getD k 0, port := sport, seq := seq, ack := ack,
            flags := flags &&& 0x3F, data := [] }
        dataAt := tcp + dataOff
        dataLen := total.toNat - ihl - dataOff })
  else pure none

/-- How much of the data is appended to the request of a slot. -/
def appendCount (c : TcpConn) (seg : Segment) (dataLen : ℕ) : ℕ :=
  if c.state = .established ∧ seg.has flagRst = false ∧ seg.seq.toUInt64 = c.peerSeq then
    min dataLen (reqCap - 1 - c.httpreqlen)
  else 0

/-- The data that is appended is read; a SYN that opens a slot has the hardware address
of the peer read, which is kept outside of the model of a slot. -/
def readData (s : Tcp) (h : Header) : FrameProgram (List UInt8) :=
  match s.findConn h.seg.ip h.seg.port with
  | some i => readBytes h.dataAt (appendCount (s.conns i) h.seg h.dataLen)
  | none => do
    if h.seg.has flagSyn ∧ s.allocConn ≠ none then
      let _ ← readBytes 6 6
      pure []
    else pure []

/-- The segment as it has been read, with zeros for the data that was not. -/
def readFrame (cfg : Config) (s : Tcp) (len : ℕ) : FrameProgram (Option Segment) := do
  if len < 14 + 20 + 20 then pure none
  else
    let ihl ← readIpHeader cfg
    match ihl with
    | none => pure none
    | some ihl =>
      let header ← readTcpHeader cfg ihl
      match header with
      | none => pure none
      | some h =>
        let bytes ← readData s h
        pure (some { h.seg with data := bytes ++ List.replicate (h.dataLen - bytes.length) 0 })

/-- What has been read of a frame is handled. -/
def handleRead (cfg : Config) (s : Tcp) (f : Frame) : Tcp :=
  match readValue (readFrame cfg s f.len) f.bytes with
  | some seg => s.handleSegment seg
  | none => s

variable {b : ℕ → UInt8} {o n i : ℕ}

@[simp] theorem readValue_read16 : readValue (read16 o) b = be16 b o := rfl

@[simp] theorem readOffsets_read16 : readOffsets (read16 o) b = [o, o + 1] := rfl

@[simp] theorem readValue_read32 : readValue (read32 o) b = be32 b o := rfl

@[simp] theorem readOffsets_read32 :
    readOffsets (read32 o) b = [o, o + 1, o + 2, o + 3] := rfl

@[simp] theorem reading_read16 (o : ℕ) : Reading (read16 o) := fun _ _ => trivial

@[simp] theorem reading_read32 (o : ℕ) : Reading (read32 o) := fun _ _ _ _ => trivial

@[simp] theorem reading_readBytes (o n : ℕ) : Reading (readBytes o n) := by
  induction n generalizing o with
  | zero => exact reading_pure []
  | succ n ih => exact (reading_fetch o).bind fun x => (ih (o + 1)).bind fun xs => reading_pure _

@[simp] theorem reading_readMatch (o : ℕ) (xs : List UInt8) : Reading (readMatch o xs) := by
  induction xs generalizing o with
  | nil => exact reading_pure true
  | cons x xs ih =>
    apply (reading_fetch o).bind
    intro v
    split_ifs
    · exact ih (o + 1)
    · exact reading_pure false

theorem readValue_readBytes (b : ℕ → UInt8) (o n : ℕ) :
    readValue (readBytes o n) b = (List.range n).map fun k => b (o + k) := by
  induction n generalizing o with
  | zero => rfl
  | succ n ih =>
    rw [readBytes, readValue_bind (reading_fetch o), readValue_bind (reading_readBytes _ _), ih,
      List.range_succ_eq_map]
    simp [Function.comp_def, Nat.add_assoc, Nat.add_comm 1]

theorem mem_readBytes : i ∈ readOffsets (readBytes o n) b ↔ o ≤ i ∧ i < o + n := by
  induction n generalizing o with
  | zero =>
    simp only [readBytes, readOffsets_pure, List.not_mem_nil, false_iff]
    omega
  | succ n ih =>
    rw [readBytes, readOffsets_bind (reading_fetch o), readOffsets_bind (reading_readBytes _ _)]
    simp only [readOffsets_fetch, readOffsets_pure, List.append_nil, List.mem_append,
      List.mem_singleton, ih]
    omega

theorem readValue_readMatch (b : ℕ → UInt8) (o : ℕ) (xs : List UInt8) :
    readValue (readMatch o xs) b = decide ((List.range xs.length).map (fun k => b (o + k)) = xs) := by
  induction xs generalizing o with
  | nil => rfl
  | cons x xs ih =>
    rw [readMatch, readValue_bind (reading_fetch o), readValue_fetch, List.length_cons,
      List.range_succ_eq_map]
    by_cases hx : b o = x
    · simp [hx, ih, Function.comp_def, Nat.add_assoc, Nat.add_comm 1]
    · simp [hx]

theorem readMatch_lt {xs : List UInt8} (h : i ∈ readOffsets (readMatch o xs) b) :
    i < o + xs.length := by
  induction xs generalizing o with
  | nil => simp [readMatch] at h
  | cons x xs ih =>
    rw [readMatch, readOffsets_bind (reading_fetch o), readOffsets_fetch, readValue_fetch,
      List.mem_append, List.mem_singleton] at h
    simp only [List.length_cons]
    rcases h with h | h
    · omega
    · split_ifs at h
      · have hlt := ih h
        omega
      · simp at h

/-- An IPv4 header with TCP behind it, for our address. -/
def TcpForUs (cfg : Config) (b : ℕ → UInt8) : Prop :=
  b 12 = 0x08 ∧ b 13 = 0x00 ∧ b 14 >>> 4 = 4 ∧ b 23 = 6 ∧ (fun k : Fin 4 => b (30 + k)) = cfg.myIp

instance (cfg : Config) (b : ℕ → UInt8) : Decidable (TcpForUs cfg b) :=
  inferInstanceAs (Decidable (_ ∧ _))

/-- Where the TCP header is. -/
def tcpAt (b : ℕ → UInt8) : ℕ := 14 + (b 14 &&& 0x0F).toNat * 4

def dataOffset (b : ℕ → UInt8) : ℕ := (b (tcpAt b + 12) >>> 4).toNat * 4

def ForPort (cfg : Config) (b : ℕ → UInt8) : Prop := be16 b (tcpAt b + 2) = cfg.listenPort

instance (cfg : Config) (b : ℕ → UInt8) : Decidable (ForPort cfg b) :=
  inferInstanceAs (Decidable (_ = _))

theorem ip4_eq_iff (b : ℕ → UInt8) (ip : Ip4) :
    (List.range 4).map (fun k => b (30 + k)) = ipBytes ip ↔ (fun k : Fin 4 => b (30 + k)) = ip := by
  have hrange : (List.range 4).map (fun k => b (30 + k)) = [b 30, b 31, b 32, b 33] := rfl
  rw [hrange, ipBytes, funext_iff, Fin.forall_fin_succ, Fin.forall_fin_succ, Fin.forall_fin_succ,
    Fin.forall_fin_succ]
  simp

theorem reading_readIpHeader (cfg : Config) : Reading (readIpHeader cfg) := by
  refine (reading_readMatch _ _).bind fun ether => .ite ?_ (reading_pure _)
  refine (reading_fetch _).bind fun version => .ite ?_ (reading_pure _)
  refine (reading_fetch _).bind fun ihl => (reading_fetch _).bind fun proto => .ite ?_ (reading_pure _)
  exact (reading_readMatch _ _).bind fun dest => .ite (reading_pure _) (reading_pure _)

theorem readValue_readIpHeader (cfg : Config) (b : ℕ → UInt8) :
    readValue (readIpHeader cfg) b =
      if TcpForUs cfg b then some ((b 14 &&& 0x0F).toNat * 4) else none := by
  unfold readIpHeader
  rw [readValue_bind (reading_readMatch _ _), readValue_readMatch]
  by_cases hether : (List.range ([0x08, 0x00] : List UInt8).length).map (fun k => b (12 + k)) =
      [0x08, 0x00]
  · have hbytes : b 12 = 8 ∧ b 13 = 0 := by simpa [List.range_succ] using hether
    rw [if_pos (decide_eq_true hether), readValue_bind (reading_fetch _), readValue_fetch]
    by_cases hversion : b 14 >>> 4 = 4
    · rw [if_pos hversion, readValue_bind (reading_fetch _), readValue_bind (reading_fetch _),
        readValue_fetch, readValue_fetch]
      by_cases hproto : b 23 = 6
      · rw [if_pos hproto, readValue_bind (reading_readMatch _ _), readValue_readMatch]
        by_cases hdest : (List.range (ipBytes cfg.myIp).length).map (fun k => b (30 + k)) =
            ipBytes cfg.myIp
        · have hus : TcpForUs cfg b :=
            ⟨hbytes.1, hbytes.2, hversion, hproto, (ip4_eq_iff b cfg.myIp).mp hdest⟩
          rw [if_pos (decide_eq_true hdest), if_pos hus, readValue_pure]
        · have hus : ¬ TcpForUs cfg b := fun h => hdest ((ip4_eq_iff b cfg.myIp).mpr h.2.2.2.2)
          rw [if_neg (by simpa using hdest), if_neg hus, readValue_pure]
      · rw [if_neg hproto, readValue_pure, if_neg (fun h : TcpForUs cfg b => hproto h.2.2.2.1)]
    · rw [if_neg hversion, readValue_pure, if_neg (fun h : TcpForUs cfg b => hversion h.2.2.1)]
  · have hus : ¬ TcpForUs cfg b := by
      intro h
      apply hether
      simp [List.range_succ, h.1, h.2.1]
    rw [if_neg (by simpa using hether), readValue_pure, if_neg hus]

theorem readIpHeader_lt {cfg : Config} (h : i ∈ readOffsets (readIpHeader cfg) b) : i < 54 := by
  unfold readIpHeader at h
  rw [readOffsets_bind (reading_readMatch _ _), List.mem_append] at h
  rcases h with h | h
  · have hlt := readMatch_lt h
    simp only [List.length_cons, List.length_nil] at hlt
    omega
  rw [readOffsets_ite] at h
  split_ifs at h
  · rw [readOffsets_bind (reading_fetch _), readOffsets_fetch, List.mem_append,
      List.mem_singleton] at h
    rcases h with rfl | h
    · omega
    rw [readOffsets_ite] at h
    split_ifs at h
    · rw [readOffsets_bind (reading_fetch _), readOffsets_bind (reading_fetch _),
        readOffsets_fetch, readOffsets_fetch, List.mem_append, List.mem_append, List.mem_singleton,
        List.mem_singleton] at h
      rcases h with rfl | rfl | h
      · omega
      · omega
      rw [readOffsets_ite] at h
      split_ifs at h
      · rw [readOffsets_bind (reading_readMatch _ _), List.mem_append] at h
        rcases h with h | h
        · have hlt := readMatch_lt h
          simp only [ipBytes, List.length_cons, List.length_nil] at hlt
          omega
        · split_ifs at h
          · simp at h
          · simp at h
      · simp at h
    · simp at h
  · simp at h

theorem reading_readTcpHeader (cfg : Config) (n : ℕ) : Reading (readTcpHeader cfg n) := by
  refine (reading_read16 _).bind fun sport => (reading_read16 _).bind fun dport =>
    (reading_readBytes _ _).bind fun ip => .ite ?_ (reading_pure _)
  exact (reading_read32 _).bind fun seq => (reading_read32 _).bind fun ack =>
    (reading_fetch _).bind fun off => (reading_fetch _).bind fun flags =>
      (reading_read16 _).bind fun total => reading_pure _

/-- The headers of a frame for our port. -/
def headerOf (b : ℕ → UInt8) : Header where
  seg :=
    { ip := fun k => b (26 + k), port := be16 b (tcpAt b), seq := be32 b (tcpAt b + 4),
      ack := be32 b (tcpAt b + 8), flags := b (tcpAt b + 13) &&& 0x3F, data := [] }
  dataAt := tcpAt b + dataOffset b
  dataLen := (be16 b 16).toNat - (b 14 &&& 0x0F).toNat * 4 - dataOffset b

theorem ip4_getD (b : ℕ → UInt8) :
    (fun k : Fin 4 => ((List.range 4).map fun k => b (26 + k)).getD k 0) =
      fun k : Fin 4 => b (26 + k) := by
  funext k
  fin_cases k <;> rfl

theorem readValue_readTcpHeader (cfg : Config) (b : ℕ → UInt8) :
    readValue (readTcpHeader cfg ((b 14 &&& 0x0F).toNat * 4)) b =
      if ForPort cfg b then some (headerOf b) else none := by
  unfold readTcpHeader
  rw [readValue_bind (reading_read16 _), readValue_bind (reading_read16 _),
    readValue_bind (reading_readBytes _ _), readValue_read16, readValue_read16]
  by_cases hport : ForPort cfg b
  · have hport' : be16 b (14 + (b 14 &&& 0x0F).toNat * 4 + 2) = cfg.listenPort := hport
    rw [if_pos hport', if_pos hport, readValue_bind (reading_read32 _),
      readValue_bind (reading_read32 _), readValue_bind (reading_fetch _),
      readValue_bind (reading_fetch _), readValue_bind (reading_read16 _), readValue_readBytes,
      readValue_pure, ip4_getD]
    rfl
  · have hport' : ¬ be16 b (14 + (b 14 &&& 0x0F).toNat * 4 + 2) = cfg.listenPort := hport
    rw [if_neg hport', if_neg hport, readValue_pure]

/-- The ports and the address are read, and the rest of the header when the port is
ours. -/
theorem readOffsets_readTcpHeader (cfg : Config) (b : ℕ → UInt8) :
    readOffsets (readTcpHeader cfg ((b 14 &&& 0x0F).toNat * 4)) b =
      [tcpAt b, tcpAt b + 1, tcpAt b + 2, tcpAt b + 3, 26, 27, 28, 29] ++
        if ForPort cfg b then
          [tcpAt b + 4, tcpAt b + 5, tcpAt b + 6, tcpAt b + 7, tcpAt b + 8, tcpAt b + 9,
            tcpAt b + 10, tcpAt b + 11, tcpAt b + 12, tcpAt b + 13, 16, 17]
        else [] := by
  unfold readTcpHeader
  rw [readOffsets_bind (reading_read16 _), readOffsets_bind (reading_read16 _),
    readOffsets_bind (reading_readBytes _ _), readValue_read16, readValue_read16]
  by_cases hport : ForPort cfg b
  · have hport' : be16 b (14 + (b 14 &&& 0x0F).toNat * 4 + 2) = cfg.listenPort := hport
    rw [if_pos hport', if_pos hport]
    rfl
  · have hport' : ¬ be16 b (14 + (b 14 &&& 0x0F).toNat * 4 + 2) = cfg.listenPort := hport
    rw [if_neg hport', if_neg hport]
    rfl

theorem readTcpHeader_lt_iff (cfg : Config) (b : ℕ → UInt8) (len : ℕ) (hlen : 54 ≤ len) :
    (∀ i ∈ readOffsets (readTcpHeader cfg ((b 14 &&& 0x0F).toNat * 4)) b, i < len) ↔
      tcpAt b + 4 ≤ len ∧ (ForPort cfg b → tcpAt b + 14 ≤ len) := by
  rw [readOffsets_readTcpHeader]
  by_cases hport : ForPort cfg b
  · rw [if_pos hport]
    simp only [List.cons_append, List.nil_append, List.forall_mem_cons, List.not_mem_nil,
      false_implies, implies_true, and_true, hport, true_implies]
    omega
  · rw [if_neg hport]
    simp only [List.cons_append, List.nil_append, List.forall_mem_cons, List.not_mem_nil,
      false_implies, implies_true, and_true, hport]
    omega

variable {cfg : Config} {s : Tcp} {f : Frame}

/-- Where the headers end and the payload begins, as the lengths say. -/
def HeadersFit (cfg : Config) (f : Frame) : Prop :=
  54 ≤ f.len → TcpForUs cfg f.bytes →
    tcpAt f.bytes + 4 ≤ f.len ∧ (ForPort cfg f.bytes → tcpAt f.bytes + 14 ≤ f.len)

/-- How much of the frame's data goes into the request of a slot. -/
def appendedTo (s : Tcp) (f : Frame) : ℕ :=
  match s.findConn (headerOf f.bytes).seg.ip (headerOf f.bytes).seg.port with
  | some i => appendCount (s.conns i) (headerOf f.bytes).seg (headerOf f.bytes).dataLen
  | none => 0

/-- The data that is appended lies in the frame. -/
def DataFits (cfg : Config) (s : Tcp) (f : Frame) : Prop :=
  54 ≤ f.len → TcpForUs cfg f.bytes → ForPort cfg f.bytes → 0 < appendedTo s f →
    (headerOf f.bytes).dataAt + appendedTo s f ≤ f.len

theorem reading_readData (s : Tcp) (h : Header) : Reading (readData s h) := by
  unfold readData
  split
  · exact reading_readBytes _ _
  · exact Reading.ite ((reading_readBytes _ _).bind fun _ => reading_pure _) (reading_pure _)

theorem readValue_readData (s : Tcp) (f : Frame) :
    readValue (readData s (headerOf f.bytes)) f.bytes =
      (List.range (appendedTo s f)).map fun k => f.bytes ((headerOf f.bytes).dataAt + k) := by
  unfold readData appendedTo
  cases hfind : s.findConn (headerOf f.bytes).seg.ip (headerOf f.bytes).seg.port with
  | some i => exact readValue_readBytes _ _ _
  | none =>
    simp only [readValue_ite, readValue_bind (reading_readBytes _ _), readValue_pure, ite_self]
    rfl

theorem readData_lt_iff (s : Tcp) (f : Frame) (hlen : 54 ≤ f.len) :
    (∀ i ∈ readOffsets (readData s (headerOf f.bytes)) f.bytes, i < f.len) ↔
      (0 < appendedTo s f → (headerOf f.bytes).dataAt + appendedTo s f ≤ f.len) := by
  unfold readData appendedTo
  cases s.findConn (headerOf f.bytes).seg.ip (headerOf f.bytes).seg.port with
  | some i =>
    simp only [mem_readBytes]
    constructor
    · intro h hpos
      have hlast := h ((headerOf f.bytes).dataAt +
        (appendCount (s.conns i) (headerOf f.bytes).seg (headerOf f.bytes).dataLen - 1)) (by omega)
      omega
    · intro h j hj
      have hle := h (by omega)
      omega
  | none =>
    have hall : ∀ i ∈ readOffsets (if (headerOf f.bytes).seg.has flagSyn ∧ s.allocConn ≠ none then
        (readBytes 6 6 >>= fun _ => pure []) else (pure [] : FrameProgram (List UInt8))) f.bytes,
        i < f.len := by
      intro i hi
      rw [readOffsets_ite] at hi
      split_ifs at hi
      · rw [readOffsets_bind (reading_readBytes _ _), readOffsets_pure, List.append_nil] at hi
        have hlt := (mem_readBytes.mp hi).2
        omega
      · simp at hi
    simp only [lt_self_iff_false, false_implies, iff_true]
    exact hall

/-- All the reads are in the frame when the headers and the appended data are. -/
theorem readFrame_lt_iff (cfg : Config) (s : Tcp) (f : Frame) :
    (∀ i ∈ readOffsets (readFrame cfg s f.len) f.bytes, i < f.len) ↔
      HeadersFit cfg f ∧ DataFits cfg s f := by
  unfold HeadersFit DataFits readFrame
  by_cases hlen : f.len < 14 + 20 + 20
  · have hshort : ¬ 54 ≤ f.len := by omega
    simp [if_pos hlen, hshort]
  · have hlong : 54 ≤ f.len := by omega
    rw [if_neg hlen, readOffsets_bind (reading_readIpHeader cfg), readValue_readIpHeader]
    have hip : ∀ i ∈ readOffsets (readIpHeader cfg) f.bytes, i < f.len := by
      intro i hi
      have hlt := readIpHeader_lt hi
      omega
    simp only [List.forall_mem_append, hlong, true_implies]
    rw [and_iff_right hip]
    by_cases hus : TcpForUs cfg f.bytes
    · rw [if_pos hus]
      simp only [hus, true_implies]
      rw [readOffsets_bind (reading_readTcpHeader cfg _), readValue_readTcpHeader,
        List.forall_mem_append, readTcpHeader_lt_iff cfg f.bytes f.len hlong]
      by_cases hport : ForPort cfg f.bytes
      · rw [if_pos hport]
        simp only [hport, true_implies]
        rw [readOffsets_bind (reading_readData s _), readOffsets_pure, List.append_nil,
          readData_lt_iff s f hlong]
      · simp [hport]
    · simp [hus]

/-- A slot without the history that the code does not have. -/
def TcpConn.code (c : TcpConn) : TcpConn :=
  { c with inc := 0, isn := 0, received := [], finSeq := none }

/-- The server without the histories that the code does not have. -/
def Tcp.code (s : Tcp) : Tcp :=
  { s with conns := fun i => (s.conns i).code, requestInc := 0, handovers := [], answers := [] }

/-- Two replies that differ in the history of the slot only. -/
structure Reply.SameCode (r r' : Reply) : Prop where
  conn : r'.conn.code = r.conn.code
  out : r'.out = r.out
  ready : r'.ready = r.ready

theorem Reply.SameCode.refl (r : Reply) : r.SameCode r := ⟨rfl, rfl, rfl⟩

section Code

variable {c : TcpConn} {seg : Segment} {d : List UInt8}

/-- What is appended is the same when the data is as long and starts the same. -/
theorem append_code (hlen : d.length = seg.data.length)
    (htake : d.take (min seg.data.length (reqCap - 1 - c.httpreqlen)) =
      seg.data.take (min seg.data.length (reqCap - 1 - c.httpreqlen))) :
    c.append { seg with data := d } = { c.append seg with received := c.received ++ d } := by
  have hbyte : ∀ k, k < min seg.data.length (reqCap - 1 - c.httpreqlen) →
      d.getD k 0 = seg.data.getD k 0 := by
    intro k hk
    have hd := List.getElem?_take_of_lt (l := d) hk
    have hdata := List.getElem?_take_of_lt (l := seg.data) hk
    rw [List.getD_eq_getElem?_getD, List.getD_eq_getElem?_getD, ← hd, ← hdata, htake]
  have hreq : (c.append { seg with data := d }).httpreq = (c.append seg).httpreq := by
    funext k
    simp only [TcpConn.append, hlen]
    split_ifs with hk hk'
    · rfl
    · exact hbyte (k - c.httpreqlen) (by omega)
    · rfl
    · rfl
  unfold TcpConn.append at hreq ⊢
  simp only [hlen] at hreq ⊢
  rw [hreq]

theorem onData_code (hlen : d.length = seg.data.length)
    (htake : seg.seq.toUInt64 = c.peerSeq →
      d.take (min seg.data.length (reqCap - 1 - c.httpreqlen)) =
        seg.data.take (min seg.data.length (reqCap - 1 - c.httpreqlen))) :
    (c.onData seg).SameCode (c.onData { seg with data := d }) := by
  have haccept : ∃ l, c.accept { seg with data := d } = { c.accept seg with received := l } := by
    unfold TcpConn.accept
    by_cases hseq : seg.seq.toUInt64 = c.peerSeq
    · exact ⟨c.received ++ d, by rw [if_pos hseq, if_pos hseq, append_code hlen (htake hseq)]⟩
    · exact ⟨c.received, by rw [if_neg hseq, if_neg hseq]⟩
  obtain ⟨l, hl⟩ := haccept
  have hcomplete : (c.accept { seg with data := d }).complete = (c.accept seg).complete := by
    rw [hl]
    rfl
  have hreqlen : (c.accept { seg with data := d }).httpreqlen = (c.accept seg).httpreqlen := by
    rw [hl]
  simp only [TcpConn.onData, hcomplete, hreqlen]
  rw [hl]
  split_ifs
  · exact ⟨rfl, rfl, rfl⟩
  · exact ⟨rfl, rfl, rfl⟩
  · exact ⟨rfl, rfl, rfl⟩

theorem onSegment_code (hlen : d.length = seg.data.length)
    (htake : d.take (appendCount c seg seg.data.length) =
      seg.data.take (appendCount c seg seg.data.length)) :
    (c.onSegment seg).SameCode (c.onSegment { seg with data := d }) := by
  unfold TcpConn.onSegment
  cases hstate : c.state with
  | established =>
    have hhas : ∀ flag, Segment.has { seg with data := d } flag = seg.has flag := fun _ => rfl
    simp only [TcpConn.onEstablished, hhas, hlen]
    split_ifs with hrst hdata hfin
    · exact .refl _
    · apply onData_code hlen
      intro hseq
      have hcount : appendCount c seg seg.data.length =
          min seg.data.length (reqCap - 1 - c.httpreqlen) :=
        if_pos ⟨hstate, by simpa using hrst, hseq⟩
      rwa [hcount] at htake
    · exact .refl _
    · exact .refl _
  | _ => exact .refl _

end Code

theorem setConn_code {i : Fin nconn} {c c' : TcpConn} (h : c'.code = c.code) (out : List Tx) :
    (s.setConn i c' out).code = (s.setConn i c out).code := by
  have hconns : (fun j => ((s.setConn i c' out).conns j).code) =
      fun j => ((s.setConn i c out).conns j).code := by
    funext j
    by_cases hj : j = i
    · subst hj
      simpa using h
    · rw [Tcp.setConn_of_ne hj, Tcp.setConn_of_ne hj]
  unfold Tcp.code
  rw [hconns]
  rfl

/-- Handing a request over looks at the code's part of the slot. -/
theorem queueToApp_code {s s' : Tcp} (h : s'.code = s.code) (i : Fin nconn) :
    (s'.queueToApp i).code = (s.queueToApp i).code := by
  simp only [Tcp.code, Tcp.mk.injEq] at h
  obtain ⟨hconns, hseed, hsyn, -, -, -, hresp, hsent, -⟩ := h
  have hconn := congrFun hconns i
  simp only [TcpConn.code, TcpConn.mk.injEq] at hconn
  obtain ⟨-, -, -, -, -, hreq, hlen, -⟩ := hconn
  simp only [Tcp.code, Tcp.queueToApp, hconns, hlen, hreq, hsent, hseed, hsyn, hresp]

theorem handleSegment_code {seg : Segment} {d : List UInt8} (hlen : d.length = seg.data.length)
    (htake : ∀ i, s.findConn seg.ip seg.port = some i →
      d.take (appendCount (s.conns i) seg seg.data.length) =
        seg.data.take (appendCount (s.conns i) seg seg.data.length)) :
    (s.handleSegment { seg with data := d }).code = (s.handleSegment seg).code := by
  unfold Tcp.handleSegment
  cases hfind : s.findConn seg.ip seg.port with
  | none => rfl
  | some i =>
    have hreply := onSegment_code hlen (htake i hfind)
    have hset : (s.setConn i ((s.conns i).onSegment { seg with data := d }).conn
          ((s.conns i).onSegment { seg with data := d }).out).code =
        (s.setConn i ((s.conns i).onSegment seg).conn ((s.conns i).onSegment seg).out).code := by
      rw [hreply.out]
      exact setConn_code hreply.conn _
    simp only [hreply.ready]
    split_ifs
    · exact queueToApp_code hset i
    · exact hset

/-- The frame gets as far as its connection. -/
def Reaches (cfg : Config) (f : Frame) : Prop :=
  54 ≤ f.len ∧ TcpForUs cfg f.bytes ∧ ForPort cfg f.bytes

instance (cfg : Config) (f : Frame) : Decidable (Reaches cfg f) :=
  inferInstanceAs (Decidable (_ ∧ _))

/-- The data of the segment, wherever it lies. -/
def dataOf (b : ℕ → UInt8) : List UInt8 :=
  (List.range (headerOf b).dataLen).map fun k => b ((headerOf b).dataAt + k)

theorem length_dataOf (b : ℕ → UInt8) : (dataOf b).length = (headerOf b).dataLen := by
  simp [dataOf]

/-- The segment with all its data. -/
def dataSegment (f : Frame) : Segment := { (headerOf f.bytes).seg with data := dataOf f.bytes }

theorem decode_eq (cfg : Config) (f : Frame) :
    decode cfg f = if Reaches cfg f then some (dataSegment f) else none := by
  by_cases hreach : Reaches cfg f
  · obtain ⟨hlen, ⟨h12, h13, hversion, hproto, hdest⟩, hport⟩ := hreach
    have hlen' : ¬ f.len < 14 + 20 + 20 := by omega
    have hether : ¬ (f.bytes 12 ≠ 0x08 ∨ f.bytes 13 ≠ 0x00) := by simp [h12, h13]
    rw [if_pos ⟨hlen, ⟨h12, h13, hversion, hproto, hdest⟩, hport⟩]
    simp only [decode, if_neg hlen', if_neg hether, if_neg (not_not.mpr hversion),
      if_neg (not_not.mpr hproto), if_neg (not_not.mpr hdest)]
    exact if_neg (not_not.mpr hport)
  · rw [if_neg hreach]
    unfold decode
    split_ifs with hlen hether hversion hproto hdest
    · rfl
    · rfl
    · rfl
    · rfl
    · rfl
    · rw [not_or, not_not, not_not] at hether
      have hport : ¬ ForPort cfg f.bytes := by
        intro hport
        exact hreach ⟨by omega, ⟨hether.1, hether.2, not_not.mp hversion, not_not.mp hproto,
          not_not.mp hdest⟩, hport⟩
      exact if_pos hport

/-- How much is appended is no more than the data. -/
theorem appendedTo_le (s : Tcp) (f : Frame) : appendedTo s f ≤ (headerOf f.bytes).dataLen := by
  unfold appendedTo appendCount
  split
  · split_ifs
    · exact min_le_left _ _
    · exact Nat.zero_le _
  · exact Nat.zero_le _

theorem appendedTo_eq {i : Fin nconn}
    (h : s.findConn (dataSegment f).ip (dataSegment f).port = some i) :
    appendedTo s f =
      appendCount (s.conns i) (dataSegment f) (dataSegment f).data.length := by
  have hlen : (dataSegment f).data.length = (headerOf f.bytes).dataLen := length_dataOf f.bytes
  have hfind : s.findConn (headerOf f.bytes).seg.ip (headerOf f.bytes).seg.port = some i := h
  unfold appendedTo
  rw [hfind, hlen]
  rfl

/-- The segment as the program has read it. -/
def readSegment (s : Tcp) (f : Frame) : Segment :=
  { (headerOf f.bytes).seg with
    data := (dataOf f.bytes).take (appendedTo s f) ++
      List.replicate ((headerOf f.bytes).dataLen - appendedTo s f) 0 }

theorem readValue_readFrame (cfg : Config) (s : Tcp) (f : Frame) :
    readValue (readFrame cfg s f.len) f.bytes =
      if Reaches cfg f then some (readSegment s f) else none := by
  unfold readFrame
  by_cases hlen : f.len < 14 + 20 + 20
  · have hreach : ¬ Reaches cfg f := by
      intro h
      have hle := h.1
      omega
    rw [if_pos hlen, if_neg hreach, readValue_pure]
  · rw [if_neg hlen, readValue_bind (reading_readIpHeader cfg), readValue_readIpHeader]
    by_cases hus : TcpForUs cfg f.bytes
    · rw [if_pos hus]
      simp only
      rw [readValue_bind (reading_readTcpHeader cfg _), readValue_readTcpHeader]
      by_cases hport : ForPort cfg f.bytes
      · have hreach : Reaches cfg f := ⟨by omega, hus, hport⟩
        have htake : ((List.range (appendedTo s f)).map fun k =>
            f.bytes ((headerOf f.bytes).dataAt + k)) = (dataOf f.bytes).take (appendedTo s f) := by
          rw [dataOf, ← List.map_take, List.take_range, min_eq_left (appendedTo_le s f)]
        have hlength : ((dataOf f.bytes).take (appendedTo s f)).length = appendedTo s f := by
          rw [List.length_take, length_dataOf, min_eq_left (appendedTo_le s f)]
        rw [if_pos hport, if_pos hreach]
        simp only
        rw [readValue_bind (reading_readData s _), readValue_readData, readValue_pure, htake,
          hlength]
        rfl
      · have hreach : ¬ Reaches cfg f := fun h => hport h.2.2
        rw [if_neg hport, if_neg hreach, readValue_pure]
    · have hreach : ¬ Reaches cfg f := fun h => hus h.2.1
      rw [if_neg hus, if_neg hreach, readValue_pure]

/-- The program does what the handling of the frame does. -/
theorem handleRead_code (cfg : Config) (s : Tcp) (f : Frame) :
    (handleRead cfg s f).code = (s.tcpHandlePacket cfg f).code := by
  unfold handleRead Tcp.tcpHandlePacket
  rw [readValue_readFrame, decode_eq]
  by_cases hreach : Reaches cfg f
  · rw [if_pos hreach, if_pos hreach]
    have hle := appendedTo_le s f
    have hlen := length_dataOf f.bytes
    have hread : ((dataOf f.bytes).take (appendedTo s f) ++
        List.replicate ((headerOf f.bytes).dataLen - appendedTo s f) 0).length =
          (dataSegment f).data.length := by
      simp only [dataSegment, List.length_append, List.length_take, List.length_replicate]
      omega
    apply @handleSegment_code s (dataSegment f) _ hread
    intro i hi
    rw [← appendedTo_eq hi, List.take_append_of_le_length (by rw [List.length_take]; omega),
      List.take_take, min_self]
    rfl
  · rw [if_neg hreach, if_neg hreach]

/-- A request grows by data in order on an established connection only. -/
theorem onSegment_request (c : TcpConn) (seg : Segment) :
    (c.onSegment seg).conn.httpreqlen ≤ c.httpreqlen ∨
      c.state = .established ∧ seg.has flagRst = false ∧ seg.seq.toUInt64 = c.peerSeq ∧
        (c.onSegment seg).conn.httpreqlen = (c.append seg).httpreqlen ∧
        (c.onSegment seg).conn.httpreq = (c.append seg).httpreq := by
  unfold TcpConn.onSegment
  cases hstate : c.state with
  | closed => exact Or.inl le_rfl
  | listen => exact Or.inl le_rfl
  | synRcvd =>
    simp only [TcpConn.onSynRcvd]
    split_ifs
    · exact Or.inl le_rfl
    · exact Or.inl (Nat.zero_le _)
    · exact Or.inl le_rfl
  | established =>
    simp only [TcpConn.onEstablished]
    split_ifs with hrst hdata hfin
    · exact Or.inl le_rfl
    · by_cases hseq : seg.seq.toUInt64 = c.peerSeq
      · refine Or.inr ⟨trivial, by simpa using hrst, hseq, ?_⟩
        simp only [TcpConn.onData, TcpConn.accept, if_pos hseq, TcpConn.sendLast]
        split_ifs <;> exact ⟨rfl, rfl⟩
      · left
        simp only [TcpConn.onData, TcpConn.accept, if_neg hseq, TcpConn.sendLast]
        split_ifs <;> exact le_rfl
    · exact Or.inl le_rfl
    · exact Or.inl le_rfl
  | finWait1 =>
    simp only [TcpConn.onFinWait1]
    split_ifs <;> exact Or.inl le_rfl
  | lastAck =>
    simp only [TcpConn.onLastAck]
    split_ifs <;> exact Or.inl le_rfl

/-- A request that has grown has the data of the segment behind what it had. -/
theorem handleSegment_request {i : Fin nconn} {k : ℕ} {seg : Segment}
    (hge : (s.conns i).httpreqlen ≤ k) (hlt : k < ((s.handleSegment seg).conns i).httpreqlen) :
    s.findConn seg.ip seg.port = some i ∧
      k - (s.conns i).httpreqlen < appendCount (s.conns i) seg seg.data.length ∧
      ((s.handleSegment seg).conns i).httpreq k = seg.data.getD (k - (s.conns i).httpreqlen) 0 := by
  cases hfind : s.findConn seg.ip seg.port with
  | none =>
    exfalso
    have hopen := Tcp.handleSegment_cases s seg
    rw [hfind] at hopen
    rcases hopen with ⟨-, h⟩ | ⟨-, j, -, h⟩ | ⟨j, hj, -⟩
    · rw [h] at hlt
      omega
    · rw [h] at hlt
      by_cases hij : i = j
      · subst hij
        rw [Tcp.openConn_self] at hlt
        simp [TcpConn.opened] at hlt
      · rw [Tcp.openConn_of_ne hij] at hlt
        omega
    · simp at hj
  | some j =>
    rw [Tcp.handleSegment_conns hfind] at hlt ⊢
    by_cases hij : i = j
    · subst hij
      rw [if_pos rfl] at hlt ⊢
      rcases onSegment_request (s.conns i) seg with hle | ⟨hstate, hrst, hseq, hlen, hreq⟩
      · omega
      · have hcount : appendCount (s.conns i) seg seg.data.length =
            min seg.data.length (reqCap - 1 - (s.conns i).httpreqlen) :=
          if_pos ⟨hstate, hrst, hseq⟩
        have hgrown : ((s.conns i).append seg).httpreqlen =
            (s.conns i).httpreqlen + min seg.data.length (reqCap - 1 - (s.conns i).httpreqlen) :=
          rfl
        rw [hlen, hgrown] at hlt
        refine ⟨rfl, by omega, ?_⟩
        rw [hreq]
        simp only [TcpConn.append]
        rw [if_neg (by omega), if_pos hlt]
    · rw [if_neg hij] at hlt
      omega

/-- Every byte that is read is one of the frame, what is handled depends on these bytes
only, and so are the bytes that a request gets. -/
structure InsideFrame (cfg : Config) (s : Tcp) (f : Frame) : Prop where
  reads : ∀ i ∈ readOffsets (readFrame cfg s f.len) f.bytes, i < f.len
  effect : ∀ f' : Frame, f'.len = f.len → (∀ i < f.len, f'.bytes i = f.bytes i) →
    (s.tcpHandlePacket cfg f').code = (s.tcpHandlePacket cfg f).code
  appended : ∀ i k, (s.conns i).httpreqlen ≤ k →
    k < ((s.tcpHandlePacket cfg f).conns i).httpreqlen →
      ∃ j < f.len, j = (headerOf f.bytes).dataAt + (k - (s.conns i).httpreqlen) ∧
        ((s.tcpHandlePacket cfg f).conns i).httpreq k = f.bytes j

/-- The headers and the data that is appended lie in the frame, or nothing of them is
read. -/
theorem insideFrame_iff (cfg : Config) (s : Tcp) (f : Frame) :
    InsideFrame cfg s f ↔ HeadersFit cfg f ∧ DataFits cfg s f := by
  constructor
  · exact fun h => (readFrame_lt_iff cfg s f).mp h.reads
  · intro h
    have hreads := (readFrame_lt_iff cfg s f).mpr h
    constructor
    · exact hreads
    · intro f' hlen hbytes
      have hvalue : readValue (readFrame cfg s f'.len) f'.bytes =
          readValue (readFrame cfg s f.len) f.bytes := by
        rw [hlen]
        exact readValue_congr fun i hi => hbytes i (hreads i hi)
      have hhandle : handleRead cfg s f' = handleRead cfg s f := by
        unfold handleRead
        rw [hvalue]
      rw [← handleRead_code, ← handleRead_code, hhandle]
    · intro i k hge hlt
      unfold Tcp.tcpHandlePacket at hlt ⊢
      rw [decode_eq] at hlt ⊢
      by_cases hreach : Reaches cfg f
      · rw [if_pos hreach] at hlt ⊢
        obtain ⟨hfind, hcount, hbyte⟩ := handleSegment_request hge hlt
        rw [← appendedTo_eq hfind] at hcount
        have hfits := h.2 hreach.1 hreach.2.1 hreach.2.2 (by omega)
        have hdata : k - (s.conns i).httpreqlen < (headerOf f.bytes).dataLen := by
          have hle := appendedTo_le s f
          omega
        have hget : (dataSegment f).data.getD (k - (s.conns i).httpreqlen) 0 =
            f.bytes ((headerOf f.bytes).dataAt + (k - (s.conns i).httpreqlen)) := by
          simp [dataSegment, dataOf, hdata]
        exact ⟨_, by omega, rfl, hbyte.trans hget⟩
      · rw [if_neg hreach] at hlt
        simp only at hlt
        omega

/-- A peer has connected. -/
def connectRun : List TcpEvent :=
  [fromPeer 100 0 flagSyn [], fromPeer 101 0xDEADBEF0 flagAck []]

/-- A frame of 54 bytes from the peer whose IP header says that four bytes of data follow;
the bytes behind it are from another frame. -/
def overstatedFrame : Frame :=
  { ((peerSegment 101 0xDEADBEF0 flagAck [71, 69, 84, 32]).frame server) with len := 54 }

/-- The bytes behind the frame are taken for data. -/
theorem stale_bytes_appended : ¬ ∀ (es : List TcpEvent) (s : Tcp),
    exec (Tcp.step server) Tcp.start es = some s → ∀ f, InsideFrame server s f := by
  intro h
  have hrun := Option.some_get (Tcp.exec_isSome server Tcp.start connectRun)
  have hinside := h connectRun _ hrun.symm overstatedFrame
  have hread : 54 ∈ readOffsets (readFrame server
      ((exec (Tcp.step server) Tcp.start connectRun).get
        (Tcp.exec_isSome server Tcp.start connectRun)) 54) overstatedFrame.bytes := by
    decide
  exact absurd (hinside.reads 54 hread) (by decide)

end XinuRpi4.Net
