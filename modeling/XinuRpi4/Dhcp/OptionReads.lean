import XinuRpi4.Dhcp.Client
import XinuRpi4.Net.EchoReplies
import XinuRpi4.Net.FrameReads

/-!
# The two DHCP parsers

The client of the wired port and the WiFi driver each have a parser of replies, as programs
that read bytes of a frame in the order of the source. The one skips pads, the other takes a
pad for an option with a length.
-/

namespace XinuRpi4.Dhcp

open XinuRpi4.Foundation XinuRpi4.Foundation.MemoryProgram XinuRpi4.Net

def cookie : List UInt8 := [0x63, 0x82, 0x53, 0x63]

def readIp4 (o : ℕ) : FrameProgram Ip4 := do
  let a ← fetch o
  let b ← fetch (o + 1)
  let c ← fetch (o + 2)
  let d ← fetch (o + 3)
  pure ![a, b, c, d]

/-- The `switch` over the code of an option. -/
def readOption (code : UInt8) (olen od : ℕ) (opts : DhcpOptions) : FrameProgram DhcpOptions :=
  if code = 53 then
    if 1 ≤ olen then do
      let v ← fetch od
      pure { opts with msgType := v }
    else pure opts
  else if code = 54 then
    if 4 ≤ olen then do
      let v ← readIp4 od
      pure { opts with serverId := v }
    else pure opts
  else if code = 3 then
    if 4 ≤ olen then do
      let v ← readIp4 od
      pure { opts with router := v }
    else pure opts
  else if code = 1 then
    if 4 ≤ olen then do
      let v ← readIp4 od
      pure { opts with netmask := v }
    else pure opts
  else if code = 6 then
    if 4 ≤ olen then do
      let v ← readIp4 od
      pure { opts with dns := v }
    else pure opts
  else if code = 51 then
    if 4 ≤ olen then do
      let v ← read32 od
      pure { opts with lease := v }
    else pure opts
  else pure opts

def readOptions (bp bpLen : ℕ) : ℕ → ℕ → DhcpOptions → FrameProgram DhcpOptions
  | 0, _, opts => pure opts
  | turns + 1, o, opts =>
    if o < bpLen then do
      let code ← fetch (bp + o)
      if code = 0 then readOptions bp bpLen turns (o + 1) opts
      else if code = 255 then pure opts
      else if bpLen ≤ o + 1 then pure opts
      else do
        let olen ← fetch (bp + (o + 1))
        if bpLen < o + 2 + olen.toNat then pure opts
        else do
          let opts ← readOption code olen.toNat (bp + (o + 2)) opts
          readOptions bp bpLen turns (o + 2 + olen.toNat) opts
    else pure opts

/-- The reply in a frame of `len` bytes, when it is one with the transaction id. -/
def readReply (turns len : ℕ) (gXid : UInt32) : FrameProgram (Option DhcpReply) :=
  if len < 14 + 20 + 8 + 240 + 4 then pure none
  else do
    let type ← readMatch 12 [0x08, 0x00]
    if type then do
      let version ← fetch 14
      if version >>> 4 = 4 then do
        let first ← fetch 14
        let proto ← fetch 23
        if proto = 17 then do
          let udp := 14 + (first &&& 0x0F).toNat * 4
          let bp := udp + 8
          let sport ← read16 udp
          let dport ← read16 (udp + 2)
          if sport = 67 ∧ dport = 68 then
            if len - bp < 240 then pure none
            else do
              let xid ← read32 (bp + 4)
              if xid = gXid then do
                let magic ← readMatch (bp + 236) cookie
                if magic then do
                  let yiaddr ← readIp4 (bp + 16)
                  let opts ← readOptions bp (len - bp) turns 240 noOptions
                  pure (some { xid := xid, yiaddr := yiaddr, opts := opts })
                else pure none
              else pure none
          else pure none
        else pure none
      else pure none
    else pure none

/-- The addresses that `dhcp_parse` writes to. -/
structure WifiLease where
  yiaddr : Ip4
  srvid : Ip4
  mask : Ip4
  gw : Ip4
  dns : Ip4
deriving DecidableEq

/-- The chain of comparisons with the code `t` of an option. -/
def parseOption (t : UInt8) (l o : ℕ) (r : UInt8 × WifiLease) : FrameProgram (UInt8 × WifiLease) :=
  if t = 53 ∧ 1 ≤ l then do
    let v ← fetch o
    pure (v, r.2)
  else if t = 54 ∧ 4 ≤ l then do
    let v ← readIp4 o
    pure (r.1, { r.2 with srvid := v })
  else if t = 1 ∧ 4 ≤ l then do
    let v ← readIp4 o
    pure (r.1, { r.2 with mask := v })
  else if t = 3 ∧ 4 ≤ l then do
    let v ← readIp4 o
    pure (r.1, { r.2 with gw := v })
  else if t = 6 ∧ 4 ≤ l then do
    let v ← readIp4 o
    pure (r.1, { r.2 with dns := v })
  else pure r

/-- The loop over the options from offset `o` of the frame. -/
def walkOptions (elen : ℕ) : ℕ → ℕ → UInt8 × WifiLease → FrameProgram (UInt8 × WifiLease)
  | 0, _, r => pure r
  | turns + 1, o, r =>
    if o < elen then do
      let t ← fetch o
      if t = 255 then pure r
      else if elen ≤ o + 1 then pure r
      else do
        let l ← fetch (o + 1)
        if elen < o + 2 + l.toNat then pure r
        else do
          let r ← parseOption t l.toNat (o + 2) r
          walkOptions elen turns (o + 2 + l.toNat) r
    else pure r

/-- The message type, or zero, and the addresses. -/
def dhcpParse (turns elen : ℕ) (xid : UInt32) (r : WifiLease) : FrameProgram (UInt8 × WifiLease) :=
  if elen < 14 + 20 + 8 + 240 then pure (0, r)
  else do
    let type ← readMatch 12 [0x08, 0x00]
    if type then do
      let first ← fetch 14
      let proto ← fetch 23
      if proto = 17 then do
        let udp := 14 + (first &&& 0x0F).toNat * 4
        let bootp := udp + 8
        let dport ← readMatch (udp + 2) [0, 68]
        if dport then do
          let op ← fetch bootp
          if op = 2 then do
            let got ← read32 (bootp + 4)
            if got = xid then do
              let yiaddr ← readIp4 (bootp + 16)
              let r := { r with yiaddr := yiaddr }
              let magic ← readMatch (bootp + 236) cookie
              if magic then walkOptions elen turns (bootp + 240) (0, r)
              else pure (0, r)
            else pure (0, r)
          else pure (0, r)
        else pure (0, r)
      else pure (0, r)
    else pure (0, r)

variable {b : ℕ → UInt8}

@[simp] theorem reading_readIp4 (o : ℕ) : Reading (readIp4 o) := fun _ _ _ _ => trivial

theorem readValue_readIp4 (o : ℕ) : readValue (readIp4 o) b = ip4At b o := by
  funext k
  fin_cases k <;> rfl

theorem reading_readOption (code : UInt8) (olen od : ℕ) (opts : DhcpOptions) :
    Reading (readOption code olen od opts) := by
  have hip {g : Ip4 → DhcpOptions} : Reading (readIp4 od >>= fun v => pure (g v)) :=
    (reading_readIp4 od).bind fun _ => reading_pure _
  unfold readOption
  refine .ite (.ite ?_ (reading_pure _)) (.ite (.ite hip (reading_pure _)) (.ite (.ite hip
    (reading_pure _)) (.ite (.ite hip (reading_pure _)) (.ite (.ite hip (reading_pure _))
      (.ite (.ite ?_ (reading_pure _)) (reading_pure _))))))
  · exact (reading_fetch od).bind fun _ => reading_pure _
  · exact (reading_read32 od).bind fun _ => reading_pure _

theorem reading_readOptions (bp bpLen turns o : ℕ) (opts : DhcpOptions) :
    Reading (readOptions bp bpLen turns o opts) := by
  induction turns generalizing o opts with
  | zero => exact reading_pure opts
  | succ turns ih =>
    refine .ite ((reading_fetch _).bind fun code => .ite (ih _ _) (.ite (reading_pure _)
      (.ite (reading_pure _) ((reading_fetch _).bind fun olen => .ite (reading_pure _) ?_))))
      (reading_pure _)
    exact (reading_readOption _ _ _ _).bind fun opts => ih _ _

theorem reading_parseOption (t : UInt8) (l o : ℕ) (r : UInt8 × WifiLease) :
    Reading (parseOption t l o r) := by
  have hip {g : Ip4 → UInt8 × WifiLease} : Reading (readIp4 o >>= fun v => pure (g v)) :=
    (reading_readIp4 o).bind fun _ => reading_pure _
  unfold parseOption
  refine .ite ?_ (.ite hip (.ite hip (.ite hip (.ite hip (reading_pure _)))))
  exact (reading_fetch o).bind fun _ => reading_pure _

theorem readValue_readOption (b : ℕ → UInt8) (code : UInt8) (olen od : ℕ) (opts : DhcpOptions) :
    readValue (readOption code olen od opts) b = takeOption b code olen od opts := by
  have hip (g : Ip4 → DhcpOptions) :
      readValue (readIp4 od >>= fun v => pure (g v)) b = g (ip4At b od) := by
    rw [readValue_bind (reading_readIp4 od), readValue_readIp4, readValue_pure]
  unfold readOption takeOption
  simp only [readValue_ite, readValue_pure, hip]
  rfl

theorem readValue_readOptions (b : ℕ → UInt8) (bp bpLen turns o : ℕ) (opts : DhcpOptions) :
    readValue (readOptions bp bpLen turns o opts) b = parseOptions b bp bpLen turns o opts := by
  induction turns generalizing o opts with
  | zero => rfl
  | succ turns ih =>
    have hnext (code : UInt8) : readValue (fetch (bp + (o + 1)) >>= fun olen =>
          if bpLen < o + 2 + olen.toNat then pure opts
          else readOption code olen.toNat (bp + (o + 2)) opts >>= fun opts =>
            readOptions bp bpLen turns (o + 2 + olen.toNat) opts) b =
        if bpLen < o + 2 + (b (bp + (o + 1))).toNat then opts
        else parseOptions b bp bpLen turns (o + 2 + (b (bp + (o + 1))).toNat)
          (takeOption b code (b (bp + (o + 1))).toNat (bp + (o + 2)) opts) := by
      rw [readValue_bind (reading_fetch _), readValue_fetch, readValue_ite, readValue_pure,
        readValue_bind (reading_readOption _ _ _ _), readValue_readOption, ih]
    rw [readOptions, parseOptions, readValue_ite, readValue_pure,
      readValue_bind (reading_fetch _), readValue_fetch]
    simp only [readValue_ite, readValue_pure, ih, hnext]

/-- The offset of the message in a frame. -/
def bootpAt (f : Frame) : ℕ := 14 + ihl f + 8

/-- What a frame says when it has a reply to the transaction in it. -/
def replyAt (turns : ℕ) (f : Frame) : DhcpReply where
  xid := be32 f.bytes (bootpAt f + 4)
  yiaddr := ip4At f.bytes (bootpAt f + 16)
  opts := parseOptions f.bytes (bootpAt f) (f.len - bootpAt f) turns 240 noOptions

/-- The checks of `dhcp_handle_packet`. -/
structure IsReply (gXid : UInt32) (f : Frame) : Prop where
  long : 286 ≤ f.len
  ethertype : f.bytes 12 = 0x08 ∧ f.bytes 13 = 0x00
  version : f.bytes 14 >>> 4 = 4
  proto : f.bytes 23 = 17
  ports : be16 f.bytes (14 + ihl f) = 67 ∧ be16 f.bytes (14 + ihl f + 2) = 68
  message : 240 ≤ f.len - bootpAt f
  xid : be32 f.bytes (bootpAt f + 4) = gXid
  magic : slice f.bytes (bootpAt f + 236) 4 = cookie

instance (gXid : UInt32) (f : Frame) : Decidable (IsReply gXid f) :=
  decidable_of_iff (286 ≤ f.len ∧ (f.bytes 12 = 0x08 ∧ f.bytes 13 = 0x00) ∧ f.bytes 14 >>> 4 = 4 ∧
      f.bytes 23 = 17 ∧ (be16 f.bytes (14 + ihl f) = 67 ∧ be16 f.bytes (14 + ihl f + 2) = 68) ∧
      240 ≤ f.len - bootpAt f ∧ be32 f.bytes (bootpAt f + 4) = gXid ∧
      slice f.bytes (bootpAt f + 236) 4 = cookie)
    ⟨fun ⟨h₁, h₂, h₃, h₄, h₅, h₆, h₇, h₈⟩ => ⟨h₁, h₂, h₃, h₄, h₅, h₆, h₇, h₈⟩,
      fun ⟨h₁, h₂, h₃, h₄, h₅, h₆, h₇, h₈⟩ => ⟨h₁, h₂, h₃, h₄, h₅, h₆, h₇, h₈⟩⟩

theorem ethertype_iff (b : ℕ → UInt8) : (List.range ([0x08, 0x00] : List UInt8).length).map
    (fun k => b (12 + k)) = [0x08, 0x00] ↔ b 12 = 0x08 ∧ b 13 = 0x00 := by
  simp [List.range_succ]

theorem cookie_iff (b : ℕ → UInt8) (o : ℕ) :
    (List.range cookie.length).map (fun k => b (o + k)) = cookie ↔ slice b o 4 = cookie := Iff.rfl

theorem readValue_readReply (turns : ℕ) (gXid : UInt32) (f : Frame) :
    readValue (readReply turns f.len gXid) f.bytes =
      if IsReply gXid f then some (replyAt turns f) else none := by
  unfold readReply
  by_cases hlong : f.len < 286
  · rw [if_pos hlong, if_neg fun h : IsReply gXid f => absurd h.long (by omega), readValue_pure]
  rw [if_neg hlong, readValue_bind (reading_readMatch _ _), readValue_readMatch]
  by_cases hether : f.bytes 12 = 0x08 ∧ f.bytes 13 = 0x00
  swap
  · rw [if_neg (by simpa using! mt (ethertype_iff _).mp hether),
      if_neg fun h : IsReply gXid f => hether h.ethertype, readValue_pure]
  rw [if_pos (decide_eq_true ((ethertype_iff _).mpr hether)), readValue_bind (reading_fetch _),
    readValue_fetch]
  by_cases hversion : f.bytes 14 >>> 4 = 4
  swap
  · rw [if_neg hversion, if_neg fun h : IsReply gXid f => hversion h.version, readValue_pure]
  rw [if_pos hversion, readValue_bind (reading_fetch _), readValue_bind (reading_fetch _),
    readValue_fetch, readValue_fetch]
  by_cases hproto : f.bytes 23 = 17
  swap
  · rw [if_neg hproto, if_neg fun h : IsReply gXid f => hproto h.proto, readValue_pure]
  rw [if_pos hproto]
  change readValue (read16 (14 + ihl f) >>= fun sport => read16 (14 + ihl f + 2) >>= fun dport => _) _ = _
  rw [readValue_bind (reading_read16 _), readValue_bind (reading_read16 _), readValue_read16,
    readValue_read16]
  by_cases hports : be16 f.bytes (14 + ihl f) = 67 ∧ be16 f.bytes (14 + ihl f + 2) = 68
  swap
  · rw [if_neg hports, if_neg fun h : IsReply gXid f => hports h.ports, readValue_pure]
  rw [if_pos hports]
  by_cases hmessage : f.len - bootpAt f < 240
  · have hnot : ¬ IsReply gXid f := fun h => absurd h.message (by omega)
    rw [if_neg hnot]
    exact congrArg (fun p => readValue p f.bytes) (if_pos hmessage)
  refine (congrArg (fun p => readValue p f.bytes) (if_neg hmessage)).trans ?_
  rw [readValue_bind (reading_read32 _), readValue_read32]
  by_cases hxid : be32 f.bytes (bootpAt f + 4) = gXid
  swap
  · have hnot : ¬ IsReply gXid f := fun h => hxid h.xid
    rw [if_neg hnot]
    exact congrArg (fun p => readValue p f.bytes) (if_neg hxid)
  refine (congrArg (fun p => readValue p f.bytes) (if_pos hxid)).trans ?_
  rw [readValue_bind (reading_readMatch _ _), readValue_readMatch]
  by_cases hmagic : slice f.bytes (bootpAt f + 236) 4 = cookie
  swap
  · have hnot : ¬ IsReply gXid f := fun h => hmagic h.magic
    rw [if_neg hnot]
    exact congrArg (fun p => readValue p f.bytes) (if_neg fun h => hmagic (of_decide_eq_true h))
  have hreply : IsReply gXid f :=
    ⟨by omega, hether, hversion, hproto, hports, by omega, hxid, hmagic⟩
  rw [if_pos hreply]
  refine (congrArg (fun p => readValue p f.bytes) (if_pos (decide_eq_true hmagic))).trans ?_
  rw [readValue_bind (reading_readIp4 _), readValue_readIp4, readValue_bind (reading_readOptions _ _ _ _ _),
    readValue_readOptions, readValue_pure]
  rfl

/-- Further turns are not taken: the loops end. -/
theorem readOptions_turns (bp bpLen turns k o : ℕ) (opts : DhcpOptions) (h : bpLen - o ≤ turns) :
    readOptions bp bpLen (turns + k) o opts = readOptions bp bpLen turns o opts := by
  induction turns generalizing o opts with
  | zero =>
    cases k with
    | zero => rfl
    | succ k => exact if_neg (by omega)
  | succ turns ih =>
    rw [Nat.add_right_comm, readOptions, readOptions]
    by_cases ho : o < bpLen
    · rw [if_pos ho, if_pos ho]
      congr 1
      funext code
      rw [ih (o + 1) opts (by omega)]
      congr 4
      funext olen
      congr 2
      funext opts'
      exact ih _ _ (by omega)
    · rw [if_neg ho, if_neg ho]

theorem walkOptions_turns (elen turns k o : ℕ) (r : UInt8 × WifiLease) (h : elen - o ≤ turns) :
    walkOptions elen (turns + k) o r = walkOptions elen turns o r := by
  induction turns generalizing o r with
  | zero =>
    cases k with
    | zero => rfl
    | succ k => exact if_neg (by omega)
  | succ turns ih =>
    rw [Nat.add_right_comm, walkOptions, walkOptions]
    by_cases ho : o < elen
    · rw [if_pos ho, if_pos ho]
      congr 1
      funext t
      congr 3
      funext l
      congr 2
      funext r'
      exact ih _ _ (by omega)
    · rw [if_neg ho, if_neg ho]

theorem parseOptions_enough (b : ℕ → UInt8) (bp bpLen turns : ℕ) (opts : DhcpOptions)
    (h : bpLen ≤ turns) :
    parseOptions b bp bpLen turns 240 opts = parseOptions b bp bpLen bpLen 240 opts := by
  obtain ⟨k, rfl⟩ := Nat.exists_eq_add_of_le h
  rw [← readValue_readOptions, ← readValue_readOptions, readOptions_turns _ _ _ _ _ _ (by omega)]

/-- The parser returns the reply that the client handles. -/
theorem readValue_readReply_eq (s : DhcpClient) (f : Frame) :
    readValue (readReply f.len f.len s.gXid) f.bytes = s.replyIn f := by
  have hcookie : slice f.bytes (bootpAt f + 236) 4 = cookie ↔
      f.bytes (bootpAt f + 236) = 0x63 ∧ f.bytes (bootpAt f + 237) = 0x82 ∧
        f.bytes (bootpAt f + 238) = 0x53 ∧ f.bytes (bootpAt f + 239) = 0x63 := by
    simp [slice, List.range_succ, cookie]
  rw [readValue_readReply]
  by_cases hreply : IsReply s.gXid f
  · obtain ⟨hlong, hether, hversion, hproto, hports, hmessage, hxid, hmagic⟩ := id hreply
    have hdecode : decode f = some (replyAt (f.len - bootpAt f) f) := by
      unfold decode
      rw [if_neg (by omega), if_neg (by tauto), if_neg (not_not.mpr hversion),
        if_neg (not_not.mpr hproto)]
      refine (if_neg ?_).trans ((if_neg ?_).trans ((if_neg ?_).trans rfl))
      · exact not_or.mpr ⟨not_not.mpr hports.1, not_not.mpr hports.2⟩
      · exact Nat.not_lt.mpr hmessage
      · have := hcookie.mp hmagic
        tauto
    have hopts := parseOptions_enough f.bytes (bootpAt f) (f.len - bootpAt f) f.len noOptions (by omega)
    have hsame : replyAt f.len f = replyAt (f.len - bootpAt f) f := by
      unfold replyAt
      rw [hopts]
    rw [if_pos hreply, DhcpClient.replyIn, hdecode, hsame]
    have hkeep : (fun m : DhcpReply => decide (m.xid = s.gXid)) (replyAt (f.len - bootpAt f) f) = true :=
      decide_eq_true hxid
    rw [Option.filter_some, if_pos hkeep]
  · rw [if_neg hreply, DhcpClient.replyIn]
    cases hdecode : decode f with
    | none => rfl
    | some m =>
      have hxid : m.xid ≠ s.gXid := by
        intro hxid
        apply hreply
        unfold decode at hdecode
        dsimp only at hdecode
        split_ifs at hdecode with h₁ h₂ h₃ h₄ h₅ h₆ h₇
        obtain rfl := Option.some.inj hdecode
        have hmagic := hcookie.mpr (by tauto)
        exact ⟨by omega, by tauto, not_not.mp h₃, not_not.mp h₄, by tauto, Nat.not_lt.mp h₆, hxid, hmagic⟩
      have hdrop : (fun m : DhcpReply => decide (m.xid = s.gXid)) m ≠ true := by simpa using hxid
      rw [Option.filter_some, if_neg hdrop]

end XinuRpi4.Dhcp
