import XinuRpi4.Wifi.UdpFrames

/-!
# Firmware commands

`wifi_wlcmd` sends a request on the control channel and takes the next frame of
that channel for the reply. The bytes of a frame are those of the buffer after it
has been read; where its data begins is said by the frame itself.
-/

namespace XinuRpi4.Wifi

open XinuRpi4.Net

def le16 (b : ℕ → UInt8) (o : ℕ) : UInt16 := (b o).toUInt16 ||| ((b (o + 1)).toUInt16 <<< 8)

def le32 (b : ℕ → UInt8) (o : ℕ) : UInt32 :=
  (b o).toUInt32 ||| ((b (o + 1)).toUInt32 <<< 8) ||| ((b (o + 2)).toUInt32 <<< 16) |||
    ((b (o + 3)).toUInt32 <<< 24)

def le16Bytes (x : UInt16) : List UInt8 := [x.toUInt8, (x >>> 8).toUInt8]

def le32Bytes (x : UInt32) : List UInt8 :=
  [x.toUInt8, (x >>> 8).toUInt8, (x >>> 16).toUInt8, (x >>> 24).toUInt8]

/-- The length of a frame is what its header says. -/
def frameOf (p : ℕ → UInt8) : Frame where
  bytes := p
  len := (le16 p 0).toNat

/-- The frame in a buffer of `cap` bytes, when there is one and its header is in order. -/
def readFrame (cap : ℕ) (p : ℕ → UInt8) : Option Frame :=
  if (frameOf p).len = 0 then none
  else if le16 p 2 ≠ le16 p 0 ^^^ 0xFFFF ∨ (frameOf p).len < 12 ∨ cap < (frameOf p).len then none
  else some (frameOf p)

theorem readFrame_eq {cap : ℕ} {p : ℕ → UInt8} {f : Frame} (h : readFrame cap p = some f) :
    f = frameOf p := by
  unfold readFrame at h
  split_ifs at h
  exact (Option.some.inj h).symm

/-- The status in a reply. -/
def replyStatus (f : Frame) : UInt32 := le32 f.bytes (doff f + 12)

structure WlDriver where
  wlTxseq : UInt8
  wlTxwindow : UInt8
  wlFcmask : UInt8
  wlReqid : UInt16

namespace WlDriver

def boot : WlDriver where
  wlTxseq := 0
  wlTxwindow := 1
  wlFcmask := 0
  wlReqid := 0

variable (d : WlDriver)

/-- The header of a frame tells how many frames the firmware takes. -/
def credit (cap : ℕ) (p : ℕ → UInt8) : WlDriver :=
  if (readFrame cap p).isSome then { d with wlFcmask := p 8, wlTxwindow := p 9 } else d

@[simp] theorem credit_wlTxseq (cap : ℕ) (p : ℕ → UInt8) :
    (d.credit cap p).wlTxseq = d.wlTxseq := by
  unfold credit
  split <;> rfl

@[simp] theorem credit_wlReqid (cap : ℕ) (p : ℕ → UInt8) :
    (d.credit cap p).wlReqid = d.wlReqid := by
  unfold credit
  split <;> rfl

/-- The header of a packet of `len` bytes. -/
def sdpcm (len : ℕ) (chan : UInt8) : List UInt8 :=
  le16Bytes (UInt16.ofNat len) ++ le16Bytes (~~~UInt16.ofNat len) ++
    [d.wlTxseq, chan, 0, 12, 0, 0, 0, 0]

/-- `wifi_data_tx`: an Ethernet frame on the data channel. -/
def dataPacket (eth : List UInt8) : List UInt8 :=
  d.sdpcm (12 + 4 + eth.length) 2 ++ [0x20, 0, 0, 0] ++ eth

@[simp] theorem sdpcm_seq (len : ℕ) (chan : UInt8) (rest : List UInt8) :
    (d.sdpcm len chan ++ rest)[4]? = some d.wlTxseq :=
  rfl

theorem dataPacket_seq (eth : List UInt8) : (d.dataPacket eth)[4]? = some d.wlTxseq := by
  simp [dataPacket, List.append_assoc]

end WlDriver

/-- A command; `serial` counts the commands before it. -/
structure WlCommand where
  serial : ℕ
  write : Bool
  op : UInt32
  data : List UInt8
  rlen : ℕ
deriving DecidableEq

namespace WlCommand

variable (k : WlCommand)

def tlen : ℕ := if k.write then k.data.length + k.rlen else max k.data.length k.rlen

def len : ℕ := 12 + 16 + k.tlen

/-- The request, when the driver has counted it. -/
def request (d : WlDriver) : List UInt8 :=
  d.sdpcm k.len 0 ++ le32Bytes k.op ++ le32Bytes (UInt32.ofNat k.tlen) ++
    [if k.write then 2 else 0, 0] ++ le16Bytes d.wlReqid ++ [0, 0, 0, 0] ++
    k.data ++ List.replicate (k.tlen - k.data.length) 0

theorem request_seq (d : WlDriver) : (k.request d)[4]? = some d.wlTxseq := by
  simp [request, List.append_assoc]

/-- Where in a frame the bytes are that are copied to `res`. -/
def offsets (f : Frame) : List ℕ :=
  if k.write then [] else (List.range k.rlen).map (doff f + 16 + ·)

end WlCommand

structure WlCall where
  command : WlCommand
  tries : ℕ

/-- A turn goes on, or the call returns with what it has copied or in failure. -/
inductive WlTurn
  | more (c : WlCall)
  | returned (res : Option (List UInt8))

namespace WlCall

variable (c : WlCall)

def next : WlTurn :=
  if c.tries + 1 < 400 then .more { c with tries := c.tries + 1 } else .returned none

/-- A turn in which the header of a frame is read, and the rest of it if that goes well. -/
def read (p : ℕ → UInt8) (bodyRead : Bool) : WlTurn :=
  match readFrame 2048 p with
  | none => c.next
  | some f =>
    if 12 < f.len ∧ bodyRead = false then .returned none
    else if chan f ≠ 0 then c.next
    else if replyStatus f ≠ 0 then .returned none
    else .returned (some ((c.command.offsets f).map f.bytes))

variable {c}

theorem next_command {c' : WlCall} (h : c.next = .more c') : c'.command = c.command := by
  unfold next at h
  split_ifs at h
  cases h
  rfl

theorem next_returned {res : Option (List UInt8)} (h : c.next = .returned res) : res = none := by
  unfold next at h
  split_ifs at h
  cases h
  rfl

/-- What can come of a frame: the call goes on or fails, or the frame is of the
control channel with status 0. -/
theorem read_cases (p : ℕ → UInt8) (bodyRead : Bool) :
    c.read p bodyRead = c.next ∨ c.read p bodyRead = .returned none ∨
      chan (frameOf p) = 0 ∧ replyStatus (frameOf p) = 0 ∧
        c.read p bodyRead = .returned (some ((c.command.offsets (frameOf p)).map p)) := by
  cases hf : readFrame 2048 p with
  | none =>
    left
    simp only [read, hf]
  | some f =>
    cases readFrame_eq hf
    by_cases hbody : 12 < (frameOf p).len ∧ bodyRead = false
    · right
      left
      simp only [read, hf, if_pos hbody]
    by_cases hchan : chan (frameOf p) = 0
    · right
      by_cases hstatus : replyStatus (frameOf p) = 0
      · right
        refine ⟨hchan, hstatus, ?_⟩
        simp only [read, hf, if_neg hbody, hchan, hstatus, ne_eq, not_true_eq_false, if_false]
        rfl
      · left
        simp only [read, hf, if_neg hbody, hchan, ne_eq, not_true_eq_false, if_false, hstatus,
          not_false_eq_true, if_true]
    · left
      simp only [read, hf, if_neg hbody, ne_eq, hchan, not_false_eq_true, if_true]

end WlCall

/-- A reply with status 0 and no data. -/
def successPacket (o : ℕ) : UInt8 := [28, 0, 0xE3, 0xFF, 0, 0, 0, 12].getD o 0

theorem read_successPacket (c : WlCall) :
    c.read successPacket true =
      .returned (some ((c.command.offsets (frameOf successPacket)).map successPacket)) := by
  have hread : readFrame 2048 successPacket = some (frameOf successPacket) := by
    rw [readFrame, if_neg (by decide), if_neg (by decide)]
  have hchan : chan (frameOf successPacket) = 0 := by decide
  have hstatus : replyStatus (frameOf successPacket) = 0 := by decide
  simp only [WlCall.read, hread, hchan, hstatus]
  rfl

end XinuRpi4.Wifi
