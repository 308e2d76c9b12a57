import XinuRpi4.Foundation.Pieces
import XinuRpi4.Foundation.CallProgram

/-!
# Transfers over the backplane

The memory of the WiFi chip as the driver reaches it, through a window of 32 KB that three
registers move. A command CMD53 moves so many bytes, or so many blocks of 64 bytes, from
an address in the window on. A wait for the controller that fails makes the driver give up.
-/

namespace XinuRpi4.Wifi

open XinuRpi4.Foundation

def sbWsize : ℕ := 0x8000
def sbXfer : ℕ := 2048
def sbAddrlow : ℕ := 0x1000A

/-- The fields of the argument of CMD53. -/
structure Cmd53 where
  write : Bool
  fn : ℕ
  blkmode : Bool
  incr : Bool
  off : ℕ
  count : ℕ
deriving DecidableEq

namespace Cmd53

/-- The address within the window; the bit above it asks for accesses of 32 bits. -/
def place (c : Cmd53) : ℕ := c.off % sbWsize

/-- The bytes that the command moves. -/
def size (c : Cmd53) : ℕ := if c.blkmode then c.count * 64 else c.count

/-- The command stays in the window. -/
def InWindow (c : Cmd53) : Prop := c.place + c.size ≤ sbWsize

instance (c : Cmd53) : Decidable c.InWindow := inferInstanceAs (Decidable (_ ≤ _))

end Cmd53

/-- The chip and its memory, the memory of the host, and the controller between them:
`luck` tells which of its waits succeed. -/
structure Sdio where
  mem : ℕ → UInt8
  /-- The registers of function 1. -/
  regs : ℕ → UInt8
  /-- The command under way, and how many of its bytes have been moved. -/
  cmd : Cmd53
  moved : ℕ
  host : ℕ → UInt8
  luck : ℕ → Bool
  tick : ℕ
  /-- History: the commands CMD53 so far. -/
  sent : List Cmd53

namespace Sdio

variable (m : Sdio)

/-- Where the window is. -/
def window : ℕ :=
  ((m.regs sbAddrlow).toNat * 2 ^ 8 + (m.regs (sbAddrlow + 1)).toNat * 2 ^ 16 +
    (m.regs (sbAddrlow + 2)).toNat * 2 ^ 24) / sbWsize * sbWsize

/-- The address of the next byte of the command under way. -/
def next : ℕ := m.window + m.cmd.place + if m.cmd.incr then m.moved else 0

def left : ℕ := m.cmd.size - m.moved

end Sdio

abbrev SdioM := StateT Sdio Option

/-- A bounded wait for the controller; where it fails the driver returns -1. -/
def wait : SdioM Unit := do
  let m ← get
  set { m with tick := m.tick + 1 }
  if m.luck m.tick then return () else failure

def sdioCmd52 (addr : ℕ) (v : UInt8) : SdioM Unit := do
  wait
  modify fun m => { m with regs := Function.update m.regs addr v }

def sdioSetWindow (addr : ℕ) : SdioM Unit := do
  let v := addr / sbWsize * sbWsize / 2 ^ 8
  sdioCmd52 sbAddrlow (UInt8.ofNat v)
  sdioCmd52 (sbAddrlow + 1) (UInt8.ofNat (v / 2 ^ 8))
  sdioCmd52 (sbAddrlow + 2) (UInt8.ofNat (v / 2 ^ 8 / 2 ^ 8))

/-- A command is sent; none of its bytes has been moved. -/
def issue (c : Cmd53) : SdioM Unit :=
  modify fun m => { m with cmd := c, moved := 0, sent := m.sent ++ [c] }

/-- One word through `EMMC_DATA`; the chip takes and gives no more bytes than the command
says. -/
def Sdio.word (write : Bool) (p : ℕ) (m : Sdio) : Sdio :=
  let n := min 4 m.left
  if write then
    { m with
      mem := fun a => if m.next ≤ a ∧ a < m.next + n then m.host (p + (a - m.next)) else m.mem a
      moved := m.moved + n }
  else
    { m with
      host := fun a => if p ≤ a ∧ a < p + 4 then
        if a - p < n then m.mem (m.next + (a - p)) else 0 else m.host a
      moved := m.moved + n }

def pioWord (write : Bool) (p : ℕ) : SdioM Unit := modify (Sdio.word write p)

/-- `for (w = 0; w < chunk; w++)` -/
def pioWords (write : Bool) : ℕ → ℕ → SdioM Unit
  | 0, _ => return ()
  | n + 1, p => do
    pioWord write p
    pioWords write n (p + 4)

def blockSize (fn : ℕ) : ℕ := if fn = 2 then 512 else 64

/-- The words of one turn, of those that are left. -/
def pioChunk (fn total words : ℕ) : ℕ :=
  if blockSize fn < total ∧ blockSize fn / 4 < words then blockSize fn / 4 else words

theorem pioChunk_pos {fn total words : ℕ} (h : 0 < words) : 0 < pioChunk fn total words := by
  unfold pioChunk blockSize
  split_ifs <;> omega

theorem pioChunk_le (fn total words : ℕ) : pioChunk fn total words ≤ words := by
  unfold pioChunk
  split_ifs <;> omega

/-- `while (done < words)`, with a wait for each block. -/
def pioBlocks (write : Bool) (fn total words p : ℕ) : SdioM Unit :=
  if h : words = 0 then return ()
  else do
    wait
    pioWords write (pioChunk fn total words) p
    pioBlocks write fn total (words - pioChunk fn total words) (p + 4 * pioChunk fn total words)
termination_by words
decreasing_by
  have hpos : 0 < pioChunk fn total words := pioChunk_pos (Nat.pos_of_ne_zero h)
  omega

/-- More than a block goes in blocks, as many as are whole. The driver does not look at how the
wait for the end of the data comes out. -/
def wifiCmd53Pio (write : Bool) (fn off p len : ℕ) (incr : Bool) : SdioM Unit :=
  if len = 0 then return ()
  else do
    let blkmode := decide (blockSize fn < len)
    let blkcnt := if blkmode then len / blockSize fn else len
    let total := if blkmode then blkcnt * blockSize fn else len
    wait
    issue { write := write, fn := fn % 8, blkmode := blkmode, incr := incr, off := off % 2 ^ 17
            count := (if blkmode then blkcnt else total) % 2 ^ 9 }
    wait
    pioBlocks write fn total ((total + 3) / 4) p

/-- What one turn of `wifi_sbmem` moves: no more than 2048 bytes, and not past the window. -/
def sbChunk (len addr : ℕ) : ℕ := min (min len sbXfer) (sbWsize - addr % sbWsize)

theorem sbChunk_pos {len addr : ℕ} (h : len ≠ 0) : 0 < sbChunk len addr := by
  unfold sbChunk sbXfer sbWsize
  omega

/-- `while (len > 0)` -/
def sbmemLoop (write : Bool) (p len addr : ℕ) : SdioM Unit :=
  if h : len = 0 then return ()
  else do
    sdioSetWindow addr
    wifiCmd53Pio write 1 (addr % sbWsize + 0x8000) p ((sbChunk len addr + 3) / 4 * 4) true
    sbmemLoop write (p + sbChunk len addr) (len - sbChunk len addr)
      ((addr + sbChunk len addr) % 2 ^ 32)
termination_by len
decreasing_by
  have hpos : 0 < sbChunk len addr := sbChunk_pos h
  omega

/-- `wifi_sbmem`; a buffer begins at the address `p` of the host. -/
def wifiSbmem (write : Bool) (p : ℕ) (len : ℤ) (addr : ℕ) : SdioM Unit :=
  sbmemLoop write p len.toNat addr

end XinuRpi4.Wifi
