import XinuRpi4.Memory.HeapBytes

/-!
# `mem/kmalloc.c`

`kmalloc` puts a header of 32 bytes in front of the memory it hands out: the size
that `getmem` was asked for, and a magic word that `kfree` checks and clears. Both
run over the bytes of the heap, which the clients write too.
-/

namespace XinuRpi4.Memory

open Foundation MemoryProgram

/-- `KMALLOC_MAGIC`. -/
abbrev kmallocMagic : ℕ := 0xC0FFEE5050D15EA5

/-- `KM_HEADER_BYTES`. -/
abbrev kmHeaderBytes : ℕ := 32

/-- Fill in a `struct km_header`: `size`, `magic`, `reserved0` and `reserved1`. -/
def ByteHeap.setKmHeader (h : ByteHeap) (a total : ℕ) : ByteHeap :=
  let mem := storeWord h.mem 8 a total
  let mem := storeWord mem 8 (a + 8) kmallocMagic
  let mem := storeWord mem 8 (a + 16) 0
  { h with mem := storeWord mem 8 (a + 24) 0 }

/-- A block that a client holds: the address of its header and the size the client
asked for. -/
structure KmBlk where
  addr : ℕ
  size : ℕ
  deriving DecidableEq

/-- What `getmem` was asked for. -/
def KmBlk.block (b : KmBlk) : LiveBlk := ⟨b.addr, b.size + kmHeaderBytes⟩

/-- The magic word in front of a user pointer. -/
def magicAddr (ptr : ℕ) : ℕ := uadd (usub ptr kmHeaderBytes) 8

/-- The magic word of the pointer lies in the block. -/
def HandedOut (b : MemBlk) (ptr : ℕ) : Prop := ¬ (magicAddr ptr + 8 ≤ b.addr ∨ b.stop ≤ magicAddr ptr)

instance (b : MemBlk) (ptr : ℕ) : Decidable (HandedOut b ptr) := inferInstanceAs (Decidable (¬ _))

structure KmState where
  bounds : HeapBounds
  heap : ByteHeap
  /-- `g_live_blocks` -/
  liveBlocks : ℕ
  /-- `g_live_bytes` -/
  liveBytes : ℕ
  /-- `g_total_allocs` -/
  totalAllocs : ℕ
  /-- `g_total_frees` -/
  totalFrees : ℕ
  /-- `g_bad_frees` -/
  badFrees : ℕ
  /-- ghost: the blocks allocated and not yet freed -/
  live : List KmBlk
  /-- ghost: the pointers freed since, until their magic word is handed out again -/
  freed : List ℕ

namespace KmState

/-- `kmalloc`; the answer `0` is the null pointer. -/
def kmalloc (s : KmState) (nbytes : ℕ) : Option (ℕ × KmState) :=
  if nbytes = 0 then some (0, s)
  else
    let total := uadd nbytes kmHeaderBytes
    match (getmem total).run byteStore s.heap with
    | (none, _) => none
    | (some h, heap) =>
      if h = 0 then some (0, { s with heap })
      else
        some (uadd h kmHeaderBytes,
          { s with
            heap := heap.setKmHeader h total
            liveBlocks := uadd s.liveBlocks 1
            liveBytes := uadd s.liveBytes total
            totalAllocs := uadd s.totalAllocs 1
            live := ⟨h, nbytes⟩ :: s.live
            freed := s.freed.filter fun ptr => ¬ HandedOut ⟨h, roundmb total⟩ ptr })

/-- `kfree`. -/
def kfree (s : KmState) (ptr : ℕ) : Option KmState :=
  if ptr = 0 then some s
  else
    let h := usub ptr kmHeaderBytes
    if loadWord s.heap.mem 8 (uadd h 8) ≠ kmallocMagic then
      some { s with badFrees := uadd s.badFrees 1 }
    else
      let total := loadWord s.heap.mem 8 h
      let heap := { s.heap with mem := storeWord s.heap.mem 8 (uadd h 8) 0 }
      match (freemem s.bounds h total).run byteStore heap with
      | (none, _) => none
      | (some _, heap) =>
        some { s with
          heap
          liveBlocks := if s.liveBlocks ≠ 0 then usub s.liveBlocks 1 else s.liveBlocks
          liveBytes := if total ≤ s.liveBytes then usub s.liveBytes total else s.liveBytes
          totalFrees := uadd s.totalFrees 1
          live := s.live.eraseP fun b => b.addr = h
          freed := ptr :: s.freed }

end KmState

/-- Calls on the heap, and a client's write of one byte. -/
inductive KmOp
  | kmalloc (nbytes : ℕ)
  | kfree (ptr : ℕ)
  | write (x : ℕ) (v : UInt8)
  deriving DecidableEq

namespace KmState

def init (h : ByteHeap) (lo hi : ℕ) : KmState where
  bounds := memInitBounds lo hi
  heap := ((memInit (memInitBounds lo hi)).run byteStore h).2
  liveBlocks := 0
  liveBytes := 0
  totalAllocs := 0
  totalFrees := 0
  badFrees := 0
  live := []
  freed := []

def step (s : KmState) : KmOp → Option KmState
  | .kmalloc n => (s.kmalloc n).map Prod.snd
  | .kfree ptr => s.kfree ptr
  | .write x v => some { s with heap.mem := Function.update s.heap.mem x v }

/-- The pointer that `kmalloc` returned for a block. -/
def Holds (s : KmState) (ptr : ℕ) : Prop := ∃ b ∈ s.live, ptr = b.addr + kmHeaderBytes

instance (s : KmState) (ptr : ℕ) : Decidable (s.Holds ptr) :=
  inferInstanceAs (Decidable (∃ b ∈ s.live, ptr = b.addr + kmHeaderBytes))

/-- Clients free what they hold, once or more, and write to the ranges they hold. -/
def WellBehaved (s : KmState) : KmOp → Prop
  | .kmalloc _ => True
  | .kfree ptr => ptr = 0 ∨ s.Holds ptr ∨ ptr ∈ s.freed
  | .write x _ => ∃ b ∈ s.live, b.addr + kmHeaderBytes ≤ x ∧ x < b.addr + kmHeaderBytes + b.size

instance (s : KmState) : ∀ op, Decidable (s.WellBehaved op)
  | .kmalloc _ => inferInstanceAs (Decidable True)
  | .kfree ptr => inferInstanceAs (Decidable (ptr = 0 ∨ s.Holds ptr ∨ ptr ∈ s.freed))
  | .write x _ =>
    inferInstanceAs (Decidable
      (∃ b ∈ s.live, b.addr + kmHeaderBytes ≤ x ∧ x < b.addr + kmHeaderBytes + b.size))

/-- The counters tell how many blocks are live and how large they are, and a second
`kfree` only counts. -/
structure Accounted (s : KmState) : Prop where
  live_blocks : s.liveBlocks = s.live.length
  live_bytes : s.liveBytes = (s.live.map fun b => b.size + kmHeaderBytes).sum
  frees : usub s.totalAllocs s.totalFrees = s.liveBlocks
  rejects : ∀ ptr ∈ s.freed, s.kfree ptr = some { s with badFrees := uadd s.badFrees 1 }

end KmState

end XinuRpi4.Memory
