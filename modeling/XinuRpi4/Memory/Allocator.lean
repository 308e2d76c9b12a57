import XinuRpi4.Foundation.MemoryProgram

/-!
# The first-fit allocator of `mem/memory.c`

`mem_init`, `getmem` and `freemem` as programs that load and store the two
fields of `struct memblk`. A pointer to a header is either `&memlist_head` or
the address of a block in the heap; `0` is the null pointer. Sizes and
addresses are `unsigned long`, so every addition and subtraction is taken
modulo `2 ^ 64`.

The `while` loops carry fuel. There are fewer than `2 ^ 64` non-null header
addresses, so a walk that is still running after `2 ^ 64` steps has met some
header twice and never ends; `none` stands for a call that does not return.
-/

namespace XinuRpi4.Memory

open Foundation

/-- Number of values of an `unsigned long`. -/
abbrev ulongSize : ℕ := 2 ^ 64

/-- `a + b` on `unsigned long`. -/
def uadd (a b : ℕ) : ℕ := (a + b) % ulongSize

/-- `a - b` on `unsigned long`. -/
def usub (a b : ℕ) : ℕ := (a + (ulongSize - b)) % ulongSize

/-- `ROUNDMB(x)`: up to the next multiple of the 8-byte granularity. -/
def roundmb (x : ℕ) : ℕ := uadd x 7 / 8 * 8

/-- `TRUNCMB(x)`. -/
def truncmb (x : ℕ) : ℕ := x / 8 * 8

/-- The two fields of `struct memblk`. -/
inductive Field
  | mnext
  | mlength
  deriving DecidableEq

/-- A `struct memblk *` that the allocator dereferences. -/
inductive Header
  | memlistHead
  | blk (addr : ℕ)
  deriving DecidableEq

abbrev Loc := Header × Field

abbrev Prog (α : Type) := MemoryProgram Loc ℕ α

open MemoryProgram in
/-- `h->mnext`. -/
def mnext (h : Header) : Prog ℕ := fetch (h, .mnext)

open MemoryProgram in
/-- `h->mlength`. -/
def mlength (h : Header) : Prog ℕ := fetch (h, .mlength)

open MemoryProgram in
/-- `h->mnext = v`. -/
def setMnext (h : Header) (v : ℕ) : Prog Unit := put (h, .mnext) v

open MemoryProgram in
/-- `h->mlength = v`. -/
def setMlength (h : Header) (v : ℕ) : Prog Unit := put (h, .mlength) v

/-- `heap_lo`, `heap_hi` and `heap_total`; only `mem_init` writes them. -/
structure HeapBounds where
  heapLo : ℕ
  heapHi : ℕ
  heapTotal : ℕ
  deriving DecidableEq

/-- The values `mem_init` stores in the three bounds. -/
def memInitBounds (heapStart heapEnd : ℕ) : HeapBounds where
  heapLo := roundmb heapStart
  heapHi := truncmb heapEnd
  heapTotal := usub (truncmb heapEnd) (roundmb heapStart)

/-- The header writes of `mem_init`. -/
def memInit (g : HeapBounds) : Prog Unit := do
  let blk := g.heapLo
  setMnext (.blk blk) 0
  setMlength (.blk blk) g.heapTotal
  setMnext .memlistHead blk
  setMlength .memlistHead g.heapTotal

/-- The search loop of `getmem`, for a request that is already rounded. -/
def getmemLoop (nbytes : ℕ) : ℕ → Header → ℕ → Prog (Option ℕ)
  | 0, _, _ => return none
  | fuel + 1, prev, curr =>
    if curr = 0 then return some 0
    else do
      let length ← mlength (.blk curr)
      if length = nbytes then
        -- exact fit: unlink the whole block
        let next ← mnext (.blk curr)
        setMnext prev next
        let free ← mlength .memlistHead
        setMlength .memlistHead (usub free nbytes)
        return some curr
      let length ← mlength (.blk curr)
      if nbytes < length then
        -- split: keep the tail as a new free block
        let leftover := uadd curr nbytes
        let next ← mnext (.blk curr)
        setMnext (.blk leftover) next
        let length ← mlength (.blk curr)
        setMlength (.blk leftover) (usub length nbytes)
        setMnext prev leftover
        let free ← mlength .memlistHead
        setMlength .memlistHead (usub free nbytes)
        return some curr
      let next ← mnext (.blk curr)
      getmemLoop nbytes fuel (.blk curr) next

/-- `getmem`; the answer `0` is the null pointer. -/
def getmem (nbytes : ℕ) : Prog (Option ℕ) :=
  if nbytes = 0 then return some 0
  else do
    let curr ← mnext .memlistHead
    getmemLoop (roundmb nbytes) ulongSize .memlistHead curr

/-- The walk of `freemem` to the insertion point: `prev < start ≤ curr`. -/
def freememWalk (start : ℕ) : ℕ → Header → ℕ → Prog (Option (Header × ℕ))
  | 0, _, _ => return none
  | fuel + 1, prev, curr =>
    if curr ≠ 0 ∧ curr < start then do
      let next ← mnext (.blk curr)
      freememWalk start fuel (.blk curr) next
    else return some (prev, curr)

/-- `prev_end` of `freemem`. -/
def freememPrevEnd : Header → Prog ℕ
  | .memlistHead => return 0
  | .blk prev => do
    let length ← mlength (.blk prev)
    return uadd prev length

/-- Coalesce `newblk` with its successor when adjacent, and count the bytes. -/
def freememMerge (nbytes newblk curr : ℕ) : Prog Unit := do
  if curr ≠ 0 then
    let length ← mlength (.blk newblk)
    if uadd newblk length = curr then
      let length ← mlength (.blk newblk)
      let taken ← mlength (.blk curr)
      setMlength (.blk newblk) (uadd length taken)
      let next ← mnext (.blk curr)
      setMnext (.blk newblk) next
  let free ← mlength .memlistHead
  setMlength .memlistHead (uadd free nbytes)

/-- The part of `freemem` behind its overlap checks. -/
def freememLink (start nbytes : ℕ) (prev : Header) (prevEnd curr : ℕ) : Prog Unit :=
  let insert : Prog Unit := do
    setMnext (.blk start) curr
    setMlength (.blk start) nbytes
    setMnext prev start
    freememMerge nbytes start curr
  match prev with
  | .memlistHead => insert
  | .blk p =>
    if prevEnd = start then do
      -- coalesce with the predecessor
      let length ← mlength (.blk p)
      setMlength (.blk p) (uadd length nbytes)
      freememMerge nbytes p curr
    else insert

/-- `freemem`; `0` on success, `-1` on a rejected block. -/
def freemem (g : HeapBounds) (blk nbytes : ℕ) : Prog (Option ℤ) :=
  if blk = 0 ∨ nbytes = 0 then return some (-1)
  else
    let nbytes := roundmb nbytes
    let start := blk
    let stop := uadd start nbytes
    if start < g.heapLo ∨ g.heapHi < stop then return some (-1)
    else do
      let first ← mnext .memlistHead
      match ← freememWalk start ulongSize .memlistHead first with
      | none => return none
      | some (prev, curr) => do
        let prevEnd ← freememPrevEnd prev
        if start < prevEnd then return some (-1)
        else if curr ≠ 0 ∧ curr < stop then return some (-1)
        else do
          freememLink start nbytes prev prevEnd curr
          return some 0

end XinuRpi4.Memory
