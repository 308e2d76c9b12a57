import XinuRpi4.Foundation.TableWalk

/-!
# The tables of `mmu_init`

The gigabyte with the kernel is mapped by 2 MiB blocks; the block with `_start` in it is
mapped by pages, with the permissions of the sections. Every other gigabyte is device
memory, and `vm_demand_init` puts the demand window in the third one.
-/

namespace XinuRpi4.System

open Foundation

def oneGb : ℕ := 2 ^ 30
def twoMb : ℕ := 2 ^ 21
def page : ℕ := 2 ^ 12
def dBlock : BitVec 64 := 0x1
def dTable : BitVec 64 := 0x3
def dPage : BitVec 64 := 0x3
def dAf : BitVec 64 := 1#64 <<< 10
def dShInner : BitVec 64 := 3#64 <<< 8
def dShNone : BitVec 64 := 0#64 <<< 8
def dApRo : BitVec 64 := 2#64 <<< 6
def dApRw : BitVec 64 := 0#64 <<< 6
def dPxn : BitVec 64 := 1#64 <<< 53
def dUxn : BitVec 64 := 1#64 <<< 54
def attridx (n : BitVec 64) : BitVec 64 := n <<< 2
def attrDevice : BitVec 64 := 0
def attrNormal : BitVec 64 := 1

/-- `normal_attr`. -/
def normalAttr (ro xn : Bool) : BitVec 64 :=
  let a := attridx attrNormal ||| dShInner ||| dAf ||| dUxn
  let a := a ||| if ro then dApRo else dApRw
  if xn then a ||| dPxn else a

/-- What the linker decides: the section symbols, with `HEAP_END`, and where the static
tables are. -/
structure Layout where
  start : ℕ
  etext : ℕ
  data : ℕ
  end_ : ℕ
  heapEnd : ℕ
  l1Table : ℕ
  l2Table : ℕ
  l3Table : ℕ
  l2Vmd : ℕ
  l3Vmd : ℕ
  start_le_etext : start ≤ etext
  etext_le_data : etext ≤ data
  data_le_end : data ≤ end_
  start_page : start % page = 0
  etext_page : etext % page = 0
  data_page : data % page = 0
  /-- the image is inside its gigabyte -/
  image : end_ ≤ start / oneGb * oneGb + oneGb
  /-- there is RAM, and the image is in it -/
  ram : start / oneGb * oneGb < heapEnd
  end_le_heapEnd : end_ ≤ heapEnd
  tables_distinct : [l1Table, l2Table, l3Table, l2Vmd, l3Vmd, l3Vmd + page].Nodup
  tables_page : ∀ t ∈ [l1Table, l2Table, l3Table, l2Vmd, l3Vmd, l3Vmd + page],
    t % page = 0 ∧ t < 2 ^ 48

namespace Layout

variable (L : Layout)

/-- `_start & ~(ONE_GB - 1)`. -/
def ramBase : ℕ := L.start / oneGb * oneGb

/-- `_start & ~(TWO_MB - 1)`. -/
def kern2mb : ℕ := L.start / twoMb * twoMb

/-- `_end`, rounded up to a page. -/
def heapStrt : ℕ := (L.end_ + page - 1) / page * page

/-- The attributes of a page of the kernel's block. -/
def pageAttr (pa : ℕ) : BitVec 64 :=
  if pa < L.start then normalAttr false true
  else if pa < L.etext then normalAttr true false
  else if pa < L.data then normalAttr true true
  else if pa < L.heapStrt then normalAttr false true
  else normalAttr false false

def l3Entry (p : ℕ) : BitVec 64 :=
  let pa := L.kern2mb + p * page
  BitVec.ofNat 64 pa ||| L.pageAttr pa ||| dPage

def l2Entry (r : ℕ) : BitVec 64 :=
  let pa := L.ramBase + r * twoMb
  if pa = L.kern2mb then BitVec.ofNat 64 L.l3Table ||| dTable
  else if L.ramBase ≤ pa ∧ pa < L.heapEnd then
    BitVec.ofNat 64 pa ||| normalAttr false false ||| dBlock
  else 0

def l1Entry (i : ℕ) : BitVec 64 :=
  let addr := i * oneGb
  if addr = L.ramBase then BitVec.ofNat 64 L.l2Table ||| dTable
  else
    BitVec.ofNat 64 addr ||| attridx attrDevice ||| dShNone ||| dAf ||| dPxn ||| dUxn ||| dBlock

/-- `vm_demand_init`. -/
def vmDemandInit (mem : TableMemory) : TableMemory :=
  let mem := writeTable mem L.l3Vmd fun _ => 0
  let mem := writeTable mem (L.l3Vmd + page) fun _ => 0
  let mem := writeTable mem L.l2Vmd fun i =>
    if i < 2 then BitVec.ofNat 64 (L.l3Vmd + i * page) ||| dTable else 0
  writeTable mem L.l1Table
    (Function.update (mem L.l1Table) 2 (BitVec.ofNat 64 L.l2Vmd ||| dTable))

/-- `mmu_init`, with what was in memory before. -/
def mmuInit (mem : TableMemory) : TableMemory :=
  let mem := writeTable mem L.l3Table L.l3Entry
  let mem := writeTable mem L.l2Table L.l2Entry
  let mem := writeTable mem L.l1Table L.l1Entry
  L.vmDemandInit mem

/-- The translation behind `mmu_init`. -/
def translate (mem : TableMemory) (va : ℕ) : Option Mapping :=
  tableWalk (L.mmuInit mem) L.l1Table va

/-- What the header promises for an address of the RAM. -/
def WxAt (mem : TableMemory) (va : ℕ) : Prop :=
  ∃ t, L.translate mem va = some t ∧ t.pa = va ∧
    (L.start ≤ va → va < L.etext → t.writable = false ∧ t.executable = true) ∧
    (L.etext ≤ va → va < L.data → t.writable = false ∧ t.executable = false) ∧
    (L.data ≤ va → va < L.end_ → t.writable = true ∧ t.executable = false) ∧
    (t.writable = true → t.executable = true → L.end_ ≤ va)

/-- The law for the RAM of the gigabyte with the kernel. -/
def Wx (mem : TableMemory) : Prop :=
  ∀ va, L.ramBase ≤ va → va < L.ramBase + oneGb → va < L.heapEnd → L.WxAt mem va

end Layout

end XinuRpi4.System
