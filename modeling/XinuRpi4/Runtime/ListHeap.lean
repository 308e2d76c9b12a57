import XinuRpi4.Foundation.CallProgram
import XinuRpi4.Runtime.Values

/-!
# The list heap of `cc/cc.c`

A list is a tagged pointer to a block `[len][item 0]…[item (len-1)]` in the array
`g_lheap`. Blocks are taken from the front of the unused part. `none` stands for an
access outside the array. Compiled code reaches the array only through the operations
below, so it is a program that calls them; so are `v_list_map` and `v_list_filter`,
which call back into compiled code.
-/

namespace XinuRpi4.Runtime

open Foundation

/-- Number of cells of `g_lheap`. -/
abbrev lheapCells : ℕ := 32768

/-- Where the linker puts `g_lheap`. -/
structure ListArea where
  base : ℕ
  base_pos : 0 < base
  aligned : 8 ∣ base
  low : base + 8 * lheapCells < 2 ^ 48

structure ListHeap where
  /-- `g_lheap` -/
  cells : ℕ → Word
  /-- `g_lheaplen` -/
  len : ℤ
  /-- `g_lheap_overflows` -/
  overflows : ℤ

namespace ListHeap

variable (A : ListArea) (h : ListHeap)

/-- The cell of `g_lheap` that `p[i]` is. -/
def cellOf (p : Word) (i : ℤ) : Option ℕ :=
  let off := (p.toNat : ℤ) + 8 * i - A.base
  if 0 ≤ off ∧ off < 8 * lheapCells ∧ 8 ∣ off then some (off / 8).toNat else none

/-- `p[i]`. -/
def load (p : Word) (i : ℤ) : Option Word := (cellOf A p i).map h.cells

/-- `p[i] = v`. -/
def store (p : Word) (i : ℤ) (v : Word) : Option ListHeap :=
  (cellOf A p i).map fun c => { h with cells := Function.update h.cells c v }

/-- The check of `lheap_alloc`. -/
def Fails (ncells : ℤ) : Prop := ncells < 0 ∨ lheapCells < int32 (h.len + ncells)

instance (ncells : ℤ) : Decidable (h.Fails ncells) := inferInstanceAs (Decidable (_ ∨ _))

/-- `lheap_alloc`; the answer `0` is the null pointer. -/
def lheapAlloc (ncells : ℤ) : Word × ListHeap :=
  if h.Fails ncells then (0, { h with overflows := int32 (h.overflows + 1) })
  else (BitVec.ofInt 64 (A.base + 8 * h.len), { h with len := int32 (h.len + ncells) })

/-- `v_list_new`. -/
def vListNew : Option (Word × ListHeap) :=
  let (b, h) := h.lheapAlloc A 1
  if b = 0 then some (vInt 0, h)
  else do
    let h ← h.store A b 0 0
    return (b ||| vListTag, h)

/-- `for (i = …; i < n; i++) b[1 + i] = src[1 + i]`. -/
def copyLoop (src b : Word) (h : ListHeap) : ℕ → ℤ → Option ListHeap
  | 0, _ => some h
  | k + 1, i => do
    let v ← h.load A src (1 + i)
    let h ← h.store A b (1 + i) v
    copyLoop src b h k (i + 1)

/-- `src ? src[0] : 0`. -/
def srcLength (src : Word) : Option Word := if src ≠ 0 then h.load A src 0 else some 0

/-- `v_list_push`. -/
def vListPush (w x : Word) : Option (Word × ListHeap) := do
  let src := if vIsList w then vListPtr w else 0
  let n ← h.srcLength A src
  let (b, h) := h.lheapAlloc A (int32 (n + 2).toInt)
  if b = 0 then return (w, h)
  else
    let h ← h.store A b 0 (n + 1)
    let h ← copyLoop A src b h n.toInt.toNat 0
    let h ← h.store A b (1 + n.toInt) x
    return (b ||| vListTag, h)

/-- `v_list_set`. -/
def vListSet (w iv x : Word) : Option (Word × ListHeap) :=
  if ¬ vIsList w then some (w, h)
  else do
    let src := vListPtr w
    let n ← h.load A src 0
    let i := vIntOf iv
    if i.toInt < 0 ∨ n.toInt ≤ i.toInt then return (w, h)
    else
      let (b, h) := h.lheapAlloc A (int32 (n + 1).toInt)
      if b = 0 then return (w, h)
      else
        let h ← h.store A b 0 n
        let h ← copyLoop A src b h n.toInt.toNat 0
        let h ← h.store A b (1 + i.toInt) x
        return (b ||| vListTag, h)

/-- `for (k = …; k < n; k++) b[1 + k] = v_int(0)`. -/
def zeroLoop (b : Word) (h : ListHeap) : ℕ → ℤ → Option ListHeap
  | 0, _ => some h
  | k + 1, i => do
    let h ← h.store A b (1 + i) (vInt 0)
    zeroLoop b h k (i + 1)

/-- The length that `v_list_zeros` is asked for. -/
def zerosLength (nv : Word) : Word := if (vIntOf nv).toInt < 0 then 0 else vIntOf nv

/-- `v_list_zeros`. -/
def vListZeros (nv : Word) : Option (Word × ListHeap) :=
  let n := zerosLength nv
  let (b, h) := h.lheapAlloc A (int32 (n + 1).toInt)
  if b = 0 then some (vInt 0, h)
  else do
    let h ← h.store A b 0 n
    let h ← zeroLoop A b h n.toInt.toNat 0
    return (b ||| vListTag, h)

/-- `v_list_len`. -/
def vListLen (w : Word) : Option Word :=
  if vIsList w then (h.load A (vListPtr w) 0).map vInt else some (vInt 0)

/-- `v_list_get`. -/
def vListGet (w iv : Word) : Option Word :=
  if ¬ vIsList w then some (vInt 0)
  else do
    let b := vListPtr w
    let n ← h.load A b 0
    let i := vIntOf iv
    if 0 ≤ i.toInt ∧ i.toInt < n.toInt then h.load A b (1 + i.toInt) else some (vInt 0)

/-- After `lheap_reset`. -/
def reset (h : ListHeap) : ListHeap := { h with len := 0, overflows := 0 }

end ListHeap

/-- What compiled code and the functions of the runtime do to the list heap. -/
inductive ListOp
  | new
  | push (w x : Word)
  | set (w iv x : Word)
  | zeros (nv : Word)
  /-- the read `v_list_ptr(w)[i]` -/
  | cell (w : Word) (i : ℤ)

def ListHeap.exec (A : ListArea) (h : ListHeap) : ListOp → Option (Word × ListHeap)
  | .new => h.vListNew A
  | .push w x => h.vListPush A w x
  | .set w iv x => h.vListSet A w iv x
  | .zeros nv => h.vListZeros A nv
  | .cell w i => (h.load A (vListPtr w) i).map fun v => (v, h)

/-- Code that uses lists. -/
abbrev ListProg (α : Type) := CallProgram ListOp Word α

namespace ListProg

open CallProgram

/-- The function that `cc_set_apply` registers. -/
abbrev Apply := Word → Word → ListProg Word

/-- The loop of `v_list_map`, `k` elements before its end. -/
def mapLoop (apply : Apply) (w id : Word) : ℕ → ℤ → Word → ListProg Word
  | 0, _, out => return out
  | k + 1, i, out => do
    let e ← op (.cell w (1 + i))
    let y ← apply id e
    let out ← op (.push out y)
    mapLoop apply w id k (i + 1) out

/-- `v_list_map`. -/
def vListMap (gApply : Option Apply) (w idv : Word) : ListProg Word :=
  match vIsList w, gApply with
  | true, some apply => do
    let n ← op (.cell w 0)
    let out ← op .new
    mapLoop apply w (vIntOf idv) n.toInt.toNat 0 out
  | _, _ => op .new

/-- `v_truthy`; `other` tells it for boxed floats and for strings, which lie elsewhere. -/
def vTruthy (other : Word → Bool) (w : Word) : ListProg Bool :=
  if w = 0 then return false
  else if vIsInt w then return decide (w.sshiftRight 1 ≠ 0)
  else if vIsFloat w then return other w
  else if vIsList w then do
    let n ← op (.cell w 0)
    return decide (n ≠ 0)
  else return other w

/-- The loop of `v_list_filter`, `k` elements before its end. -/
def filterLoop (apply : Apply) (other : Word → Bool) (w id : Word) : ℕ → ℤ → Word → ListProg Word
  | 0, _, out => return out
  | k + 1, i, out => do
    let e ← op (.cell w (1 + i))
    let y ← apply id e
    if ← vTruthy other y then
      let out ← op (.push out e)
      filterLoop apply other w id k (i + 1) out
    else filterLoop apply other w id k (i + 1) out

/-- `v_list_filter`. -/
def vListFilter (gApply : Option Apply) (other : Word → Bool) (w idv : Word) : ListProg Word :=
  match vIsList w, gApply with
  | true, some apply => do
    let n ← op (.cell w 0)
    let out ← op .new
    filterLoop apply other w (vIntOf idv) n.toInt.toNat 0 out
  | _, _ => op .new

end ListProg

end XinuRpi4.Runtime
