import XinuRpi4.Process.Stacks

/-!
# The first frame of a process

`proc_create_arg` leaves the frame that the first switch pops at the top of the new
stack, and promises a stack pointer that is a multiple of 16. The frame always lies
in its stack. Its address is the end of the stack less 160, and the heap rounds to 8:
the block that serves the request decides. Which block that is depends on every
earlier call, so the heap is the one in bytes here, where a request that leaves no
room for a header ruins the free list.
-/

namespace XinuRpi4.Process

open Foundation Memory MemoryProgram

/-- The process table of a kernel, over the bytes of the heap. The header cells of `kernel` play
no part. -/
structure ByteKernel where
  kernel : Kernel
  heap : ByteHeap

namespace ByteKernel

/-- The state behind `mem_init(lo, hi)` and `proc_init`, whatever the memory held before. -/
def boot (h : ByteHeap) (lo hi : ℕ) : ByteKernel where
  kernel := (Kernel.boot lo hi).procInit
  heap := ((memInit (memInitBounds lo hi)).run byteStore h).2

/-- `getmem` on the heap of the kernel. -/
def getmem (s : ByteKernel) (nbytes : ℕ) : Option (ℕ × ByteKernel) :=
  match (Memory.getmem nbytes).run byteStore s.heap with
  | (none, _) => none
  | (some p, heap) => some (p, { s with heap })

/-- `freemem` on the heap of the kernel; every caller here ignores the result. -/
def freemem (s : ByteKernel) (blk nbytes : ℕ) : Option ByteKernel :=
  match (Memory.freemem s.kernel.bounds blk nbytes).run byteStore s.heap with
  | (none, _) => none
  | (some _, heap) => some { s with heap }

/-- `if (p->stkbase) freemem(p->stkbase, p->stklen)`. -/
def freeStack (s : ByteKernel) (p : Slot) : Option ByteKernel :=
  if (s.kernel.proctab p).stkbase = 0 then some s
  else s.freemem (s.kernel.proctab p).stkbase (s.kernel.proctab p).stklen

/-- The deferred release of a stack whose process left by `proc_exit`. -/
def reapStack (s : ByteKernel) (p : Slot) : Option ByteKernel :=
  if (s.kernel.proctab p).stkbase = 0 then some s
  else (s.freeStack p).map fun s =>
    { s with kernel := s.kernel.modify p fun e => { e with stkbase := 0, stklen := 0 } }

/-- `proc_create_arg`; the pid, or `-1`. -/
def procCreateArg (s : ByteKernel) (entry : ProcEntry) (stksize : ℕ) (name : List Char) (arg : ℤ) :
    Option (ℤ × ByteKernel) :=
  match s.kernel.allocSlot with
  | none => some (-1, s)
  | some pid => do
    let s ← s.reapStack pid
    let (stk, s) ← s.getmem (Kernel.stackSize stksize)
    if stk = 0 then return (-1, s)
    else
      let k := s.kernel.install pid stk (Kernel.stackSize stksize) entry name arg
      return (pid.val, { s with kernel := k.readyPush pid })

/-- `proc_kill`. -/
def procKill (s : ByteKernel) (pid : ℤ) : Option ByteKernel :=
  match Kernel.slotOf pid with
  | none => some s
  | some p =>
    if p = s.kernel.currpid ∨ s.kernel.state p = .free then some s
    else do
      let k ← s.kernel.readyRemove p
      let s ← freeStack { s with kernel := k.dropLockOf pid } p
      return { s with kernel := s.kernel.vacate p }

/-- Calls of the kernel, and heap calls of anyone for any size and any range. -/
def step (s : ByteKernel) : StackOp → Option ByteKernel
  | .createArg entry stksize name arg => (s.procCreateArg entry stksize name arg).map Prod.snd
  | .kill pid => s.procKill pid
  | .exit => s.kernel.procExit.map fun k => { s with kernel := k }
  | .block => some { s with kernel := s.kernel.procBlock }
  | .ready pid => some { s with kernel := s.kernel.procReady pid }
  | .resched => some { s with kernel := s.kernel.procResched }
  | .preempt => some { s with kernel := s.kernel.procPreempt }
  | .getmem n => (s.getmem n).map Prod.snd
  | .freemem b => s.freemem b.addr b.nbytes

/-- The free list that a new stack is cut from, once the slot's old stack is back. -/
def stackList (s : ByteKernel) : Option (List MemBlk) :=
  s.kernel.allocSlot.bind fun pid => (s.reapStack pid).map fun s => s.heap.freeList

/-- The free block that a new stack is cut from. -/
def stackBlock (s : ByteKernel) (stksize : ℕ) : Option MemBlk :=
  s.stackList.bind fun l => l.find? fun b => roundmb (Kernel.stackSize stksize) ≤ b.mlength

/-- Requests leave room for the headers. Ranges that are released do not wrap and have room. -/
def LeavesRoom (s : ByteKernel) : StackOp → Prop
  | .createArg _ stksize _ _ =>
    ∀ l ∈ s.stackList, ServesRoom s.kernel.bounds l (Kernel.stackSize stksize)
  | .getmem n => ServesRoom s.kernel.bounds s.heap.freeList n
  | .freemem b => b.addr + roundUp b.nbytes < ulongSize ∧
      (b.nbytes ≠ 0 → HasRoom s.kernel.bounds (releasedRange b.addr b.nbytes))
  | _ => True

instance LeavesRoom.decidable (s : ByteKernel) : ∀ op, Decidable (s.LeavesRoom op)
  | .createArg _ n _ _ =>
    inferInstanceAs (Decidable (∀ l ∈ s.stackList, ServesRoom s.kernel.bounds l (Kernel.stackSize n)))
  | .getmem n => inferInstanceAs (Decidable (ServesRoom s.kernel.bounds s.heap.freeList n))
  | .freemem b => inferInstanceAs (Decidable (b.addr + roundUp b.nbytes < ulongSize ∧
      (b.nbytes ≠ 0 → HasRoom s.kernel.bounds (releasedRange b.addr b.nbytes))))
  | .kill _ | .exit | .block | .ready _ | .resched | .preempt => .isTrue trivial

end ByteKernel

/-- The stack pointer is a multiple of 16 and the frame above it lies in the stack. -/
def FrameOk (e : ProcEnt) : Prop :=
  e.sp % 16 = 0 ∧ e.stkbase ≤ e.sp ∧ e.sp + 160 ≤ e.stkbase + e.stklen

instance (e : ProcEnt) : Decidable (FrameOk e) := inferInstanceAs (Decidable (_ ∧ _))

/-- All sizes and addresses that the step hands to the heap are multiples of `m`, and do not wrap. -/
def AsksMultiples (m : ℕ) : StackOp → Prop
  | .createArg _ stksize _ _ => m ∣ Kernel.stackSize stksize
  | .getmem n => m ∣ roundmb n ∧ n + 7 < ulongSize
  | .freemem b => m ∣ b.addr ∧ m ∣ roundUp b.nbytes ∧ b.addr + roundUp b.nbytes < ulongSize
  | _ => True

namespace ByteKernel

/-- A process that the step creates gets a proper first frame. -/
def FrameStep (s : ByteKernel) : StackOp → Prop
  | .createArg entry stksize name arg => stksize < ulongSize → ∀ r s',
      s.procCreateArg entry stksize name arg = some (r, s') →
        ∀ p ∈ Kernel.slotOf r, FrameOk (s'.kernel.proctab p)
  | _ => True

/-- The block that a new stack is cut from ends the stack at a multiple of 16. -/
def AlignedTop (s : ByteKernel) : StackOp → Prop
  | .createArg _ stksize _ _ => stksize < ulongSize → Kernel.stackSize stksize ≠ 0 →
      ∀ b ∈ s.stackBlock stksize, 16 ∣ b.addr + Kernel.stackSize stksize
  | _ => True

instance AlignedTop.decidable (s : ByteKernel) : ∀ op, Decidable (s.AlignedTop op)
  | .createArg _ n _ _ => inferInstanceAs (Decidable (n < ulongSize → Kernel.stackSize n ≠ 0 →
      ∀ b ∈ s.stackBlock n, 16 ∣ b.addr + Kernel.stackSize n))
  | .kill _ | .exit | .block | .ready _ | .resched | .preempt | .getmem _ | .freemem _ =>
    .isTrue trivial

/-- The free list is in order, recorded stacks do not wrap around and have room for a header,
and both keep to multiples of `m`. -/
structure InRoom (m : ℕ) (s : ByteKernel) : Prop where
  free : ∃ l, EdgeList s.kernel.bounds s.heap l ∧ OnGrid m l
  recorded : ∀ p, (s.kernel.stackOf p).addr ≠ 0 →
    (s.kernel.stackOf p).addr + roundUp (s.kernel.stackOf p).nbytes < ulongSize ∧
      HasRoom s.kernel.bounds
        (releasedRange (s.kernel.stackOf p).addr (s.kernel.stackOf p).nbytes) ∧
      m ∣ (s.kernel.stackOf p).addr ∧ m ∣ roundUp (s.kernel.stackOf p).nbytes

end ByteKernel

namespace Kernel

@[simp] theorem setNext_proctab_sp (k : Kernel) (p q : Slot) (r : Option Slot) :
    ((k.setNext p r).proctab q).sp = (k.proctab q).sp := by
  by_cases hq : q = p
  · subst hq
    simp [setNext, modify]
  · simp [setNext, modify, hq]

@[simp] theorem readyPush_proctab_sp (k : Kernel) (p q : Slot) :
    ((k.readyPush p).proctab q).sp = (k.proctab q).sp := by
  cases h : k.readyHead with
  | none =>
    rw [readyPush_of_empty h]
    exact setNext_proctab_sp k p q none
  | some s =>
    rw [readyPush_of_head h]
    cases k.readyTail with
    | none => exact setNext_proctab_sp k p q none
    | some t => exact (setNext_proctab_sp _ t q (some p)).trans (setNext_proctab_sp k p q none)

/-- The entry of a new process. -/
theorem created_entry (k : Kernel) (p : Slot) (stk n : ℕ) (entry : ProcEntry) (name : List Char)
    (arg : ℤ) :
    (((k.install p stk n entry name arg).readyPush p).proctab p).sp = stk + n - 160 ∧
      ((k.install p stk n entry name arg).readyPush p).stackOf p = ⟨stk, n⟩ := by
  constructor
  · rw [readyPush_proctab_sp]
    simp [install, modify, newProcent]
  · rw [of_unscheduled stackOf (fun _ => rfl) (readyPush_unscheduled _ p)]
    simp [stackOf, install, modify, newProcent]

theorem roundUp_stackSize (n : ℕ) :
    roundUp (stackSize n) = stackSize n ∧ roundmb (stackSize n) = stackSize n := by
  have h8 : 8 ∣ stackSize n := dvd_roundmb _
  have hsize : roundUp (stackSize n) = stackSize n := by
    unfold roundUp
    omega
  refine ⟨hsize, ?_⟩
  rw [roundmb_eq_roundUp, hsize]
  have := stackSize_lt n
  omega

/-- A stack has room for the frame whenever there is a stack. -/
theorem le_stackSize {n : ℕ} (hn : n < ulongSize) (h0 : stackSize n ≠ 0) : 1024 ≤ stackSize n := by
  have hsize : ulongSize = 2 ^ 64 := rfl
  rw [stackSize, roundmb, uadd, hsize] at h0 ⊢
  rw [hsize] at hn
  split_ifs at h0 ⊢ with hlt
  · omega
  · omega

/-- A frame at the top of a stack. -/
theorem frameOk_iff {k : Kernel} {p : Slot} {n a : ℕ} (hn : n < ulongSize) (h0 : stackSize n ≠ 0)
    (hsp : (k.proctab p).sp = a + stackSize n - 160) (hstack : k.stackOf p = ⟨a, stackSize n⟩) :
    FrameOk (k.proctab p) ↔ 16 ∣ a + stackSize n := by
  have hbase : (k.proctab p).stkbase = a := congrArg LiveBlk.addr hstack
  have hlen : (k.proctab p).stklen = stackSize n := congrArg LiveBlk.nbytes hstack
  have hle := le_stackSize hn h0
  rw [FrameOk, hsp, hbase, hlen]
  omega

end Kernel

namespace ByteKernel

open Kernel

variable {s s' : ByteKernel} {k : Kernel} {p : Slot} {m : ℕ}

theorem freemem_kernel {blk n : ℕ} (h : s.freemem blk n = some s') : s'.kernel = s.kernel := by
  unfold freemem at h
  split at h
  · cases h
  · cases h
    rfl

theorem reapStack_bounds (h : s.reapStack p = some s') :
    s'.kernel.bounds = s.kernel.bounds := by
  unfold reapStack freeStack at h
  split_ifs at h with h0
  · cases h
    rfl
  · obtain ⟨s₁, hfree, rfl⟩ := Option.map_eq_some_iff.mp h
    have hsame : s₁.kernel.bounds = s.kernel.bounds := congrArg bounds (freemem_kernel hfree)
    exact hsame

namespace InRoom

/-- What the scheduler does keeps heap and records. -/
theorem congr (h : InRoom m s) (hk : k.unscheduled = s.kernel.unscheduled) :
    InRoom m { s with kernel := k } where
  free := by
    rw [of_unscheduled bounds (fun _ => rfl) hk]
    exact h.free
  recorded := by
    rw [of_unscheduled stackOf (fun _ => rfl) hk, of_unscheduled bounds (fun _ => rfl) hk]
    exact h.recorded

/-- Clearing a record. -/
theorem modify (h : InRoom m s) {f : ProcEnt → ProcEnt}
    (hf : (f (s.kernel.proctab p)).stkbase = 0) :
    InRoom m { s with kernel := s.kernel.modify p f } := by
  refine ⟨h.free, fun q hq => ?_⟩
  by_cases hqp : q = p
  · subst hqp
    exact absurd (by simpa [stackOf, Kernel.modify] using hf) hq
  · have hother : (s.kernel.modify p f).stackOf q = s.kernel.stackOf q := by
      simp [stackOf, Kernel.modify, hqp]
    rw [hother] at hq ⊢
    exact h.recorded q hq

/-- A release by the kernel or by anyone else. -/
theorem freemem (h : InRoom m s) {blk n : ℕ} (hfits : blk + roundUp n < ulongSize)
    (hroom : n ≠ 0 → HasRoom s.kernel.bounds (releasedRange blk n))
    (hm : m ∣ blk ∧ m ∣ roundUp n) :
    ∃ heap, s.freemem blk n = some { s with heap } ∧ InRoom m { s with heap } := by
  obtain ⟨l, hl, hgrid⟩ := h.free
  obtain ⟨r, heap, hrun, hcases⟩ := hl.freemem_spec hfits hroom
  refine ⟨heap, by rw [ByteKernel.freemem, hrun], ?_, h.recorded⟩
  rcases hcases with rfl | ⟨l', hl', hrel⟩
  · exact ⟨l, hl, hgrid⟩
  · exact ⟨l', hl', hgrid.released hm hrel⟩

theorem freeStack (h : InRoom m s) (p : Slot) :
    ∃ heap, s.freeStack p = some { s with heap } ∧ InRoom m { s with heap } := by
  unfold ByteKernel.freeStack
  split_ifs with h0
  · exact ⟨s.heap, rfl, h⟩
  · obtain ⟨hfits, hroom, hm⟩ := h.recorded p h0
    exact h.freemem hfits (fun _ => hroom) hm

/-- The old stack of a slot that is used again. -/
theorem reapStack (h : InRoom m s) (p : Slot) : ∃ s', s.reapStack p = some s' ∧ InRoom m s' := by
  unfold ByteKernel.reapStack
  split_ifs with h0
  · exact ⟨s, rfl, h⟩
  · obtain ⟨heap, hfree, h'⟩ := h.freeStack p
    rw [hfree]
    exact ⟨_, rfl, h'.modify rfl⟩

theorem kill (h : InRoom m s) {pid : ℤ} (hk : s.procKill pid = some s') : InRoom m s' := by
  unfold ByteKernel.procKill at hk
  cases hs : slotOf pid with
  | none =>
    rw [hs] at hk
    cases hk
    exact h
  | some p =>
    simp only [hs] at hk
    split_ifs at hk with hp
    · cases hk
      exact h
    · obtain ⟨k, hrem, hk⟩ := Option.bind_eq_some_iff.mp hk
      have h₁ : InRoom m { s with kernel := k } := h.congr (readyRemoveLoop_unscheduled hrem)
      have h₂ : InRoom m { s with kernel := k.dropLockOf pid } := by
        unfold dropLockOf
        split_ifs
        · exact ⟨h₁.free, h₁.recorded⟩
        · exact h₁
      obtain ⟨heap, hfree, h₃⟩ := h₂.freeStack p
      rw [hfree] at hk
      cases hk
      exact h₃.modify rfl

/-- A request that leaves room is not served, or takes the front of the block that first fit
finds. -/
theorem getmem (h : InRoom m s) {n : ℕ} (hm : m ∣ roundmb n)
    (hroom : ServesRoom s.kernel.bounds s.heap.freeList n) :
    ∃ stk heap, s.getmem n = some (stk, { s with heap }) ∧ InRoom m { s with heap } ∧
      (stk = 0 ∧ (n ≠ 0 → s.heap.freeList.find? (fun b => roundmb n ≤ b.mlength) = none) ∨
        ∃ b, n ≠ 0 ∧ s.heap.freeList.find? (fun b => roundmb n ≤ b.mlength) = some b ∧
          stk = b.addr ∧ stk ≠ 0 ∧ m ∣ stk ∧ stk + roundmb n < ulongSize ∧
          HasRoom s.kernel.bounds ⟨stk, roundmb n⟩) := by
  obtain ⟨l, hl, hgrid⟩ := h.free
  rw [hl.freeList_eq] at hroom ⊢
  obtain ⟨stk, heap, hrun, hcases⟩ := hl.getmem_spec hroom
  refine ⟨stk, heap, by rw [ByteKernel.getmem, hrun], ?_⟩
  rcases hcases with ⟨h0, hl', hnone⟩ | ⟨pre, b, post, rfl, hn, hfind, rfl, hfront, hfit, hl'⟩
  · exact ⟨⟨⟨l, hl', hgrid⟩, h.recorded⟩, Or.inl ⟨h0, hnone⟩⟩
  · refine ⟨⟨⟨_, hl', hgrid.cut hm⟩, h.recorded⟩, Or.inr ⟨b, hn, hfind, rfl,
      hl.list.represents.addr_ne_zero, (hgrid b (by simp)).1, ?_, hfront⟩⟩
    have hin := hl.list.coalesced.inside b (by simp)
    have hhi := hl.list.heapHi_lt
    simp only [MemBlk.stop] at hin
    omega

/-- The record of a new stack. -/
theorem install (h : InRoom m s) {n stk : ℕ} (hm : m ∣ stk ∧ m ∣ stackSize n)
    (hfits : stk + stackSize n < ulongSize)
    (hroom : HasRoom s.kernel.bounds ⟨stk, stackSize n⟩) (p : Slot) (entry : ProcEntry)
    (name : List Char) (arg : ℤ) :
    InRoom m { s with kernel := s.kernel.install p stk (stackSize n) entry name arg } := by
  refine ⟨h.free, fun q hq => ?_⟩
  by_cases hqp : q = p
  · subst hqp
    have hself : (s.kernel.install q stk (stackSize n) entry name arg).stackOf q =
        ⟨stk, stackSize n⟩ := by
      simp [stackOf, Kernel.install, Kernel.modify, newProcent]
    rw [hself, releasedRange, (roundUp_stackSize n).1]
    exact ⟨hfits, hroom, hm⟩
  · have hother : (s.kernel.install p stk (stackSize n) entry name arg).stackOf q =
        s.kernel.stackOf q := by
      simp [stackOf, Kernel.install, Kernel.modify, hqp]
    rw [hother] at hq ⊢
    exact h.recorded q hq

/-- A creation finds no room, or cuts the new stack from the block that the search finds. -/
theorem create (h : InRoom m s) {entry : ProcEntry} {n : ℕ} {name : List Char} {arg : ℤ}
    (hm : m ∣ stackSize n) (hroom : s.LeavesRoom (.createArg entry n name arg)) :
    ∃ r s', s.procCreateArg entry n name arg = some (r, s') ∧ InRoom m s' ∧
      (slotOf r = none ∧ (stackSize n ≠ 0 → s.stackBlock n = none) ∨
        ∃ p b, slotOf r = some p ∧ s.stackBlock n = some b ∧ stackSize n ≠ 0 ∧
          (s'.kernel.proctab p).sp = b.addr + stackSize n - 160 ∧
          s'.kernel.stackOf p = ⟨b.addr, stackSize n⟩) := by
  cases halloc : s.kernel.allocSlot with
  | none =>
    exact ⟨-1, s, by simp [procCreateArg, halloc], h,
      Or.inl ⟨by decide, fun _ => by simp [stackBlock, stackList, halloc]⟩⟩
  | some p =>
    obtain ⟨s₁, hreap, h₁⟩ := h.reapStack p
    obtain ⟨hup, hround⟩ := roundUp_stackSize n
    have hlist : s.stackList = some s₁.heap.freeList := by simp [stackList, halloc, hreap]
    have hbounds : s₁.kernel.bounds = s.kernel.bounds := reapStack_bounds hreap
    have hserved : ServesRoom s₁.kernel.bounds s₁.heap.freeList (stackSize n) :=
      hbounds ▸ hroom _ hlist
    have hblock : s.stackBlock n =
        s₁.heap.freeList.find? (fun b => roundmb (stackSize n) ≤ b.mlength) := by
      rw [stackBlock, hlist]
      rfl
    obtain ⟨stk, heap, hget, h₂, hcases⟩ := h₁.getmem (hround.symm ▸ hm) hserved
    rcases hcases with ⟨rfl, hnone⟩ | ⟨b, hn, hfind, rfl, hstk, hdvd, hfits, hfront⟩
    · exact ⟨-1, _, by simp [procCreateArg, halloc, hreap, hget], h₂,
        Or.inl ⟨by decide, fun h0 => hblock.trans (hnone h0)⟩⟩
    · rw [hround] at hfits hfront
      have h₃ := (h₂.install ⟨hdvd, hm⟩ hfits hfront p entry name arg).congr
        (readyPush_unscheduled _ p)
      obtain ⟨hsp, hstack⟩ := created_entry s₁.kernel p b.addr (stackSize n) entry name arg
      exact ⟨p.val, _, by simp [procCreateArg, halloc, hreap, hget, hstk], h₃,
        Or.inr ⟨p, b, slotOf_val p (allocSlot_spec halloc).1, hblock.trans hfind, hn, hsp, hstack⟩⟩

/-- One step that leaves room keeps the heap and the records in order. -/
theorem step (h : InRoom m s) {op : StackOp} (hop : AsksMultiples m op ∨ m = 1)
    (hroom : s.LeavesRoom op) (hstep : s.step op = some s') : InRoom m s' := by
  cases op with
  | createArg entry n name arg =>
    obtain ⟨r, s₁, hc, h₁, -⟩ := h.create (hop.elim id fun h1 => h1 ▸ one_dvd _) hroom
    rw [ByteKernel.step, hc] at hstep
    cases hstep
    exact h₁
  | kill pid => exact h.kill hstep
  | exit =>
    obtain ⟨k, hk, rfl⟩ := Option.map_eq_some_iff.mp hstep
    exact h.congr (procExit_unscheduled hk)
  | block =>
    cases hstep
    exact h.congr (procBlock_unscheduled s.kernel)
  | ready pid =>
    cases hstep
    exact h.congr (procReady_unscheduled s.kernel pid)
  | resched =>
    cases hstep
    exact h.congr (procResched_unscheduled s.kernel)
  | preempt =>
    cases hstep
    exact h.congr (procPreempt_unscheduled s.kernel)
  | getmem n =>
    obtain ⟨stk, heap, hget, h₁, -⟩ := h.getmem (hop.elim And.left fun h1 => h1 ▸ one_dvd _) hroom
    rw [ByteKernel.step, hget] at hstep
    cases hstep
    exact h₁
  | freemem b =>
    obtain ⟨heap, hfree, h₁⟩ := h.freemem hroom.1 hroom.2
      (hop.elim (fun h => ⟨h.1, h.2.1⟩) fun h1 => h1 ▸ ⟨one_dvd _, one_dvd _⟩)
    rw [ByteKernel.step, hfree] at hstep
    cases hstep
    exact h₁

end InRoom

theorem boot_inRoom (h : ByteHeap) {lo hi : ℕ} (hhi : hi < ulongSize) (hlo : 0 < roundmb lo)
    (hlt : roundmb lo < truncmb hi) (hm : m ∣ roundmb lo ∧ m ∣ truncmb hi) :
    InRoom m (boot h lo hi) where
  free := by
    refine ⟨_, (memInit_edge h hhi hlo hlt).edgeList, ?_⟩
    simpa [OnGrid] using ⟨hm.1, Nat.dvd_sub hm.2 hm.1⟩
  recorded := by
    intro p hp
    have h0 : ((Kernel.boot lo hi).procInit.stackOf p).addr = 0 := by
      unfold procInit stackOf
      simp only
      split_ifs <;> rfl
    exact absurd h0 hp

/-- The frame of a new process is right exactly when its stack ends at a multiple of 16. -/
theorem frameStep_iff (h : InRoom 1 s) (op : StackOp) (hroom : s.LeavesRoom op) :
    s.FrameStep op ↔ s.AlignedTop op := by
  cases op with
  | createArg entry n name arg =>
    obtain ⟨r, s', hc, -, hcases⟩ := h.create (one_dvd _) hroom
    refine forall_congr' fun hn => ?_
    constructor
    · intro hok h0 b hb
      rcases hcases with ⟨-, hnone⟩ | ⟨p, b', hp, hb', -, hsp, hstack⟩
      · simp [hnone h0] at hb
      · obtain rfl : b' = b := Option.some.inj (hb'.symm.trans hb)
        exact (frameOk_iff hn h0 hsp hstack).mp (hok r s' hc p hp)
    · intro htop r' s'' hc' p hp
      obtain ⟨rfl, rfl⟩ := Prod.mk.inj (Option.some.inj (hc.symm.trans hc'))
      rcases hcases with ⟨hnone, -⟩ | ⟨p', b, hp', hb, h0, hsp, hstack⟩
      · simp [hnone] at hp
      · obtain rfl : p' = p := Option.some.inj (hp'.symm.trans hp)
        exact (frameOk_iff hn h0 hsp hstack).mpr (htop h0 b hb)
  | _ => exact Iff.rfl

/-- In every run whose heap calls leave room for the headers, the frames of all new processes are
aligned and lie in their stacks exactly when every stack is cut from a block that ends it at a
multiple of 16. -/
theorem frames_ok_iff (h : ByteHeap) {lo hi : ℕ} (hhi : hi < ulongSize) (hlo : 0 < roundmb lo)
    (hlt : roundmb lo < truncmb hi) {ops : List StackOp}
    (hroom : EachStep step LeavesRoom (boot h lo hi) ops) :
    EachStep step FrameStep (boot h lo hi) ops ↔ EachStep step AlignedTop (boot h lo hi) ops := by
  apply eachStep_congr_of (InRoom 1) _ _ _ hroom
  · exact fun _ op _ h hop hstep => h.step (Or.inr rfl) hop hstep
  · exact fun _ op h hop => frameStep_iff h op hop
  · exact boot_inRoom h hhi hlo hlt ⟨one_dvd _, one_dvd _⟩

/-- A heap block of 40 bytes below a stack of 1032, which is killed and whose slot is used again. -/
theorem frames_ok_iff_after_getmem :
    EachStep step FrameStep (boot ByteState.zeroHeap 4096 65536)
      [.getmem 40, .createArg (.other 1) 1032 [] 0, .kill 1, .freemem ⟨4096, 40⟩,
        .createArg (.other 1) 2048 [] 0] := by
  rw [frames_ok_iff ByteState.zeroHeap (by decide) (by decide) (by decide) (by decide)]
  decide

/-- A stack of 1032 bytes at the start of an aligned heap. -/
theorem odd_stack_misaligns_frame :
    ¬ ∀ (h : ByteHeap) (lo hi : ℕ), hi < ulongSize → 0 < roundmb lo → roundmb lo < truncmb hi →
      16 ∣ lo → ∀ ops, EachStep step FrameStep (boot h lo hi) ops := by
  intro hclaim
  have h := (hclaim ByteState.zeroHeap 4096 65536 (by decide) (by decide) (by decide) (by decide)
    [.createArg (.other 1) 1032 [] 0]).1
  obtain ⟨⟨r, s'⟩, hc⟩ := Option.isSome_iff_exists.mp
    (by decide :
      ((boot ByteState.zeroHeap 4096 65536).procCreateArg (.other 1) 1032 [] 0).isSome)
  have hr : ((boot ByteState.zeroHeap 4096 65536).procCreateArg (.other 1) 1032 [] 0).map
      (fun x => (x.1, (x.2.kernel.proctab 1).sp)) = some (1, 4968) := by decide
  rw [hc] at hr
  obtain ⟨rfl, hsp⟩ := Prod.mk.inj (Option.some.inj hr)
  have hok := h (by decide) 1 s' hc 1 rfl
  have hmod := hok.1
  rw [hsp] at hmod
  exact absurd hmod (by decide)

/-- Sizes that are multiples of 16 leave room on a free list of multiples of 16. -/
theorem servesRoom_of_grid {g : HeapBounds} {l : List MemBlk} {n : ℕ} (hl : OnGrid 16 l)
    (hn : 16 ∣ roundmb n) (hfits : n + 7 < ulongSize) : ServesRoom g l n := by
  intro h0 b hb
  have hround := roundmb_bounds hfits
  have hlen := (hl b (List.mem_of_find?_eq_some hb)).2
  exact ⟨hfits, by omega, by omega⟩

theorem InRoom.leavesRoom (h : InRoom 16 s) {op : StackOp} (hop : AsksMultiples 16 op) :
    s.LeavesRoom op := by
  cases op with
  | createArg entry n name arg =>
    intro l hl
    obtain ⟨p, -, hl⟩ := Option.bind_eq_some_iff.mp hl
    obtain ⟨s₁, hreap, rfl⟩ := Option.map_eq_some_iff.mp hl
    obtain ⟨s₂, hreap₂, h₁⟩ := h.reapStack p
    obtain rfl : s₂ = s₁ := Option.some.inj (hreap₂.symm.trans hreap)
    obtain ⟨l, hl, hgrid⟩ := h₁.free
    rw [hl.freeList_eq]
    exact servesRoom_of_grid hgrid ((roundUp_stackSize n).2.symm ▸ hop) (stackSize_lt n)
  | getmem n =>
    obtain ⟨l, hl, hgrid⟩ := h.free
    change ServesRoom _ s.heap.freeList n
    rw [hl.freeList_eq]
    exact servesRoom_of_grid hgrid hop.1 hop.2
  | freemem b =>
    refine ⟨hop.2.2, fun h0 => Or.inl ?_⟩
    have hpos := roundUp_pos h0
    exact Nat.le_of_dvd hpos hop.2.1
  | _ => trivial

/-- The block that a stack is cut from lies on the grid. -/
theorem InRoom.dvd_stackBlock (h : InRoom m s) {n : ℕ} {b : MemBlk} (hb : s.stackBlock n = some b) :
    m ∣ b.addr := by
  obtain ⟨l, hl, hb⟩ := Option.bind_eq_some_iff.mp hb
  obtain ⟨p, -, hl⟩ := Option.bind_eq_some_iff.mp hl
  obtain ⟨s₁, hreap, rfl⟩ := Option.map_eq_some_iff.mp hl
  obtain ⟨s₂, hreap₂, h₁⟩ := h.reapStack p
  obtain rfl : s₂ = s₁ := Option.some.inj (hreap₂.symm.trans hreap)
  obtain ⟨l, hl, hgrid⟩ := h₁.free
  rw [hl.freeList_eq] at hb
  exact (hgrid b (List.mem_of_find?_eq_some hb)).1

/-- Sizes that all round to multiples of 16 are enough, whatever is asked for in which order. -/
theorem frames_ok_of_multiples (h : ByteHeap) {lo hi : ℕ} (hhi : hi < ulongSize)
    (hlo : 0 < roundmb lo) (hlt : roundmb lo < truncmb hi)
    (hends : 16 ∣ roundmb lo ∧ 16 ∣ truncmb hi) {ops : List StackOp}
    (hops : ∀ op ∈ ops, AsksMultiples 16 op) :
    EachStep step FrameStep (boot h lo hi) ops := by
  have hasks : EachStep step (fun _ op => AsksMultiples 16 op) (boot h lo hi) ops :=
    EachStep.of_forall (fun _ op hop => hops op hop) _
  have hboot := boot_inRoom h hhi hlo hlt hends
  have hnext : ∀ s op s', InRoom 16 s → AsksMultiples 16 op → step s op = some s' →
      InRoom 16 s' :=
    fun _ _ _ h hop hstep => h.step (Or.inl hop) (h.leavesRoom hop) hstep
  apply (frames_ok_iff h hhi hlo hlt (hasks.imp_of_invariant (InRoom 16) hnext
    (fun _ _ h hop => h.leavesRoom hop) hboot)).mpr
  refine hasks.imp_of_invariant (InRoom 16) hnext ?_ hboot
  intro s op h hop
  cases op with
  | createArg entry n name arg => exact fun _ _ b hb => dvd_add (h.dvd_stackBlock hb) hop
  | _ => trivial

end ByteKernel

end XinuRpi4.Process
