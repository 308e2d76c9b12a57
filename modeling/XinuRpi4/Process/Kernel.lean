import XinuRpi4.Memory.HeapInvariant

/-!
# The process table and scheduler of `system/proc.c`

The process table, the ready list threaded through it and the heap that the
stacks come from are one state. Every function of `proc.c` that runs with
interrupts masked is one function on that state. A `struct procent *` is the
index of its slot. `none` stands for a call that does not return: a walk over
a cyclic list, or an allocator call that hangs.

The words of a block header are cells of their own here, as on a heap where no two
headers overlap. What sizes that break this do to the free list is a matter of the
heap in bytes, which `ByteKernel` has in place of the cells.

`ctxsw` stores the stack pointer of the CPU in the slot it leaves and loads the
one of the slot it enters. The register frame that `proc_create_arg` lays out on
the new stack is represented by `entry`, the function that the first switch
into the process returns to.
-/

namespace XinuRpi4.Process

open Memory Foundation MemoryProgram

/-- `NPROC`. -/
abbrev nproc : ℕ := 2048

abbrev Slot := Fin nproc

instance (priority := 3000) neZeroProcs : NeZero nproc := ⟨by decide⟩

/-- `NULLPROC`, the boot context. -/
abbrev nullproc : Slot := 0

/-- `enum proc_state`. -/
inductive ProcState
  | free
  | ready
  | curr
  | wait
  | term
  deriving DecidableEq, Repr

/-- What a process runs. -/
inductive ProcEntry
  | actorProcMain
  | other (addr : ℕ)
  deriving DecidableEq, Repr

/-- `struct procent`. -/
structure ProcEnt where
  state : ProcState
  prio : ℤ
  stkbase : ℕ
  stklen : ℕ
  sp : ℕ
  arg : ℤ
  name : List Char
  next : Option Slot
  entry : ProcEntry

/-- A stack that `proc_create_arg` took from the heap or that was handed to `freemem`. -/
inductive StackEvent
  | alloc (b : LiveBlk)
  | free (b : LiveBlk)
  deriving DecidableEq

/-- The lock of the AIPL value heap and the record of its watchdog. -/
structure AiplLock where
  /-- `g_aipl_owner`, `-1` when the lock is free -/
  owner : ℤ
  /-- `g_aipl_depth` -/
  depth : ℤ
  /-- `g_lock_timeouts` -/
  timeouts : ℕ
  /-- `g_lock_stuck_owner` -/
  stuckOwner : ℤ
  /-- `g_lock_stuck_owner_state`, `none` for `-1` -/
  stuckOwnerState : Option ProcState
  /-- `g_lock_stuck_by` -/
  stuckBy : ℤ

structure Kernel where
  proctab : Slot → ProcEnt
  currpid : Slot
  readyHead : Option Slot
  readyTail : Option Slot
  /-- `g_preempt_on` -/
  preemptOn : Bool
  /-- `g_resched_pending` -/
  reschedPending : Bool
  /-- `g_actor_pump` -/
  actorPump : ℤ
  /-- `g_ctxsw` -/
  ctxswCount : ℕ
  aipl : AiplLock
  /-- the stack pointer of the CPU -/
  sp : ℕ
  bounds : HeapBounds
  mem : Loc → ℕ
  /-- ghost: the stacks taken and given back so far, latest first -/
  stackLog : List StackEvent

/-- `PROC_NAME_LEN - 1` characters at most. -/
def copyName (src : List Char) : List Char := src.take 15

namespace Kernel

def modify (k : Kernel) (p : Slot) (f : ProcEnt → ProcEnt) : Kernel :=
  { k with proctab := Function.update k.proctab p (f (k.proctab p)) }

def setState (k : Kernel) (p : Slot) (st : ProcState) : Kernel :=
  k.modify p fun e => { e with state := st }

def setNext (k : Kernel) (p : Slot) (q : Option Slot) : Kernel :=
  k.modify p fun e => { e with next := q }

def state (k : Kernel) (p : Slot) : ProcState := (k.proctab p).state

def next (k : Kernel) (p : Slot) : Option Slot := (k.proctab p).next

/-- `pid <= 0 || pid >= NPROC` guards; the slot of a pid that passes them. -/
def slotOf (pid : ℤ) : Option Slot :=
  if h : 0 < pid ∧ pid < nproc then some ⟨pid.toNat, by omega⟩ else none

/-- `q->next = r`; a write through null changes no slot. -/
def setNextOf (k : Kernel) : Option Slot → Option Slot → Kernel
  | none, _ => k
  | some q, r => k.setNext q r

/-- `ready_push`. -/
def readyPush (k : Kernel) (p : Slot) : Kernel :=
  match k.readyHead with
  | none => { k.setNext p none with readyHead := some p, readyTail := some p }
  | some _ => { (k.setNext p none).setNextOf k.readyTail (some p) with readyTail := some p }

/-- `ready_pop`. -/
def readyPop (k : Kernel) : Option (Slot × Kernel) :=
  match k.readyHead with
  | none => none
  | some p =>
    some (p,
      { k with
        readyHead := k.next p
        readyTail := if k.next p = none then none else k.readyTail }.setNext p none)

/-- The branch of `ready_remove` that has found its target. -/
def readyUnlink (k : Kernel) (prev : Option Slot) (curr : Slot) : Kernel :=
  { k.setNextOf prev (k.next curr) with
    readyHead := if prev = none then k.next curr else k.readyHead
    readyTail := if k.readyTail = some curr then prev else k.readyTail }.setNext curr none

/-- The loop of `ready_remove`. A walk longer than the table is a cycle. -/
def readyRemoveLoop (k : Kernel) (target : Slot) : ℕ → Option Slot → Option Slot → Option Kernel
  | _, _, none => some k
  | 0, _, some _ => none
  | fuel + 1, prev, some curr =>
    if curr = target then some (k.readyUnlink prev curr)
    else readyRemoveLoop k target fuel (some curr) (k.next curr)

/-- `ready_remove`. -/
def readyRemove (k : Kernel) (target : Slot) : Option Kernel :=
  k.readyRemoveLoop target nproc none k.readyHead

/-- `ctxsw(&oldp->sp, newp->sp)`. -/
def ctxsw (k : Kernel) (oldp newp : Slot) : Kernel :=
  { k.modify oldp fun e => { e with sp := k.sp } with sp := (k.proctab newp).sp }

/-- `proc_init`, whatever the table held before. -/
def procInit (k : Kernel) : Kernel :=
  { k with
    proctab := fun i =>
      if i = nullproc then
        { k.proctab i with
          state := .curr, next := none, prio := 0, stkbase := 0, stklen := 0, sp := 0
          name := copyName "null/shell".toList }
      else { k.proctab i with state := .free, next := none }
    readyHead := none
    readyTail := none
    currpid := nullproc }

/-- The loop of `alloc_slot`. -/
def allocSlotLoop (k : Kernel) : ℕ → ℕ → Option Slot
  | 0, _ => none
  | fuel + 1, i =>
    if h : i < nproc then
      if k.state ⟨i, h⟩ = .free then some ⟨i, h⟩ else allocSlotLoop k fuel (i + 1)
    else none

/-- `alloc_slot`. -/
def allocSlot (k : Kernel) : Option Slot := k.allocSlotLoop nproc 1

/-- `getmem` on the heap of the kernel. -/
def getmem (k : Kernel) (nbytes : ℕ) : Option (ℕ × Kernel) :=
  match (Memory.getmem nbytes).run headerCells k.mem with
  | (none, _) => none
  | (some p, mem) => some (p, { k with mem })

/-- `freemem` on the heap of the kernel; every caller here ignores the result. -/
def freemem (k : Kernel) (blk nbytes : ℕ) : Option Kernel :=
  match (Memory.freemem k.bounds blk nbytes).run headerCells k.mem with
  | (none, _) => none
  | (some _, mem) => some { k with mem }

/-- `if (p->stkbase) freemem(p->stkbase, p->stklen)`. -/
def freeStack (k : Kernel) (p : Slot) : Option Kernel :=
  if (k.proctab p).stkbase = 0 then some k
  else
    let b : LiveBlk := ⟨(k.proctab p).stkbase, (k.proctab p).stklen⟩
    (k.freemem b.addr b.nbytes).map fun k => { k with stackLog := .free b :: k.stackLog }

/-- The deferred release of a stack whose process left by `proc_exit`. -/
def reapStack (k : Kernel) (p : Slot) : Option Kernel :=
  if (k.proctab p).stkbase = 0 then some k
  else (k.freeStack p).map fun k => k.modify p fun e => { e with stkbase := 0, stklen := 0 }

/-- The size that `proc_create_arg` asks the heap for. -/
def stackSize (stksize : ℕ) : ℕ := roundmb (if stksize < 1024 then 1024 else stksize)

/-- The slot of a new process; its stack pointer stands below the frame that the
first switch into it pops. -/
def newProcent (stk stksize : ℕ) (entry : ProcEntry) (name : List Char) (arg : ℤ) (e : ProcEnt) :
    ProcEnt :=
  { e with
    state := .ready, prio := 1, stkbase := stk, stklen := stksize, arg := arg
    name := copyName name, next := none, entry := entry, sp := stk + stksize - 160 }

/-- The table entry of a new process, with its stack. -/
def install (k : Kernel) (pid : Slot) (stk stksize : ℕ) (entry : ProcEntry) (name : List Char)
    (arg : ℤ) : Kernel :=
  { k.modify pid (newProcent stk stksize entry name arg) with
    stackLog := .alloc ⟨stk, stksize⟩ :: k.stackLog }

/-- `proc_create_arg`; the pid, or `-1`. -/
def procCreateArg (k : Kernel) (entry : ProcEntry) (stksize : ℕ) (name : List Char) (arg : ℤ) :
    Option (ℤ × Kernel) :=
  match k.allocSlot with
  | none => some (-1, k)
  | some pid => do
    let k ← k.reapStack pid
    let (stk, k) ← k.getmem (stackSize stksize)
    if stk = 0 then return (-1, k)
    else return (pid.val, (k.install pid stk (stackSize stksize) entry name arg).readyPush pid)

/-- `proc_create`. -/
def procCreate (k : Kernel) (entry : ProcEntry) (stksize : ℕ) (name : List Char) :
    Option (ℤ × Kernel) :=
  k.procCreateArg entry stksize name 0

/-- `proc_ready`. -/
def procReady (k : Kernel) (pid : ℤ) : Kernel :=
  match slotOf pid with
  | none => k
  | some p =>
    if k.state p = .ready ∨ k.state p = .curr then k
    else (k.setState p .ready).readyPush p

/-- A current process that is still runnable goes back on the ready list; the
null process never does. -/
def park (k : Kernel) : Kernel :=
  if k.state k.currpid = .curr ∧ k.currpid ≠ nullproc then
    (k.setState k.currpid .ready).readyPush k.currpid
  else k

/-- `newp->state = PR_CURR; currpid = new_pid`. -/
def makeCurrent (k : Kernel) (newp : Slot) : Kernel :=
  { k.setState newp .curr with currpid := newp }

/-- `proc_resched`. -/
def procResched (k : Kernel) : Kernel :=
  match k.readyPop with
  | none => k
  | some (newp, k) =>
    { k.park.makeCurrent newp with ctxswCount := k.ctxswCount + 1 }.ctxsw k.currpid newp

/-- `proc_yield`. -/
def procYield (k : Kernel) : Kernel := k.procResched

/-- `proc_preempt`. -/
def procPreempt (k : Kernel) : Kernel :=
  if ¬ k.preemptOn ∨ ¬ k.reschedPending then k
  else if k.actorPump ≠ 0 then k
  else if k.currpid ≠ nullproc then { k with reschedPending := false }.procResched
  else { k with reschedPending := false }

/-- The heap lock of a process that is reaped is released. -/
def dropLockOf (k : Kernel) (pid : ℤ) : Kernel :=
  if k.aipl.owner = pid then { k with aipl.owner := -1, aipl.depth := 0 } else k

/-- `p->stkbase = 0; p->state = PR_FREE`. -/
def vacate (k : Kernel) (p : Slot) : Kernel :=
  k.modify p fun e => { e with stkbase := 0, state := .free }

/-- `proc_kill`. -/
def procKill (k : Kernel) (pid : ℤ) : Option Kernel :=
  match slotOf pid with
  | none => some k
  | some p =>
    if p = k.currpid ∨ k.state p = .free then some k
    else do
      let k ← k.readyRemove p
      let k ← (k.dropLockOf pid).freeStack p
      return k.vacate p

/-- The end of `proc_block` and `proc_exit`: the first ready process runs next,
or `NULLPROC`. -/
def dispatchNext (k : Kernel) : Kernel :=
  match k.readyPop with
  | none => k.makeCurrent nullproc
  | some (newp, k) => k.makeCurrent newp

/-- `proc_block`. -/
def procBlock (k : Kernel) : Kernel :=
  let k' := (k.setState k.currpid .wait).dispatchNext
  k'.ctxsw k.currpid k'.currpid

/-- `proc_exit`; the stack pointer goes to `graveyard_sp`. -/
def procExit (k : Kernel) : Option Kernel :=
  ((k.setState k.currpid .free).readyRemove k.currpid).map fun k' =>
    { k'.dispatchNext with sp := (k'.dispatchNext.proctab k'.dispatchNext.currpid).sp }

/-- The process-table part of the shell command `procdemo`: two children, and
the CPU is handed to them. The entry points are opaque here. -/
def cmdProcdemo (k : Kernel) (ping pong : ℕ) : Option (ℤ × Kernel) := do
  let (p, k) ← k.procCreate (.other ping) 4096 "ping-proc".toList
  if p < 0 then return (1, k)
  else
    let (q, k) ← k.procCreate (.other pong) 4096 "pong-proc".toList
    if q < 0 then
      match slotOf p with
      | none => return (1, k)
      | some p => return (1, k.setState p .free)
    else return (0, k.procResched)

end Kernel

end XinuRpi4.Process
