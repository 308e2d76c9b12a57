import XinuRpi4.Process.Transitions

/-!
# Processes that use the heap lock

Any number of processes lock, unlock, drop and restore the lock of the AIPL value
heap, while processes are created, killed, blocked, woken and rescheduled in any
order. A step is one section of `proc.c` that runs with interrupts masked: a round
of `aipl_lock` ends with a yield, and `aipl_relock` has a section of its own for the
depth. A process that is in the code of the lock may be preempted there.
-/

namespace XinuRpi4.Process

open Foundation

/-- Where a process is in the code of the lock. -/
inductive LockCtl
  | out
  /-- before a round of `aipl_lock`, after `spins` failed ones -/
  | locking (spins : ℕ)
  /-- the same in the `aipl_lock` of `aipl_relock(saved)` -/
  | relocking (saved : ℤ) (spins : ℕ)
  /-- before the second section of `aipl_relock(saved)` -/
  | restoring (saved : ℤ)
  deriving DecidableEq

/-- The failed rounds of the loop a process is in. -/
def LockCtl.fails : LockCtl → Option ℕ
  | .locking spins => some spins
  | .relocking _ spins => some spins
  | _ => none

/-- The place after a round that takes the lock. -/
def LockCtl.taken : LockCtl → LockCtl
  | .relocking saved _ => .restoring saved
  | _ => .out

/-- The place after a failed round. -/
def LockCtl.failed : LockCtl → LockCtl
  | .locking spins => .locking (spins + 1)
  | .relocking saved spins => .relocking saved (spins + 1)
  | c => c

structure LockSys where
  kernel : Kernel
  ctl : Slot → LockCtl
  /-- ghost: how often a holder of the lock was switched out by `proc_resched` since
  the process entered the loop it is in -/
  outs : Slot → ℕ

inductive LockOp
  | lock
  | round
  | unlock
  | unlockAll
  | relock (saved : ℤ)
  | restore
  | forceRelease
  | kill (pid : ℤ)
  | resched
  | block
  | wake (p : Slot)
  | create (addr stksize : ℕ) (name : List Char) (arg : ℤ)
  | exit
  deriving DecidableEq

namespace LockSys

/-- `g_aipl_owner`. -/
def owner (s : LockSys) : ℤ := s.kernel.aipl.owner

/-- `g_aipl_depth`. -/
def depth (s : LockSys) : ℤ := s.kernel.aipl.depth

def cur (s : LockSys) : LockCtl := s.ctl s.kernel.currpid

def goto (s : LockSys) (c : LockCtl) : LockSys :=
  { s with ctl := Function.update s.ctl s.kernel.currpid c }

/-- The current process enters the loop of `aipl_lock`. -/
def enter (s : LockSys) (c : LockCtl) : LockSys :=
  { s.goto c with outs := Function.update s.outs s.kernel.currpid 0 }

/-- A round of `aipl_lock`. -/
def round (s : LockSys) : Option LockSys :=
  s.cur.fails.map fun spins =>
    match s.kernel.aiplRound spins with
    | some k => { s.goto s.cur.taken with kernel := k }
    | none => { s.goto s.cur.failed with kernel := s.kernel.procYield }

/-- A reschedule switches the holder of the lock out. -/
def SwitchesHolder (s : LockSys) : Prop :=
  s.owner = s.kernel.currpid.val ∧ s.kernel.readyHead ≠ none

instance (s : LockSys) : Decidable s.SwitchesHolder := inferInstanceAs (Decidable (_ ∧ _))

/-- An action outside the code of the lock. -/
def outside (s : LockSys) (s' : Option LockSys) : Option LockSys :=
  if s.cur = .out then s' else none

/-- `proc_create_arg`; the new process is outside the code of the lock. -/
def create (s : LockSys) (addr stksize : ℕ) (name : List Char) (arg : ℤ) : Option LockSys := do
  let (pid, k) ← s.kernel.procCreateArg (.other addr) stksize name arg
  match Kernel.slotOf pid with
  | none => return { s with kernel := k }
  | some p => return { s with kernel := k, ctl := Function.update s.ctl p .out }

def step (s : LockSys) : LockOp → Option LockSys
  | .lock => s.outside (some (s.enter (.locking 0)))
  | .round => s.round
  | .unlock => s.outside (some { s with kernel := s.kernel.aiplUnlock })
  | .unlockAll => s.outside (some { s with kernel := s.kernel.aiplUnlockAll.1 })
  | .relock saved => s.outside (some (if saved ≤ 0 then s else s.enter (.relocking saved 0)))
  | .restore =>
    match s.cur with
    | .restoring saved => some { s.goto .out with kernel := s.kernel.aiplSetDepth saved }
    | _ => none
  | .forceRelease => s.outside (some { s with kernel := s.kernel.aiplForceRelease })
  | .kill pid => s.outside ((s.kernel.procKill pid).map fun k => { s with kernel := k })
  | .resched =>
    some { s with
      kernel := s.kernel.procResched
      outs := if s.SwitchesHolder then fun w => s.outs w + 1 else s.outs }
  | .block => s.outside (some { s with kernel := s.kernel.procBlock })
  | .wake p =>
    if s.kernel.state p = .wait then some { s with kernel := s.kernel.procReady p.val } else none
  | .create addr stksize name arg => s.outside (s.create addr stksize name arg)
  | .exit =>
    if s.kernel.currpid = nullproc then none
    else s.outside (s.kernel.procExit.map fun k => { s with kernel := k })

/-- A booted kernel with the boot context only. -/
def init (lo hi : ℕ) : LockSys where
  kernel := (Kernel.boot lo hi).procInit
  ctl _ := .out
  outs _ := 0

/-- The process runs, or will when it is its turn. -/
def Runnable (s : LockSys) (p : Slot) : Prop :=
  s.kernel.state p = .ready ∨ s.kernel.state p = .curr

instance (s : LockSys) (p : Slot) : Decidable (s.Runnable p) := inferInstanceAs (Decidable (_ ∨ _))

/-- What the lock guarantees of a step: who may change the owner; an unlock by another
process does nothing; `aipl_unlock_all` returns the depth, and the end of
`aipl_relock(saved)` gives its caller the lock at that depth; the watchdog takes the
lock only from a process that cannot run. -/
structure SoundStep (s : LockSys) (op : LockOp) (s' : LockSys) : Prop where
  passes : s'.owner ≠ s.owner →
    (op = .round ∧ s.owner < 0 ∧ s'.owner = s.kernel.currpid.val) ∨
    ((op = .unlock ∧ s.depth ≤ 1 ∨ op = .unlockAll) ∧
      s.owner = s.kernel.currpid.val ∧ s'.owner = -1) ∨
    ((op = .kill s.owner ∨ op = .forceRelease) ∧ s'.owner = -1) ∨
    (op = .round ∧ (∃ n, s.cur.fails = some n ∧ aiplSpinLimit ≤ n) ∧
      s'.owner = s.kernel.currpid.val)
  unlock_other : op = .unlock → s.owner ≠ s.kernel.currpid.val → s' = s
  unlock_all : op = .unlockAll → s.owner = s.kernel.currpid.val →
    s.kernel.aiplUnlockAll.2 = s.depth ∧ s'.owner = -1 ∧ s'.depth = 0
  unlock_all_other : op = .unlockAll → s.owner ≠ s.kernel.currpid.val →
    s.kernel.aiplUnlockAll.2 = 0 ∧ s' = s
  restores : op = .restore → ∀ saved, s.cur = .restoring saved →
    s'.owner = s.kernel.currpid.val ∧ s'.depth = saved
  watchdog : op = .round → ∀ h : Slot, s.owner = h.val → s'.owner ≠ s.owner → ¬ s.Runnable h

/-- The lock is held to a positive depth or free, and all steps from here on that meet
the condition are sound. -/
structure LockSound (ok : LockSys → LockOp → Prop) (s : LockSys) : Prop where
  depth_pos_iff : 0 < s.depth ↔ 0 ≤ s.owner
  steps : ∀ op s', ok s op → s.step op = some s' → s.SoundStep op s'

end LockSys

end XinuRpi4.Process
