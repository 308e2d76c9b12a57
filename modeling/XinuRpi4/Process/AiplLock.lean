import XinuRpi4.Process.ReadyList

/-!
# The lock of the AIPL value heap

`aipl_lock` is a loop whose rounds run with interrupts masked and yield in
between; a round takes the lock when it is free or already held by the caller,
and after `AIPL_SPIN_LIMIT` failed rounds it takes the lock from its holder.
-/

namespace XinuRpi4.Process

/-- `AIPL_SPIN_LIMIT`. -/
abbrev aiplSpinLimit : ℕ := 300000

namespace Kernel

/-- The lock is free, or the caller has it. -/
def AiplOpen (k : Kernel) : Prop := k.aipl.owner < 0 ∨ k.aipl.owner = k.currpid.val

instance (k : Kernel) : Decidable k.AiplOpen := inferInstanceAs (Decidable (_ ∨ _))

/-- Take an open lock once more. -/
def aiplAcquire (k : Kernel) : Kernel :=
  { k with aipl.owner := k.currpid.val, aipl.depth := k.aipl.depth + 1 }

/-- The watchdog: record the holder and take the lock from it. -/
def aiplSteal (k : Kernel) : Kernel :=
  { k with
    aipl :=
      { owner := k.currpid.val
        depth := 1
        timeouts := k.aipl.timeouts + 1
        stuckOwner := k.aipl.owner
        stuckOwnerState := (slotOf k.aipl.owner).map k.state
        stuckBy := k.currpid.val } }

/-- One round of `aipl_lock` after `spins` failed ones; `none` when the caller
has to yield and try again. -/
def aiplRound (k : Kernel) (spins : ℕ) : Option Kernel :=
  if k.AiplOpen then some k.aiplAcquire
  else if spins + 1 > aiplSpinLimit then some k.aiplSteal
  else none

/-- `aipl_unlock`. -/
def aiplUnlock (k : Kernel) : Kernel :=
  if k.aipl.owner = k.currpid.val then
    if k.aipl.depth - 1 ≤ 0 then { k with aipl.owner := -1, aipl.depth := 0 }
    else { k with aipl.depth := k.aipl.depth - 1 }
  else k

/-- `aipl_unlock_all`; the depth to restore later is returned. -/
def aiplUnlockAll (k : Kernel) : Kernel × ℤ :=
  if k.aipl.owner = k.currpid.val then
    ({ k with aipl.owner := -1, aipl.depth := 0 }, k.aipl.depth)
  else (k, 0)

/-- The second masked section of `aipl_relock`. -/
def aiplSetDepth (k : Kernel) (saved : ℤ) : Kernel := { k with aipl.depth := saved }

/-- `aipl_force_release`. -/
def aiplForceRelease (k : Kernel) : Kernel := { k with aipl.owner := -1, aipl.depth := 0 }

end Kernel

end XinuRpi4.Process
