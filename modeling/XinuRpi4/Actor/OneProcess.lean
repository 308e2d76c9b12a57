import XinuRpi4.Actor.Slots

/-!
# One live process per actor slot, over whole runs

In every run in which no process kills its own slot, each process that runs
`actor_proc_main` is the one its slot records, and no two slots record the same
process.
-/

namespace XinuRpi4.Actor

open Foundation Process

namespace Sys

/-- Each process of an actor is the one its slot records; so each mailbox has one
consumer, and no killed actor goes on. -/
structure OneProcess (s : Sys) : Prop where
  pid_eq : ∀ (p : Slot) (i : ActorId), s.kernel.state p ≠ .free →
    s.kernel.role p = (.actorProcMain, (i.val : ℤ)) → (s.table.act i).pid = p.val
  distinct : ∀ i j, i ≠ j → (s.table.act i).pid ≠ -1 → (s.table.act j).pid ≠ -1 →
    (s.table.act i).pid ≠ (s.table.act j).pid
  consumer : ∀ (p : Slot) (i : ActorId), s.kernel.state p ≠ .free → (s.ctl p).actor = some i →
    (s.table.act i).pid = p.val

/-- The step does not kill the slot of the process that takes it. -/
def NoSelfKill (s : Sys) : SysOp → Prop
  | .forceKill id => ∀ i, s.table.slotOf id = some i →
      (s.table.act i).pid = s.kernel.currpid.val → (s.table.act i).protectedFromGc
  | .gcSweep thresholdMs dryRun nowMs => ∀ i, (s.table.act i).pid = s.kernel.currpid.val →
      s.idle thresholdMs nowMs i → dryRun
  | .reset => ∀ i, (s.table.act i).pid ≠ s.kernel.currpid.val
  | .killall => ∀ i, (s.table.act i).pid ≠ s.kernel.currpid.val
  | _ => True

theorem Base.oneProcess {s : Sys} (h : s.Base False) : s.OneProcess where
  pid_eq p i hp hrole := by
    rcases h.proc_pid p i hp (h.actor_of_role hp hrole) with heq | ⟨hfalse, -⟩
    · exact heq
    · exact hfalse.elim
  distinct i j hij hi hj heq := by
    obtain ⟨-, p, hp, -, hpactor⟩ := h.pid_proc i hi
    obtain ⟨-, q, hq, -, hqactor⟩ := h.pid_proc j hj
    obtain rfl : p = q := Fin.ext (by omega)
    exact hij (Option.some.inj (hpactor.symm.trans hqactor))
  consumer p i hp hactor := by
    rcases h.proc_pid p i hp hactor with heq | ⟨hfalse, -⟩
    · exact heq
    · exact hfalse.elim

/-- Without orphans a slot that `ap_spawn` takes is vacant. -/
theorem NoSelfKill.keepsSlots {s : Sys} {op : SysOp} (h : s.Base False) (hop : s.NoSelfKill op) :
    s.KeepsSlots False op := by
  cases op with
  | spawn nowMs =>
    intro i t ht p hp hrole
    have hpid := h.oneProcess.pid_eq p i hp hrole
    rw [h.spawnSlot_pid ht] at hpid
    omega
  | forceKill id => exact fun i hi hpid hprot => hprot (hop i hi hpid)
  | gcSweep thresholdMs dryRun nowMs => exact fun i hpid hidle hdry => hdry (hop i hpid hidle)
  | reset => exact hop
  | killall => exact hop
  | _ => trivial

theorem init_base (o : Prop) (lo hi : ℕ) (t : ActorTable) : (init lo hi t).Base o where
  sched := Kernel.procInit_scheduled _
  null_alive := by
    rw [init, Kernel.procInit_state, if_pos rfl]
    decide
  null_code := rfl
  fits p hp := by
    rw [init, Kernel.procInit_state] at hp
    split_ifs at hp with h0
    · subst h0
      simp [Ctl.Fits, init, Ctl.actor, Frame.actor, Kernel.role, Kernel.procInit, Kernel.boot]
    · exact absurd rfl hp
  pid_proc i hi := absurd rfl hi
  proc_pid p i hp hi := by cases hi

/-- In every run without a self-kill, every state has one process per slot. -/
theorem one_process_per_slot (lo hi : ℕ) (t : ActorTable) (s : Sys)
    (h : Reachable step NoSelfKill (init lo hi t) s) : s.OneProcess := by
  apply Base.oneProcess
  refine h.invariant (Base False) (init_base False lo hi t) ?_
  intro s op s' hs hop hstep
  exact hs.step (hop.keepsSlots hs) hstep

/-- The statics of `actorproc.c` at power-on. -/
def bootTable : ActorTable where
  act _ :=
    { mailbox := ⟨fun _ => sendMsg 0 0 0 0 0, 0, 0, by decide, by decide⟩
      pid := 0, waiting := false, nmsg := 0, birthMs := 0, lastActiveMs := 0
      protectedFromGc := false }
  nact := 0
  dead _ := false
  jmpArmed _ := false
  curReply _ := 0
  dropOob := 0
  dropDead := 0
  dropFull := 0

/-- An actor is spawned and killed from outside. -/
theorem one_process_after_kill :
    ∃ s, exec step (init 4096 65536 bootTable) [.spawn 0, .forceKill 0] = some s ∧
      s.OneProcess := by
  obtain ⟨s, hs⟩ := Option.isSome_iff_exists.mp
    (by decide : (exec step (init 4096 65536 bootTable) [.spawn 0, .forceKill 0]).isSome)
  refine ⟨s, hs, one_process_per_slot 4096 65536 bootTable s (Reachable.start.exec ?_ hs)⟩
  refine ⟨trivial, fun s₁ h₁ => ⟨?_, fun _ _ => trivial⟩⟩
  intro i _ hpid
  have hcurr : ((init 4096 65536 bootTable).step (.spawn 0)).map (fun s => s.kernel.currpid) =
      some nullproc := by decide
  rw [h₁, Option.map_some] at hcurr
  have hkeeps : (init 4096 65536 bootTable).KeepsSlots False (.spawn 0) :=
    NoSelfKill.keepsSlots (init_base ..) trivial
  have hbase := (init_base False 4096 65536 bootTable).step hkeeps h₁
  rw [Option.some.inj hcurr] at hpid
  exact absurd rfl (hbase.ne_null (hbase.actor_of_pid hpid).2)

/-- A handler kills its own actor: the process goes on, its slot is free. -/
theorem self_kill_leaves_orphan :
    ¬ ∀ s, Reachable step (fun _ _ => True) (init 4096 65536 bootTable) s → s.OneProcess := by
  intro hclaim
  let ops : List SysOp := [.spawn 0, .send 0 7 0 0 0 0, .postStep, .resched, .recvStep 0, .lockStep,
    .forceKill 0]
  have hview : (exec step (init 4096 65536 bootTable) ops).map
      (fun s => (s.kernel.state 1, s.kernel.role 1, (s.table.act 0).pid)) =
      some (.curr, (.actorProcMain, 0), -1) := by decide
  obtain ⟨s, hs, hview⟩ := Option.map_eq_some_iff.mp hview
  simp only [Prod.mk.injEq] at hview
  obtain ⟨hstate, hrole, hpid⟩ := hview
  have hone := hclaim s (Reachable.start.exec (.of_forall (fun _ _ _ => trivial) _) hs)
  have := hone.pid_eq 1 0 (by rw [hstate]; decide) hrole
  rw [hpid] at this
  simp at this

end Sys

end XinuRpi4.Actor
