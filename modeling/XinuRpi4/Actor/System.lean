import XinuRpi4.Actor.Mailbox
import XinuRpi4.Process.AiplLock

/-!
# Actors as processes

The whole of `system/actorproc.c` over the kernel of `proc.c`. Every process has
a place in the code (`Ctl`); a step is one action of the current process, cut
where interrupts are masked: the checks of `ap_post` and its masked section are
two steps, and a process that waits in `ap_recv` or `ap_select` is parked inside
it. A spawn, a kill and the end of an actor are one step each. What handlers do
is free: they may send, call, select, spawn, kill, crash and return any value,
in any order. A handler may also run outside its actor's process, called
directly by `cc_actor_send_msg`.

Messages of a synchronous call carry a ghost tag, and the system keeps ghost
records of what handlers answered and of what calls returned.
-/

namespace XinuRpi4.Actor

open Foundation Process

/-- The code that a process is in. -/
inductive Frame
  /-- code outside the actor runtime -/
  | code
  /-- a handler that `cc_actor_send_msg` or `cc_actor_send_str` calls directly -/
  | direct (actor : ActorId)
  /-- a handler that the receive loop of an actor called for a message -/
  | handler (self : ActorId) (m : ApMsg)
  deriving DecidableEq

/-- Where `ap_post` returns to. -/
inductive PostCont
  | send (f : Frame)
  | call (c : Call) (f : Frame)
  /-- the reply of the receive loop -/
  | reply (self : ActorId)
  deriving DecidableEq

/-- Where `ap_select` returns to. -/
inductive SelectCont
  | select (f : Frame)
  | call (c : Call) (f : Frame)
  deriving DecidableEq

/-- Where a process stands. -/
inductive Ctl
  | running (f : Frame)
  /-- before a round of `ap_recv`, or parked in it -/
  | recv (self : ActorId)
  /-- in the `aipl_lock` that precedes `f` -/
  | locking (f : Frame) (spins : ℕ)
  /-- before the masked section of `ap_post` -/
  | posting (dest : ActorId) (m : ApMsg) (next : PostCont)
  /-- before a round of `ap_select`, or parked in it; with a depth to restore
  and a spin count it is in `aipl_relock` first -/
  | selecting (self : ActorId) (meths : List ℤ) (next : SelectCont) (relock : Option (ℤ × ℕ))
  /-- before the `aipl_unlock_all` of the receive loop -/
  | finishing (self : ActorId)
  deriving DecidableEq

structure Sys where
  kernel : Kernel
  table : ActorTable
  ctl : Slot → Ctl
  /-- ghost: the tag of the next call -/
  nextTag : ℕ
  /-- ghost: the values that handlers produced for requests -/
  answers : List Outcome
  /-- ghost: the values that calls returned -/
  returns : List Outcome

/-- The actor a handler acts for. -/
def Frame.self : Frame → Option ActorId
  | .code => none
  | .direct actor => some actor
  | .handler self _ => some self

/-- The tag of the request a handler works on. -/
def Frame.tag : Frame → Option ℕ
  | .handler _ m => m.tag
  | _ => none

def PostCont.resume : PostCont → Ctl
  | .send f => .running f
  | .call c f => .selecting c.self [apReply] (.call c f) none
  | .reply self => .finishing self

def SelectCont.frame : SelectCont → Frame
  | .select f => f
  | .call _ f => f

def Ctl.running? : Ctl → Option Frame
  | .running f => some f
  | _ => none

/-- `(int)` of a `long`. -/
def toInt (x : ℤ) : ℤ := Int.bmod x (2 ^ 32)

namespace Sys

/-- Place of the current process. -/
def cur (s : Sys) : Ctl := s.ctl s.kernel.currpid

/-- The current process moves on. -/
def goto (s : Sys) (c : Ctl) : Sys := { s with ctl := Function.update s.ctl s.kernel.currpid c }

/-- `ap_post` up to its masked section. -/
def beginPost (s : Sys) (dest : ℤ) (m : ApMsg) (next : PostCont) : Sys :=
  match s.table.postCheck dest with
  | (t, none) => { s with table := t }.goto next.resume
  | (t, some i) => { s with table := t }.goto (.posting i m next)

/-- `ap_send`. -/
def apSend (s : Sys) (dest method a0 a1 a2 a3 : ℤ) : Option Sys := do
  let f ← s.cur.running?
  return s.beginPost dest (sendMsg method a0 a1 a2 a3) (.send f)

/-- `ap_call`, up to the masked section of its `ap_post`. -/
def apCall (s : Sys) (dest method a0 a1 a2 a3 : ℤ) : Option Sys := do
  let f ← s.cur.running?
  let self ← f.self
  let m : ApMsg := ⟨method, a0, a1, a2, a3, self.val, some s.nextTag⟩
  return { s.beginPost dest m (.call ⟨self, dest, s.nextTag⟩ f) with nextTag := s.nextTag + 1 }

/-- Entry of `ap_select`. -/
def apSelect (s : Sys) (meths : List ℤ) : Option Sys := do
  let f ← s.cur.running?
  let self ← f.self
  return s.goto (.selecting self meths (.select f) none)

/-- The masked section of `ap_post`, with the wake-up of the recipient. -/
def postStep (s : Sys) : Option Sys :=
  match s.cur with
  | .posting dest m next =>
    let r := s.table.postSection dest m
    some { s.goto next.resume with
      table := r.1
      kernel := r.2.elim s.kernel s.kernel.procReady }
  | _ => none

/-- A round of `ap_recv` in the receive loop. -/
def recvStep (s : Sys) (nowMs : ℕ) : Option Sys :=
  match s.cur with
  | .recv self =>
    match s.table.recvSection self nowMs with
    | (t, some m) =>
      some { s.goto (.locking (.handler self m) 0) with
        table := { t with curReply := Function.update t.curReply self m.replyTo } }
    | (t, none) => some { s with table := t, kernel := s.kernel.procBlock }
  | _ => none

/-- `g_jmp_armed[self] = 1` when a handler starts. -/
def arm (t : ActorTable) : Frame → ActorTable
  | .handler self _ => { t with jmpArmed := Function.update t.jmpArmed self true }
  | _ => t

/-- A round of `aipl_lock`. -/
def lockStep (s : Sys) : Option Sys :=
  match s.cur with
  | .locking f spins =>
    match s.kernel.aiplRound spins with
    | some k => some { s.goto (.running f) with kernel := k, table := arm s.table f }
    | none => some { s.goto (.locking f (spins + 1)) with kernel := s.kernel.procYield }
  | _ => none

/-- A round of `ap_select`. A process that blocks drops the heap lock first. -/
def selectStep (s : Sys) : Option Sys :=
  match s.cur with
  | .selecting self meths next none =>
    match s.table.selectSection self meths with
    | (t, some m) =>
      some { s.goto (.running next.frame) with
        table := t
        returns := match next with
          | .select _ => s.returns
          | .call c _ => ⟨c.tag, c.dest, m.a0⟩ :: s.returns }
    | (t, none) =>
      let (k, held) := s.kernel.aiplUnlockAll
      some { s.goto (.selecting self meths next (if held ≤ 0 then none else some (held, 0))) with
        table := t
        kernel := k.procBlock }
  | _ => none

/-- A round of `aipl_relock` after a wake-up in `ap_select`. -/
def relockStep (s : Sys) : Option Sys :=
  match s.cur with
  | .selecting self meths next (some (saved, spins)) =>
    match s.kernel.aiplRound spins with
    | some k => some { s.goto (.selecting self meths next none) with kernel := k.aiplSetDepth saved }
    | none =>
      some { s.goto (.selecting self meths next (some (saved, spins + 1))) with
        kernel := s.kernel.procYield }
  | _ => none

/-- `g_jmp_armed[self] = 0`, with the record of the value `r` for a request. -/
def disarm (s : Sys) (self : ActorId) (r : ℤ) (tag : Option ℕ) : Sys :=
  { s with
    table := { s.table with jmpArmed := Function.update s.table.jmpArmed self false }
    answers := (tag.map fun n => (⟨n, self.val, r⟩ : Outcome)).toList ++ s.answers }

/-- The handler of the receive loop is over: answer the caller, if there is one. -/
def answer (s : Sys) (self : ActorId) (replyTo r : ℤ) (tag : Option ℕ) : Sys :=
  if 0 ≤ replyTo then (s.disarm self r tag).beginPost replyTo (replyMsg r tag) (.reply self)
  else (s.disarm self r tag).goto (.finishing self)

/-- A handler returns `r`. -/
def handlerReturn (s : Sys) (r : ℤ) : Option Sys := do
  let f ← s.cur.running?
  match f with
  | .code => none
  | .direct actor =>
    return { s.goto (.running .code) with
      kernel := s.kernel.aiplUnlock, table := s.table.apNoteMsg actor.val }
  | .handler self m => return s.answer self m.replyTo r m.tag

/-- The actor id in the argument of the current process. -/
def argSlot (s : Sys) : Option ActorId :=
  let arg := toInt (s.kernel.proctab s.kernel.currpid).arg
  if h : 0 ≤ arg ∧ arg < apNact then some ⟨arg.toNat, by omega⟩ else none

/-- `ap_crash`: back to the receive loop, if the current process has one armed. -/
def apCrash (s : Sys) : Option Sys := do
  let f ← s.cur.running?
  match s.table.slots.find? fun i =>
      (s.table.act i).pid = s.kernel.currpid.val ∧ s.table.jmpArmed i with
  | none => return s
  | some _ =>
    let self ← s.argSlot
    return s.answer self (toInt (s.table.curReply self)) apCrashReply f.tag

/-- The end of an iteration of the receive loop, with the suicide check. -/
def finishStep (s : Sys) : Option Sys :=
  match s.cur with
  | .finishing self =>
    let k := s.kernel.aiplUnlockAll.1
    if s.table.dead self then
      k.procExit.map fun k =>
        { s with kernel := k, table := s.table.modify self fun a => { a with pid := -1 } }
    else some { s.goto (.recv self) with kernel := k }
  | _ => none

/-- `ap_spawn`; the new process starts in its receive loop. -/
def apSpawn (s : Sys) (nowMs : ℕ) : Option (ℤ × Sys) :=
  match s.table.spawnSlot with
  | none => some (-1, s)
  | some (id, t) => do
    let t := t.resetSlot id nowMs
    let (pid, k) ← s.kernel.procCreateArg .actorProcMain 8192 "actor".toList id.val
    let t' := t.modify id fun a => { a with pid := if pid < 0 then -1 else pid }
    match Kernel.slotOf pid with
    | none => return (-1, { s with kernel := k, table := t' })
    | some p =>
      return (id.val, { s with kernel := k, table := t', ctl := Function.update s.ctl p (.recv id) })

/-- `proc_kill` of the process of a slot; the slot is free for reuse. -/
def killSlot (s : Sys) (i : ActorId) : Option Sys :=
  (s.kernel.procKill (s.table.act i).pid).map fun k =>
    { s with kernel := k, table := s.table.modify i fun a => { a with pid := -1 } }

/-- `ap_force_kill`. -/
def apForceKill (s : Sys) (id : ℤ) : Option (ℤ × Sys) :=
  match s.table.slotOf id with
  | none => some (-1, s)
  | some i =>
    if (s.table.act i).pid = -1 ∨ (s.table.act i).protectedFromGc then some (-1, s)
    else
      (s.killSlot i).map fun s =>
        (0, { s with table := { s.table with dead := Function.update s.table.dead i true } })

/-- The loop state of `ap_gc_sweep`. -/
structure Sweep where
  sys : Sys
  killed : ℕ
  scanned : ℕ

/-- The idle slots that a sweep takes. -/
def idle (s : Sys) (thresholdMs : ℤ) (nowMs : ℕ) (i : ActorId) : Bool :=
  let age := s.table.apActorAgeMs i.val nowMs
  ¬ (s.table.act i).protectedFromGc ∧ 0 ≤ age ∧ thresholdMs ≤ age

/-- The body of the loop of `ap_gc_sweep`. -/
def sweepSlot (thresholdMs : ℤ) (dryRun : Bool) (nowMs : ℕ) (w : Sweep) (i : ActorId) :
    Option Sweep :=
  if (w.sys.table.act i).pid = -1 then some w
  else if w.sys.idle thresholdMs nowMs i then
    if dryRun then some { w with scanned := w.scanned + 1, killed := w.killed + 1 }
    else
      (w.sys.apForceKill i.val).map fun r =>
        ⟨r.2, if r.1 = 0 then w.killed + 1 else w.killed, w.scanned + 1⟩
  else some { w with scanned := w.scanned + 1 }

/-- `ap_gc_sweep`; the counts are what it returns. -/
def apGcSweep (s : Sys) (thresholdMs : ℤ) (dryRun : Bool) (nowMs : ℕ) : Option Sweep :=
  exec (sweepSlot thresholdMs dryRun nowMs) ⟨s, 0, 0⟩ s.table.slots

/-- The body of the first loop of `ap_reset`. -/
def killPid (t : ActorTable) (k : Kernel) (i : ActorId) : Option Kernel :=
  if 0 < (t.act i).pid then k.procKill (t.act i).pid else some k

/-- `ap_reset`. -/
def apReset (s : Sys) : Option Sys :=
  (exec (killPid s.table) s.kernel s.table.slots).map fun k =>
    { s with kernel := k.aiplForceRelease, table := s.table.clear }

/-- The body of the loop of `ap_killall`. -/
def reap (s : Sys) (i : ActorId) : Option Sys :=
  if 0 < (s.table.act i).pid then s.killSlot i else some s

/-- `ap_killall`. -/
def apKillall (s : Sys) : Option Sys :=
  (exec reap s s.table.slots).map fun s => { s with table := { s.table with nact := 0 } }

/-- `proc_create_arg` of a process that is no actor. -/
def createOther (s : Sys) (addr stksize : ℕ) (name : List Char) (arg : ℤ) : Option Sys := do
  let (pid, k) ← s.kernel.procCreateArg (.other addr) stksize name arg
  match Kernel.slotOf pid with
  | none => return { s with kernel := k }
  | some p => return { s with kernel := k, ctl := Function.update s.ctl p (.running .code) }

end Sys

/-- Actions of the current process, and interrupts. -/
inductive SysOp
  | send (dest method a0 a1 a2 a3 : ℤ)
  | call (dest method a0 a1 a2 a3 : ℤ)
  | select (meths : List ℤ)
  | postStep
  | recvStep (nowMs : ℕ)
  | lockStep
  | selectStep
  | relockStep
  | ret (r : ℤ)
  | crash
  | finishStep
  | spawn (nowMs : ℕ)
  | suicide (id : ℤ)
  | gcProtect (id : ℤ) (on : Bool)
  | forceKill (id : ℤ)
  | gcSweep (thresholdMs : ℤ) (dryRun : Bool) (nowMs : ℕ)
  | reset
  | killall
  /-- `cc_actor_send_msg` and `cc_actor_send_str` enter a handler -/
  | direct (actor : ActorId)
  /-- `aipl_lock` and `aipl_unlock` around other code -/
  | lock
  | unlock
  | create (addr stksize : ℕ) (name : List Char) (arg : ℤ)
  /-- `proc_exit` of a process that is no actor; the boot context never exits -/
  | exit
  | resched

namespace Sys

/-- An action that any running code may take. -/
def asCode (s : Sys) (act : Frame → Option Sys) : Option Sys := s.cur.running?.bind act

def step (s : Sys) : SysOp → Option Sys
  | .send dest method a0 a1 a2 a3 => s.apSend dest method a0 a1 a2 a3
  | .call dest method a0 a1 a2 a3 => s.apCall dest method a0 a1 a2 a3
  | .select meths => s.apSelect meths
  | .postStep => s.postStep
  | .recvStep nowMs => s.recvStep nowMs
  | .lockStep => s.lockStep
  | .selectStep => s.selectStep
  | .relockStep => s.relockStep
  | .ret r => s.handlerReturn r
  | .crash => s.apCrash
  | .finishStep => s.finishStep
  | .spawn nowMs => s.asCode fun _ => (s.apSpawn nowMs).map Prod.snd
  | .suicide id => s.asCode fun _ => some { s with table := s.table.apSuicide id }
  | .gcProtect id on => s.asCode fun _ => some { s with table := s.table.apGcProtect id on }
  | .forceKill id => s.asCode fun _ => (s.apForceKill id).map Prod.snd
  | .gcSweep thresholdMs dryRun nowMs => s.asCode fun _ =>
    (s.apGcSweep thresholdMs dryRun nowMs).map Sweep.sys
  | .reset => s.asCode fun _ => s.apReset
  | .killall => s.asCode fun _ => s.apKillall
  | .direct actor => s.asCode fun f =>
    if f = .code then some (s.goto (.locking (.direct actor) 0)) else none
  | .lock => s.asCode fun f => if f = .code then some (s.goto (.locking .code 0)) else none
  | .unlock => s.asCode fun f =>
    if f = .code then some { s with kernel := s.kernel.aiplUnlock } else none
  | .create addr stksize name arg => s.asCode fun _ => s.createOther addr stksize name arg
  | .exit => s.asCode fun f =>
    if f = .code ∧ s.kernel.currpid ≠ nullproc then
      s.kernel.procExit.map fun k => { s with kernel := k }
    else none
  | .resched => some { s with kernel := s.kernel.procResched }

/-- Right after `ap_reset` on a booted kernel, whatever the actor table held. -/
def init (lo hi : ℕ) (t : ActorTable) : Sys where
  kernel := (Kernel.boot lo hi).procInit
  table := t.clear
  ctl _ := .running .code
  nextTag := 0
  answers := []
  returns := []

end Sys

end XinuRpi4.Actor
