import XinuRpi4.Foundation.RingBuffer
import XinuRpi4.Process.Kernel

/-!
# The actor table of `system/actorproc.c`

Mailboxes and bookkeeping of the actors, without the processes that run them.
The sections of `ap_post`, `ap_recv` and `ap_select` that run with interrupts
masked are functions on the table; what they ask of the scheduler (a process to
wake, or the caller to block) is part of their result. Actor ids are C integers
where the source takes them unchecked, and slots of `g_act` once they are known
to be in range.
-/

namespace XinuRpi4.Actor

open Foundation

/-- `AP_NACT`. -/
abbrev apNact : ℕ := Process.nproc - 1

/-- `AP_QLEN`. -/
abbrev apQlen : ℕ := 64

/-- An index of `g_act`. -/
abbrev ActorId := Fin apNact

instance : NeZero apNact := ⟨by decide⟩

instance (priority := 2000) neZeroActors : NeZero (apNact + 1) := ⟨by decide⟩

/-- `AP_REPLY`, the method of a reply. -/
abbrev apReply : ℤ := -2

/-- `AP_CRASH_REPLY`. -/
abbrev apCrashReply : ℤ := 0x80000001

/-- `struct ap_msg`. The tag is ghost: it names the call that a request or a
reply belongs to, and no function looks at it. -/
structure ApMsg where
  method : ℤ
  a0 : ℤ
  a1 : ℤ
  a2 : ℤ
  a3 : ℤ
  replyTo : ℤ
  tag : Option ℕ
  deriving DecidableEq

/-- Message of an `ap_send`. -/
def sendMsg (method a0 a1 a2 a3 : ℤ) : ApMsg := ⟨method, a0, a1, a2, a3, -1, none⟩

/-- Reply to a request, with the tag of the request. -/
def replyMsg (r : ℤ) (tag : Option ℕ) : ApMsg := ⟨apReply, r, 0, 0, 0, -1, tag⟩

/-- Whether `ap_select` takes the message. -/
def ApMsg.wanted (meths : List ℤ) (m : ApMsg) : Bool := m.method ∈ meths

/-- A synchronous call in progress. -/
structure Call where
  self : ActorId
  dest : ℤ
  tag : ℕ
  deriving DecidableEq

/-- A call with a value: what a handler answered, or what the call returned. -/
structure Outcome where
  tag : ℕ
  actor : ℤ
  value : ℤ
  deriving DecidableEq

abbrev Mailbox := Ring ApMsg apQlen

/-- A slot of `g_act`. -/
structure ActorEnt where
  mailbox : Mailbox
  /-- pid of the actor's process, `-1` for none -/
  pid : ℤ
  waiting : Bool
  nmsg : ℕ
  birthMs : ℕ
  lastActiveMs : ℕ
  protectedFromGc : Bool

structure ActorTable where
  /-- `g_act` -/
  act : ActorId → ActorEnt
  /-- `g_nact` -/
  nact : Fin (apNact + 1)
  /-- `g_dead` -/
  dead : ActorId → Bool
  /-- `g_jmp_armed` -/
  jmpArmed : ActorId → Bool
  /-- `g_cur_reply` -/
  curReply : ActorId → ℤ
  /-- `g_ap_drop_oob`, `g_ap_drop_dead` and `g_ap_drop_full` -/
  dropOob : ℕ
  dropDead : ℕ
  dropFull : ℕ

instance (b : Mailbox) : Decidable b.Full := inferInstanceAs (Decidable (_ = _))

instance (b : Mailbox) : Decidable b.Empty := inferInstanceAs (Decidable (_ = _))

/-- The scan of `ap_select` from index `idx`: the first queued message whose
method is asked for, and the mailbox without it. -/
def selectScan (b : Mailbox) (meths : List ℤ) : ℕ → ℕ → Option (ApMsg × Mailbox)
  | 0, _ => none
  | fuel + 1, idx =>
    if idx = b.tail then none
    else if (b.cell idx).method ∈ meths then some (b.cell idx, b.removeAt idx)
    else selectScan b meths fuel ((idx + 1) % apQlen)

namespace ActorTable

def modify (t : ActorTable) (i : ActorId) (f : ActorEnt → ActorEnt) : ActorTable :=
  { t with act := Function.update t.act i (f (t.act i)) }

/-- The slot of an id that passes `0 <= id && id < g_nact`. -/
def slotOf (t : ActorTable) (id : ℤ) : Option ActorId :=
  if h : 0 ≤ id ∧ id < t.nact.val then some ⟨id.toNat, by omega⟩ else none

/-- The checks of `ap_post`, made before interrupts are masked. -/
def postCheck (t : ActorTable) (dest : ℤ) : ActorTable × Option ActorId :=
  match t.slotOf dest with
  | none => ({ t with dropOob := t.dropOob + 1 }, none)
  | some i =>
    if (t.act i).pid = -1 then ({ t with dropDead := t.dropDead + 1 }, none) else (t, some i)

/-- The masked section of `ap_post`; a pid is returned when it is to be woken. -/
def postSection (t : ActorTable) (dest : ActorId) (m : ApMsg) : ActorTable × Option ℤ :=
  if (t.act dest).mailbox.Full then ({ t with dropFull := t.dropFull + 1 }, none)
  else
    (t.modify dest fun a => { a with mailbox := a.mailbox.push m, waiting := false },
      if (t.act dest).waiting then some (t.act dest).pid else none)

/-- `ap_post` without an interruption between its two parts. -/
def apPost (t : ActorTable) (dest : ℤ) (m : ApMsg) : ActorTable × Option ℤ :=
  match t.postCheck dest with
  | (t, none) => (t, none)
  | (t, some i) => t.postSection i m

/-- One round of the masked loop of `ap_recv`: a message, or the caller blocks. -/
def recvSection (t : ActorTable) (self : ActorId) (nowMs : ℕ) : ActorTable × Option ApMsg :=
  if (t.act self).mailbox.Empty then (t.modify self fun a => { a with waiting := true }, none)
  else
    (t.modify self fun a =>
      { a with mailbox := a.mailbox.advance, nmsg := (a.nmsg + 1) % 2 ^ 32, lastActiveMs := nowMs },
      some ((t.act self).mailbox.cell (t.act self).mailbox.head))

/-- One round of the loop of `ap_select`: a message, or the caller blocks. -/
def selectSection (t : ActorTable) (self : ActorId) (meths : List ℤ) :
    ActorTable × Option ApMsg :=
  match selectScan (t.act self).mailbox meths apQlen (t.act self).mailbox.head with
  | some (m, b) => (t.modify self fun a => { a with mailbox := b }, some m)
  | none => (t.modify self fun a => { a with waiting := true }, none)

/-- The slots that loops over `0 .. g_nact - 1` visit, in order. -/
def slots (t : ActorTable) : List ActorId :=
  (List.finRange t.nact.val).map (Fin.castLE (Nat.lt_succ_iff.mp t.nact.isLt))

/-- The slot that `ap_spawn` takes, and the table with `g_nact` raised for it. -/
def spawnSlot (t : ActorTable) : Option (ActorId × ActorTable) :=
  match t.slots.find? fun i => (t.act i).pid = -1 with
  | some i => some (i, t)
  | none =>
    if h : t.nact.val < apNact then
      some (⟨t.nact.val, h⟩, { t with nact := ⟨t.nact.val + 1, by omega⟩ })
    else none

/-- The fields that `ap_spawn` resets before it creates the process. -/
def resetSlot (t : ActorTable) (i : ActorId) (nowMs : ℕ) : ActorTable :=
  { t.modify i fun a =>
      { a with
        mailbox := a.mailbox.clear, waiting := false, nmsg := 0
        birthMs := nowMs, lastActiveMs := nowMs, protectedFromGc := false } with
    jmpArmed := Function.update t.jmpArmed i false
    dead := Function.update t.dead i false }

/-- The second loop of `ap_reset`, over the whole table, and `g_nact = 0`. -/
def clear (t : ActorTable) : ActorTable :=
  { t with
    act := fun i =>
      { t.act i with
        mailbox := (t.act i).mailbox.clear, pid := -1, waiting := false, nmsg := 0 }
    jmpArmed := fun _ => false
    nact := 0 }

/-- `ap_suicide`. -/
def apSuicide (t : ActorTable) (id : ℤ) : ActorTable :=
  match t.slotOf id with
  | none => t
  | some i => { t with dead := Function.update t.dead i true }

/-- `ap_gc_protect`. -/
def apGcProtect (t : ActorTable) (id : ℤ) (on : Bool) : ActorTable :=
  match t.slotOf id with
  | none => t
  | some i => t.modify i fun a => { a with protectedFromGc := on }

/-- `ap_note_msg`. -/
def apNoteMsg (t : ActorTable) (actor : ℤ) : ActorTable :=
  match t.slotOf actor with
  | none => t
  | some i => t.modify i fun a => { a with nmsg := (a.nmsg + 1) % 2 ^ 32 }

/-- `now - last_active_ms` as a signed 64-bit number. -/
def idleMs (t : ActorTable) (i : ActorId) (nowMs : ℕ) : ℤ :=
  Int.bmod ((nowMs : ℤ) - (t.act i).lastActiveMs) (2 ^ 64)

/-- `ap_actor_age_ms`. -/
def apActorAgeMs (t : ActorTable) (id : ℤ) (nowMs : ℕ) : ℤ :=
  match t.slotOf id with
  | none => -1
  | some i => if (t.act i).pid = -1 then -1 else t.idleMs i nowMs

/-- What `ap_actor_stat` fills in. -/
structure Stat where
  pid : ℤ
  qlen : ℕ
  waiting : Bool
  nmsg : ℕ
  deriving DecidableEq

/-- `ap_actor_stat`; `none` for an id out of range. -/
def apActorStat (t : ActorTable) (id : ℤ) : Option Stat :=
  (t.slotOf id).map fun i =>
    let a := t.act i
    ⟨a.pid, (a.mailbox.tail + apQlen - a.mailbox.head) % apQlen, a.waiting, a.nmsg⟩

/-- The messages queued for a slot. -/
def queue (t : ActorTable) (i : ActorId) : List ApMsg := (t.act i).mailbox.contents

end ActorTable

end XinuRpi4.Actor
