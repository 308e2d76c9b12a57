import XinuRpi4.Foundation.Runs

/-!
# Probes of device registers

`safe_mmio_read32` and `safe_mmio_write32` fill `g_probe_jmp`, set `g_probe_active` and
touch the register. A synchronous exception looks at the flag: when it is clear a page of
the demand window is mapped, when it is set the handler jumps through the buffer.

There is one flag and one buffer for all processes, and the timer may switch processes
between any two instructions of a probe. The handler runs with interrupts masked up to
where it unmasks them, in front of the jump.
-/

namespace XinuRpi4.System

def vmdBase : ℕ := 0x80000000

/-- `VMD_2MB` blocks of 2 MiB. -/
def vmdEnd : ℕ := vmdBase + 2 * 0x200000

def vmdPoolPages : ℕ := 512

/-- The pages of the demand window that are mapped, and `vmd_pool_next`. -/
structure Vmd where
  present : List ℕ
  poolNext : ℕ

/-- `vm_fault`: the window behind it where it returns 1. -/
def vmFault (v : Vmd) (va : ℕ) : Option Vmd :=
  if va < vmdBase ∨ vmdEnd ≤ va then none
  else
    let page := (va - vmdBase) / 0x1000
    if page ∈ v.present then some v
    else if vmdPoolPages ≤ v.poolNext then none
    else some ⟨page :: v.present, v.poolNext + 1⟩

/-- `is_abort && is_xlate` of `sync_dispatch_c`, and `FAR_EL1`. -/
structure Fault where
  translation : Bool
  far : ℕ

/-- Where a process stands. A probe call has a number, which tells calls apart. -/
inductive Stage
  | running
  /-- `__builtin_setjmp` has stored `i` words of the buffer -/
  | setjmp (c i : ℕ)
  | arm (c : ℕ)
  | access (c : ℕ)
  | disarm (c v : ℕ)
  /-- `__builtin_longjmp`, with the words that it has loaded; ghost: the call that faulted -/
  | jump (origin : Option ℕ) (got : List (Option ℕ))
  /-- the setjmp of a call has returned 1 -/
  | landed (c : ℕ)
  /-- gone on with registers of two calls -/
  | lost
  /-- `recover_spin` -/
  | spin
  deriving DecidableEq

/-- What became of an exception. -/
inductive How
  | vm
  | jump
  | spin
  deriving DecidableEq

/-- Ghost: an exception, whether it came from the access of a probe, whether `vm_fault`
could map its page, and what became of it. -/
structure Taken where
  probe : Bool
  mappable : Bool
  how : How
  deriving DecidableEq

structure Probes where
  active : Bool
  /-- `g_probe_jmp`: the call that stored each word -/
  jmp : ℕ → Option ℕ
  vmd : Vmd
  stage : ℕ → Stage
  nextCall : ℕ
  /-- ghost: another process has stored in the buffer since the call of the process began -/
  clobbered : ℕ → Bool
  /-- ghost: another process has cleared the flag since the process set it -/
  cleared : ℕ → Bool
  /-- ghost: how the access of a call ended, with the value or in an exception -/
  outcomes : List (ℕ × Option ℕ)
  /-- ghost: what calls returned, `none` for -1 -/
  results : List (ℕ × Option ℕ)
  taken : List Taken
  /-- ghost: jumps, from the call that faulted to the call that is gone on with -/
  jumps : List (Option ℕ × Option ℕ)

inductive ProbeOp
  /-- a process calls `safe_mmio_read32` or `safe_mmio_write32` -/
  | begin (p : ℕ)
  | cpu (p : ℕ)
  /-- the register answers -/
  | access (p v : ℕ)
  | fault (p : ℕ) (f : Fault)
  | kill (p : ℕ)

namespace Probes

def init : Probes where
  active := false
  jmp _ := none
  vmd := ⟨[], 0⟩
  stage _ := .running
  nextCall := 0
  clobbered _ := false
  cleared _ := false
  outcomes := []
  results := []
  taken := []
  jumps := []

def setStage (s : Probes) (p : ℕ) (st : Stage) : Probes :=
  { s with stage := Function.update s.stage p st }

/-- A word of the buffer is stored. -/
def store (s : Probes) (p i c : ℕ) : Probes :=
  { s with
    jmp := Function.update s.jmp i (some c)
    clobbered := fun q => if q = p then s.clobbered q else true }

/-- `g_probe_active = 0`. -/
def clear (s : Probes) (p : ℕ) : Probes :=
  { s with active := false, cleared := fun q => if q = p then s.cleared q else true }

/-- `g_probe_active = 1`. -/
def arm (s : Probes) (p : ℕ) : Probes :=
  { s with active := true, cleared := Function.update s.cleared p false }

/-- The next instruction of a probe, or of the jump behind an exception. -/
def cpu (s : Probes) (p : ℕ) : Option Probes :=
  match s.stage p with
  | .setjmp c i =>
    some ((s.store p i c).setStage p (if i < 2 then .setjmp c (i + 1) else .arm c))
  | .arm c => some ((s.arm p).setStage p (.access c))
  | .disarm c v =>
    some { (s.clear p).setStage p .running with results := s.results ++ [(c, some v)] }
  | .jump origin got =>
    if got.length < 3 then some (s.setStage p (.jump origin (got ++ [s.jmp got.length])))
    else
      match got with
      | [some c, some c', some c''] =>
        if c = c' ∧ c' = c'' then
          some { s.setStage p (.landed c) with jumps := s.jumps ++ [(origin, some c)] }
        else some { s.setStage p .lost with jumps := s.jumps ++ [(origin, none)] }
      | _ => some { s.setStage p .lost with jumps := s.jumps ++ [(origin, none)] }
  | .landed c => some { (s.clear p).setStage p .running with results := s.results ++ [(c, none)] }
  | _ => none

/-- The call whose access a process is at. -/
def atAccess (s : Probes) (p : ℕ) : Option ℕ :=
  match s.stage p with
  | .access c => some c
  | _ => none

/-- `sync_handler_default`, up to where it unmasks interrupts. -/
def syncHandlerDefault (s : Probes) (p : ℕ) : Probes × How :=
  if s.active then ((s.clear p).setStage p (.jump (s.atAccess p) []), .jump)
  else (s.setStage p .spin, .spin)

/-- `sync_dispatch_c`. A page that is mapped lets the instruction run again. -/
def syncDispatch (s : Probes) (p : ℕ) (f : Fault) : Probes × How :=
  if f.translation ∧ ¬ s.active then
    match vmFault s.vmd f.far with
    | some v => ({ s with vmd := v }, .vm)
    | none => s.syncHandlerDefault p
  else s.syncHandlerDefault p

/-- An exception, with its log entries. -/
def fault (s : Probes) (p : ℕ) (f : Fault) : Probes :=
  let r := s.syncDispatch p f
  { r.1 with
    taken := s.taken ++
      [⟨(s.atAccess p).isSome, f.translation && (vmFault s.vmd f.far).isSome, r.2⟩]
    outcomes :=
      match s.atAccess p, r.2 with
      | some c, .jump => s.outcomes ++ [(c, none)]
      | _, _ => s.outcomes }

def step (s : Probes) : ProbeOp → Option Probes
  | .begin p =>
    if s.stage p = .running then
      some { s.setStage p (.setjmp s.nextCall 0) with
        nextCall := s.nextCall + 1, clobbered := Function.update s.clobbered p false }
    else none
  | .cpu p => s.cpu p
  | .access p v =>
    match s.stage p with
    | .access c => some { s.setStage p (.disarm c v) with outcomes := s.outcomes ++ [(c, some v)] }
    | _ => none
  | .fault p f => some (s.fault p f)
  | .kill p => some (s.setStage p .running)

/-- Jumps go back to the call that faulted, other exceptions are served as they are
without probes, and every call returns what its own access gave. -/
structure Sound (s : Probes) : Prop where
  jumps : ∀ j ∈ s.jumps, j.1.isSome ∧ j.2 = j.1
  probes : ∀ t ∈ s.taken, t.probe → t.how = .jump
  others : ∀ t ∈ s.taken, ¬ t.probe → t.how = if t.mappable then .vm else .spin
  results : ∀ r ∈ s.results, r ∈ s.outcomes

instance Sound.decidable (s : Probes) : Decidable s.Sound :=
  decidable_of_iff ((∀ j ∈ s.jumps, j.1.isSome ∧ j.2 = j.1) ∧
    (∀ t ∈ s.taken, t.probe → t.how = .jump) ∧
    (∀ t ∈ s.taken, ¬ t.probe → t.how = if t.mappable then .vm else .spin) ∧
    ∀ r ∈ s.results, r ∈ s.outcomes)
    ⟨fun h => ⟨h.1, h.2.1, h.2.2.1, h.2.2.2⟩, fun h => ⟨h.jumps, h.probes, h.others, h.results⟩⟩

/-- A probe that faults has had flag and buffer for itself, up to where the jump has read
the buffer; any other exception comes while the flag is clear. -/
def Apart (s : Probes) : ProbeOp → Prop
  | .fault p _ =>
    match s.stage p with
    | .access _ => s.clobbered p = false ∧ s.cleared p = false
    | _ => s.active = false
  | .cpu p =>
    match s.stage p with
    | .jump _ got => got.length < 3 → s.clobbered p = false
    | _ => True
  | _ => True

instance Apart.decidable (s : Probes) (op : ProbeOp) : Decidable (s.Apart op) := by
  cases op with
  | fault p f =>
    unfold Apart
    dsimp only
    split <;> infer_instance
  | cpu p =>
    unfold Apart
    dsimp only
    split <;> infer_instance
  | begin p => exact .isTrue trivial
  | access p v => exact .isTrue trivial
  | kill p => exact .isTrue trivial

end Probes

end XinuRpi4.System
