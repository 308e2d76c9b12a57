import XinuRpi4.Compiler.Codegen

/-!
# The code buffer and the fixup tables of `cc/codegen.c`

The lines of a function are carried out on the buffer, its branches are patched, and the
calls of user functions are patched when all functions are in the buffer. Every `put32`
is logged. At the first access outside a table the model stops.
-/

namespace XinuRpi4.Compiler

/-- `bfx` -/
structure Fixup where
  site : ℤ
  lab : ℕ
  kind : BranchKind
  cond : BitVec 32
deriving DecidableEq

namespace Line

/-- The words that a line emits. -/
def words : Line → List (BitVec 32)
  | word w => [w]
  | branch kind _ _ => [kind.opcode]
  | call _ => loadimmWords X9 0
  | place _ => []
  | access _ _ => []

end Line

/-- The emit buffer and the tables. -/
structure CodeBuf where
  /-- `g_pos`, `g_cap` and `g_oom` -/
  pos : ℤ
  cap : ℤ
  oom : Bool
  /-- ghost: position and word of every `put32`, the last one first -/
  puts : List (ℤ × BitVec 32)
  labOff : ℕ → ℤ
  bfx : List Fixup
  /-- `cfx`: sites and called functions -/
  cfx : List (ℤ × ℕ)
  /-- the first access outside a table -/
  overrun : Option (Table × ℕ)

namespace CodeBuf

variable (b : CodeBuf)

/-- `put32` -/
def put32 (pos : ℤ) (w : BitVec 32) : CodeBuf := { b with puts := (pos, w) :: b.puts }

/-- `emit` -/
def emit (w : BitVec 32) : CodeBuf :=
  if b.cap < toInt32 (b.pos + 4) then { b with oom := true }
  else { b.put32 b.pos w with pos := toInt32 (b.pos + 4) }

/-- Entry `i` of a table is accessed. -/
def access (t : Table) (i : ℕ) : CodeBuf :=
  if i < t.size then b else { b with overrun := some (t, i) }

/-- `if (nbfx<MAXBFX) { ... nbfx++; }` -/
def record (f : Fixup) : CodeBuf :=
  if b.bfx.length < Table.bfx.size then
    { b.access .bfx b.bfx.length with bfx := b.bfx ++ [f] }
  else b

/-- `if (ncfx < MAXCFX) { ... ncfx++; }` -/
def recordCall (fn : ℕ) : CodeBuf :=
  if b.cfx.length < Table.cfx.size then
    { b.access .cfx b.cfx.length with cfx := b.cfx ++ [(b.pos, fn)] }
  else b

/-- `place` -/
def place (l : ℕ) : CodeBuf :=
  if l < Table.labOff.size then
    { b.access .labOff l with labOff := Function.update b.labOff l b.pos }
  else b

/-- `emit`, word by word -/
def emits : CodeBuf → List (BitVec 32) → CodeBuf
  | b, [] => b
  | b, w :: ws => emits (b.emit w) ws

/-- What a line does to the tables. -/
def mark : Line → CodeBuf
  | .word _ => b
  | .branch kind lab cond => b.record { site := b.pos, lab := lab, kind := kind, cond := cond }
  | .call fn => b.recordCall fn
  | .place lab => b.place lab
  | .access t i => b.access t i

/-- A line is carried out. -/
def step (l : Line) : CodeBuf := (b.mark l).emits l.words

/-- Lines are carried out, up to an access outside a table. -/
def run : CodeBuf → List Line → CodeBuf
  | b, [] => b
  | b, l :: ls => if b.overrun.isSome then b else run (b.step l) ls

/-- The word that `resolve_branches` puts at a site. -/
def branchWord (labOff : ℕ → ℤ) (f : Fixup) : BitVec 32 :=
  let delta : BitVec 32 := BitVec.ofInt 32 (toInt32 (labOff f.lab - f.site) >>> (2 : ℕ))
  match f.kind with
  | .b => BranchKind.b.opcode ||| delta &&& 0x03FFFFFF
  | .cbz => BranchKind.cbz.opcode ||| (delta &&& 0x7FFFF) <<< 5
  | .cbnz => BranchKind.cbnz.opcode ||| (delta &&& 0x7FFFF) <<< 5
  | .bcond => BranchKind.bcond.opcode ||| (delta &&& 0x7FFFF) <<< 5 ||| f.cond

/-- `resolve_branches` -/
def resolveBranches : CodeBuf → List Fixup → CodeBuf
  | b, [] => b
  | b, f :: fs =>
    let b := b.access .labOff f.lab
    if b.overrun.isSome then b else resolveBranches (b.put32 f.site (branchWord b.labOff f)) fs

/-- Words are put one behind the other. -/
def putWords : CodeBuf → ℤ → List (BitVec 32) → CodeBuf
  | b, _, [] => b
  | b, pos, w :: ws => putWords (b.put32 pos w) (pos + 4) ws

/-- `patch_loadimm` -/
def patchLoadimm (pos : ℤ) (r : ℕ) (v : Word) : CodeBuf := b.putWords pos (loadimmWords r v)

/-- `gen_func` -/
def genFunc (env : GenEnv) (fn : Func) : CodeBuf :=
  let b := run { b with bfx := [] } (listing env fn)
  if b.overrun.isSome then b else b.resolveBranches b.bfx

/-- The buffer as `cc_codegen` sets it up. -/
def start (env : GenEnv) (cap : ℤ) : CodeBuf where
  pos := 0
  cap := cap
  oom := false
  puts := []
  labOff := env.labOff
  bfx := []
  cfx := []
  overrun := none

end CodeBuf

/-- What the loop of `cc_codegen` over the functions ends with. -/
structure GenResult where
  buf : CodeBuf
  /-- `code_off` of the functions so far -/
  codeOff : List ℤ
  err : Option String

/-- The loop of `cc_codegen`. -/
def genLoop (env : GenEnv) : List Func → CodeBuf → List ℤ → GenResult
  | [], b, offs => { buf := b, codeOff := offs, err := none }
  | fn :: fns, b, offs =>
    let b' := b.genFunc env fn
    let offs := offs ++ [b.pos]
    if b'.overrun.isSome then { buf := b', codeOff := offs, err := none }
    else if (walkErr env fn).isSome then { buf := b', codeOff := offs, err := walkErr env fn }
    else if b'.oom then { buf := b', codeOff := offs, err := some "code buffer overflow" }
    else genLoop env fns b' offs

/-- The calls of user functions are resolved. -/
def patchCalls (env : GenEnv) (codeOff : List ℤ) : List (ℤ × ℕ) → CodeBuf → CodeBuf
  | [], b => b
  | (site, fn) :: cfx, b =>
    let addr := env.buf + BitVec.ofInt 64 (codeOff.getD fn 0)
    patchCalls env codeOff cfx (b.patchLoadimm site X9 addr)

/-- How `cc_codegen` ends: the buffer, the recorded error, the returned value and
`*entry_off`; no value where it has left a table. -/
structure CodegenResult where
  buf : CodeBuf
  err : Option String
  ret : Option ℤ
  entryOff : Option ℤ

/-- `cc_codegen` -/
def ccCodegen (env : GenEnv) (cap : ℤ) : CodegenResult :=
  let r := genLoop env env.funcs (.start env cap) []
  if r.buf.overrun.isSome then { buf := r.buf, err := none, ret := none, entryOff := none }
  else if r.err.isSome then { buf := r.buf, err := r.err, ret := some (-1), entryOff := none }
  else
    let b := patchCalls env r.codeOff r.buf.cfx r.buf
    match env.findFunc "main" with
    | none => { buf := b, err := some "no main() function", ret := some (-1), entryOff := none }
    | some i => { buf := b, err := none, ret := some b.pos, entryOff := r.codeOff[i]? }

end XinuRpi4.Compiler
