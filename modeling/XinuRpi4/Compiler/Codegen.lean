import XinuRpi4.Compiler.Parser

/-!
# The walk of `cc/codegen.c` over a program

`gen_expr`, `gen_stmt` and `gen_func` never read the buffer, the position in it or the
fixup tables. What they do to these is a list of lines, which the walk produces in the
order of the calls; the lines of a function are carried out on the buffer afterwards.
-/

namespace XinuRpi4.Compiler

/-- The kinds of branches that are patched when the labels are known. -/
inductive BranchKind
  | b | cbz | cbnz | bcond
deriving DecidableEq

namespace BranchKind

/-- The instruction without its offset. -/
def opcode : BranchKind → BitVec 32
  | b => 0x14000000
  | cbz => 0xB4000000
  | cbnz => 0xB5000000
  | bcond => 0x54000000

end BranchKind

/-- The tables of fixed size. -/
inductive Table
  | brkLab | contLab | labOff | bfx | cfx
deriving DecidableEq

/-- `LOOPDEPTH`, `MAXLAB`, `MAXBFX` and `MAXCFX` -/
def Table.size : Table → ℕ
  | brkLab => 64
  | contLab => 64
  | labOff => 2048
  | bfx => 2048
  | cfx => 2048

/-- What the walk does to the buffer and to the tables. -/
inductive Line
  /-- `emit` -/
  | word (w : BitVec 32)
  /-- a branch to a label: its site is recorded, and it is emitted -/
  | branch (kind : BranchKind) (lab : ℕ) (cond : BitVec 32)
  /-- a call of a user function: its site is recorded, and `emit_loadimm(X9, 0)` -/
  | call (fn : ℕ)
  /-- `place` -/
  | place (lab : ℕ)
  /-- an entry of a stack of loop labels is written or read -/
  | access (t : Table) (i : ℕ)
deriving DecidableEq

/-- The variables of the generator that the walk itself reads. -/
structure WalkState where
  nlab : ℕ
  /-- ghost: the calls of `newlabel` -/
  asked : ℕ
  /-- `brk_lab[0..brk_top)` and `cont_lab[0..cont_top)`, the top first -/
  brk : List ℕ
  cont : List ℕ
  /-- `clabel` of the case nodes -/
  clabel : ℕ → ℕ
  err : Option String

/-- A part of the walk, with the lines that it produces. -/
def Walk (α : Type) : Type := WalkState → α × WalkState × List Line

namespace Walk

variable {α β : Type}

def pure (a : α) : Walk α := fun s => (a, s, [])

def bind (p : Walk α) (f : α → Walk β) : Walk β := fun s =>
  let (a, s₁, ls) := p s
  let (b, s₂, ls') := f a s₁
  (b, s₂, ls ++ ls')

instance : Monad Walk where
  pure := Walk.pure
  bind := Walk.bind

def line (l : Line) : Walk Unit := fun s => ((), s, [l])

def get : Walk WalkState := fun s => (s, s, [])

def modify (f : WalkState → WalkState) : Walk Unit := fun s => ((), f s, [])

end Walk

section Encoders

/-- A register number in an instruction. -/
def reg (n : ℕ) : BitVec 32 := BitVec.ofNat 32 n

/-- The low 12 bits of an immediate. -/
def imm12 (imm : ℤ) : BitVec 32 := BitVec.ofInt 32 imm &&& 0xFFF

/-- `X9`, `X29`, `SP` and `XZR` -/
def X9 : ℕ := 9
def X29 : ℕ := 29
def SP : ℕ := 31
def XZR : ℕ := 31

def emit (w : BitVec 32) : Walk Unit := Walk.line (.word w)

def emitPush : Walk Unit := emit 0xF81F0FE0

def emitPop (r : ℕ) : Walk Unit := emit (0xF84107E0#32 ||| reg r)

/-- The word of `emit_add_rrr`, and likewise for the other encoders. -/
def addRrr (d n m : ℕ) : BitVec 32 := 0x8B000000#32 ||| reg m <<< 16 ||| reg n <<< 5 ||| reg d

def subRrr (d n m : ℕ) : BitVec 32 := 0xCB000000#32 ||| reg m <<< 16 ||| reg n <<< 5 ||| reg d

def mulWord (d n m : ℕ) : BitVec 32 :=
  0x9B000000#32 ||| reg m <<< 16 ||| 0x1F#32 <<< 10 ||| reg n <<< 5 ||| reg d

def sdivWord (d n m : ℕ) : BitVec 32 := 0x9AC00C00#32 ||| reg m <<< 16 ||| reg n <<< 5 ||| reg d

def msubWord (d n m a : ℕ) : BitVec 32 :=
  0x9B008000#32 ||| reg m <<< 16 ||| reg a <<< 10 ||| reg n <<< 5 ||| reg d

def addImm (d n : ℕ) (imm : ℤ) : BitVec 32 :=
  0x91000000#32 ||| imm12 imm <<< 10 ||| reg n <<< 5 ||| reg d

def subImm (d n : ℕ) (imm : ℤ) : BitVec 32 :=
  0xD1000000#32 ||| imm12 imm <<< 10 ||| reg n <<< 5 ||| reg d

def cmpRr (n m : ℕ) : BitVec 32 := 0xEB000000#32 ||| reg m <<< 16 ||| reg n <<< 5 ||| 0x1F#32

def cmp0 (n : ℕ) : BitVec 32 := 0xF100001F#32 ||| reg n <<< 5

/-- The conditions of `cset` and `b.cond`. -/
def cEQ : BitVec 32 := 0
def cNE : BitVec 32 := 1
def cLT : BitVec 32 := 11
def cLE : BitVec 32 := 13

def csetWord (d : ℕ) (cond : BitVec 32) : BitVec 32 := 0x9A9F07E0#32 ||| (cond ^^^ 1) <<< 12 ||| reg d

def ldrWord (t n : ℕ) : BitVec 32 := 0xF9400000#32 ||| reg n <<< 5 ||| reg t

def strWord (t n : ℕ) : BitVec 32 := 0xF9000000#32 ||| reg n <<< 5 ||| reg t

def ldrbWord (t n : ℕ) : BitVec 32 := 0x39400000#32 ||| reg n <<< 5 ||| reg t

def strbWord (t n : ℕ) : BitVec 32 := 0x39000000#32 ||| reg n <<< 5 ||| reg t

def movImmSmall (d : ℕ) (v : BitVec 32) : BitVec 32 := 0xD2800000#32 ||| (v &&& 0xFFFF) <<< 5 ||| reg d

def blrWord (n : ℕ) : BitVec 32 := 0xD63F0000#32 ||| reg n <<< 5

def retWord : BitVec 32 := 0xD65F03C0

def prologueStp : BitVec 32 := 0xA9BF7BFD

def movFpSp : BitVec 32 := 0x910003FD

def movSpFp : BitVec 32 := 0x910003BF

def epilogueLdp : BitVec 32 := 0xA8C17BFD

/-- One of the four halfwords of a constant. -/
def half (v : Word) (i : ℕ) : BitVec 32 := ((v >>> (16 * i)) &&& 0xFFFF).setWidth 32

def movz (r : ℕ) (v : Word) : BitVec 32 := 0xD2800000#32 ||| half v 0 <<< 5 ||| reg r

def movk (i r : ℕ) (v : Word) : BitVec 32 :=
  0xF2800000#32 ||| BitVec.ofNat 32 i <<< 21 ||| half v i <<< 5 ||| reg r

/-- The words of `emit_loadimm`, and of `patch_loadimm`. -/
def loadimmWords (r : ℕ) (v : Word) : List (BitVec 32) :=
  [movz r v, movk 1 r v, movk 2 r v, movk 3 r v]

/-- `emit_loadimm` -/
def emitLoadimm (r : ℕ) (v : Word) : Walk Unit := do
  emit (movz r v)
  emit (movk 1 r v)
  emit (movk 2 r v)
  emit (movk 3 r v)

end Encoders

section Labels

/-- `cc_error`, as the walk sees it. -/
def walkError (msg : String) : Walk Unit :=
  Walk.modify fun s => { s with err := s.err.orElse fun _ => some msg }

/-- `newlabel` -/
def newlabel : Walk ℕ := do
  Walk.modify fun s => { s with asked := s.asked + 1 }
  let s ← Walk.get
  if Table.labOff.size ≤ s.nlab then
    walkError "too many labels"
    return 0
  else
    Walk.modify fun s => { s with nlab := s.nlab + 1 }
    return s.nlab

def place (l : ℕ) : Walk Unit := Walk.line (.place l)

def emitB (l : ℕ) : Walk Unit := Walk.line (.branch .b l 0)

def emitCbz (l : ℕ) : Walk Unit := Walk.line (.branch .cbz l 0)

/-- The `cbnz` of `||`. -/
def emitCbnz (l : ℕ) : Walk Unit := Walk.line (.branch .cbnz l 0)

def emitBcond (cond : BitVec 32) (l : ℕ) : Walk Unit := Walk.line (.branch .bcond l cond)

/-- `brk_lab[brk_top++] = l` -/
def pushBrk (l : ℕ) : Walk Unit := do
  Walk.line (.access .brkLab (← Walk.get).brk.length)
  Walk.modify fun s => { s with brk := l :: s.brk }

/-- `cont_lab[cont_top++] = l` -/
def pushCont (l : ℕ) : Walk Unit := do
  Walk.line (.access .contLab (← Walk.get).cont.length)
  Walk.modify fun s => { s with cont := l :: s.cont }

/-- `brk_top--` -/
def popBrk : Walk Unit := Walk.modify fun s => { s with brk := s.brk.tail }

/-- `cont_top--` -/
def popCont : Walk Unit := Walk.modify fun s => { s with cont := s.cont.tail }

/-- `if (!n || cc_failed()) return;` -/
def unlessFailed (p : Walk Unit) : Walk Unit := fun s => if s.err.isSome then ((), s, []) else p s

end Labels

/-- What `cc_codegen` is given. -/
structure GenEnv where
  types : ℕ → StructBody
  /-- `g_funcs` -/
  funcs : List Func
  /-- `cc_resolve_extern` -/
  resolveExtern : String → Word
  /-- `g_buf` -/
  buf : Word
  /-- `lab_off`, as the last compilation left it -/
  labOff : ℕ → ℤ

namespace GenEnv

/-- `g_tickaddr` -/
def tickaddr (env : GenEnv) : Word := env.resolveExtern "__cc_tick"

/-- `find_func` -/
def findFunc (env : GenEnv) (name : String) : Option ℕ :=
  env.funcs.findIdx? fun f => f.name = name

end GenEnv

/-- `v->offset` of the locals. -/
abbrev Offsets : Type := ℕ → ℤ

section Expressions

variable (env : GenEnv) (offset : Offsets)

/-- `emit_budget_check` -/
def emitBudgetCheck (exitLabel : ℕ) : Walk Unit :=
  if env.tickaddr = 0 then return
  else do
    emitLoadimm X9 env.tickaddr
    emit (blrWord X9)
    emitCbz exitLabel

/-- Register `d` gets `x29 - off`. -/
def frameAddr (d : ℕ) (off : ℤ) : Walk Unit :=
  if off ≤ 0xFFF then emit (subImm d X29 off)
  else do
    emitLoadimm X9 (BitVec.ofInt 64 off)
    emit (subRrr d X29 X9)

/-- `gen_addr` of a variable. -/
def varAddr (v : Var) : Walk Unit :=
  match v.place with
  | .global gaddr => emitLoadimm 0 (BitVec.ofNat 64 gaddr)
  | .frame id => frameAddr 0 (offset id)

/-- `if (n->member_off) emit_add_imm(0, 0, n->member_off);` -/
def addMemberOffset (off : ℤ) : Walk Unit := if off = 0 then return else emit (addImm 0 0 off)

/-- `gen_load` -/
def genLoad (ty : Ty) : Walk Unit :=
  match ty with
  | .array _ _ _ => return
  | ty => if ty.size env.types = 1 then emit (ldrbWord 0 0) else emit (ldrWord 0 0)

/-- `gen_store` -/
def genStore (ty : Ty) : Walk Unit :=
  if ty.size env.types = 1 then emit (strbWord 0 1) else emit (strWord 0 1)

/-- The operation of `gen_binary`, with the operands in `x0` and `x1`. -/
def binaryOp : BinKind → Walk Unit
  | .add => emit (addRrr 0 0 1)
  | .sub => emit (subRrr 0 0 1)
  | .mul => emit (mulWord 0 0 1)
  | .div => emit (sdivWord 0 0 1)
  | .mod => do
    emit (sdivWord 2 0 1)
    emit (msubWord 0 2 1 0)
  | .eq => do
    emit (cmpRr 0 1)
    emit (csetWord 0 cEQ)
  | .ne => do
    emit (cmpRr 0 1)
    emit (csetWord 0 cNE)
  | .lt => do
    emit (cmpRr 0 1)
    emit (csetWord 0 cLT)
  | .le => do
    emit (cmpRr 0 1)
    emit (csetWord 0 cLE)
  | .logand => walkError "bad binary op"
  | .logor => walkError "bad binary op"

/-- How many arguments a call has. -/
def Args.length : Args → ℕ
  | .nil => 0
  | .cons _ next => next.length + 1

def checkArgc (argc : ℕ) : Walk Unit :=
  if 8 < argc then walkError "too many call arguments (max 8)" else return

/-- `for (int i = argc - 1; i >= 0; i--) emit_pop(i);` -/
def popArgs : ℕ → Walk Unit
  | 0 => return
  | i + 1 => do
    emitPop i
    popArgs i

/-- The call of `gen_call`, behind its arguments. -/
def genCallee (funcname : String) : Walk Unit :=
  match env.findFunc funcname with
  | some fn => do
    Walk.line (.call fn)
    emit (blrWord X9)
  | none =>
    let addr := env.resolveExtern funcname
    if addr = 0 then walkError "call to undefined function"
    else do
      emitLoadimm X9 addr
      emit (blrWord X9)

mutual

/-- `gen_addr` -/
def genAddr : Expr → Walk Unit
  | .var v => varAddr offset v
  | .deref lhs _ => genExpr lhs
  | .member lhs off _ => do
    genAddr lhs
    addMemberOffset off
  | .str addr => emitLoadimm 0 addr
  | .num _ => walkError "not an lvalue"
  | .binary _ _ _ _ => walkError "not an lvalue"
  | .not _ => walkError "not an lvalue"
  | .neg _ => walkError "not an lvalue"
  | .assign _ _ _ => walkError "not an lvalue"
  | .addr _ _ => walkError "not an lvalue"
  | .funcall _ _ => walkError "not an lvalue"

/-- `gen_expr` -/
def genExpr : Expr → Walk Unit
  | .num val => unlessFailed (emitLoadimm 0 val)
  | .str addr => unlessFailed (emitLoadimm 0 addr)
  | .var v => unlessFailed do
    varAddr offset v
    genLoad env v.ty
  | .assign lhs rhs _ => unlessFailed do
    genAddr lhs
    emitPush
    genExpr rhs
    emitPop 1
    genStore env lhs.ty
  | .deref lhs ty => unlessFailed do
    genExpr lhs
    genLoad env ty
  | .member lhs off ty => unlessFailed do
    genAddr lhs
    addMemberOffset off
    genLoad env ty
  | .addr lhs _ => unlessFailed (genAddr lhs)
  | .neg lhs => unlessFailed do
    genExpr lhs
    emit (subRrr 0 XZR 0)
  | .not lhs => unlessFailed do
    genExpr lhs
    emit (cmp0 0)
    emit (csetWord 0 cEQ)
  | .binary .logand lhs rhs _ => unlessFailed do
    let lfalse ← newlabel
    let lend ← newlabel
    genExpr lhs
    emitCbz lfalse
    genExpr rhs
    emitCbz lfalse
    emit (movImmSmall 0 1)
    emitB lend
    place lfalse
    emit (movImmSmall 0 0)
    place lend
  | .binary .logor lhs rhs _ => unlessFailed do
    let ltrue ← newlabel
    let lend ← newlabel
    genExpr lhs
    emit (cmp0 0)
    emitCbnz ltrue
    genExpr rhs
    emitCbnz ltrue
    emit (movImmSmall 0 0)
    emitB lend
    place ltrue
    emit (movImmSmall 0 1)
    place lend
  | .binary k lhs rhs _ => unlessFailed do
    genExpr rhs
    emitPush
    genExpr lhs
    emitPop 1
    binaryOp k
  | .funcall funcname args => unlessFailed do
    checkArgc args.length
    genArgs 8 args
    popArgs (min args.length 8)
    genCallee env funcname

/-- The arguments of `gen_call`, of which there is room for eight. -/
def genArgs : ℕ → Args → Walk Unit
  | _, .nil => return
  | 0, .cons _ _ => return
  | k + 1, .cons head next => do
    genExpr head
    emitPush
    genArgs k next

end

end Expressions

section Statements

variable (env : GenEnv) (offset : Offsets)

/-- The comparisons of a `switch`, with the label of its last default case. -/
def genCases : List Case → Option ℕ → Walk (Option ℕ)
  | [], defcase => return defcase
  | c :: cases, defcase => do
    let l ← newlabel
    Walk.modify fun s => { s with clabel := Function.update s.clabel c.id l }
    if c.isDefault then genCases cases (some l)
    else
      emitLoadimm 1 c.val
      emit (cmpRr 0 1)
      emitBcond cEQ l
      genCases cases defcase

/-- An expression of a `for` that may be missing. -/
def genOptional : Option Expr → Walk Unit
  | none => return
  | some e => genExpr env offset e

/-- The condition of a `for`. -/
def genForCond (lend : ℕ) : Option Expr → Walk Unit
  | none => return
  | some e => do
    genExpr env offset e
    emitCbz lend

/-- The `init` of a `for` is an expression statement. -/
def genForInit : Option Expr → Walk Unit
  | none => return
  | some e => unlessFailed (genExpr env offset e)

/-- `break` -/
def genBreak : Walk Unit := do
  match (← Walk.get).brk with
  | [] => walkError "break outside loop/switch"
  | l :: rest =>
    Walk.line (.access .brkLab rest.length)
    emitB l

/-- `continue` -/
def genContinue : Walk Unit := do
  match (← Walk.get).cont with
  | [] => walkError "continue outside loop"
  | l :: rest =>
    Walk.line (.access .contLab rest.length)
    emitB l

/-- `cur_lret`, the first label of a function -/
def curLret : ℕ := 0

mutual

/-- `gen_stmt` -/
def genStmt : Stmt → Walk Unit
  | .exprStmt lhs => unlessFailed (genExpr env offset lhs)
  | .ret lhs => unlessFailed do
    genExpr env offset lhs
    emitB curLret
  | .ifThen cond then_ => unlessFailed do
    let lelse ← newlabel
    let lend ← newlabel
    genExpr env offset cond
    emitCbz lelse
    genStmt then_
    emitB lend
    place lelse
    place lend
  | .ifElse cond then_ els => unlessFailed do
    let lelse ← newlabel
    let lend ← newlabel
    genExpr env offset cond
    emitCbz lelse
    genStmt then_
    emitB lend
    place lelse
    genStmt els
    place lend
  | .loopWhile cond body => unlessFailed do
    let lbegin ← newlabel
    let lend ← newlabel
    place lbegin
    genExpr env offset cond
    emitCbz lend
    pushBrk lend
    pushCont lbegin
    genStmt body
    popBrk
    popCont
    emitBudgetCheck env lend
    emitB lbegin
    place lend
  | .loopFor init cond inc body => unlessFailed do
    let lbegin ← newlabel
    let lcont ← newlabel
    let lend ← newlabel
    genForInit env offset init
    place lbegin
    genForCond env offset lend cond
    pushBrk lend
    pushCont lcont
    genStmt body
    popBrk
    popCont
    place lcont
    genOptional env offset inc
    emitBudgetCheck env lend
    emitB lbegin
    place lend
  | .switch cond cases then_ => unlessFailed do
    let lend ← newlabel
    genExpr env offset cond
    let defcase ← genCases cases none
    emitB (defcase.getD lend)
    pushBrk lend
    genStmt then_
    popBrk
    place lend
  | .labeled c lhs => unlessFailed do
    place ((← Walk.get).clabel c.id)
    genStmt lhs
  | .brk => unlessFailed genBreak
  | .cont => unlessFailed genContinue
  | .block body => unlessFailed (genStmts body)

/-- The statements of a block. -/
def genStmts : Stmts → Walk Unit
  | .nil => return
  | .cons head next => do
    genStmt head
    genStmts next

end

end Statements

section Functions

variable (env : GenEnv)

/-- `align_up` -/
def alignUp (n a : ℤ) : ℤ := pAlignUp n a

/-- The loop of `assign_offsets`, from the offset reached. -/
def assignLoop : List Var → ℤ → Offsets → ℤ × Offsets
  | [], off, offset => (off, offset)
  | v :: locals, off, offset =>
    let off := alignUp (toInt32 (off + v.ty.size env.types)) 8
    match v.place with
    | .frame id => assignLoop locals off (Function.update offset id off)
    | .global _ => assignLoop locals off offset

/-- `assign_offsets`: the frame size, and the offsets. -/
def assignOffsets (locals : List Var) : ℤ × Offsets :=
  let (off, offset) := assignLoop env locals 0 fun _ => 0
  (alignUp off 16, offset)

/-- `SP` is moved below the frame. -/
def genFrame (frame : ℤ) : Walk Unit :=
  if 0 < frame then
    if frame ≤ 0xFFF then emit (subImm SP SP frame)
    else do
      emitLoadimm X9 (BitVec.ofInt 64 frame)
      emit (subRrr SP SP X9)
  else return

/-- Parameter `i` is stored at the address in `x9`. -/
def storeParam (i : ℕ) (ty : Ty) : Walk Unit :=
  if ty.size env.types = 1 then emit (strbWord i X9) else emit (strWord i X9)

/-- The parameters from `x`*i* on are stored in their slots. -/
def spillParams (offset : Offsets) : ℕ → List Var → Walk Unit
  | _, [] => return
  | i, p :: params => do
    let off := match p.place with
      | .frame id => offset id
      | .global _ => 0
    frameAddr X9 off
    storeParam env i p.ty
    spillParams offset (i + 1) params

/-- The prologue of a function. -/
def genPrologue (fn : Func) : Walk Unit := do
  let (frame, offset) := assignOffsets env fn.locals
  emit prologueStp
  emit movFpSp
  genFrame frame
  spillParams env offset 0 fn.params

/-- `gen_func`, up to `resolve_branches` -/
def genFunc (fn : Func) : Walk Unit := do
  let _lret ← newlabel
  genPrologue env fn
  genStmt env (assignOffsets env fn.locals).2 fn.body
  emit (movImmSmall 0 0)
  place curLret
  emit movSpFp
  emit epilogueLdp
  emit retWord

/-- The state in which `gen_func` begins; no error has been recorded yet. -/
def WalkState.start : WalkState where
  nlab := 0
  asked := 0
  brk := []
  cont := []
  clabel := fun _ => 0
  err := none

/-- The lines of a function. -/
def listing (fn : Func) : List Line := (genFunc env fn .start).2.2

/-- How many labels a function asks for. -/
def labelsAsked (fn : Func) : ℕ := (genFunc env fn .start).2.1.asked

/-- The error that the walk over a function records. -/
def walkErr (fn : Func) : Option String := (genFunc env fn .start).2.1.err

/-- A program of one function that calls nothing. -/
def loneProgram (fn : Func) : GenEnv where
  types := fun _ => { members := [], size := 0 }
  funcs := [fn]
  resolveExtern := fun _ => 0
  buf := 0
  labOff := fun _ => 0

/-- `int main() { return 0; }` -/
def returnZero : Func where
  name := "main"
  ret := .int
  params := []
  locals := []
  body := .block (.cons (.ret (.num 0)) .nil)

end Functions

end XinuRpi4.Compiler
