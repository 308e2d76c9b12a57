import XinuRpi4.Compiler.ParserState

/-!
# The recursive-descent parser of `cc/parse.c`

Each function takes the functions it calls as arguments, and the knots are tied by
recursion on fuel.
-/

namespace XinuRpi4.Compiler

section Expressions

/-- `new_binary` -/
def newBinary (k : BinKind) (l r : Expr) : P Expr := do
  let _ ← newNode
  return .binary k l r .int

/-- The size that an integer operand is scaled by. -/
def scale (l : Expr) : P Word := do
  let s ← P.get
  return match l.ty.base with
    | some b => BitVec.ofInt 64 (b.size s.types)
    | none => 1

/-- A sum or difference of a pointer and a scaled integer. -/
def newScaled (k : BinKind) (l r : Expr) : P Expr := do
  let sz ← newNum (← scale l)
  let scaled ← newBinary .mul r sz
  let _ ← newNode
  let ty ← tyPtrTo (l.ty.base.getD .int)
  return .binary k l scaled ty

/-- `new_add` -/
def newAdd (l r : Expr) : P Expr :=
  match l.ty.isPtrlike, r.ty.isPtrlike with
  | false, false => newBinary .add l r
  | true, true => do
    ccError "pointer + pointer"
    return l
  | true, false => newScaled .add l r
  | false, true => newScaled .add r l

/-- `new_sub` -/
def newSub (l r : Expr) : P Expr :=
  match l.ty.isPtrlike, r.ty.isPtrlike with
  | false, false => newBinary .sub l r
  | true, false => newScaled .sub l r
  | true, true => do
    let sz ← scale l
    let d ← newBinary .sub l r
    newBinary .div d (← newNum sz)
  | false, true => do
    ccError "int - pointer"
    return l

end Expressions

section Types

/-- The loop of `declspec`. -/
def starLoop : ℕ → Ty → P Ty
  | 0, _ => P.stop .fuel
  | n + 1, ty => do
    if ← atPunct "*" then
      advance
      starLoop n (← tyPtrTo ty)
    else return ty

/-- The type that `declspec` begins with. -/
def baseType (structDecl : P Ty) : P (Option Ty) := do
  if ← consume "int" then return some .int
  else if ← consume "char" then return some .char
  else if ← consume "struct" then return some (← structDecl)
  else
    let t ← cur
    let s ← P.get
    match t.kind, s.findTypedef t.text with
    | .ident, some ty =>
      advance
      return some ty
    | _, _ =>
      ccError "expected type"
      return none

/-- `declspec` -/
def declspecWith (structDecl : P Ty) (n : ℕ) : P Ty := do
  match ← baseType structDecl with
  | some ty => starLoop n ty
  | none => return .int

/-- `p_align_up` -/
def pAlignUp (n a : ℤ) : ℤ := toInt32 (toInt32 (n + a - 1) |>.tdiv a |> (· * a))

/-- `("[" num "]")?` after a declared name. -/
def arraySuffix (ty : Ty) : P Ty := do
  if ← consume "[" then
    logLength
    let t ← cur
    check (t.kind = .num) "array length must be a constant"
    advance
    expect "]"
    tyArrayOf ty (toInt32 t.val.toInt)
  else return ty

/-- The member loop of `struct_decl`, with the offset reached and the members so far. -/
def memberLoop (declspec : P Ty) : ℕ → ℤ → List Member → P (ℤ × List Member)
  | 0, _, _ => P.stop .fuel
  | n + 1, off, ms => do
    logHead .members
    if ← atPunct "\x7d" then return (off, ms)
    else if (← cur).kind = .eof then return (off, ms)
    else
      let mty ← declspec
      let t ← cur
      if t.kind ≠ .ident then
        ccError "expected member name"
        return (off, ms)
      else
        advance
        let mty ← arraySuffix mty
        expect ";"
        let s ← P.get
        let size := mty.size s.types
        let off := pAlignUp off (if 8 ≤ size then 8 else 1)
        let _ ← ccAlloc memberSize
        memberLoop declspec n (toInt32 (off + size)) (ms ++ [{ name := t.text, ty := mty, offset := off }])

/-- The tag of `struct_decl`. -/
def structTag : P (Option String) := do
  let t ← cur
  if t.kind = .ident then
    advance
    return some t.text
  else return none

/-- A struct without a body. -/
def structRef (tag : Option String) : P Ty := do
  match tag with
  | none =>
    ccError "anonymous struct without a body"
    return .int
  | some tag =>
    let s ← P.get
    match s.findStruct tag with
    | none =>
      ccError "unknown struct tag"
      return .int
    | some id => return .struct id

/-- A tag is registered early, for self-reference. -/
def registerTag (tag : Option String) (id : ℕ) : P Unit :=
  match tag with
  | some tag => registerStruct tag id
  | none => return

/-- The body of a struct, behind its `{`. -/
def structBody (declspec : P Ty) (n : ℕ) (tag : Option String) : P Ty := do
  let _ ← ccAlloc typeSize
  let s ← P.get
  let id := s.ntypes
  P.modify fun s => { s with
    types := Function.update s.types id { members := [], size := 0 }, ntypes := id + 1 }
  registerTag tag id
  let (off, ms) ← memberLoop declspec n 0 []
  expect "\x7d"
  P.modify fun s => { s with
    types := Function.update s.types id { members := ms, size := pAlignUp off 8 } }
  return .struct id

/-- `struct_decl` -/
def structDecl : ℕ → P Ty
  | 0 => P.stop .fuel
  | n + 1 => do
    let tag ← structTag
    if ← atPunct "\x7b" then
      advance
      structBody (declspecWith (structDecl n) n) n tag
    else structRef tag

/-- `declspec` -/
def declspec (n : ℕ) : P Ty := declspecWith (structDecl n) n

end Types

section Expressions

variable (assign : P Expr)

/-- The arguments of a call, up to the `)`. -/
def argLoop : ℕ → P Args
  | 0 => P.stop .fuel
  | n + 1 => do
    let a ← assign
    if ← consume "," then return .cons a (← argLoop n)
    else return .cons a .nil

/-- A call, behind its `(`. -/
def callRest (n : ℕ) (name : String) : P Expr := do
  let _ ← newNode
  if ← atPunct ")" then
    expect ")"
    return .funcall name .nil
  else
    let args ← argLoop assign n
    expect ")"
    return .funcall name args

/-- An identifier that is no call. -/
def varRef (name : String) : P Expr := do
  let s ← P.get
  match s.findVar name with
  | none =>
    ccError "undefined variable"
    newNum 0
  | some v =>
    let _ ← newNode
    return .var v

/-- `primary` -/
def primary (n : ℕ) : P Expr := do
  if ← consume "(" then
    let e ← assign
    expect ")"
    return e
  else
    let t ← cur
    match t.kind with
    | .num =>
      let e ← newNum t.val
      advance
      return e
    | .str =>
      let _ ← newNode
      let _ ← tyPtrTo .char
      advance
      return .str t.str
    | .ident =>
      advance
      if ← consume "(" then callRest assign n t.text
      else varRef t.text
    | _ =>
      ccError "expected expression"
      newNum 0

/-- `e[idx]` -/
def newIndex (e idx : Expr) : P Expr := do
  let add ← newAdd e idx
  let _ ← newNode
  return .deref add (add.ty.base.getD .int)

/-- One member access, behind its `.` or `->`, of a struct of type `st`. -/
def memberOf (st : Option Ty) (name : String) : P (Option Member) := do
  let s ← P.get
  return st.bind fun st => s.findMember st name

/-- The loop of `postfix`. -/
def postfixLoop : ℕ → Expr → P Expr
  | 0, _ => P.stop .fuel
  | n + 1, e => do
    if ← atPunct "[" then
      advance
      let idx ← assign
      expect "]"
      postfixLoop n (← newIndex e idx)
    else if ← atPunct "." then
      advance
      let t ← cur
      if t.kind ≠ .ident then
        ccError "expected member name after '.'"
        return e
      else
        let m ← memberOf (some e.ty) t.text
        advance
        match m with
        | none =>
          ccError "no such struct member"
          return e
        | some m =>
          let _ ← newNode
          postfixLoop n (.member e m.offset m.ty)
    else if ← atPunct "->" then
      advance
      let t ← cur
      if t.kind ≠ .ident then
        ccError "expected member name after '->'"
        return e
      else
        let st := match e.ty with
          | .ptr b => some b
          | _ => none
        let m ← memberOf st t.text
        advance
        match m with
        | none =>
          ccError "no such struct member (->)"
          return e
        | some m =>
          let _ ← newNode
          let _ ← newNode
          postfixLoop n (.member (.deref e (st.getD .int)) m.offset m.ty)
    else return e

/-- `postfix` -/
def postfix_ (n : ℕ) : P Expr := do
  postfixLoop assign n (← primary assign n)

/-- `sizeof`, behind the keyword. -/
def sizeofRest (n : ℕ) (unary : P Expr) : P Expr := do
  let s ← P.get
  if isPunct s.tk "(" && s.looksLikeType s.tk.tail then
    advance
    let t ← declspec n
    expect ")"
    let s ← P.get
    newNum (BitVec.ofInt 64 (t.size s.types))
  else
    let e ← unary
    let s ← P.get
    newNum (BitVec.ofInt 64 (e.ty.size s.types))

/-- `*e` -/
def newDeref (e : Expr) : P Expr :=
  if e.ty.isPtrlike then return .deref e (e.ty.base.getD .int)
  else do
    ccError "dereference of non-pointer"
    return .deref e .int

/-- `unary` -/
def unary : ℕ → P Expr
  | 0 => P.stop .fuel
  | n + 1 => do
    if ← consume "sizeof" then sizeofRest n (unary n)
    else if ← consume "+" then unary n
    else if ← consume "-" then
      let _ ← newNode
      return .neg (← unary n)
    else if ← consume "!" then
      let _ ← newNode
      return .not (← unary n)
    else if ← consume "*" then
      let _ ← newNode
      newDeref (← unary n)
    else if ← consume "&" then
      let _ ← newNode
      let e ← unary n
      return .addr e (← tyPtrTo e.ty)
    else postfix_ assign n

/-- The first of some operators that is found at the cursor. -/
def consumeOp {β : Type} : List (String × β) → P (Option β)
  | [] => return none
  | (s, b) :: ops => do
    if ← consume s then return some b
    else consumeOp ops

/-- The loop of the levels of left-associative operators. -/
def leftLoop (ops : List (String × (Expr → Expr → P Expr))) (sub : P Expr) : ℕ → Expr → P Expr
  | 0, _ => P.stop .fuel
  | n + 1, l => do
    match ← consumeOp ops with
    | none => return l
    | some mk =>
      let r ← sub
      leftLoop ops sub n (← mk l r)

def leftLevel (ops : List (String × (Expr → Expr → P Expr))) (sub : P Expr) (n : ℕ) : P Expr := do
  leftLoop ops sub n (← sub)

def mulOps : List (String × (Expr → Expr → P Expr)) :=
  [("*", newBinary .mul), ("/", newBinary .div), ("%", newBinary .mod)]

def addOps : List (String × (Expr → Expr → P Expr)) := [("+", newAdd), ("-", newSub)]

/-- `a > b` is `b < a`. -/
def relOps : List (String × (Expr → Expr → P Expr)) :=
  [("<", newBinary .lt), ("<=", newBinary .le), (">", fun l r => newBinary .lt r l),
    (">=", fun l r => newBinary .le r l)]

def eqOps : List (String × (Expr → Expr → P Expr)) :=
  [("==", newBinary .eq), ("!=", newBinary .ne)]

def andOps : List (String × (Expr → Expr → P Expr)) := [("&&", newBinary .logand)]

def orOps : List (String × (Expr → Expr → P Expr)) := [("||", newBinary .logor)]

/-- `mul` -/
def mul (n : ℕ) : P Expr := leftLevel mulOps (unary assign n) n

/-- `add_expr` -/
def addExpr (n : ℕ) : P Expr := leftLevel addOps (mul assign n) n

/-- `relational` -/
def relational (n : ℕ) : P Expr := leftLevel relOps (addExpr assign n) n

/-- `equality` -/
def equality (n : ℕ) : P Expr := leftLevel eqOps (relational assign n) n

/-- `logand` -/
def logand (n : ℕ) : P Expr := leftLevel andOps (equality assign n) n

/-- `logor` -/
def logor (n : ℕ) : P Expr := leftLevel orOps (logand assign n) n

end Expressions

/-- `assign`, and `expr`. -/
def assign : ℕ → P Expr
  | 0 => P.stop .fuel
  | n + 1 => do
    let l ← logor (assign n) n
    if ← consume "=" then
      let _ ← newNode
      let r ← assign n
      return .assign l r l.ty
    else return l

section Statements

/-- `expr_stmt` -/
def exprStmt (n : ℕ) : P Stmt := do
  let _ ← newNode
  let e ← assign n
  expect ";"
  return .exprStmt e

/-- The initial value of a declared variable. -/
def initializer (n : ℕ) (v : Var) : P Stmts := do
  if ← consume "=" then
    let _ ← newNode
    let _ ← newNode
    let r ← assign n
    let _ ← newNode
    return .cons (.exprStmt (.assign (.var v) r v.ty)) .nil
  else return .nil

/-- `declaration` -/
def declaration (n : ℕ) : P Stmt := do
  let base ← declspec n
  let t ← cur
  if t.kind ≠ .ident then
    ccError "expected identifier in declaration"
    let _ ← newNode
    return .block .nil
  else
    advance
    let ty ← arraySuffix base
    let v ← newLocal t.text ty
    let _ ← newNode
    let body ← initializer n v
    expect ";"
    return .block body

/-- `"(" expr ")"` -/
def condition (n : ℕ) : P Expr := do
  expect "("
  let e ← assign n
  expect ")"
  return e

/-- `for` up to its first `;`. -/
def forInit (n : ℕ) : P (Option Expr) := do
  if ← consume ";" then return none
  else
    let _ ← newNode
    let e ← assign n
    expect ";"
    return some e

/-- An expression of a `for` that may be missing. -/
def forExpr (n : ℕ) (close : String) : P (Option Expr) := do
  if ← atPunct close then
    expect close
    return none
  else
    let e ← assign n
    expect close
    return some e

/-- `"-"?` before a constant. -/
def minusSign : P Bool := do
  if ← atPunct "-" then
    advance
    return true
  else return false

/-- A constant behind its sign; `msg` is the error when there is none. -/
def signedConst (msg : String) : P Word := do
  let neg ← minusSign
  let t ← cur
  if t.kind = .num then
    advance
    return if neg then -t.val else t.val
  else
    ccError msg
    return 0

/-- A case node, linked to the innermost switch. -/
def newCase (val : Word) (isDefault : Bool) : P Case := do
  let p ← newNode
  let c : Case := { id := p, val := val, isDefault := isDefault }
  P.modify fun s => { s with curSwitch := s.curSwitch.map fun cs => c :: cs }
  return c

/-- The test of `case` and `default`. -/
def insideSwitch (msg : String) : P Unit := do
  let s ← P.get
  check s.curSwitch.isSome msg

/-- The body of a `switch`, with the case nodes that it links. -/
def switchBody (stmt : P Stmt) : P (List Case × Stmt) := do
  let s ← P.get
  let prev := s.curSwitch
  P.modify fun s => { s with curSwitch := some [] }
  let body ← stmt
  let s ← P.get
  P.modify fun s => { s with curSwitch := prev }
  return (s.curSwitch.getD [], body)

/-- The loop of a block; `item` is what its test chooses. -/
def blockLoop (item : P Stmt) : ℕ → P Stmts
  | 0 => P.stop .fuel
  | n + 1 => do
    logHead .block
    if ← atPunct "\x7d" then return .nil
    else if (← cur).kind = .eof then return .nil
    else
      let st ← item
      return .cons st (← blockLoop item n)

/-- `looks_like_type(tk) ? declaration() : stmt()` -/
def blockItem (n : ℕ) (stmt : P Stmt) : P Stmt := do
  let s ← P.get
  if s.looksLikeType s.tk then declaration n else stmt

/-- `stmt` -/
def stmt : ℕ → P Stmt
  | 0 => P.stop .fuel
  | n + 1 => do
    if ← consume "return" then
      let _ ← newNode
      let e ← assign n
      expect ";"
      return .ret e
    else if ← consume "if" then
      let _ ← newNode
      let c ← condition n
      let t ← stmt n
      if ← consume "else" then return .ifElse c t (← stmt n)
      else return .ifThen c t
    else if ← consume "while" then
      let _ ← newNode
      let c ← condition n
      return .loopWhile c (← stmt n)
    else if ← consume "for" then
      let _ ← newNode
      expect "("
      let init ← forInit n
      let c ← forExpr n ";"
      let inc ← forExpr n ")"
      return .loopFor init c inc (← stmt n)
    else if ← consume "switch" then
      let _ ← newNode
      let c ← condition n
      let (cases, body) ← switchBody (stmt n)
      return .switch c cases body
    else if ← consume "case" then
      insideSwitch "case outside switch"
      let v ← signedConst "case label must be an integer constant"
      expect ":"
      let c ← newCase v false
      return .labeled c (← stmt n)
    else if ← consume "default" then
      insideSwitch "default outside switch"
      expect ":"
      let c ← newCase 0 true
      return .labeled c (← stmt n)
    else if ← consume "break" then
      expect ";"
      let _ ← newNode
      return .brk
    else if ← consume "continue" then
      expect ";"
      let _ ← newNode
      return .cont
    else if ← atPunct "\x7b" then
      advance
      let _ ← newNode
      let body ← blockLoop (blockItem n (stmt n)) n
      expect "\x7d"
      return .block body
    else exprStmt n

end Statements

section Declarations

/-- The parameter loop of `function_rest`. -/
def paramLoop (n : ℕ) : ℕ → List Var → P (List Var)
  | 0, _ => P.stop .fuel
  | k + 1, ps => do
    let pty ← declspec n
    let t ← cur
    if t.kind ≠ .ident then
      ccError "expected parameter name"
      return ps
    else
      advance
      let v ← newLocal t.text pty
      if ← consume "," then paramLoop n k (ps ++ [v])
      else return ps ++ [v]

def paramList (n : ℕ) : P (List Var) := do
  expect "("
  if ← atPunct ")" then
    expect ")"
    return []
  else
    let ps ← paramLoop n n []
    expect ")"
    return ps

/-- `function_rest` -/
def functionRest (n : ℕ) (ret : Ty) (name : String) : P Func := do
  let _ ← ccAlloc funcSize
  P.modify fun s => { s with curLocals := [] }
  let ps ← paramList n
  check (ps.length ≤ 8) "too many parameters (max 8)"
  if ← atPunct "\x7b" then
    let body ← stmt n
    let s ← P.get
    return { name := name, ret := ret, params := ps.take 8, locals := s.curLocals, body := body }
  else
    ccError "expected function body"
    return { name := name, ret := ret, params := ps.take 8, locals := [], body := .block .nil }

/-- `*(long *)v->gaddr = val`, or the same for a `char`. -/
def storeInit (ty : Ty) (v : Var) (val : Word) : P Unit :=
  match v.place with
  | .global p => P.modify fun s => { s with
      inits := (p, if ty.size s.types = 1 then 1 else 8, val) :: s.inits }
  | .frame _ => return

/-- `("=" const)?` -/
def globalInit (ty : Ty) (v : Var) : P Unit := do
  if ← consume "=" then
    let val ← signedConst "global initializer must be an integer constant"
    storeInit ty v val
  else return

/-- `global_decl` -/
def globalDecl (base : Ty) (name : String) : P Unit := do
  let ty ← arraySuffix base
  let v ← newGlobal name ty
  globalInit ty v
  expect ";"

/-- `cc_failed` -/
def ccFailed : P Bool := fun s => .done s.err.isSome s

/-- `typedef`, behind the keyword; the answer tells whether the loop goes on. -/
def typedefRest (n : ℕ) : P Bool := do
  let ty ← declspec n
  let t ← cur
  if t.kind ≠ .ident then
    ccError "expected typedef name"
    return false
  else
    registerTypedef t.text ty
    advance
    expect ";"
    return true

/-- A function or global, behind its type; the answer is `none` where `cc_parse` returns null. -/
def topRest (n : ℕ) (base : Ty) : P (Option (List Func)) := do
  let t ← cur
  if t.kind ≠ .ident then
    ccError "expected identifier at top level"
    return none
  else
    advance
    if ← atPunct "(" then
      let fn ← functionRest n base t.text
      return if ← ccFailed then none else some [fn]
    else
      globalDecl base t.text
      return if ← ccFailed then none else some []

/-- The loop of `cc_parse`. -/
def topLoop : ℕ → List Func → P (Option (List Func))
  | 0, _ => P.stop .fuel
  | n + 1, fns => do
    let s ← P.get
    match s.tk with
    | [] => return some fns
    | t :: _ =>
      if t.kind = .eof then return some fns
      else if ← consume "typedef" then
        if ← typedefRest n then topLoop n fns
        else return none
      else
        let base ← declspec n
        if ← consume ";" then topLoop n fns
        else
          match ← topRest n base with
          | none => return none
          | some new => topLoop n (fns ++ new)

/-- The state in which `cc_parse` starts. -/
def PState.start (toks : List Token) (arena : Arena) : PState where
  tk := toks
  curLocals := []
  globals := []
  tags := []
  typedefs := []
  types := fun _ => { members := [], size := 0 }
  ntypes := 0
  curSwitch := none
  err := none
  arena := arena
  inits := []
  heads := []
  lengths := []

/-- `cc_parse` -/
def ccParse (n : ℕ) (toks : List Token) (arena : Arena) : Outcome (Option (List Func)) :=
  topLoop n [] (.start toks arena)

end Declarations

end XinuRpi4.Compiler
