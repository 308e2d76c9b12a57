import Mathlib.Tactic

/-!
# Tokens, types and trees of the on-device compiler

The data of `cc/ccpriv.h`. Struct types are kept in a table, since a struct may point
to itself; local variables and `case` nodes carry the address of their block, which
tells them apart.
-/

namespace XinuRpi4.Compiler

/-- An `unsigned long`, and a `long` as its two's complement. -/
abbrev Word := BitVec 64

/-- Conversion to `int`. -/
def toInt32 (x : ℤ) : ℤ := x.bmod (2 ^ 32)

/-- `tokkind_t` -/
inductive TokKind
  | num | str | ident | punct | kw | eof
deriving DecidableEq

/-- `token_t`; `text` is the spelling of an identifier, keyword or punctuator. -/
structure Token where
  kind : TokKind
  val : Word
  str : Word
  text : String
deriving DecidableEq

namespace Token

def num (v : Word) : Token := { kind := .num, val := v, str := 0, text := "" }

def str_ (a : Word) : Token := { kind := .str, val := 0, str := a, text := "" }

def ident (name : String) : Token := { kind := .ident, val := 0, str := 0, text := name }

def punct (s : String) : Token := { kind := .punct, val := 0, str := 0, text := s }

def kw (s : String) : Token := { kind := .kw, val := 0, str := 0, text := s }

def eof : Token := { kind := .eof, val := 0, str := 0, text := "" }

end Token

/-- `type_t`; the members and the size of a struct are found in a table. -/
inductive Ty
  | int
  | char
  | ptr (base : Ty)
  | array (base : Ty) (len size : ℤ)
  | struct (id : ℕ)
deriving DecidableEq

/-- `member_t` -/
structure Member where
  name : String
  ty : Ty
  offset : ℤ
deriving DecidableEq

/-- What a struct type holds besides its kind. -/
structure StructBody where
  members : List Member
  size : ℤ
deriving DecidableEq

namespace Ty

/-- `t->size` -/
def size (types : ℕ → StructBody) : Ty → ℤ
  | int => 8
  | char => 1
  | ptr _ => 8
  | array _ _ size => size
  | struct id => (types id).size

/-- `t->base` -/
def base : Ty → Option Ty
  | ptr b => some b
  | array b _ _ => some b
  | _ => none

/-- `ty_is_ptrlike` -/
def isPtrlike : Ty → Bool
  | ptr _ => true
  | array _ _ _ => true
  | _ => false

end Ty

/-- Where a variable lives: below `x29`, or at `gaddr`. -/
inductive Place
  | frame (id : ℕ)
  | global (gaddr : ℕ)
deriving DecidableEq

/-- `var_t` -/
structure Var where
  name : String
  ty : Ty
  place : Place
deriving DecidableEq

/-- The node kinds with two operands that compute a value. -/
inductive BinKind
  | add | sub | mul | div | mod | eq | ne | lt | le | logand | logor
deriving DecidableEq

mutual

/-- The nodes of expressions. -/
inductive Expr
  | num (val : Word)
  | str (addr : Word)
  | var (v : Var)
  | binary (k : BinKind) (lhs rhs : Expr) (ty : Ty)
  | not (lhs : Expr)
  | neg (lhs : Expr)
  | assign (lhs rhs : Expr) (ty : Ty)
  | addr (lhs : Expr) (ty : Ty)
  | deref (lhs : Expr) (ty : Ty)
  | member (lhs : Expr) (off : ℤ) (ty : Ty)
  | funcall (funcname : String) (args : Args)

inductive Args
  | nil
  | cons (head : Expr) (next : Args)

end

/-- `n->ty` -/
def Expr.ty : Expr → Ty
  | num _ => .int
  | str _ => .ptr .char
  | var v => v.ty
  | binary _ _ _ ty => ty
  | not _ => .int
  | neg _ => .int
  | assign _ _ ty => ty
  | addr _ ty => ty
  | deref _ ty => ty
  | member _ _ ty => ty
  | funcall _ _ => .int

/-- The label of an `ND_CASE` node; `id` is the address of the node. -/
structure Case where
  id : ℕ
  val : Word
  isDefault : Bool
deriving DecidableEq

mutual

/-- The nodes of statements; a switch lists its labels, the last one first. -/
inductive Stmt
  | exprStmt (lhs : Expr)
  | ret (lhs : Expr)
  | ifThen (cond : Expr) (then_ : Stmt)
  | ifElse (cond : Expr) (then_ els : Stmt)
  | loopWhile (cond : Expr) (body : Stmt)
  | loopFor (init cond inc : Option Expr) (body : Stmt)
  | switch (cond : Expr) (cases : List Case) (then_ : Stmt)
  | labeled (c : Case) (lhs : Stmt)
  | brk
  | cont
  | block (body : Stmts)

inductive Stmts
  | nil
  | cons (head : Stmt) (next : Stmts)

end

/-- `func_t`, as the parser leaves it. -/
structure Func where
  name : String
  ret : Ty
  params : List Var
  locals : List Var
  body : Stmt

end XinuRpi4.Compiler
