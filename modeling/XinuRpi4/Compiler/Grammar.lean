import XinuRpi4.Compiler.ParserState

/-!
# The expressions of the subset, as C reads them

Trees of the expressions as they are written, parentheses and type names included, with
the tokens of each. A tree fits the grammar when every operand binds tighter than its
operator, and on the left side of a left-associative operator at least as tight. The
meaning of a tree is the abstract syntax that C's rules for pointers and structs give it.
-/

namespace XinuRpi4.Compiler

/-- What the parser knows of names and types. -/
structure Scope where
  curLocals : List Var
  globals : List Var
  tags : List (String × ℕ)
  typedefs : List (String × Ty)
  types : ℕ → StructBody
  ntypes : ℕ

namespace Scope

variable (σ : Scope)

def findVar (name : String) : Option Var :=
  (σ.curLocals.find? fun v => v.name = name).or (σ.globals.find? fun v => v.name = name)

def findStruct (tag : String) : Option ℕ :=
  (σ.tags.find? fun d => d.1 = tag).map fun d => d.2

def findTypedef (name : String) : Option Ty :=
  (σ.typedefs.find? fun d => d.1 = name).map fun d => d.2

/-- The member of a struct that a name stands for. -/
def findMember (t : Ty) (name : String) : Option Member :=
  match t with
  | .struct id => (σ.types id).members.find? fun m => m.name = name
  | _ => none

/-- The tokens begin with a type. -/
def looksLikeType : List Token → Bool
  | [] => false
  | t :: rest => isKw (t :: rest) "int" || isKw (t :: rest) "char" || isKw (t :: rest) "struct" ||
      (decide (t.kind = .ident) && (σ.findTypedef t.text).isSome)

/-- A struct type is added, its members not known yet. -/
def openStruct (tag : Option String) : Scope :=
  { σ with
    types := Function.update σ.types σ.ntypes { members := [], size := 0 }
    ntypes := σ.ntypes + 1
    tags := match tag with
      | some tag => (tag, σ.ntypes) :: σ.tags
      | none => σ.tags }

/-- The members of a struct type become known. -/
def closeStruct (id : ℕ) (b : StructBody) : Scope :=
  { σ with types := Function.update σ.types id b }

end Scope

section Types

/-- `p_align_up` -/
def alignTo (n a : ℤ) : ℤ := toInt32 (toInt32 (n + a - 1) |>.tdiv a |> (· * a))

mutual

/-- The types that a declaration or `sizeof` names. -/
inductive CType
  | int
  | char
  | named (name : String)
  | structRef (tag : String)
  | structDef (tag : Option String) (members : CMembers)
  | star (base : CType)

/-- The members of a struct as they are written, with the length of an array. -/
inductive CMembers
  | nil
  | cons (ty : CType) (name : String) (len : Option Word) (next : CMembers)

end

/-- `"[" num "]"` -/
def lenTokens : Option Word → List Token
  | none => []
  | some len => [.punct "[", .num len, .punct "]"]

def tagTokens : Option String → List Token
  | none => []
  | some tag => [.ident tag]

mutual

def CType.tokens : CType → List Token
  | .int => [.kw "int"]
  | .char => [.kw "char"]
  | .named name => [.ident name]
  | .structRef tag => [.kw "struct", .ident tag]
  | .structDef tag ms =>
    .kw "struct" :: (tagTokens tag ++ .punct "\x7b" :: (ms.tokens ++ [.punct "\x7d"]))
  | .star t => t.tokens ++ [.punct "*"]

def CMembers.tokens : CMembers → List Token
  | .nil => []
  | .cons t name len ms => t.tokens ++ .ident name :: (lenTokens len ++ .punct ";" :: ms.tokens)

end

/-- The type of a declared name. -/
def withLen (σ : Scope) (t : Ty) : Option Word → Ty
  | none => t
  | some len => .array t (toInt32 len.toInt) (toInt32 (t.size σ.types * toInt32 len.toInt))

/-- Where a member of some size is placed. -/
def memberOffset (off size : ℤ) : ℤ := alignTo off (if 8 ≤ size then 8 else 1)

mutual

/-- The type that is named, and the scope with the structs defined on the way. -/
def CType.meaning (σ : Scope) : CType → Option (Ty × Scope)
  | .int => some (.int, σ)
  | .char => some (.char, σ)
  | .named name => (σ.findTypedef name).map fun t => (t, σ)
  | .structRef tag => (σ.findStruct tag).map fun id => (.struct id, σ)
  | .structDef tag ms => (ms.meaning (σ.openStruct tag) 0 []).map fun r =>
      (.struct σ.ntypes,
        r.2.closeStruct σ.ntypes { members := r.1.2, size := alignTo r.1.1 8 })
  | .star t => (t.meaning σ).map fun r => (.ptr r.1, r.2)

/-- The members of a struct laid out behind those before, with the offset behind them. -/
def CMembers.meaning (σ : Scope) (off : ℤ) (before : List Member) :
    CMembers → Option ((ℤ × List Member) × Scope)
  | .nil => some ((off, before), σ)
  | .cons t name len ms => (t.meaning σ).bind fun r =>
      let ty := withLen r.2 r.1 len
      let size := ty.size r.2.types
      let at_ := memberOffset off size
      ms.meaning r.2 (toInt32 (at_ + size)) (before ++ [{ name := name, ty := ty, offset := at_ }])

end

end Types

section Operators

/-- The operators with two operands. -/
inductive COp
  | or | and | eq | ne | lt | le | gt | ge | add | sub | mul | div | mod
deriving DecidableEq

def COp.text : COp → String
  | or => "||" | and => "&&"
  | eq => "==" | ne => "!="
  | lt => "<" | le => "<=" | gt => ">" | ge => ">="
  | add => "+" | sub => "-"
  | mul => "*" | div => "/" | mod => "%"

/-- How tight an operator binds; all of them associate to the left. -/
def COp.level : COp → ℕ
  | or => 2
  | and => 3
  | eq => 4 | ne => 4
  | lt => 5 | le => 5 | gt => 5 | ge => 5
  | add => 6 | sub => 6
  | mul => 7 | div => 7 | mod => 7

/-- The size of what a pointer points to. -/
def Scope.unit (σ : Scope) (b : Ty) : Expr := .num (BitVec.ofInt 64 (b.size σ.types))

/-- An integer, counted in elements, as a distance in bytes. -/
def Scope.scaled (σ : Scope) (i : Expr) (b : Ty) : Expr := .binary .mul i (σ.unit b) .int

/-- `l + r`: of pointer and integer, the pointer comes first. -/
def Scope.sum (σ : Scope) (l r : Expr) : Option Expr :=
  match l.ty.base, r.ty.base with
  | none, none => some (.binary .add l r .int)
  | some b, none => some (.binary .add l (σ.scaled r b) (.ptr b))
  | none, some b => some (.binary .add r (σ.scaled l b) (.ptr b))
  | some _, some _ => none

/-- `l - r`: two pointers are a number of elements apart. -/
def Scope.difference (σ : Scope) (l r : Expr) : Option Expr :=
  match l.ty.base, r.ty.base with
  | none, none => some (.binary .sub l r .int)
  | some b, none => some (.binary .sub l (σ.scaled r b) (.ptr b))
  | some b, some _ => some (.binary .div (.binary .sub l r .int) (σ.unit b) .int)
  | none, some _ => none

/-- The meaning of an operator. -/
def Scope.apply (σ : Scope) (op : COp) (l r : Expr) : Option Expr :=
  match op with
  | .or => some (.binary .logor l r .int)
  | .and => some (.binary .logand l r .int)
  | .eq => some (.binary .eq l r .int)
  | .ne => some (.binary .ne l r .int)
  | .lt => some (.binary .lt l r .int)
  | .le => some (.binary .le l r .int)
  | .gt => some (.binary .lt r l .int)
  | .ge => some (.binary .le r l .int)
  | .add => σ.sum l r
  | .sub => σ.difference l r
  | .mul => some (.binary .mul l r .int)
  | .div => some (.binary .div l r .int)
  | .mod => some (.binary .mod l r .int)

end Operators

section Expressions

mutual

/-- The expressions as they are written. -/
inductive CExpr
  | num (val : Word)
  | str (addr : Word)
  | ident (name : String)
  | call (name : String) (args : CArgs)
  | paren (e : CExpr)
  | index (e i : CExpr)
  | dot (e : CExpr) (name : String)
  | arrow (e : CExpr) (name : String)
  | sizeofType (t : CType)
  | sizeofExpr (e : CExpr)
  | plus (e : CExpr)
  | neg (e : CExpr)
  | not (e : CExpr)
  | star (e : CExpr)
  | amp (e : CExpr)
  | binary (op : COp) (l r : CExpr)
  | assign (l r : CExpr)

inductive CArgs
  | nil
  | cons (e : CExpr) (next : CArgs)

end

mutual

def CExpr.tokens : CExpr → List Token
  | .num v => [.num v]
  | .str a => [.str_ a]
  | .ident name => [.ident name]
  | .call name args => .ident name :: .punct "(" :: (args.tokens ++ [.punct ")"])
  | .paren e => .punct "(" :: (e.tokens ++ [.punct ")"])
  | .index e i => e.tokens ++ .punct "[" :: (i.tokens ++ [.punct "]"])
  | .dot e name => e.tokens ++ [.punct ".", .ident name]
  | .arrow e name => e.tokens ++ [.punct "->", .ident name]
  | .sizeofType t => .kw "sizeof" :: .punct "(" :: (t.tokens ++ [.punct ")"])
  | .sizeofExpr e => .kw "sizeof" :: e.tokens
  | .plus e => .punct "+" :: e.tokens
  | .neg e => .punct "-" :: e.tokens
  | .not e => .punct "!" :: e.tokens
  | .star e => .punct "*" :: e.tokens
  | .amp e => .punct "&" :: e.tokens
  | .binary op l r => l.tokens ++ .punct op.text :: r.tokens
  | .assign l r => l.tokens ++ .punct "=" :: r.tokens

/-- The arguments, each behind a comma but the first. -/
def CArgs.tokens : CArgs → List Token
  | .nil => []
  | .cons e args => e.tokens ++ args.tailTokens

def CArgs.tailTokens : CArgs → List Token
  | .nil => []
  | .cons e args => .punct "," :: (e.tokens ++ args.tailTokens)

end

/-- How tight an expression binds: assignment, the operators, unary, postfix, primary. -/
def CExpr.level : CExpr → ℕ
  | .assign _ _ => 1
  | .binary op _ _ => op.level
  | .sizeofType _ => 8
  | .sizeofExpr _ => 8
  | .plus _ => 8
  | .neg _ => 8
  | .not _ => 8
  | .star _ => 8
  | .amp _ => 8
  | .index _ _ => 9
  | .dot _ _ => 9
  | .arrow _ _ => 9
  | _ => 10

mutual

/-- The tree is the one that precedence and associativity give to its tokens. A type in
parentheses behind `sizeof` is no operand. -/
def CExpr.fits (σ : Scope) : CExpr → Bool
  | .num _ => true
  | .str _ => true
  | .ident _ => true
  | .call _ args => args.fits σ
  | .paren e => e.fits σ
  | .index e i => e.fits σ && i.fits σ && decide (9 ≤ e.level)
  | .dot e _ => e.fits σ && decide (9 ≤ e.level)
  | .arrow e _ => e.fits σ && decide (9 ≤ e.level)
  | .sizeofType _ => true
  | .sizeofExpr e => e.fits σ && decide (8 ≤ e.level) &&
      !(isPunct e.tokens "(" && σ.looksLikeType e.tokens.tail)
  | .plus e => e.fits σ && decide (8 ≤ e.level)
  | .neg e => e.fits σ && decide (8 ≤ e.level)
  | .not e => e.fits σ && decide (8 ≤ e.level)
  | .star e => e.fits σ && decide (8 ≤ e.level)
  | .amp e => e.fits σ && decide (8 ≤ e.level)
  | .binary op l r => l.fits σ && r.fits σ && decide (op.level ≤ l.level) &&
      decide (op.level < r.level)
  | .assign l r => l.fits σ && r.fits σ && decide (2 ≤ l.level)

def CArgs.fits (σ : Scope) : CArgs → Bool
  | .nil => true
  | .cons e args => e.fits σ && args.fits σ

end

/-- The struct type behind a pointer. -/
def Ty.pointee : Ty → Option Ty
  | .ptr b => some b
  | _ => none

mutual

/-- The abstract syntax of an expression, if it has one, and the scope behind it. -/
def CExpr.meaning (σ : Scope) : CExpr → Option (Expr × Scope)
  | .num v => some (.num v, σ)
  | .str a => some (.str a, σ)
  | .ident name => (σ.findVar name).map fun v => (.var v, σ)
  | .call name args => (args.meaning σ).map fun r => (.funcall name r.1, r.2)
  | .paren e => e.meaning σ
  | .index e i => (e.meaning σ).bind fun l => (i.meaning l.2).bind fun r =>
      (r.2.sum l.1 r.1).map fun t => (.deref t (t.ty.base.getD .int), r.2)
  | .dot e name => (e.meaning σ).bind fun r => (r.2.findMember r.1.ty name).map fun m =>
      (.member r.1 m.offset m.ty, r.2)
  | .arrow e name => (e.meaning σ).bind fun r => r.1.ty.pointee.bind fun st =>
      (r.2.findMember st name).map fun m => (.member (.deref r.1 st) m.offset m.ty, r.2)
  | .sizeofType t => (t.meaning σ).map fun r => (r.2.unit r.1, r.2)
  | .sizeofExpr e => (e.meaning σ).map fun r => (r.2.unit r.1.ty, r.2)
  | .plus e => e.meaning σ
  | .neg e => (e.meaning σ).map fun r => (.neg r.1, r.2)
  | .not e => (e.meaning σ).map fun r => (.not r.1, r.2)
  | .star e => (e.meaning σ).bind fun r => r.1.ty.base.map fun b => (.deref r.1 b, r.2)
  | .amp e => (e.meaning σ).map fun r => (.addr r.1 (.ptr r.1.ty), r.2)
  | .binary op l r => (l.meaning σ).bind fun x => (r.meaning x.2).bind fun y =>
      (y.2.apply op x.1 y.1).map fun t => (t, y.2)
  | .assign l r => (l.meaning σ).bind fun x => (r.meaning x.2).map fun y =>
      (.assign x.1 y.1 x.1.ty, y.2)

def CArgs.meaning (σ : Scope) : CArgs → Option (Args × Scope)
  | .nil => some (.nil, σ)
  | .cons e args => (e.meaning σ).bind fun r => (args.meaning r.2).map fun a => (.cons r.1 a.1, a.2)

end

end Expressions

end XinuRpi4.Compiler
