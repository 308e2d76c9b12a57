import XinuRpi4.Compiler.Syntax

/-!
# What the parser of `cc/parse.c` works on

The cursor, the scopes and registries, the recorded error, and the arena. A parser
function goes on after an error, so it answers in any case, unless its fuel is used up,
it reads through a null cursor, or the arena is exhausted. The code goes on then, with
one sink of 64 bytes for all blocks to come, nodes of 168 bytes among them: what it reads
back depends on what lies behind the sink, and the run is not followed any further.
-/

namespace XinuRpi4.Compiler

/-- The arena of `cc/cc.c`, with address and size of each request that was answered. -/
structure Arena where
  /-- `g_arena` -/
  base : ℕ
  /-- `g_acap` -/
  cap : ℕ
  /-- `g_apos` -/
  pos : ℕ
  /-- the address of `g_panic` -/
  sink : ℕ
  served : List (ℕ × ℕ)

namespace Arena

/-- `(n + 15) & ~15` -/
def align16 (n : ℕ) : ℕ := (n + 15) / 16 * 16

/-- The test of `cc_alloc`. -/
def Fits (a : Arena) (n : ℕ) : Prop := a.pos + align16 n ≤ a.cap

instance (a : Arena) (n : ℕ) : Decidable (a.Fits n) := inferInstanceAs (Decidable (_ ≤ _))

/-- `cc_alloc`, the error that it records apart. -/
def alloc (a : Arena) (n : ℕ) : ℕ × Arena :=
  if a.Fits n then
    (a.base + a.pos,
      { a with pos := a.pos + align16 n, served := (a.base + a.pos, n) :: a.served })
  else (a.sink, { a with served := (a.sink, n) :: a.served })

end Arena

/-- Sizes of the blocks that the parser asks for. -/
def tokenSize : ℕ := 48
def typeSize : ℕ := 32
def memberSize : ℕ := 32
def sdefSize : ℕ := 24
def tdefSize : ℕ := 24
def varSize : ℕ := 40
def nodeSize : ℕ := 168
def funcSize : ℕ := 120

/-- The loops whose condition reads the cursor. -/
inductive LoopKind
  | block
  | members
deriving DecidableEq

structure PState where
  /-- the tokens from `tk` on; none for the null pointer -/
  tk : List Token
  /-- `cur_locals` -/
  curLocals : List Var
  /-- `g_globals` -/
  globals : List Var
  /-- `g_structs` -/
  tags : List (String × ℕ)
  /-- `g_typedefs` -/
  typedefs : List (String × Ty)
  /-- the struct types, and how many there are -/
  types : ℕ → StructBody
  ntypes : ℕ
  /-- the case list of `cur_switch` -/
  curSwitch : Option (List Case)
  /-- `g_err` and `g_errbuf` -/
  err : Option String
  arena : Arena
  /-- initial values of globals: address, bytes, value -/
  inits : List (ℕ × ℕ × Word)
  /-- ghost: the cursor at each test of a loop condition -/
  heads : List (LoopKind × List Token)
  /-- ghost: the cursor behind each `[` in front of an array length -/
  lengths : List (List Token)

/-- Why a run of the parser does not answer. -/
inductive Stop
  | fuel
  | null
  /-- the code goes on, with the sink for a block -/
  | arena
deriving DecidableEq

inductive Outcome (α : Type)
  | done (a : α) (s : PState)
  | stop (why : Stop) (s : PState)

/-- A function of the parser. -/
def P (α : Type) : Type := PState → Outcome α

namespace P

variable {α β : Type}

def pure (a : α) : P α := fun s => .done a s

def bind (p : P α) (f : α → P β) : P β := fun s =>
  match p s with
  | .done a s => f a s
  | .stop why s => .stop why s

instance : Monad P where
  pure := P.pure
  bind := P.bind

def stop (why : Stop) : P α := fun s => .stop why s

def get : P PState := fun s => .done s s

def modify (f : PState → PState) : P Unit := fun s => .done () (f s)

end P

section Cursor

/-- `is_punct` -/
def isPunct : List Token → String → Bool
  | [], _ => false
  | t :: _, s => decide (t.kind = .punct ∧ t.text = s)

/-- `is_kw` -/
def isKw : List Token → String → Bool
  | [], _ => false
  | t :: _, s => decide (t.kind = .kw ∧ t.text = s)

/-- `*tk` -/
def cur : P Token := fun s =>
  match s.tk with
  | [] => .stop .null s
  | t :: _ => .done t s

/-- `tk = tk->next` -/
def advance : P Unit := fun s =>
  match s.tk with
  | [] => .stop .null s
  | _ :: rest => .done () { s with tk := rest }

/-- `cc_error` -/
def ccError (msg : String) : P Unit :=
  P.modify fun s => { s with err := s.err.orElse fun _ => some msg }

/-- `if (!c) cc_error(msg);` -/
def check (c : Bool) (msg : String) : P Unit := if c then return else ccError msg

/-- `expect` -/
def expect (t : String) : P Unit := fun s =>
  if isPunct s.tk t || isKw s.tk t then advance s else ccError "expected token" s

/-- `consume` -/
def consume (t : String) : P Bool := fun s =>
  if isPunct s.tk t || isKw s.tk t then .done true { s with tk := s.tk.tail } else .done false s

/-- The cursor is at a punctuator. -/
def atPunct (t : String) : P Bool := fun s => .done (isPunct s.tk t) s

/-- A loop condition is tested. -/
def logHead (k : LoopKind) : P Unit :=
  P.modify fun s => { s with heads := (k, s.tk) :: s.heads }

/-- An array length is read. -/
def logLength : P Unit :=
  P.modify fun s => { s with lengths := s.tk :: s.lengths }

end Cursor

section Blocks

/-- `cc_alloc`; behind the first block in the sink the run is not followed. -/
def ccAlloc (n : ℕ) : P ℕ := fun s =>
  let (p, arena) := s.arena.alloc n
  if s.arena.Fits n then .done p { s with arena := arena }
  else .stop .arena
    { s with arena := arena, err := s.err.orElse fun _ => some "compiler arena exhausted" }

/-- `new_node`, up to the fields of its kind. -/
def newNode : P ℕ := ccAlloc nodeSize

/-- `new_num` -/
def newNum (v : Word) : P Expr := do
  let _ ← newNode
  return .num v

/-- `ty_ptr_to` -/
def tyPtrTo (base : Ty) : P Ty := do
  let _ ← ccAlloc typeSize
  return .ptr base

/-- `ty_array_of` -/
def tyArrayOf (base : Ty) (len : ℤ) : P Ty := do
  let _ ← ccAlloc typeSize
  let s ← P.get
  return .array base len (toInt32 (base.size s.types * len))

/-- `new_local` -/
def newLocal (name : String) (ty : Ty) : P Var := do
  let p ← ccAlloc varSize
  let v : Var := { name := name, ty := ty, place := .frame p }
  P.modify fun s => { s with curLocals := v :: s.curLocals }
  return v

/-- `new_global` -/
def newGlobal (name : String) (ty : Ty) : P Var := do
  let _ ← ccAlloc varSize
  let s ← P.get
  let p ← ccAlloc (if ty.size s.types < 8 then 8 else (ty.size s.types).toNat)
  let v : Var := { name := name, ty := ty, place := .global p }
  P.modify fun s => { s with globals := v :: s.globals }
  return v

end Blocks

section Registries

variable (s : PState)

/-- `find_struct` -/
def PState.findStruct (tag : String) : Option ℕ :=
  (s.tags.find? fun d => d.1 = tag).map fun d => d.2

/-- `find_typedef` -/
def PState.findTypedef (name : String) : Option Ty :=
  (s.typedefs.find? fun d => d.1 = name).map fun d => d.2

/-- `find_member` -/
def PState.findMember (t : Ty) (name : String) : Option Member :=
  match t with
  | .struct id => (s.types id).members.find? fun m => m.name = name
  | _ => none

/-- `find_var` -/
def PState.findVar (name : String) : Option Var :=
  (s.curLocals.find? fun v => v.name = name).or (s.globals.find? fun v => v.name = name)

/-- `looks_like_type` -/
def PState.looksLikeType : List Token → Bool
  | [] => false
  | t :: rest => isKw (t :: rest) "int" || isKw (t :: rest) "char" || isKw (t :: rest) "struct" ||
      (decide (t.kind = .ident) && (s.findTypedef t.text).isSome)

/-- `register_struct` -/
def registerStruct (tag : String) (id : ℕ) : P Unit := do
  let _ ← ccAlloc sdefSize
  P.modify fun s => { s with tags := (tag, id) :: s.tags }

/-- `register_typedef` -/
def registerTypedef (name : String) (ty : Ty) : P Unit := do
  let _ ← ccAlloc tdefSize
  P.modify fun s => { s with typedefs := (name, ty) :: s.typedefs }

end Registries

end XinuRpi4.Compiler
