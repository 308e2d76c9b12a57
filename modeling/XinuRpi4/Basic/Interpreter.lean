import XinuRpi4.Basic.ProgramStore

/-!
# The state of the BASIC interpreter

The fields of `struct basic_state` apart from the debugger's, and the lexer over
the statement cursor. A step that has no result is one the source leaves
undefined (an access outside a table) or that never ends.
-/

namespace XinuRpi4.Basic

abbrev Text := List UInt8

def nvarMax : ℕ := 224
def arrPool : ℕ := 4096
def svarLen : ℕ := 64
def forMax : ℕ := 32
def gosubMax : ℕ := 256
def whileMax : ℕ := 32

/-- The operations of `double` that the interpreter uses. -/
structure NumOps (ν : Type) where
  lit : ℚ → ν
  neg : ν → ν
  add : ν → ν → ν
  sub : ν → ν → ν
  mul : ν → ν → ν
  div : ν → ν → ν
  lt : ν → ν → Bool
  eq : ν → ν → Bool
  /-- Conversion to `int`. -/
  toInt : ν → ℤ
  /-- Conversion to `long`. -/
  toLong : ν → ℤ

namespace NumOps

variable {ν : Type} (N : NumOps ν)

def le (a b : ν) : Bool := N.lt a b || N.eq a b

def ofInt (n : ℤ) : ν := N.lit n

def ofBool (b : Bool) : ν := N.lit (if b then 1 else 0)

def isTrue (v : ν) : Bool := !N.eq v (N.lit 0)

end NumOps

/-- A value of `int` after an overflowing operation. -/
def wrapInt (n : ℤ) : ℤ := (BitVec.ofInt 32 n).toInt

/-- A place in a text: the line it is in, if it is a program line, and what is
left of it before the `NUL`. -/
structure Cursor where
  line : Option ℕ
  rest : Text
deriving DecidableEq

structure VArr where
  base : ℤ
  d1 : ℤ
  d2 : ℤ
  ndim : ℕ
deriving DecidableEq

/-- A `FOR` that is running; `var` is none for the slot -1. -/
structure For (ν : Type) where
  var : Option ℕ
  limit : ν
  step : ν
  idx : ℕ
  stmt : Cursor

/-- What the interpreter puts out through its hooks. -/
inductive Out
  | text (s : Text)
  | cls (mode : ℤ)
  | plot (x y ch : ℤ)
  | line (x1 y1 x2 y2 color : ℤ)
  | circle (x y r color : ℤ)
  | pause (ms : ℤ)
  | wifi (action : ℤ)
deriving DecidableEq

/-- The error flag is set where `err` holds a message. -/
structure Interp (ν : Type) where
  nprog : ℕ
  prog : ℕ → Line
  nvar : ℕ
  vname : ℕ → Text
  vval : ℕ → ν
  vstr : ℕ → Text
  varr : ℕ → VArr
  arrpool : ℤ → ν
  arrtop : ℤ
  dataPc : ℤ
  dataIp : Option Cursor
  running : Bool
  pc : ℕ
  ip : Cursor
  err : Option String
  gGoto : ℤ
  forstk : List (For ν)
  gosubstk : List (ℕ × Cursor)
  whilestk : List (ℕ × Cursor)
  /-- The static state of `RND`. -/
  seed : UInt64
  /-- The lines that `g_input` will return to `INPUT`. -/
  inputs : List Text
  out : List Out
  /-- History: the variables made, the arrays dimensioned automatically and the
  random numbers drawn. -/
  effects : ℕ

abbrev BasicM (ν : Type) := StateT (Interp ν) Option

variable {ν : Type}

/-- `basic_init`, with the storage as the loader clears it. -/
def basicInit (N : NumOps ν) : Interp ν where
  nprog := 0
  prog := fun _ => ⟨0, fun _ => 0⟩
  nvar := 0
  vname := fun _ => []
  vval := fun _ => N.lit 0
  vstr := fun _ => []
  varr := fun _ => ⟨0, 0, 0, 0⟩
  arrpool := fun _ => N.lit 0
  arrtop := 0
  dataPc := -1
  dataIp := none
  running := false
  pc := 0
  ip := ⟨none, []⟩
  err := none
  gGoto := 0
  forstk := []
  gosubstk := []
  whilestk := []
  seed := 22695477
  inputs := []
  out := []
  effects := 0

namespace Interp

/-- `prog[i].text` -/
def text (s : Interp ν) (i : ℕ) : Text := cstr (s.prog i).text

def lineStart (s : Interp ν) (i : ℕ) : Cursor := ⟨some i, s.text i⟩

def findLine (s : Interp ν) (no : ℤ) : Option ℕ :=
  (List.range s.nprog).find? fun i => ((s.prog i).no : ℤ) == no

end Interp

def bIsalpha (c : UInt8) : Bool := (65 ≤ c && c ≤ 90) || (97 ≤ c && c ≤ 122)

def isAlnum (c : UInt8) : Bool := bIsalpha c || bIsdigit c

def chr (c : Char) : UInt8 := c.toNat.toUInt8

def bytes (s : String) : Text := s.toList.map chr

def emit (t : Text) : BasicM ν Unit := modify fun s => { s with out := s.out ++ [.text t] }

def put (o : Out) : BasicM ν Unit := modify fun s => { s with out := s.out ++ [o] }

def berr (m : String) : BasicM ν Unit :=
  modify fun s => { s with err := s.err <|> some m }

def setIp (c : Cursor) : BasicM ν Unit := modify fun s => { s with ip := c }

def setRest (t : Text) : BasicM ν Unit := modify fun s => { s with ip := { s.ip with rest := t } }

def rest : BasicM ν Text := return (← get).ip.rest

/-- `*ip` -/
def peek : BasicM ν UInt8 := return (← get).ip.rest.headD 0

/-- `ip++` -/
def advance : BasicM ν Unit := modify fun s => { s with ip := { s.ip with rest := s.ip.rest.tail } }

def skipsp : BasicM ν Unit :=
  modify fun s => { s with ip := { s.ip with rest := s.ip.rest.dropWhile isBlank } }

/-- What is behind the keyword, if the text starts with it. -/
def matchKw : Text → Text → Option Text
  | [], t => if isAlnum (t.headD 0) then none else some t
  | _ :: _, [] => none
  | k :: ks, c :: t => if bUp c = k then matchKw ks t else none

def kw (k : String) : BasicM ν Bool := do
  skipsp
  match matchKw (bytes k) (← rest) with
  | none => return false
  | some t =>
    setRest t
    return true

/-- A name, in capitals, and what is behind it. -/
def scanName (t : Text) : Text × Text :=
  if bIsalpha (t.headD 0) then
    let name := (t.take 10).takeWhile isAlnum
    let t := t.drop name.length
    if t.headD 0 = chr '$' then (name.map bUp ++ [chr '$'], t.tail) else (name.map bUp, t)
  else ([], t)

/-- The name read is empty if there is none. -/
def varName : BasicM ν Text := do
  skipsp
  let (name, t) := scanName (← rest)
  setRest t
  return name

def isStringName (name : Text) : Bool := name.getLast? == some (chr '$')

def findVar (s : Interp ν) (name : Text) : Option ℕ :=
  (List.range s.nvar).find? fun i => s.vname i == name

/-- A new slot behind the others. -/
def Interp.addVar (N : NumOps ν) (s : Interp ν) (name : Text) : Interp ν :=
  { s with
    nvar := s.nvar + 1
    vname := Function.update s.vname s.nvar (name.take 11)
    vval := Function.update s.vval s.nvar (N.lit 0)
    vstr := Function.update s.vstr s.nvar []
    varr := Function.update s.varr s.nvar { s.varr s.nvar with ndim := 0 }
    effects := s.effects + 1 }

/-- Find or create the slot; none for -1. -/
def varSlot (N : NumOps ν) (name : Text) : BasicM ν (Option ℕ) := do
  let s ← get
  match findVar s name with
  | some i => return some i
  | none =>
    if nvarMax ≤ s.nvar then
      berr "too many vars"
      return none
    else
      modify fun s => s.addVar N name
      return some s.nvar

def varClearAll : BasicM ν Unit := modify fun s => { s with nvar := 0, arrtop := 0 }

/-- A numeric variable name; none leaves the cursor or the table is full. -/
def varidx (N : NumOps ν) : BasicM ν (Option ℕ) := do
  let save := (← get).ip
  let name ← varName
  if name = [] ∨ isStringName name then
    setIp save
    return none
  else varSlot N name

def svaridx (N : NumOps ν) : BasicM ν (Option ℕ) := do
  let save := (← get).ip
  let name ← varName
  if name = [] ∨ !isStringName name then
    setIp save
    return none
  else varSlot N name

/-- `vval[vi] = v`; there is no slot -1. -/
def setVal (vi : Option ℕ) (v : ν) : BasicM ν Unit :=
  match vi with
  | none => failure
  | some i => modify fun s => { s with vval := Function.update s.vval i v }

def setStr (i : ℕ) (t : Text) : BasicM ν Unit :=
  modify fun s => { s with vstr := Function.update s.vstr i t }

/-- A write to a string buffer, which may be the storage of a variable. -/
def putStr (dst : Option ℕ) (t : Text) : BasicM ν Unit :=
  match dst with
  | none => return ()
  | some i => setStr i t

/-- A pool cell; a subscript outside the pool is undefined. -/
def loadCell (i : ℤ) : BasicM ν ν := do
  let s ← get
  if 0 ≤ i ∧ i < arrPool then return s.arrpool i else failure

def storeCell (i : ℤ) (v : ν) : BasicM ν Unit :=
  if 0 ≤ i ∧ i < arrPool then
    modify fun s => { s with arrpool := Function.update s.arrpool i v }
  else failure

/-- `for (int k = 0; k < n; k++) arrpool[arrtop + k] = 0; arrtop += n;` -/
def clearCells (N : NumOps ν) (n : ℤ) : BasicM ν Unit := do
  let s ← get
  if (n ≤ 0 ∨ 0 ≤ s.arrtop) ∧ s.arrtop + n ≤ arrPool then
    modify fun s => { s with
      arrpool := fun i => if s.arrtop ≤ i ∧ i < s.arrtop + n then N.lit 0 else s.arrpool i
      arrtop := s.arrtop + n }
  else failure

end XinuRpi4.Basic
