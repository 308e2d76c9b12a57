import XinuRpi4.Basic.Interpreter

/-!
# The expression evaluator

A nested expression is behind a bracket, a sign or a function name, so its depth
is at most the length of the text. The levels of the grammar are programs over
the three evaluators of the next depth; the loops carry the length as fuel.
-/

namespace XinuRpi4.Basic

variable {ν : Type}

section Numbers

variable (N : NumOps ν)

/-- `v = v * 10 + digit` as long as digits follow. -/
def digits : ν → Text → ν × Text
  | v, [] => (v, [])
  | v, c :: t =>
    if bIsdigit c then digits (N.add (N.mul v (N.lit 10)) (N.ofInt (c - 48).toNat)) t
    else (v, c :: t)

def fraction : ν → ν → Text → ν × Text
  | v, _, [] => (v, [])
  | v, f, c :: t =>
    if bIsdigit c then
      fraction (N.add v (N.mul (N.ofInt (c - 48).toNat) f)) (N.mul f (N.lit 0.1)) t
    else (v, c :: t)

/-- Digits and a fraction. -/
def decimal (t : Text) : ν × Text :=
  let (v, t) := digits N (N.lit 0) t
  if t.headD 0 = chr '.' then fraction N v (N.lit 0.1) t.tail else (v, t)

/-- `str_to_num`, and the number `VAL` reads. -/
def strToNum (t : Text) : ν :=
  let t := t.dropWhile (· = 32)
  if t.headD 0 = chr '-' then N.neg (decimal N t.tail).1
  else if t.headD 0 = chr '+' then (decimal N t.tail).1
  else (decimal N t).1

/-- Newton's method, fifty rounds. -/
def bSqrt (x : ν) : ν :=
  if N.le x (N.lit 0) then N.lit 0
  else
    let g := if N.lt (N.lit 1) x then x else N.lit 1
    (fun g => N.mul (N.lit 0.5) (N.add g (N.div x g)))^[50] g

def piLit : ν := N.lit 3.14159265358979
def twoPi : ν := N.lit 6.28318530717959

/-- `while (x > PI) x -= TWO_PI;`, which never ends once the subtraction leaves
`x` as it was. -/
def reduceDown : ℕ → ν → Option ν
  | 0, _ => none
  | fuel + 1, x =>
    if N.lt (piLit N) x then reduceDown fuel (N.sub x (twoPi N)) else some x

def reduceUp : ℕ → ν → Option ν
  | 0, _ => none
  | fuel + 1, x =>
    if N.lt x (N.neg (piLit N)) then reduceUp fuel (N.add x (twoPi N)) else some x

/-- The terms of the series from the n-th on. -/
def sinSeries (x2 : ν) : ℕ → ℕ → ν → ν → ν
  | 0, _, _, sum => sum
  | k + 1, n, term, sum =>
    let term := N.mul term (N.div (N.neg x2) (N.ofInt (2 * n * (2 * n + 1))))
    sinSeries x2 k (n + 1) term (N.add sum term)

def reduceFuel : ℕ := 2 ^ 64

def bSin (x : ν) : Option ν := do
  let x ← reduceDown N reduceFuel x
  let x ← reduceUp N reduceFuel x
  return sinSeries N (N.mul x x) 9 1 x x

def bCos (x : ν) : Option ν := bSin N (N.add x (N.lit 1.57079632679490))

/-- The decimal digits of a number that is not negative. -/
def decDigits (n : ℕ) : Text := (Nat.toDigits 10 n).map chr

/-- `num_str` -/
def numStr (v : ν) : Text :=
  let sign := if N.lt v (N.lit 0) then [chr '-'] else []
  let v := if N.lt v (N.lit 0) then N.neg v else v
  let whole := N.toLong v
  let frac := N.toLong
    (N.add (N.mul (N.sub v (N.ofInt whole)) (N.lit 1000000)) (N.lit 0.5))
  let carry := decide (1000000 ≤ frac)
  let frac := if carry then frac - 1000000 else frac
  let whole := if carry then whole + 1 else whole
  let tail :=
    if frac = 0 then []
    else
      let fb := (List.range 6).map fun i => chr '0' + (frac.toNat / 10 ^ (5 - i) % 10).toUInt8
      let fb := (fb.reverse.dropWhile (· = chr '0')).reverse
      if fb = [] then [] else chr '.' :: fb
  sign ++ decDigits whole.toNat ++ tail

end Numbers

/-- The evaluators of the next depth. -/
structure Evals (ν : Type) where
  factor : BasicM ν ν
  expr : BasicM ν ν
  /-- `seval(out, max)`, where `out` may be the storage of a variable. -/
  seval : Option ℕ → ℕ → BasicM ν Text

inductive Relop
  | lt | gt | eq | le | ge | ne
deriving DecidableEq

/-- The difference of the first bytes that differ. -/
def cmpText : Text → Text → ℤ
  | [], [] => 0
  | [], y :: _ => -(y.toNat : ℤ)
  | x :: _, [] => x.toNat
  | x :: xs, y :: ys => if x = y then cmpText xs ys else (x.toNat : ℤ) - y.toNat

section Evaluator

variable (N : NumOps ν) (E : Evals ν)

/-- `if (*ip == c) ip++; else berr(m);` -/
def expect (c : Char) (m : String) : BasicM ν Unit := do
  if (← peek) = chr c then advance else berr m

/-- A leading bracket, if there is one. -/
def openParen : BasicM ν Bool := do
  skipsp
  if (← peek) = chr '(' then
    advance
    return true
  else return false

def closeParen (par : Bool) : BasicM ν Unit := do
  skipsp
  if par then expect ')' "expected )" else return ()

def parenSexpr (max : ℕ) : BasicM ν Text := do
  let par ← openParen
  let s ← E.seval none max
  closeParen par
  return s

def parenNum : BasicM ν ν := do
  let par ← openParen
  let v ← E.expr
  closeParen par
  return v

/-- Auto-DIM to (10). -/
def autoDim (li : ℕ) : BasicM ν Bool := do
  let s ← get
  if (s.varr li).ndim ≠ 0 then return true
  else if arrPool < s.arrtop + 11 then
    berr "array space"
    return false
  else
    modify fun s => { s with
      varr := Function.update s.varr li { base := s.arrtop, d1 := 11, d2 := 1, ndim := 1 }
      effects := s.effects + 1 }
    clearCells N 11
    return true

/-- The subscripts, with the cursor behind the bracket. -/
def subscripts (li : ℕ) : BasicM ν (Option ℤ) := do
  let i1 := N.toInt (← E.expr)
  skipsp
  let i2 ← (do
    if (← peek) = chr ',' then
      advance
      let v ← E.expr
      skipsp
      return N.toInt v
    else return 0)
  if (← peek) = chr ')' then
    advance
    let a := (← get).varr li
    if i1 < 0 ∨ a.d1 ≤ i1 ∨ i2 < 0 ∨ a.d2 ≤ i2 then
      berr "subscript"
      return none
    else return some (wrapInt (a.base + wrapInt (i1 * a.d2) + i2))
  else
    berr "array )"
    return none

/-- The pool index of `A(i[,j])`; none for the null pointer. -/
def arrElem (li : Option ℕ) : BasicM ν (Option ℤ) :=
  match li with
  | none => return none
  | some li => do
    if ← autoDim N li then
      if (← peek) = chr '(' then
        advance
        subscripts N E li
      else
        berr "array ("
        return none
    else return none

/-- `RND`, for the factor behind it. -/
def rnd (n : ν) : BasicM ν ν := do
  let s := (← get).seed * 1103515245 + 12345
  modify fun t => { t with seed := s, effects := t.effects + 1 }
  let r := N.div (N.ofInt ((s >>> 16) &&& 0x7FFF).toNat) (N.lit 32768)
  return if N.lt (N.lit 1) n then N.mul r n else r

/-- The colour names, in the order they are tried. -/
def colours : List (String × ℕ) :=
  [("BLACK", 0), ("BLUE", 1), ("GREEN", 2), ("CYAN", 3), ("RED", 4), ("MAGENTA", 5),
    ("YELLOW", 6), ("WHITE", 7), ("LIME", 10), ("GRAY", 8), ("GREY", 8)]

def colour : List (String × ℕ) → BasicM ν (Option ℕ)
  | [] => return none
  | (k, n) :: ks => do
    if ← kw k then return some n else colour ks

/-- A variable: an array element in front of a bracket, a scalar otherwise. -/
def variableFactor : BasicM ν ν := do
  let save := (← get).ip
  let name ← varName
  if name = [] ∨ isStringName name then
    setIp save
    berr "syntax"
    return N.lit 0
  else
    let vi ← varSlot N name
    skipsp
    if (← peek) = chr '(' then
      match ← arrElem N E vi with
      | none => return N.lit 0
      | some i => loadCell i
    else
      match vi with
      | none => return N.lit 0
      | some i => return (← get).vval i

def absOf (v : ν) : ν := if N.lt v (N.lit 0) then N.neg v else v

def intOf (v : ν) : ν :=
  let l := N.toLong v
  N.ofInt (if N.lt v (N.lit 0) && !N.eq (N.ofInt l) v then l - 1 else l)

def sgnOf (v : ν) : ν :=
  N.ofInt (if N.lt (N.lit 0) v then 1 else if N.lt v (N.lit 0) then -1 else 0)

def sqrOf (v : ν) : ν := if N.lt (N.lit 0) v then bSqrt N v else N.lit 0

/-- Colours, string functions and variables. No window sets the hook of `BTN`. -/
def nameFactor : BasicM ν ν := do
  match ← colour colours with
  | some n => return N.ofInt n
  | none =>
    if ← kw "BTN" then
      let _ ← parenNum E
      return N.lit 0
    else if ← kw "LEN" then
      let s ← parenSexpr E svarLen
      return N.ofInt s.length
    else if ← kw "ASC" then
      let s ← parenSexpr E svarLen
      return N.ofInt (s.headD 0).toNat
    else if ← kw "VAL" then
      let s ← parenSexpr E svarLen
      return strToNum N s
    else variableFactor N E

def functionFactor : BasicM ν ν := do
  if ← kw "ABS" then return absOf N (← E.factor)
  else if ← kw "INT" then return intOf N (← E.factor)
  else if ← kw "SGN" then return sgnOf N (← E.factor)
  else if ← kw "SQR" then return sqrOf N (← E.factor)
  else if ← kw "SIN" then
    let v ← E.factor
    liftM (bSin N v)
  else if ← kw "COS" then
    let v ← E.factor
    liftM (bCos N v)
  else if ← kw "RND" then
    let n ← E.factor
    rnd N n
  else nameFactor N E

def factor : BasicM ν ν := do
  skipsp
  let c ← peek
  if c = chr '(' then
    advance
    let v ← E.expr
    skipsp
    expect ')' "expected )"
    return v
  else if c = chr '-' then
    advance
    return N.neg (← E.factor)
  else if c = chr '+' then
    advance
    E.factor
  else if bIsdigit c ∨ c = chr '.' then
    let (v, t) := decimal N (← rest)
    setRest t
    return v
  else functionFactor N E

/-- The repeated multiplication of `^`. -/
def powOf (v : ν) (n : ℤ) : ν := (fun r => N.mul r v)^[n.toNat] (N.lit 1)

def powerLoop : ℕ → ν → BasicM ν ν
  | 0, _ => failure
  | fuel + 1, v => do
    if (← peek) = chr '^' then
      advance
      let n := N.toInt (← factor N E)
      skipsp
      powerLoop fuel (powOf N v n)
    else return v

/-- Fuel for a loop that takes at least one character a turn. -/
def loopFuel : BasicM ν ℕ := return (← rest).length + 1

def power : BasicM ν ν := do
  let v ← factor N E
  skipsp
  powerLoop N E (← loopFuel) v

def divOf (v r : ν) : BasicM ν ν := do
  if N.eq r (N.lit 0) then
    berr "div0"
    return v
  else return N.div v r

def modOf (v r : ν) : BasicM ν ν := do
  let a := N.toLong v
  let b := N.toLong r
  if b = 0 then
    berr "div0"
    return v
  else return N.ofInt (a - a.tdiv b * b)

def termLoop : ℕ → ν → BasicM ν ν
  | 0, _ => failure
  | fuel + 1, v => do
    let c ← peek
    if c = chr '*' then
      advance
      let r ← power N E
      skipsp
      termLoop fuel (N.mul v r)
    else if c = chr '/' then
      advance
      let r ← power N E
      let v ← divOf N v r
      skipsp
      termLoop fuel v
    else if ← kw "MOD" then
      let r ← power N E
      let v ← modOf N v r
      skipsp
      termLoop fuel v
    else return v

def term : BasicM ν ν := do
  let v ← power N E
  skipsp
  termLoop N E (← loopFuel) v

def addsubLoop : ℕ → ν → BasicM ν ν
  | 0, _ => failure
  | fuel + 1, v => do
    let c ← peek
    if c = chr '+' ∨ c = chr '-' then
      advance
      let r ← term N E
      skipsp
      addsubLoop fuel (if c = chr '+' then N.add v r else N.sub v r)
    else return v

def addsub : BasicM ν ν := do
  let v ← term N E
  skipsp
  addsubLoop N E (← loopFuel) v

/-- The relational operator at the cursor and what is behind it. -/
def scanRelop (t : Text) : Option (Relop × Text) :=
  let a := t.headD 0
  let b := t.tail.headD 0
  if a = chr '<' ∧ b = chr '=' then some (.le, t.drop 2)
  else if a = chr '>' ∧ b = chr '=' then some (.ge, t.drop 2)
  else if a = chr '<' ∧ b = chr '>' then some (.ne, t.drop 2)
  else if a = chr '<' then some (.lt, t.tail)
  else if a = chr '>' then some (.gt, t.tail)
  else if a = chr '=' then some (.eq, t.tail)
  else none

def relop : BasicM ν (Option Relop) := do
  match scanRelop (← rest) with
  | none => return none
  | some (op, t) =>
    setRest t
    return some op

def relText (op : Relop) (c : ℤ) : Bool :=
  match op with
  | .lt => c < 0
  | .gt => 0 < c
  | .eq => c = 0
  | .le => c ≤ 0
  | .ge => 0 ≤ c
  | .ne => c ≠ 0

def relNum (op : Relop) (v r : ν) : Bool :=
  match op with
  | .lt => N.lt v r
  | .gt => N.lt r v
  | .eq => N.eq v r
  | .le => N.le v r
  | .ge => N.le r v
  | .ne => !N.eq v r

/-- A string literal, a string variable or a function whose name ends in `$`. -/
def looksString (t : Text) : Bool :=
  if t.headD 0 = chr '"' then true
  else if bIsalpha (t.headD 0) then
    let t := t.dropWhile bIsalpha
    let t := if bIsdigit (t.headD 0) then t.tail else t
    t.headD 0 = chr '$'
  else false

def peekIsString : BasicM ν Bool := do
  skipsp
  return looksString (← rest)

def relexpr : BasicM ν ν := do
  if ← peekIsString then
    let l ← E.seval none svarLen
    skipsp
    match ← relop with
    | none =>
      berr "string relop"
      return N.lit 0
    | some op =>
      let r ← E.seval none svarLen
      return N.ofBool (relText op (cmpText l r))
  else
    let v ← addsub N E
    skipsp
    match ← relop with
    | none => return v
    | some op =>
      let r ← addsub N E
      return N.ofBool (relNum N op v r)

def exprLoop : ℕ → ν → BasicM ν ν
  | 0, _ => failure
  | fuel + 1, v => do
    if ← kw "AND" then
      let r ← relexpr N E
      skipsp
      exprLoop fuel (N.ofBool (N.isTrue v && N.isTrue r))
    else if ← kw "OR" then
      let r ← relexpr N E
      skipsp
      exprLoop fuel (N.ofBool (N.isTrue v || N.isTrue r))
    else return v

def exprAt : BasicM ν ν := do
  let v ← relexpr N E
  skipsp
  exprLoop N E (← loopFuel) v

/-- The result of a string function, cut to the buffer. -/
def finish (dst : Option ℕ) (max : ℕ) (t : Text) : BasicM ν Text := do
  let t := t.take (max - 1)
  putStr dst t
  return t

/-- `MID$(s, start [, len])`, behind the name. -/
def midString (dst : Option ℕ) (max : ℕ) : BasicM ν Text := do
  skipsp
  expect '(' "MID$ ("
  let s ← E.seval none svarLen
  skipsp
  expect ',' "MID$ ,"
  let start := N.toInt (← E.expr)
  skipsp
  let len ← (do
    if (← peek) = chr ',' then
      advance
      let v ← E.expr
      skipsp
      return N.toInt v
    else return (max : ℤ))
  expect ')' "MID$ )"
  finish dst max ((s.drop (start - 1).toNat).take len.toNat)

/-- `LEFT$(s, n)` -/
def leftString (dst : Option ℕ) (max : ℕ) : BasicM ν Text := do
  skipsp
  expect '(' "LEFT$ ("
  let s ← E.seval none svarLen
  skipsp
  expect ',' "LEFT$ ,"
  let len := N.toInt (← E.expr)
  skipsp
  expect ')' "LEFT$ )"
  finish dst max (s.take len.toNat)

/-- `RIGHT$(s, n)` -/
def rightString (dst : Option ℕ) (max : ℕ) : BasicM ν Text := do
  skipsp
  expect '(' "RIGHT$ ("
  let s ← E.seval none svarLen
  skipsp
  expect ',' "RIGHT$ ,"
  let len := N.toInt (← E.expr)
  skipsp
  expect ')' "RIGHT$ )"
  finish dst max (s.drop ((s.length : ℤ) - len).toNat)

def stringVar (dst : Option ℕ) (max : ℕ) : BasicM ν Text := do
  let save := (← get).ip
  match ← svaridx N with
  | some si => finish dst max ((← get).vstr si)
  | none =>
    setIp save
    berr "string expr"
    finish dst max []

def literal (dst : Option ℕ) (max : ℕ) : BasicM ν Text := do
  advance
  let t ← rest
  let s := (t.take (max - 1)).takeWhile (· ≠ chr '"')
  let t := t.drop s.length
  setRest (if t.headD 0 = chr '"' then t.tail else t)
  putStr dst s
  return s

def sfactor (dst : Option ℕ) (max : ℕ) : BasicM ν Text := do
  skipsp
  putStr dst []
  let c ← peek
  if c = chr '"' then literal dst max
  else if c = chr '(' then
    advance
    let s ← E.seval dst max
    skipsp
    expect ')' "expected )"
    return s
  else if ← kw "MID$" then midString N E dst max
  else if ← kw "LEFT$" then leftString N E dst max
  else if ← kw "RIGHT$" then rightString N E dst max
  else if ← kw "CHR$" then
    let c := UInt8.ofNat ((N.toInt (← parenNum E)) % 256).toNat
    let s := if c = 0 then [] else [c]
    putStr dst s
    return s
  else if ← kw "STR$" then
    let v ← parenNum E
    putStr dst (numStr N v)
    return numStr N v
  else stringVar N dst max

def sevalLoop (dst : Option ℕ) (max : ℕ) : ℕ → Text → BasicM ν Text
  | 0, _ => failure
  | fuel + 1, out => do
    if (← peek) = chr '+' then
      advance
      let rhs ← sfactor N E none svarLen
      let out := out ++ rhs.take (max - 1 - out.length)
      putStr dst out
      skipsp
      sevalLoop dst max fuel out
    else return out

def sevalAt (dst : Option ℕ) (max : ℕ) : BasicM ν Text := do
  let out ← sfactor N E dst max
  skipsp
  sevalLoop N E dst max (← loopFuel) out

end Evaluator

/-- The evaluators for nesting up to a depth. -/
def evals (N : NumOps ν) : ℕ → Evals ν
  | 0 => { factor := failure, expr := failure, seval := fun _ _ => failure }
  | depth + 1 =>
    { factor := factor N (evals N depth)
      expr := exprAt N (evals N depth)
      seval := sevalAt N (evals N depth) }

/-- `expr()` -/
def expr (N : NumOps ν) : BasicM ν ν := do
  let n ← loopFuel
  (evals N n).expr

/-- `seval(out, max)` -/
def seval (N : NumOps ν) (dst : Option ℕ) (max : ℕ) : BasicM ν Text := do
  let n ← loopFuel
  (evals N n).seval dst max

/-- `arr_elem` at the top of a statement. -/
def arrElemTop (N : NumOps ν) (li : Option ℕ) : BasicM ν (Option ℤ) := do
  let n ← loopFuel
  arrElem N (evals N n) li

end XinuRpi4.Basic
