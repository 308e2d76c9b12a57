import XinuRpi4.Basic.Evaluator

/-!
# The statements of BASIC

`exec_stmt` and what it calls. Nothing in the source sets the hooks of the
buttons, so `BUTTON` evaluates its arguments and does nothing with them.
-/

namespace XinuRpi4.Basic

variable {ν : Type}

/-- What is left when the bytes at the end that satisfy `p` are cut off. -/
def trimEnd (p : UInt8 → Bool) (t : Text) : Text := (t.reverse.dropWhile p).reverse

def basFirstToken (t : Text) : Text :=
  (((t.dropWhile isBlank).takeWhile bIsalpha).take 7).map bUp

def listLines (N : NumOps ν) : List Line → ℕ → List Text
  | [], _ => []
  | l :: ls, depth =>
    let t := cstr l.text
    let tok := basFirstToken t
    let depth := if tok = bytes "NEXT" ∨ tok = bytes "WEND" then depth - 1 else depth
    let nb := numStr N (N.ofInt l.no)
    List.replicate (4 - nb.length) (bytes " ") ++ [nb, bytes "  "] ++
      List.replicate (min depth 12) (bytes "  ") ++ [t.dropWhile isBlank, bytes "\n"] ++
      listLines N ls (if tok = bytes "FOR" ∨ tok = bytes "WHILE" then depth + 1 else depth)

/-- The texts that `do_list` emits. -/
def doList (N : NumOps ν) (s : Interp ν) : List Text :=
  listLines N ((List.range s.nprog).map s.prog) 0

namespace Interp

/-- The number of the line whose text is `*name`, or -1. -/
def findLabel (s : Interp ν) (name : Text) : ℤ :=
  match (List.range s.nprog).find? fun i =>
      (s.text i).headD 0 == chr '*' && (matchKw name (s.text i).tail).isSome with
  | some i => (s.prog i).no
  | none => -1

def lineIsData (t : Text) : Bool := (matchKw (bytes "DATA") (t.dropWhile isBlank)).isSome

/-- The `WEND` that closes a `WHILE`, among the lines behind it. -/
def matchWend (s : Interp ν) : ℕ → List ℕ → Option ℕ
  | _, [] => none
  | depth, i :: is =>
    let t := (s.text i).dropWhile isBlank
    if (matchKw (bytes "WHILE") t).isSome then matchWend s (depth + 1) is
    else if (matchKw (bytes "WEND") t).isSome then
      if depth = 1 then some i else matchWend s (depth - 1) is
    else matchWend s depth is

end Interp

def setGoto (n : ℤ) : BasicM ν Unit := modify fun s => { s with gGoto := n }

/-- `if (*ip != c) { berr(m); return; } ip++;` in front of a program. -/
def need (c : Char) (m : String) (k : BasicM ν Unit) : BasicM ν Unit := do
  skipsp
  if (← peek) = chr c then
    advance
    k
  else berr m

/-- `skipsp(); if (*ip == ',') { ip++; continue; } break;` -/
def nextItem (k : BasicM ν Unit) : BasicM ν Unit := do
  skipsp
  if (← peek) = chr ',' then
    advance
    k
  else return ()

section Statements

variable (N : NumOps ν)

def intExpr : BasicM ν ℤ := return N.toInt (← expr N)

/-- A value behind a comma, if there is a comma. -/
def optionalInt (dflt : ℤ) : BasicM ν ℤ := do
  skipsp
  if (← peek) = chr ',' then
    advance
    intExpr N
  else return dflt

def gotoTarget : BasicM ν ℤ := do
  skipsp
  if (← peek) = chr '*' then
    advance
    let t ← rest
    let nm := (t.take 11).takeWhile isAlnum
    setRest (t.drop nm.length)
    return (← get).findLabel (nm.map bUp)
  else intExpr N

/-- The items of `PRINT`; true if a separator came last. -/
def printItems : ℕ → Bool → BasicM ν Bool
  | 0, _ => failure
  | fuel + 1, trailing => do
    skipsp
    let c ← peek
    if c = 0 ∨ c = chr ':' then return trailing
    else
      if ← peekIsString then emit (← seval N none svarLen) else emit (numStr N (← expr N))
      skipsp
      let c ← peek
      if c = chr ';' then
        advance
        printItems fuel true
      else if c = chr ',' then
        advance
        emit (bytes "\t")
        printItems fuel true
      else return false

def doPrint : BasicM ν Unit := do
  if ← printItems N (← loopFuel) false then return () else emit (bytes "\n")

/-- What a line leaves in a buffer of `max` bytes. -/
def lineBuf (max : ℕ) (l : Text) : Text := (l.take (max - 1)).takeWhile (· ≠ 0)

/-- One line through `g_input`; none when the input is closed. -/
def gInput (max : ℕ) : BasicM ν (Option Text) := do
  match (← get).inputs with
  | [] => return none
  | l :: ls =>
    modify fun s => { s with inputs := ls }
    return some (lineBuf max l)

def inputPrompt : BasicM ν Text := do
  skipsp
  if (← peek) = chr '"' then
    advance
    let t ← rest
    let s := t.takeWhile (· ≠ chr '"')
    setRest (t.drop (s.length + 1))
    skipsp
    let c ← peek
    if c = chr ';' ∨ c = chr ',' then advance
    return s.take 77 ++ bytes "? "
  else return bytes "? "

/-- The editor may have returned the prompt with the line. -/
def stripPrefix (pfx t : Text) : Text := if pfx.isPrefixOf t then t.drop pfx.length else t

def inputBlank (c : UInt8) : Bool := c == chr ' ' || c == chr ','

/-- The text that a string variable gets, and what is left of the line. -/
def inputText (src : Text) : Text × Text :=
  let src := src.dropWhile inputBlank
  let s := (src.take (svarLen - 1)).takeWhile (· ≠ chr ',')
  (trimEnd (· == chr ' ') s, src.drop s.length)

def inputNumber (src : Text) : ν × Text :=
  let src := src.dropWhile inputBlank
  if src.headD 0 = chr '-' then
    let (v, src) := decimal N src.tail
    (N.neg v, src)
  else decimal N src

def inputVars : ℕ → Text → BasicM ν Unit
  | 0, _ => failure
  | fuel + 1, src => do
    let save := (← get).ip
    match ← svaridx N with
    | some si =>
      let (t, src) := inputText src
      setStr si t
      nextItem (inputVars fuel src)
    | none =>
      setIp save
      match ← varidx N with
      | none => berr "INPUT var"
      | some vi =>
        let (v, src) := inputNumber N src
        setVal (some vi) v
        nextItem (inputVars fuel src)

def doInput : BasicM ν Unit := do
  let prompt ← inputPrompt
  emit prompt
  match ← gInput 96 with
  | none => berr "no input"
  | some line => inputVars N (← loopFuel) (stripPrefix prompt line)

def doNew : BasicM ν Unit := do
  modify fun s => { s with nprog := 0 }
  varClearAll
  modify fun s => { s with whilestk := [], dataPc := -1, dataIp := none }
  emit (bytes "Ok\n")

def doGosub : BasicM ν Unit := do
  let tgt ← gotoTarget N
  let s ← get
  if s.gosubstk.length < gosubMax then
    modify fun s => { s with gosubstk := (s.pc, s.ip) :: s.gosubstk }
  else berr "GOSUB overflow"
  setGoto tgt

def doReturn : BasicM ν Unit := do
  match (← get).gosubstk with
  | [] => berr "RETURN without GOSUB"
  | (rpc, rip) :: stk =>
    modify fun s => { s with pc := rpc, ip := rip, gosubstk := stk, gGoto := -2 }

/-- `self` executes the statement behind `THEN`. -/
def doIf (self : BasicM ν Unit) : BasicM ν Unit := do
  let c ← expr N
  if ← kw "THEN" then
    skipsp
    if N.isTrue c then
      if bIsdigit (← peek) then setGoto (← intExpr N) else self
    else setRest []
  else berr "expected THEN"

def startFor (vi : Option ℕ) (start : ν) : BasicM ν Unit := do
  let limit ← expr N
  let step ← (do if ← kw "STEP" then expr N else return N.lit 1)
  setVal vi start
  let s ← get
  if s.forstk.length < forMax then
    modify fun s => { s with
      forstk := { var := vi, limit := limit, step := step, idx := s.pc, stmt := s.ip } ::
        s.forstk }
  else berr "FOR overflow"

def doFor : BasicM ν Unit := do
  let vi ← varidx N
  need '=' "FOR =" do
    let start ← expr N
    if ← kw "TO" then startFor N vi start else berr "FOR TO"

def doNext : BasicM ν Unit := do
  let save := (← get).ip
  match ← varidx N with
  | none => setIp save
  | some _ => pure ()
  match (← get).forstk with
  | [] => berr "NEXT without FOR"
  | f :: stk =>
    match f.var with
    | none => failure
    | some i =>
      setVal (some i) (N.add ((← get).vval i) f.step)
      let v := (← get).vval i
      let again := if N.le (N.lit 0) f.step then N.le v f.limit else N.le f.limit v
      if again then modify fun s => { s with pc := f.idx, ip := f.stmt, gGoto := -2 }
      else modify fun s => { s with forstk := stk }

def doWhile : BasicM ν Unit := do
  let save ← get
  let c ← expr N
  let s ← get
  if N.isTrue c then
    if s.whilestk.length < whileMax then
      modify fun s => { s with whilestk := (save.pc, save.ip) :: s.whilestk }
    else berr "WHILE overflow"
  else
    match s.matchWend 1 ((List.range s.nprog).drop (s.pc + 1)) with
    | some i => modify fun s => { s with pc := i, ip := ⟨some i, []⟩, gGoto := -2 }
    | none => berr "WHILE without WEND"

def doWend : BasicM ν Unit := do
  let save ← get
  match save.whilestk with
  | [] => berr "WEND without WHILE"
  | (rpc, rip) :: stk =>
    modify fun s => { s with ip := rip, pc := rpc }
    if N.isTrue (← expr N) then setGoto (-2)
    else modify fun s => { s with whilestk := stk, ip := save.ip, pc := save.pc }

def doWifi : BasicM ν Unit := do
  if ← kw "ON" then put (.wifi 1)
  else if ← kw "OFF" then put (.wifi 0)
  else
    let _ ← kw "STATUS"
    put (.wifi 2)

def doCls : BasicM ν Unit := do
  skipsp
  if bIsdigit (← peek) then put (.cls (← intExpr N)) else put (.cls 1)

def doButton : BasicM ν Unit := do
  let n ← intExpr N
  need ',' "BUTTON ," do
    let _ ← seval N none svarLen
    if 0 ≤ n ∧ n < 8 then
      let _ ← optionalInt N 0
    else skipsp

def doPlot : BasicM ν Unit := do
  let x ← intExpr N
  need ',' "PLOT ," do
    let y ← intExpr N
    let ch ← optionalInt N 42
    put (.plot x y ch)

/-- `(x,y)`, and then `k`. -/
def point (stmt : String) (k : ℤ → ℤ → BasicM ν Unit) : BasicM ν Unit :=
  need '(' (stmt ++ " (") do
    let x ← intExpr N
    need ',' (stmt ++ " ,") do
      let y ← intExpr N
      need ')' (stmt ++ " )") (k x y)

def doLine : BasicM ν Unit :=
  point N "LINE" fun x1 y1 => need '-' "LINE -" <| point N "LINE" fun x2 y2 => do
    let c ← optionalInt N 7
    put (.line x1 y1 x2 y2 c)

def doCircle : BasicM ν Unit :=
  point N "CIRCLE" fun x y => need ',' "CIRCLE r" do
    let r ← intExpr N
    let c ← optionalInt N 7
    put (.circle x y r c)

def doPause : BasicM ν Unit := do
  put (.pause (← intExpr N))

def doWait : BasicM ν Unit := do
  skipsp
  let c ← peek
  let sec ← (do if bIsdigit c ∨ c = chr '.' then expr N else return N.lit 0)
  let ms := N.toInt (N.mul sec (N.lit 1000))
  put (.pause (if ms ≤ 0 then 1000 else ms))

/-- An array of d1 * d2 cells behind the others. -/
def dimArray (li : Option ℕ) (d1 d2 : ℤ) (nd : ℕ) (k : BasicM ν Unit) : BasicM ν Unit := do
  let s ← get
  let sz := wrapInt (d1 * d2)
  match li with
  | none => berr "array space"
  | some li =>
    if d1 < 1 ∨ d2 < 1 ∨ arrPool < wrapInt (s.arrtop + sz) then berr "array space"
    else
      modify fun s => { s with
        varr := Function.update s.varr li { base := s.arrtop, d1 := d1, d2 := d2, ndim := nd } }
      clearCells N sz
      k

def dimVars : ℕ → BasicM ν Unit
  | 0 => failure
  | fuel + 1 => do
    let name ← varName
    if name = [] then berr "DIM var"
    else
      let li ← varSlot N name
      need '(' "DIM (" do
        let d1 := wrapInt ((← intExpr N) + 1)
        skipsp
        if (← peek) = chr ',' then
          advance
          let d2 := wrapInt ((← intExpr N) + 1)
          need ')' "DIM )" <| dimArray N li d1 d2 2 (nextItem (dimVars fuel))
        else need ')' "DIM )" <| dimArray N li d1 1 1 (nextItem (dimVars fuel))

def doRestore : BasicM ν Unit := do
  modify fun s => { s with dataPc := -1, dataIp := none }
  skipsp
  if bIsdigit (← peek) then
    let no ← intExpr N
    match (← get).findLine no with
    | some idx => modify fun s => { s with dataPc := (idx : ℤ) - 1 }
    | none => return ()
  else return ()

def dataBlank (c : UInt8) : Bool := isBlank c || c == chr ','

/-- The item at the start of the text, and what is behind it. -/
def dataItem (max : ℕ) (t : Text) : Text × Text :=
  if t.headD 0 = chr '"' then
    let s := (t.tail.take (max - 1)).takeWhile (· ≠ chr '"')
    let t := t.tail.drop s.length
    (s, if t.headD 0 = chr '"' then t.tail else t)
  else
    let s := (t.take (max - 1)).takeWhile (· ≠ chr ',')
    (trimEnd isBlank s, t.drop s.length)

/-- The place behind `DATA` in the next line of data. -/
def nextDataLine : BasicM ν Bool := do
  let s ← get
  let start := if s.dataPc < 0 then 0 else s.dataPc.toNat + 1
  match ((List.range s.nprog).drop start).find? fun i => Interp.lineIsData (s.text i) with
  | none => return false
  | some i =>
    modify fun s => { s with
      dataPc := i, dataIp := some ⟨some i, ((s.text i).dropWhile isBlank).drop 4⟩ }
    return true

/-- None when there is no more data. -/
def dataNext (max : ℕ) : ℕ → BasicM ν (Option Text)
  | 0 => failure
  | fuel + 1 => do
    let more ← (do
      match (← get).dataIp with
      | none => nextDataLine
      | some c => if c.rest = [] then nextDataLine else return true)
    match more, (← get).dataIp with
    | true, some c =>
      let t := c.rest.dropWhile dataBlank
      if t = [] then
        modify fun s => { s with dataIp := some { c with rest := t } }
        dataNext max fuel
      else
        let (item, t) := dataItem max t
        modify fun s => { s with dataIp := some { c with rest := t } }
        return some item
    | _, _ => return none

def dataTok : BasicM ν (Option Text) := do
  dataNext svarLen ((← get).nprog + 2)

def readNumber (vi : Option ℕ) (k : BasicM ν Unit) : BasicM ν Unit := do
  skipsp
  if (← peek) = chr '(' then
    let e ← arrElemTop N vi
    match ← dataTok with
    | none => berr "out of DATA"
    | some tok =>
      match e with
      | some i => storeCell i (strToNum N tok)
      | none => pure ()
      k
  else
    match ← dataTok with
    | none => berr "out of DATA"
    | some tok =>
      setVal vi (strToNum N tok)
      k

def readVars : ℕ → BasicM ν Unit
  | 0 => failure
  | fuel + 1 => do
    let save := (← get).ip
    match ← svaridx N with
    | some si =>
      match ← dataTok with
      | none => berr "out of DATA"
      | some tok =>
        setStr si tok
        nextItem (readVars fuel)
    | none =>
      setIp save
      let name ← varName
      if name = [] then berr "READ var"
      else
        let vi ← varSlot N name
        readNumber N vi (nextItem (readVars fuel))

/-- `A$ = strexpr`, evaluated into the variable itself. -/
def assignString : BasicM ν Bool := do
  let save := (← get).ip
  let si ← svaridx N
  skipsp
  let c ← peek
  match si with
  | some si =>
    if c = chr '=' then
      advance
      let _ ← seval N (some si) svarLen
      return true
    else
      setIp save
      return false
  | none =>
    setIp save
    return false

def assignCell (vi : Option ℕ) : BasicM ν Bool := do
  let e ← arrElemTop N vi
  skipsp
  let c ← peek
  match e with
  | some i =>
    if c = chr '=' then
      advance
      let v ← expr N
      storeCell i v
      return true
    else return false
  | none => return false

def assignScalar (vi : Option ℕ) : BasicM ν Bool := do
  if (← peek) = chr '=' then
    advance
    let v ← expr N
    setVal vi v
    return true
  else return false

/-- `V=expr / A(i)=expr` -/
def assignNumber : BasicM ν Bool := do
  let save := (← get).ip
  let name ← varName
  let done ← (do
    if name = [] ∨ isStringName name then return false
    else
      let vi ← varSlot N name
      skipsp
      if (← peek) = chr '(' then assignCell N vi else assignScalar N vi)
  if done then return true
  else
    setIp save
    return false

def assign : BasicM ν Unit := do
  let _ ← kw "LET"
  if ← assignString N then return ()
  else if ← assignNumber N then return ()
  else berr "syntax error"

/-- The first keyword that is there decides. -/
def dispatch : List (String × BasicM ν Unit) → BasicM ν Unit → BasicM ν Unit
  | [], other => other
  | (k, m) :: ks, other => do
    if ← kw k then m else dispatch ks other

def stop : BasicM ν Unit := modify fun s => { s with running := false }

def keywords (self : BasicM ν Unit) : List (String × BasicM ν Unit) :=
  [("PRINT", doPrint N), ("LIST", do for t in doList N (← get) do emit t), ("NEW", doNew),
    ("END", stop), ("STOP", stop), ("GOTO", do setGoto (← gotoTarget N)), ("GOSUB", doGosub N),
    ("RETURN", doReturn), ("WIFI", doWifi), ("INPUT", doInput N), ("IF", doIf N self),
    ("FOR", doFor N), ("NEXT", doNext N), ("CLS", doCls N), ("BUTTON", doButton N),
    ("PLOT", doPlot N), ("LINE", doLine N), ("PAUSE", doPause N), ("WAIT", doWait N),
    ("CIRCLE", doCircle N), ("DIM", do dimVars N (← loopFuel)), ("DATA", setRest []),
    ("RESTORE", doRestore N), ("READ", do readVars N (← loopFuel)), ("WHILE", doWhile N),
    ("WEND", doWend N)]

/-- `exec_stmt`, for so many `THEN`s behind each other. -/
def execStmt : ℕ → BasicM ν Unit
  | 0 => failure
  | depth + 1 => do
    modify fun s => { s with
      ip := { s.ip with rest := s.ip.rest.dropWhile fun c => isBlank c || c == chr ':' } }
    let c ← peek
    if c = 0 then return ()
    else if c = chr '*' then setRest []
    else if ← kw "REM" then setRest []
    else if c = chr '?' then
      advance
      doPrint N
    else dispatch (keywords N (execStmt depth)) (assign N)

end Statements

end XinuRpi4.Basic
