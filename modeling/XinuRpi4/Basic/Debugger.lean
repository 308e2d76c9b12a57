import XinuRpi4.Basic.Statements

/-!
# RUN and the line debugger

`do_run` as a machine: it stands at the head of its loop, at the prompt of the
debugger, in front of a statement, or behind the loop. It goes on by itself or
takes one line at the prompt. What the debugger puts out is kept apart from the
output of the program. No key breaks a run.
-/

namespace XinuRpi4.Basic

variable {ν : Type}

def guardMax : ℕ := 8000000
def bpMax : ℕ := 16

inductive Command
  | step
  | cont
  | quit
  | print (arg : Text)
  | list
  | help
  | addBp (no : ℤ)
  | listBp
  | delBp (no : ℤ)
  | clearBp
  | unknown
deriving DecidableEq

/-- The number at the start of the text, if there is one. -/
def dbgAtoi (t : Text) : Option ℤ :=
  let ds := (t.dropWhile isBlank).takeWhile bIsdigit
  if ds = [] then none
  else some (ds.foldl (fun v c => wrapInt (v * 10 + (c - 48).toNat)) 0)

/-- The command that a line read at the prompt stands for. -/
def command (line : Text) : Command :=
  let c := (stripPrefix (bytes "dbg> ") (lineBuf 128 line)).dropWhile isBlank
  let k := bUp (c.headD 0)
  if k = 0 ∨ k = chr 'S' ∨ k = chr 'N' then .step
  else if k = chr 'C' then .cont
  else if k = chr 'Q' then .quit
  else if k = chr 'P' then .print c.tail
  else if k = chr 'L' then .list
  else if k = chr 'H' ∨ k = chr '?' then .help
  else if k = chr 'B' then
    match dbgAtoi c.tail with
    | some no => .addBp no
    | none => .listBp
  else if k = chr 'D' then
    match dbgAtoi c.tail with
    | some no => .delBp no
    | none => .clearBp
  else .unknown

section Debugger

variable (N : NumOps ν)

/-- What is printed for the expression at the cursor. -/
def dbgEval : BasicM ν (List Text) := do
  skipsp
  if (← peek) = 0 then return [bytes "?usage: p <expr>\n"]
  else if ← peekIsString then
    let t ← seval N none svarLen
    if (← get).err.isSome then return [bytes "?eval error\n"]
    else return [bytes "= \"", t, bytes "\"\n"]
  else
    let v ← expr N
    if (← get).err.isSome then return [bytes "?eval error\n"]
    else return [bytes "= ", numStr N v, bytes "\n"]

/-- The cursor, the error and the jump are saved and restored. -/
def dbgPrintExpr (arg : Text) : BasicM ν (List Text) := do
  let save ← get
  modify fun s => { s with ip := ⟨none, arg⟩, err := none }
  let ts ← dbgEval N
  modify fun s => { s with ip := save.ip, err := save.err, gGoto := save.gGoto }
  return ts

inductive Place
  | top
  | prompt
  | stmt
  | done
deriving DecidableEq

structure Session (ν : Type) where
  interp : Interp ν
  place : Place
  guard : ℕ
  dbgOn : Bool
  dbgStep : Bool
  dbgBp : List ℤ
  /-- What the debugger has put out. -/
  said : List Text

inductive Event
  | go
  /-- A line read at the prompt. -/
  | line (t : Text)
  /-- The input is closed at the prompt. -/
  | closed
deriving DecidableEq

namespace Session

def say (t : Session ν) (ts : List Text) : Session ν := { t with said := t.said ++ ts }

def goTo (t : Session ν) (p : Place) : Session ν := { t with place := p }

end Session

/-- Behind the loop of `do_run`; `gfx` tells if the window shows graphics, from
what the program has put out. -/
def finishRun (gfx : List Out → Bool) (s : Interp ν) : Interp ν :=
  { s with
    running := false
    out := if s.err.isNone && !gfx s.out then s.out ++ [.text (bytes "Ok\n")] else s.out }

def dbgIsBp (t : Session ν) (no : ℕ) : Bool := t.dbgBp.contains (no : ℤ)

/-- `dbg_show_line` -/
def dbgShowLine (s : Interp ν) : List Text :=
  [bytes "[", numStr N (N.ofInt (s.prog s.pc).no), bytes "] ", s.text s.pc, bytes "\n"]

def stopsHere (t : Session ν) : Bool :=
  t.dbgOn && decide (t.interp.ip = t.interp.lineStart t.interp.pc) &&
    (t.dbgStep || dbgIsBp t (t.interp.prog t.interp.pc).no)

/-- From the head of the loop to the prompt or to the statement. -/
def loopHead (gfx : List Out → Bool) (t : Session ν) : Session ν :=
  let s := t.interp
  if !s.running || decide (s.nprog ≤ s.pc) then { t with interp := finishRun gfx s, place := .done }
  else if guardMax < t.guard + 1 then
    let s := { s with out := s.out ++ [.text (bytes "\n?runaway stopped\n")] }
    { t with interp := finishRun gfx s, guard := t.guard + 1, place := .done }
  else
    let t := { t with guard := t.guard + 1 }
    if stopsHere t then (t.say (dbgShowLine N s ++ [bytes "dbg> "])).goTo .prompt
    else t.goTo .stmt

/-- The error that ended the run, with its line. -/
def reportErr (m : String) : BasicM ν Unit := do
  emit (bytes "?")
  emit (bytes m)
  emit (bytes " in ")
  let s ← get
  emit (numStr N (N.ofInt (s.prog s.pc).no))
  emit (bytes "\n")

def jump : BasicM ν Bool := do
  let s ← get
  match s.findLine s.gGoto with
  | none =>
    emit (bytes "?undef'd line ")
    emit (numStr N (N.ofInt s.gGoto))
    emit (bytes "\n")
    return false
  | some idx =>
    modify fun s => { s with pc := idx, ip := s.lineStart idx }
    return true

/-- The next statement of the line or the next line. -/
def advanceLine : BasicM ν Unit := do
  skipsp
  if (← peek) = chr ':' then advance
  else
    modify fun s => { s with pc := s.pc + 1 }
    modify fun s => if s.pc < s.nprog then { s with ip := s.lineStart s.pc } else s

/-- One statement and what follows it; false if the loop is left. -/
def runStmt : BasicM ν Bool := do
  setGoto (-1)
  execStmt N (← loopFuel)
  let s ← get
  match s.err with
  | some m =>
    reportErr N m
    return false
  | none =>
    if 0 ≤ s.gGoto then jump N
    else
      if s.gGoto ≠ -2 then advanceLine
      return true

def stmtStep (gfx : List Out → Bool) (t : Session ν) : Option (Session ν) := do
  let (goesOn, s) ← (runStmt N).run t.interp
  if goesOn then some { t with interp := s, place := .top }
  else some { t with interp := finishRun gfx s, place := .done }

def dbgBpAdd (t : Session ν) (no : ℤ) : Session ν :=
  if t.dbgBp.contains no then t.say [bytes "bp already set\n"]
  else if bpMax ≤ t.dbgBp.length then t.say [bytes "?too many breakpoints\n"]
  else { t with dbgBp := t.dbgBp ++ [no] }.say
    [bytes "bp set @", numStr N (N.ofInt no), bytes "\n"]

def dbgBpDel (t : Session ν) (no : ℤ) : Session ν :=
  if t.dbgBp.contains no then { t with dbgBp := t.dbgBp.erase no }.say [bytes "bp cleared\n"]
  else t.say [bytes "no such bp\n"]

def dbgBpList (t : Session ν) : Session ν :=
  if t.dbgBp = [] then t.say [bytes "no breakpoints\n"]
  else t.say ([bytes "breakpoints:"] ++
    t.dbgBp.flatMap (fun no => [bytes " ", numStr N (N.ofInt no)]) ++ [bytes "\n"])

/-- The prompt comes back. -/
def prompting (t : Session ν) : Session ν := t.say [bytes "dbg> "]

/-- One round of `dbg_repl`. -/
def dbgCommand (gfx : List Out → Bool) (t : Session ν) : Command → Option (Session ν)
  | .step => some ({ t with dbgStep := true }.goTo .stmt)
  | .cont => some ({ t with dbgStep := false }.goTo .stmt)
  | .quit => some { t.say [bytes "[debug] stopped\n"] with
      interp := finishRun gfx { t.interp with running := false }
      place := .done
      dbgOn := false
      dbgStep := false }
  | .print arg => do
    let (ts, s) ← (dbgPrintExpr N arg).run t.interp
    return prompting ({ t with interp := s }.say ts)
  | .list => some (prompting (t.say (doList N t.interp)))
  | .help => some (prompting
      (t.say [bytes "dbg: s step  c cont  b N bp  d N del  p expr  l list  q quit\n"]))
  | .addBp no => some (prompting (dbgBpAdd N t no))
  | .listBp => some (prompting (dbgBpList N t))
  | .delBp no => some (prompting (dbgBpDel t no))
  | .clearBp => some (prompting ({ t with dbgBp := [] }.say [bytes "all bp cleared\n"]))
  | .unknown => some (prompting
      (t.say [bytes "?dbg cmd " ++ [0xe2, 0x80, 0x94] ++ bytes " h for help\n"]))

def sessionStep (gfx : List Out → Bool) (t : Session ν) : Event → Option (Session ν)
  | .go =>
    match t.place with
    | .top => some (loopHead N gfx t)
    | .stmt => stmtStep N gfx t
    | _ => none
  | .line l => if t.place = .prompt then dbgCommand N gfx t (command l) else none
  | .closed =>
    if t.place = .prompt then some ({ t with dbgOn := false, dbgStep := false }.goTo .stmt) else none

end Debugger

/-- What `do_run` clears. -/
def resetRun (s : Interp ν) : Interp ν :=
  { s with
    running := true, forstk := [], gosubstk := [], whilestk := [], err := none
    dataPc := -1, dataIp := none, nvar := 0, arrtop := 0 }

def startRun (s : Interp ν) : Interp ν :=
  { resetRun s with pc := 0, ip := s.lineStart 0 }

/-- RUN of the program in memory; no debugger is attached. -/
def plainRun (s : Interp ν) (bps : List ℤ) : Session ν :=
  if s.nprog = 0 then
    { interp := { resetRun s with running := false, out := s.out ++ [.text (bytes "Ok\n")] }
      place := .done, guard := 0, dbgOn := false, dbgStep := false, dbgBp := bps, said := [] }
  else
    { interp := startRun s, place := .top, guard := 0
      dbgOn := false, dbgStep := false, dbgBp := bps, said := [] }

/-- DEBUG of the program in memory; breakpoints stay from one session to the next. -/
def debugRun (s : Interp ν) (bps : List ℤ) : Session ν :=
  if s.nprog = 0 then
    { interp := { s with
        out := s.out ++
          [.text (bytes "?no program " ++ [0xe2, 0x80, 0x94] ++ bytes " type some lines first\n")] }
      place := .done, guard := 0, dbgOn := false, dbgStep := false, dbgBp := bps, said := [] }
  else
    { interp := startRun s, place := .top, guard := 0
      dbgOn := true, dbgStep := true, dbgBp := bps
      said := [bytes "[debug] s step  c cont  b N bp  p expr  q quit  (h help)\n"] }

end XinuRpi4.Basic
