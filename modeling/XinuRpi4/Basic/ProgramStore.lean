import Mathlib.Tactic
import XinuRpi4.Foundation.SortedCells

/-!
# The program store of the BASIC interpreter

The array of numbered lines and what edits it: a typed line, the samples that
LOAD reads, and NEW. An access outside the array or outside the text of a line
has no result, and neither has a line number that overflows an `int`. The
variables that LOAD and NEW clear are no part of the store.
-/

namespace XinuRpi4.Basic

open XinuRpi4.Foundation

def maxprog : ℕ := 320
def plinelen : ℕ := 96

/-- The bytes of a C string before its NUL. -/
structure CString where
  bytes : List UInt8
  noNul : 0 ∉ bytes

structure Line where
  no : ℕ
  text : ℕ → UInt8

/-- What the program reads from a text buffer. -/
def cstr (t : ℕ → UInt8) : List UInt8 :=
  ((List.range plinelen).map t).takeWhile (· != 0)

structure Store where
  nprog : ℕ
  prog : ℕ → Line
  out : List String

def bIsdigit (c : UInt8) : Bool := 48 ≤ c && c ≤ 57

def bUp (c : UInt8) : UInt8 := if 97 ≤ c ∧ c ≤ 122 then c - 32 else c

def isBlank (c : UInt8) : Bool := c == 32 || c == 9

/-- `no = no * 10 + (*line++ - '0')` as long as digits follow. -/
def lineNumber : ℕ → List UInt8 → ℕ × List UInt8
  | no, [] => (no, [])
  | no, c :: cs => if bIsdigit c then lineNumber (no * 10 + (c - 48).toNat) cs else (no, c :: cs)

/-- The number and the text of a line that starts with its number. -/
def numbered (line : List UInt8) : ℕ × List UInt8 :=
  let (no, rest) := lineNumber 0 line
  (no, rest.dropWhile (· == 32))

/-- `basic_exec_line` takes a line for a program line when a digit comes first. -/
def programLine (line : List UInt8) : Option (ℕ × List UInt8) :=
  match line.dropWhile isBlank with
  | [] => none
  | c :: cs => if bIsdigit c then some (numbered (c :: cs)) else none

/-- `for (; text[k] && k < PLINELEN - 1; k++) t[k] = text[k]; t[k] = 0;` -/
def copyText : List UInt8 → ℕ → (ℕ → UInt8) → Option (ℕ → UInt8)
  | [], k, t => Cells.store plinelen t k 0
  | c :: cs, k, t =>
    if k < plinelen - 1 then do
      let t ← Cells.store plinelen t k c
      copyText cs (k + 1) t
    else Cells.store plinelen t k 0

namespace Store

variable (b : Store)

def emit (s : String) : Store := { b with out := b.out ++ [s] }

def findLine (no : ℕ) : Option ℕ :=
  (List.range b.nprog).find? fun i => (b.prog i).no == no

/-- The first line with a larger number, or the end. -/
def insertPos (no : ℕ) : ℕ :=
  ((List.range b.nprog).find? fun j => decide (no < (b.prog j).no)).getD b.nprog

def progSet (no : ℕ) (text : List UInt8) : Option Store :=
  let empty := text.all isBlank
  match b.findLine no with
  | some i =>
    if empty then do
      let prog ← Cells.closeGap maxprog (b.nprog - 1 - i) i b.prog
      some { b with prog := prog, nprog := b.nprog - 1 }
    else do
      let line ← Cells.load maxprog b.prog i
      let t ← copyText text 0 line.text
      let prog ← Cells.store maxprog b.prog i { line with text := t }
      some { b with prog := prog }
  | none =>
    if empty then some b
    else if maxprog ≤ b.nprog then some (b.emit "?too many lines\n")
    else do
      let pos := b.insertPos no
      let prog ← Cells.openGap maxprog pos b.nprog b.prog
      let line ← Cells.load maxprog prog pos
      let t ← copyText text 0 line.text
      let prog ← Cells.store maxprog prog pos { no := no, text := t }
      some { b with prog := prog, nprog := b.nprog + 1 }

/-- Set a line whose number has been read; an `int` holds numbers below 2^31. -/
def setNumbered (line : ℕ × List UInt8) : Option Store :=
  if line.1 < 2 ^ 31 then b.progSet line.1 line.2 else none

end Store

structure Sample where
  name : List UInt8
  lines : List CString

/-- The built-in programs; the source numbers their lines within an `int`. -/
structure SampleTable where
  samples : List Sample
  inRange : ∀ s ∈ samples, ∀ l ∈ s.lines, (numbered l.bytes).1 < 2 ^ 31

def bStreqi : List UInt8 → List UInt8 → Bool
  | [], [] => true
  | a :: as, b :: bs => if bUp a ≠ bUp b then false else bStreqi as bs
  | _, _ => false

/-- Lower-cased, cut to the buffer, with `.bas` behind a name without a dot. -/
def normName (raw : List UInt8) : List UInt8 :=
  let nm := (raw.take 35).map fun c => if 65 ≤ c ∧ c ≤ 90 then c + 32 else c
  if nm.contains 46 then nm else nm ++ [46, 98, 97, 115]

def SampleTable.find (tab : SampleTable) (raw : List UInt8) : Option Sample :=
  tab.samples.find? fun s => bStreqi s.name (normName raw)

/-- `prog_set` for line after line. -/
def Store.setLines : List CString → Store → Option Store
  | [], b => some b
  | l :: ls, b => do
    let b ← b.setNumbered (numbered l.bytes)
    Store.setLines ls b

def Store.loadNamed (tab : SampleTable) (b : Store) (raw : List UInt8) : Option (Store × Bool) :=
  match tab.find raw with
  | some s => do
    let b ← Store.setLines s.lines { b with nprog := 0 }
    some (b, true)
  | none => some (b, false)

inductive Entry
  | line (l : CString)
  | load (raw : CString)
  | new

/-- The line number fits an `int`. -/
def Entry.InRange : Entry → Prop
  | .line l => ∀ p, programLine l.bytes = some p → p.1 < 2 ^ 31
  | _ => True

/-- A typed line that is no program line leaves the store to the other entries. -/
def Store.step (tab : SampleTable) (b : Store) : Entry → Option Store
  | .line l =>
    match programLine l.bytes with
    | some p => b.setNumbered p
    | none => some b
  | .load raw => do
    let (b, found) ← b.loadNamed tab raw.bytes
    some (b.emit (if found then "Ok\n" else "?file not found\n"))
  | .new => some ({ b with nprog := 0 }.emit "Ok\n")

def Store.init (prog : ℕ → Line) : Store := { nprog := 0, prog := prog, out := [] }

end XinuRpi4.Basic
