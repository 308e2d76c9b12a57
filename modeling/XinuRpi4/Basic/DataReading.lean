import XinuRpi4.Basic.DataItems
import XinuRpi4.Basic.Transparency
import XinuRpi4.Foundation.SortedCells

/-!
# READ and RESTORE

`data_next` takes the items from a queue of texts: what is left of the line that it is in, and the
lines of data behind it. So after RUN and after RESTORE it gives the items of these lines in their
order, as long as each is read as a whole.
-/

namespace XinuRpi4.Basic

open XinuRpi4.Foundation

variable {ν : Type}

/-- The text behind DATA. -/
def behindData (t : Text) : Text := (t.dropWhile isBlank).drop 4

namespace Interp

def isData (s : Interp ν) (i : ℕ) : Bool := lineIsData (s.text i)

/-- The texts of the lines of data from an index on. -/
def dataLines (s : Interp ν) (i : ℕ) : List Text :=
  (((List.range s.nprog).drop i).filter s.isData).map fun j => behindData (s.text j)

/-- Where the search for the next line of data starts. -/
def dataStart (s : Interp ν) : ℕ := if s.dataPc < 0 then 0 else s.dataPc.toNat + 1

/-- The texts that `data_next` has still to read. -/
def dataQueue (s : Interp ν) : List Text :=
  match s.dataIp with
  | none => s.dataLines s.dataStart
  | some c => waiting c.rest (s.dataLines s.dataStart)

end Interp

/-- The program is the same. -/
structure SameProgram (s s' : Interp ν) : Prop where
  nprog : s'.nprog = s.nprog
  prog : s'.prog = s.prog

theorem SameProgram.trans {s s' t : Interp ν} (h : SameProgram s s') (h' : SameProgram s' t) :
    SameProgram s t := ⟨h'.1.trans h.1, h'.2.trans h.2⟩

theorem SameProgram.dataLines {s s' : Interp ν} (h : SameProgram s s') (i : ℕ) :
    s'.dataLines i = s.dataLines i := by
  have htext : s'.text = s.text := by
    funext j
    rw [Interp.text, Interp.text, h.prog]
  have hdata : s'.isData = s.isData := by
    funext j
    rw [Interp.isData, Interp.isData, htext]
  rw [Interp.dataLines, Interp.dataLines, h.nprog, hdata, htext]

theorem find_filter_drop (p : ℕ → Bool) (n k : ℕ) :
    (((List.range n).drop k).find? p = none ∧ ((List.range n).drop k).filter p = []) ∨
    ∃ i, ((List.range n).drop k).find? p = some i ∧
      ((List.range n).drop k).filter p = i :: ((List.range n).drop (i + 1)).filter p := by
  induction hm : n - k generalizing k with
  | zero =>
    have hnil : (List.range n).drop k = [] := List.drop_eq_nil_of_le (by rw [List.length_range]; omega)
    rw [hnil]
    exact .inl ⟨rfl, rfl⟩
  | succ m ih =>
    have hk : k < (List.range n).length := by rw [List.length_range]; omega
    rw [List.drop_eq_getElem_cons hk, List.getElem_range]
    cases hp : p k with
    | true =>
      refine .inr ⟨k, List.find?_cons_of_pos hp, ?_⟩
      rw [List.filter_cons_of_pos hp]
    | false =>
      have hneg : ¬ p k = true := by rw [hp]; decide
      rw [List.find?_cons_of_neg hneg, List.filter_cons_of_neg hneg]
      exact ih (k + 1) (by omega)

section Cursor

variable {s s' : Interp ν}

theorem nextDataLine_eq (s : Interp ν) :
    (nextDataLine : BasicM ν Bool).run s =
      (match ((List.range s.nprog).drop s.dataStart).find? s.isData with
        | none => return false
        | some i => do
          modify fun s => { s with
            dataPc := i, dataIp := some ⟨some i, ((s.text i).dropWhile isBlank).drop 4⟩ }
          return true : BasicM ν Bool).run s := rfl

/-- The next line of data comes to the front. -/
theorem nextDataLine_run (s : Interp ν) :
    (s.dataLines s.dataStart = [] ∧ (nextDataLine : BasicM ν Bool).run s = some (false, s)) ∨
    ∃ t ts i, s.dataLines s.dataStart = t :: ts ∧ ∃ s', (nextDataLine : BasicM ν Bool).run s =
      some (true, s') ∧ SameProgram s s' ∧ s'.dataIp = some ⟨some i, t⟩ ∧
        s'.dataLines s'.dataStart = ts := by
  rw [nextDataLine_eq]
  obtain ⟨hfind, hnil⟩ | ⟨i, hfind, hcons⟩ := find_filter_drop s.isData s.nprog s.dataStart
  · rw [hfind]
    refine .inl ⟨?_, rfl⟩
    rw [Interp.dataLines, hnil]
    rfl
  · rw [hfind]
    refine .inr ⟨behindData (s.text i), s.dataLines (i + 1), i, ?_, _, rfl, ⟨rfl, rfl⟩, rfl, ?_⟩
    · rw [Interp.dataLines, hcons]
      rfl
    · have hstart (ip : Option Cursor) :
          ({ s with dataPc := (i : ℤ), dataIp := ip } : Interp ν).dataStart = i + 1 :=
        if_neg (not_lt.mpr (Int.natCast_nonneg i))
      rw [hstart]
      exact SameProgram.dataLines ⟨rfl, rfl⟩ (i + 1)

/-- What `data_next` does with the text in front, for so many further turns. -/
def readFront (fuel : ℕ) (more : Bool) : BasicM ν (Option Text) := do
  match more, (← get).dataIp with
  | true, some c =>
    let t := c.rest.dropWhile dataBlank
    if t = [] then
      modify fun s => { s with dataIp := some { c with rest := t } }
      dataNext svarLen fuel
    else
      let (item, t) := dataItem svarLen t
      modify fun s => { s with dataIp := some { c with rest := t } }
      return some item
  | _, _ => return none

theorem readFront_false (fuel : ℕ) (s : Interp ν) :
    (readFront fuel false).run s = some (none, s) := by
  have hget : (get : BasicM ν (Interp ν)).run s = some (s, s) := rfl
  rw [readFront, StateT.run_bind, hget]
  simp only [Option.bind_eq_bind, Option.bind_some]
  cases s.dataIp <;> rfl

/-- The program gives an item, or none, and leaves a queue of texts. -/
def Takes (m : BasicM ν (Option Text)) (s : Interp ν) (r : Option Text × List Text) : Prop :=
  ∃ s', m.run s = some (r.1, s') ∧ SameProgram s s' ∧ s'.dataQueue = r.2

theorem Takes.of_run {m m' : BasicM ν (Option Text)} {r : Option Text × List Text}
    (h : Takes m' s' r) (hsame : SameProgram s s') (hrun : m.run s = m'.run s') : Takes m s r := by
  obtain ⟨t, htake, hprog, hqueue⟩ := h
  exact ⟨t, hrun.trans htake, hsame.trans hprog, hqueue⟩

/-- The state with the cursor at `t` in its line of data. -/
def atData (s : Interp ν) (c : Cursor) (t : Text) : Interp ν :=
  { s with dataIp := some { c with rest := t } }

theorem atData_queue (s : Interp ν) (c : Cursor) (t : Text) :
    (atData s c t).dataQueue = waiting t (s.dataLines s.dataStart) := by
  have hlines : (atData s c t).dataLines s.dataStart = s.dataLines s.dataStart :=
    SameProgram.dataLines ⟨rfl, rfl⟩ s.dataStart
  rw [← hlines]
  rfl

theorem readFront_takes {fuel : ℕ} {c : Cursor} (hip : s.dataIp = some c)
    (hrest : ∀ t : Interp ν, t.dataQueue.length < fuel →
      Takes (dataNext svarLen fuel) t (takeItem t.dataQueue))
    (hlen : (s.dataLines s.dataStart).length < fuel) :
    Takes (readFront fuel true) s (takeItem (c.rest :: s.dataLines s.dataStart)) := by
  have hrun : (readFront fuel true).run s = (match true, s.dataIp with
      | true, some c =>
        if c.rest.dropWhile dataBlank = [] then do
          modify fun s => atData s c (c.rest.dropWhile dataBlank)
          dataNext svarLen fuel
        else do
          modify fun s => atData s c (dataItem svarLen (c.rest.dropWhile dataBlank)).2
          return some (dataItem svarLen (c.rest.dropWhile dataBlank)).1
      | _, _ => return none : BasicM ν (Option Text)).run s := rfl
  rw [hip] at hrun
  by_cases hnil : c.rest.dropWhile dataBlank = []
  · have hqueue : (atData s c (c.rest.dropWhile dataBlank)).dataQueue = s.dataLines s.dataStart := by
      rw [atData_queue, waiting, if_pos hnil]
    have htakes := hrest (atData s c (c.rest.dropWhile dataBlank)) (by rwa [hqueue])
    rw [takeItem_blank hnil, ← hqueue]
    refine htakes.of_run ⟨rfl, rfl⟩ (hrun.trans ?_)
    exact congrArg (StateT.run · s) (if_pos hnil)
  · rw [takeItem_item hnil]
    refine ⟨atData s c (dataItem svarLen (c.rest.dropWhile dataBlank)).2, hrun.trans ?_, ⟨rfl, rfl⟩,
      atData_queue ..⟩
    exact congrArg (StateT.run · s) (if_neg hnil)

/-- `data_next` takes the next item of the queue. -/
theorem dataNext_takes (fuel : ℕ) (s : Interp ν) (hfuel : s.dataQueue.length < fuel) :
    Takes (dataNext svarLen fuel) s (takeItem s.dataQueue) := by
  induction fuel generalizing s with
  | zero => exact absurd hfuel (Nat.not_lt_zero _)
  | succ fuel ih =>
    have hnext : s.dataQueue = s.dataLines s.dataStart →
        Takes (nextDataLine >>= readFront fuel) s (takeItem s.dataQueue) := by
      intro hqueue
      rw [hqueue] at hfuel ⊢
      obtain ⟨hnil, hrun⟩ | ⟨t, ts, i, hcons, u, hrun, hsame, hip, hlines⟩ := nextDataLine_run s
      · rw [hnil]
        refine ⟨s, ?_, ⟨rfl, rfl⟩, hqueue.trans hnil⟩
        rw [StateT.run_bind, hrun]
        exact readFront_false fuel s
      · rw [hcons] at hfuel ⊢
        have hfront : Takes (readFront fuel true) u (takeItem (t :: ts)) := by
          rw [← hlines]
          refine readFront_takes hip ih ?_
          rw [hlines]
          exact Nat.lt_of_succ_lt_succ hfuel
        refine hfront.of_run hsame ?_
        rw [StateT.run_bind, hrun]
        rfl
    have hrun : (dataNext svarLen (fuel + 1) : BasicM ν (Option Text)).run s =
        ((match s.dataIp with
          | none => nextDataLine
          | some c => if c.rest = [] then nextDataLine else return true : BasicM ν Bool) >>=
            readFront fuel).run s := rfl
    cases hip : s.dataIp with
    | none =>
      rw [hip] at hrun
      have hqueue : s.dataQueue = s.dataLines s.dataStart := by
        rw [Interp.dataQueue, hip]
      exact (hnext hqueue).of_run ⟨rfl, rfl⟩ hrun
    | some c =>
      rw [hip] at hrun
      have hqueue : s.dataQueue = waiting c.rest (s.dataLines s.dataStart) := by
        rw [Interp.dataQueue, hip]
      by_cases hnil : c.rest = []
      · refine (hnext ?_).of_run ⟨rfl, rfl⟩ (hrun.trans ?_)
        · rw [hqueue, waiting, if_pos hnil]
        · exact congrArg (fun m => StateT.run (m >>= readFront fuel) s) (if_pos hnil)
      · rw [waiting, if_neg hnil] at hqueue
        rw [hqueue] at hfuel ⊢
        have hfront := readFront_takes hip ih (Nat.lt_of_succ_lt_succ hfuel)
        refine hfront.of_run ⟨rfl, rfl⟩ (hrun.trans ?_)
        exact congrArg (fun m => StateT.run (m >>= readFront fuel) s) (if_neg hnil)

theorem dataQueue_length (s : Interp ν) : s.dataQueue.length < s.nprog + 2 := by
  have hlines : (s.dataLines s.dataStart).length ≤ s.nprog := by
    rw [Interp.dataLines, List.length_map]
    calc _ ≤ ((List.range s.nprog).drop s.dataStart).length := List.length_filter_le _ _
      _ ≤ s.nprog := by rw [List.length_drop, List.length_range]; exact Nat.sub_le _ _
  have hwait (t : Text) : (waiting t (s.dataLines s.dataStart)).length ≤
      (s.dataLines s.dataStart).length + 1 := by
    rw [waiting]
    split_ifs
    · exact Nat.le_succ _
    · exact le_rfl
  rw [Interp.dataQueue]
  split
  · omega
  · rename_i c _
    have hcursor := hwait c.rest
    omega

theorem dataTok_takes (s : Interp ν) : Takes dataTok s (takeItem s.dataQueue) := by
  have hget : (get : BasicM ν (Interp ν)).run s = some (s, s) := rfl
  refine (dataNext_takes (s.nprog + 2) s (dataQueue_length s)).of_run ⟨rfl, rfl⟩ ?_
  rw [dataTok, StateT.run_bind, hget]
  rfl

end Cursor

/-- What else happens leaves the program and the cursor as they are. -/
structure SameData (s s' : Interp ν) : Prop where
  nprog : s'.nprog = s.nprog
  prog : s'.prog = s.prog
  dataPc : s'.dataPc = s.dataPc
  dataIp : s'.dataIp = s.dataIp

/-- The answers of `data_next` since `s₀`. -/
inductive Reads (s₀ : Interp ν) : List (Option Text) → Interp ν → Prop
  | start : Reads s₀ [] s₀
  | other {got : List (Option Text)} {s s' : Interp ν} :
    Reads s₀ got s → SameData s s' → Reads s₀ got s'
  | next {got : List (Option Text)} {s s' : Interp ν} {r : Option Text} :
    Reads s₀ got s → dataTok.run s = some (r, s') → Reads s₀ (got ++ [r]) s'

section Restore

variable (N : NumOps ν)

/-- The line number behind RESTORE, if there is one. -/
def restoreNumber : BasicM ν (Option ℤ) := do
  modify fun s => { s with dataPc := -1, dataIp := none }
  skipsp
  if bIsdigit (← peek) then return some (← intExpr N) else return none

/-- RUN, or RESTORE with a line number or without, has just set the cursor. -/
inductive Restarted : Option ℤ → Interp ν → Prop
  | run (s : Interp ν) : Restarted none (startRun s)
  | restore {n : Option ℤ} {s u s' : Interp ν} : (restoreNumber N).run s = some (n, u) →
    (doRestore N).run s = some ((), s') → Restarted n s'

end Restore

/-- The lines of data from a line number on. -/
def promisedLines (s : Interp ν) : Option ℤ → List Text
  | none => s.dataLines 0
  | some n => (((List.range s.nprog).filter fun i => decide (n ≤ (s.prog i).no)).filter s.isData).map
      fun i => behindData (s.text i)

/-- The lines of data are tidy, and a line number behind RESTORE is that of a line, or no line of data
is in front of it. -/
structure DataWell (n : Option ℤ) (s : Interp ν) : Prop where
  tidy : ∀ t ∈ promisedLines s n, Tidy t
  line : ∀ no, n = some no → (s.findLine no).isSome ∨
    ∀ i < s.nprog, s.isData i = true → no ≤ (s.prog i).no

theorem SameData.program {s s' : Interp ν} (h : SameData s s') : SameProgram s s' := ⟨h.1, h.2⟩

theorem SameData.dataQueue {s s' : Interp ν} (h : SameData s s') : s'.dataQueue = s.dataQueue := by
  have hstart : s'.dataStart = s.dataStart := by rw [Interp.dataStart, Interp.dataStart, h.dataPc]
  rw [Interp.dataQueue, Interp.dataQueue, h.dataIp, hstart, h.program.dataLines]

instance : Observes (SameData : Interp ν → Interp ν → Prop) where
  refl _ := ⟨rfl, rfl, rfl, rfl⟩
  trans _ _ _ h h' := ⟨h'.1.trans h.1, h'.2.trans h.2, h'.3.trans h.3, h'.4.trans h.4⟩
  cursor _ _ _ := ⟨rfl, rfl, rfl, rfl⟩
  addVar _ _ _ := ⟨rfl, rfl, rfl, rfl⟩
  draw _ _ := ⟨rfl, rfl, rfl, rfl⟩
  autoDim _ _ _ _ _ _ := ⟨rfl, rfl, rfl, rfl⟩

/-- The answers are the items of the queue, one for each call, and none behind the last. -/
theorem reads_queue {s₀ s : Interp ν} {got : List (Option Text)} (hreads : Reads s₀ got s)
    (htidy : ∀ t ∈ s₀.dataQueue, Tidy t) :
    (∀ k < got.length, got[k]? = some ((dataItems s₀.dataQueue)[k]?)) ∧
      dataItems s.dataQueue = (dataItems s₀.dataQueue).drop got.length ∧
        ∀ t ∈ s.dataQueue, Tidy t := by
  induction hreads with
  | start => exact ⟨fun k hk => absurd hk (Nat.not_lt_zero k), rfl, htidy⟩
  | other _ hsame ih =>
    rw [hsame.dataQueue]
    exact ih
  | @next got s s' r _ hcall ih =>
    obtain ⟨hgot, hleft, htidyleft⟩ := ih
    obtain ⟨u, hrun, -, hqueue⟩ := dataTok_takes s
    obtain ⟨rfl, rfl⟩ := Prod.mk.inj (Option.some.inj (hcall.symm.trans hrun))
    obtain ⟨hitem, hrest, htidyrest⟩ := takeItem_tidy htidyleft
    refine ⟨fun k hk => ?_, ?_, hqueue ▸ htidyrest⟩
    · obtain hlt | rfl := Nat.lt_succ_iff_lt_or_eq.mp (by simpa using hk)
      · rw [List.getElem?_append_left hlt]
        exact hgot k hlt
      · rw [List.getElem?_concat_length, hitem, hleft, List.head?_drop]
    · rw [hqueue, hrest, hleft, List.tail_drop, List.length_append]
      rfl

/-- What RESTORE does behind its number. -/
def restored (n : Option ℤ) (u : Interp ν) : Interp ν :=
  match n.bind u.findLine with
  | some idx => { u with dataPc := (idx : ℤ) - 1 }
  | none => u

theorem doRestore_run {N : NumOps ν} {n : Option ℤ} {s u : Interp ν}
    (h : (restoreNumber N).run s = some (n, u)) :
    (doRestore N).run s = some ((), restored n u) := by
  obtain ⟨⟨⟩, s₁, hclear, h⟩ := bind_run_iff.mp h
  obtain ⟨⟨⟩, s₂, hskip, h⟩ := bind_run_iff.mp h
  have hrun : (doRestore N).run s = (if bIsdigit (s₂.ip.rest.headD 0) then do
      let no ← intExpr N
      match (← get).findLine no with
      | some idx => modify fun s => { s with dataPc := (idx : ℤ) - 1 }
      | none => return ()
    else return () : BasicM ν Unit).run s₂ := by
    rw [doRestore, StateT.run_bind, hclear]
    simp only [Option.bind_eq_bind, Option.bind_some]
    rw [StateT.run_bind, hskip]
    rfl
  replace h : (if bIsdigit (s₂.ip.rest.headD 0) then return some (← intExpr N)
    else return none : BasicM ν (Option ℤ)).run s₂ = some (n, u) := h
  rw [hrun]
  by_cases hdigit : bIsdigit (s₂.ip.rest.headD 0) = true
  · rw [if_pos hdigit] at h ⊢
    obtain ⟨no, s₃, hno, hret⟩ := bind_run_iff.mp h
    obtain ⟨rfl, rfl⟩ := Prod.mk.inj (Option.some.inj hret)
    rw [StateT.run_bind, hno]
    change StateT.run (match s₃.findLine no with
      | some idx => modify fun s => { s with dataPc := (idx : ℤ) - 1 }
      | none => return () : BasicM ν Unit) s₃ = _
    rw [restored, Option.bind_some]
    cases s₃.findLine no <;> rfl
  · rw [if_neg hdigit] at h ⊢
    obtain ⟨rfl, rfl⟩ := Prod.mk.inj (Option.some.inj h)
    rfl

theorem restoreNumber_clears {N : NumOps ν} {n : Option ℤ} {s u : Interp ν}
    (h : (restoreNumber N).run s = some (n, u)) : u.dataPc = -1 ∧ u.dataIp = none := by
  obtain ⟨⟨⟩, s₁, hclear, h⟩ := bind_run_iff.mp h
  obtain ⟨-, rfl⟩ := Prod.mk.inj (Option.some.inj hclear)
  have hnumber : Inspects SameData (intExpr N) := (expr_inspects N).bind fun _ => .pure _
  have hsame : SameData _ u := (skipsp_inspects.bind fun _ => peek_inspects.bind fun _ =>
    .cond (hnumber.bind fun _ => .pure _) (.pure _)) _ _ _ h
  exact ⟨hsame.dataPc, hsame.dataIp⟩

theorem filter_range_from {p : ℕ → Bool} {n k : ℕ} (h : ∀ i < n, p i = true ↔ k ≤ i) :
    (List.range n).filter p = (List.range n).drop k := by
  conv_lhs => rw [← List.take_append_drop k (List.range n)]
  have hfront : ((List.range n).take k).filter p = [] := by
    refine List.filter_eq_nil_iff.mpr fun i hi hp => ?_
    rw [List.take_range, List.mem_range] at hi
    have hle := (h i (by omega)).mp hp
    omega
  have hback : ((List.range n).drop k).filter p = (List.range n).drop k := by
    refine List.filter_eq_self.mpr fun i hi => ?_
    rw [List.range_eq_range', List.drop_range', List.mem_range'_1] at hi
    exact (h i (by omega)).mpr (by omega)
  rw [List.filter_append, hfront, hback, List.nil_append]

/-- RUN and RESTORE put the promised lines into the queue. -/
theorem restarted_queue {N : NumOps ν} {n : Option ℤ} {s₀ : Interp ν} (h : Restarted N n s₀)
    (hsorted : SortedBy Line.no s₀.prog s₀.nprog) (hwell : DataWell n s₀) :
    s₀.dataQueue = promisedLines s₀ n := by
  cases h with
  | run s => rfl
  | @restore _ s u _ hnumber hrun =>
    obtain ⟨-, rfl⟩ := Prod.mk.inj (Option.some.inj ((doRestore_run hnumber).symm.trans hrun))
    obtain ⟨hpc, hip⟩ := restoreNumber_clears hnumber
    have hfirst : u.dataQueue = u.dataLines 0 := by
      rw [Interp.dataQueue, hip, Interp.dataStart, hpc]
      rfl
    cases n with
    | none => exact hfirst
    | some no =>
      cases hfind : u.findLine no with
      | none =>
        have hsame : restored (some no) u = u := by rw [restored, Option.bind_some, hfind]
        rw [hsame] at hwell ⊢
        obtain hfound | hbehind := hwell.line no rfl
        · rw [hfind] at hfound
          cases hfound
        · have hall : (List.range u.nprog).filter u.isData =
              ((List.range u.nprog).filter fun i => decide (no ≤ (u.prog i).no)).filter u.isData := by
            rw [List.filter_filter]
            refine List.filter_congr fun i hi => ?_
            cases hdata : u.isData i with
            | false => rfl
            | true => simpa using hbehind i (List.mem_range.mp hi) hdata
          rw [hfirst, promisedLines, ← hall, Interp.dataLines, List.drop_zero]
      | some idx =>
        have hset : restored (some no) u = { u with dataPc := (idx : ℤ) - 1 } := by
          rw [restored, Option.bind_some, hfind]
        rw [hset] at hsorted ⊢
        have hidx : idx < u.nprog := List.mem_range.mp (List.mem_of_find?_eq_some hfind)
        have hno : ((u.prog idx).no : ℤ) = no := by simpa using List.find?_some hfind
        have hfrom : ∀ i < u.nprog, decide (no ≤ (u.prog i).no) = true ↔ idx ≤ i := by
          intro i hi
          rw [decide_eq_true_eq, ← hno, Int.ofNat_le]
          constructor
          · intro hle
            by_contra hlt
            have hless := hsorted i idx (not_le.mp hlt) hidx
            exact absurd hle (not_le.mpr hless)
          · intro hle
            obtain rfl | hlt := hle.eq_or_lt
            · exact le_rfl
            · exact (hsorted idx i hlt hi).le
        have hstart : ({ u with dataPc := (idx : ℤ) - 1 } : Interp ν).dataStart = idx := by
          rw [Interp.dataStart]
          dsimp only
          split_ifs <;> omega
        have hqueue : ({ u with dataPc := (idx : ℤ) - 1 } : Interp ν).dataQueue =
            ({ u with dataPc := (idx : ℤ) - 1 } : Interp ν).dataLines idx := by
          rw [Interp.dataQueue, hstart]
          dsimp only
          rw [hip]
        rw [hqueue, promisedLines, filter_range_from hfrom]
        rfl

/-- After RUN and RESTORE the calls of `data_next` end, and their answers are the items of the lines
of data in their order, as long as these are read as a whole. -/
theorem reads_in_order {N : NumOps ν} {n : Option ℤ} {s₀ s : Interp ν} {got : List (Option Text)}
    (hstart : Restarted N n s₀) (hsorted : SortedBy Line.no s₀.prog s₀.nprog) (hwell : DataWell n s₀)
    (hreads : Reads s₀ got s) :
    (∀ k < got.length, got[k]? = some ((dataItems (promisedLines s₀ n))[k]?)) ∧
      (dataTok.run s).isSome := by
  have hqueue := restarted_queue hstart hsorted hwell
  have htidy : ∀ t ∈ s₀.dataQueue, Tidy t := by
    rw [hqueue]
    exact hwell.tidy
  obtain ⟨u, hrun, -⟩ := dataTok_takes s
  rw [← hqueue, hrun]
  exact ⟨(reads_queue hreads htidy).1, rfl⟩

/-- `10 DATA 7,8` and `20 DATA X` -/
def threeItems : List String := ["DATA 7,8", "DATA X"]

/-- The items of both lines, and then that there are no more. -/
theorem seven_in_order : ∃ s, Reads (begun threeItems)
    [some (bytes "7"), some (bytes "8"), some (bytes "X"), none] s := by
  have hlines : promisedLines (begun threeItems) none = [bytes " 7,8", bytes " X"] := by
    decide
  have hseven : field (bytes " 7,8") = (.bare (bytes "7"), bytes ",8") := by decide
  have height : field (bytes "8") = (.bare (bytes "8"), []) := by decide
  have hx : field (bytes " X") = (.bare (bytes "X"), []) := by decide
  have hbehind : items (bytes "8") = [.bare (bytes "8")] := by
    rw [items_eq, height]
    rfl
  have hfirst : items (bytes " 7,8") = [.bare (bytes "7"), .bare (bytes "8")] := by
    rw [items_eq, hseven]
    exact congrArg ([Field.bare (bytes "7")] ++ ·) hbehind
  have hsecond : items (bytes " X") = [.bare (bytes "X")] := by
    rw [items_eq, hx]
    rfl
  have hitems : dataItems (promisedLines (begun threeItems) none) =
      [bytes "7", bytes "8", bytes "X"] := by
    rw [hlines, dataItems_cons, dataItems_cons, hfirst, hsecond]
    decide
  have hwell : DataWell none (begun threeItems) := by
    refine ⟨fun t ht f hf => ?_, fun no hno => by cases hno⟩
    rw [hlines] at ht
    rcases List.mem_pair.mp ht with rfl | rfl
    · rw [hfirst] at hf
      rcases List.mem_pair.mp hf with rfl | rfl
      · exact (by decide : (trimEnd isBlank (bytes "7")).length < svarLen)
      · exact (by decide : (trimEnd isBlank (bytes "8")).length < svarLen)
    · rw [hsecond, List.mem_singleton] at hf
      rw [hf]
      exact (by decide : (trimEnd isBlank (bytes "X")).length < svarLen)
  have hstart : Restarted ratOps none (begun threeItems) := .run (loaded threeItems)
  have hcall : ∀ got s, Reads (begun threeItems) got s → ∃ s', Reads (begun threeItems)
      (got ++ [[bytes "7", bytes "8", bytes "X"][got.length]?]) s' := by
    intro got s h
    obtain ⟨⟨r, s'⟩, hrun⟩ := Option.isSome_iff_exists.mp
      (reads_in_order hstart (begun_sorted _) hwell h).2
    have hread := (reads_in_order hstart (begun_sorted _) hwell (.next h hrun)).1 got.length (by simp)
    rw [List.getElem?_concat_length, hitems] at hread
    rw [← Option.some.inj hread]
    exact ⟨s', .next h hrun⟩
  obtain ⟨s₁, h₁⟩ := hcall _ _ .start
  obtain ⟨s₂, h₂⟩ := hcall _ _ h₁
  obtain ⟨s₃, h₃⟩ := hcall _ _ h₂
  exact hcall _ _ h₃

/-- An item of 70 characters -/
def longData : String :=
  "DATA AAAAAAAAAAAAAAAAAAAAAAAAAAAAAAAAAAAAAAAAAAAAAAAAAAAAAAAAAAAAAAAAAAAAAA"

/-- A longer item is read as two. -/
theorem long_item_split : ¬ ∀ (n : Option ℤ) (s₀ s : Interp ℚ) (got : List (Option Text)),
    Restarted ratOps n s₀ → SortedBy Line.no s₀.prog s₀.nprog → Reads s₀ got s →
      ∀ k < got.length, got[k]? = some ((dataItems (promisedLines s₀ n))[k]?) := by
  intro hall
  have hread : ((do let _ ← dataTok; dataTok : BasicM ℚ (Option Text)).run (begun [longData])).map
      Prod.fst = some (some (List.replicate 7 65)) := by decide
  have hlines : promisedLines (begun [longData]) none = [32 :: List.replicate 70 65] := by
    decide
  have hfield : field (32 :: List.replicate 70 65) = (.bare (List.replicate 70 65), []) := by
    decide
  have hitems : items (32 :: List.replicate 70 65) = [.bare (List.replicate 70 65)] := by
    rw [items_eq, hfield]
    rfl
  obtain ⟨⟨_, s⟩, hrun, rfl⟩ := Option.map_eq_some_iff.mp hread
  obtain ⟨r, u, hfirst, hsecond⟩ := bind_run_iff.mp hrun
  have hpromise := hall none (begun [longData]) s _ (.run (loaded [longData])) (begun_sorted _)
    (.next (.next .start hfirst) hsecond) 1 Nat.one_lt_two
  rw [hlines, dataItems_cons, hitems] at hpromise
  cases hpromise

end XinuRpi4.Basic
