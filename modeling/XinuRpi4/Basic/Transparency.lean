import XinuRpi4.Basic.Debugger
import XinuRpi4.Basic.Inspection
import XinuRpi4.Foundation.Runs

/-!
# The debugger and the program

A run under the debugger and the plain run of the same program go statement by
statement together as long as every value that is inspected is one without an
effect. Each step of the debugger by itself is a step of the plain run, and the
lines read at a prompt are none.
-/

namespace XinuRpi4.Basic

open XinuRpi4.Foundation

variable {ν : Type}

section Inspection

variable (N : NumOps ν)

theorem dbgEval_inspects : Inspects Quiet (dbgEval N) := by
  have hreport : ∀ ts ts' : List Text, Inspects Quiet
      (do if (← MonadState.get).err.isSome then return ts else return ts' : BasicM ν (List Text)) :=
    fun _ _ => Inspects.get.bind fun _ => .cond (.pure _) (.pure _)
  refine skipsp_inspects.bind fun _ => peek_inspects.bind fun _ => .cond (.pure _) <|
    peekIsString_inspects.bind fun _ => .cond ?text ?num
  case text => exact (seval_inspects N _).bind fun _ => hreport _ _
  case num => exact (expr_inspects N).bind fun _ => hreport _ _

/-- The value is there, and nothing has been made or drawn for it. -/
def inspectsOnly (s : Interp ν) (arg : Text) : Bool :=
  ((dbgPrintExpr N arg).run s).map (·.2.effects) == some s.effects

theorem dbgPrintExpr_run (s : Interp ν) (arg : Text) :
    (dbgPrintExpr N arg).run s =
      ((dbgEval N).run { s with ip := ⟨none, arg⟩, err := none }).map fun r =>
        (r.1, { r.2 with ip := s.ip, err := s.err, gGoto := s.gGoto }) :=
  (Option.map_eq_bind ..).symm

/-- Inspecting a value without an effect leaves the interpreter as it was. -/
theorem dbgPrintExpr_unchanged {s : Interp ν} {arg : Text} (h : inspectsOnly N s arg) :
    ∃ ts, (dbgPrintExpr N arg).run s = some (ts, s) := by
  rw [inspectsOnly, beq_iff_eq, dbgPrintExpr_run, Option.map_map] at h
  obtain ⟨⟨ts, u⟩, hrun, heffects⟩ := Option.map_eq_some_iff.mp h
  refine ⟨ts, ?_⟩
  have hquiet := (dbgEval_inspects N _ _ _ hrun).2 heffects
  rw [dbgPrintExpr_run, hrun, Option.map_some]
  congr 2
  calc { u with ip := s.ip, err := s.err, gGoto := s.gGoto }
      = { { u with ip := ⟨none, arg⟩, err := none } with
          ip := s.ip, err := s.err, gGoto := s.gGoto } := rfl
    _ = s := by rw [hquiet]

end Inspection

/-- Where the plain run stands while the debugger is at a place. -/
def Place.plain : Place → Place
  | .prompt => .stmt
  | p => p

/-- The plain run `u` and the run `t` under the debugger have come equally far. -/
structure Together (t u : Session ν) : Prop where
  interp : u.interp = t.interp
  guard : u.guard = t.guard
  place : u.place = t.place.plain
  off : u.dbgOn = false

section Runs

variable (N : NumOps ν) (gfx : List Out → Bool)

/-- A step that neither stops the program nor inspects a value with an effect. -/
def harmless (t : Session ν) : Event → Bool
  | .line l =>
    match command l with
    | .quit => false
    | .print arg => inspectsOnly N t.interp arg
    | _ => true
  | _ => true

variable {N}

theorem stopsHere_off {u : Session ν} (h : u.dbgOn = false) : stopsHere u = false := by
  simp [stopsHere, h]

theorem loopHead_together {t u : Session ν} (h : Together t u) :
    Together (loopHead N gfx t) (loopHead N gfx u) := by
  obtain ⟨interp, place, guard, on, step, bps, said⟩ := u
  obtain ⟨rfl, rfl, -, rfl⟩ := h
  simp only [loopHead]
  split
  · exact ⟨rfl, rfl, rfl, rfl⟩
  · split
    · exact ⟨rfl, rfl, rfl, rfl⟩
    · have hoff : stopsHere
          (⟨t.interp, place, t.guard + 1, false, step, bps, said⟩ : Session ν) = false :=
        stopsHere_off rfl
      simp only [hoff, Bool.false_eq_true, if_false]
      split <;> exact ⟨rfl, rfl, rfl, rfl⟩

theorem stmtStep_together {t u : Session ν} (h : Together t u) :
    (stmtStep N gfx t).isSome = (stmtStep N gfx u).isSome ∧
      ∀ t', stmtStep N gfx t = some t' →
        ∃ u', stmtStep N gfx u = some u' ∧ Together t' u' := by
  unfold stmtStep
  rw [h.interp]
  cases hrun : (runStmt N).run t.interp with
  | none => exact ⟨rfl, fun t' ht => by cases ht⟩
  | some r =>
    obtain ⟨goesOn, s⟩ := r
    cases goesOn with
    | true =>
      refine ⟨rfl, fun t' ht => ⟨_, rfl, ?_⟩⟩
      cases ht
      exact ⟨rfl, h.guard, rfl, h.off⟩
    | false =>
      refine ⟨rfl, fun t' ht => ⟨_, rfl, ?_⟩⟩
      cases ht
      exact ⟨rfl, h.guard, rfl, h.off⟩

/-- A step of the debugger by itself is a step of the plain run. -/
theorem go_together {t t' u : Session ν} (h : Together t u)
    (hstep : sessionStep N gfx t .go = some t') :
    ∃ u', sessionStep N gfx u .go = some u' ∧ Together t' u' := by
  have hplace := h.place
  cases hp : t.place with
  | top =>
    rw [hp] at hplace
    simp only [sessionStep, hp] at hstep
    cases hstep
    exact ⟨_, by simp only [sessionStep, hplace]; rfl, loopHead_together gfx h⟩
  | stmt =>
    rw [hp] at hplace
    simp only [sessionStep, hp] at hstep
    obtain ⟨u', hu', htogether⟩ := (stmtStep_together gfx h).2 t' hstep
    exact ⟨u', by simpa only [sessionStep, hplace, Place.plain] using hu', htogether⟩
  | prompt => simp [sessionStep, hp] at hstep
  | done => simp [sessionStep, hp] at hstep

/-- Away from the prompts both runs can go on or neither can. -/
theorem go_isSome {t u : Session ν} (h : Together t u) (hprompt : t.place ≠ .prompt) :
    (sessionStep N gfx t .go).isSome = (sessionStep N gfx u .go).isSome := by
  have hplace := h.place
  cases hp : t.place with
  | prompt => exact absurd hp hprompt
  | top => rw [hp] at hplace; simp [sessionStep, hp, hplace, Place.plain]
  | done => rw [hp] at hplace; simp [sessionStep, hp, hplace, Place.plain]
  | stmt =>
    rw [hp] at hplace
    simpa [sessionStep, hp, hplace, Place.plain] using (stmtStep_together gfx h).1

/-- What a command that is harmless does at a prompt. -/
theorem dbgCommand_harmless {t : Session ν} {l : Text} (hok : harmless N t (.line l))
    (hprompt : t.place = .prompt) :
    ∃ t', dbgCommand N gfx t (command l) = some t' ∧ t'.interp = t.interp ∧
      t'.guard = t.guard ∧ (t'.place = .prompt ∨ t'.place = .stmt) := by
  simp only [harmless] at hok
  cases hcmd : command l with
  | quit => simp [hcmd] at hok
  | print arg =>
    rw [hcmd] at hok
    obtain ⟨ts, hts⟩ := dbgPrintExpr_unchanged N hok
    refine ⟨prompting (t.say ts), ?_, rfl, rfl, .inl hprompt⟩
    simp only [dbgCommand, hts]
    rfl
  | step => exact ⟨_, rfl, rfl, rfl, .inr rfl⟩
  | cont => exact ⟨_, rfl, rfl, rfl, .inr rfl⟩
  | list => exact ⟨prompting (t.say _), rfl, rfl, rfl, .inl hprompt⟩
  | help => exact ⟨prompting (t.say _), rfl, rfl, rfl, .inl hprompt⟩
  | listBp =>
    refine ⟨_, rfl, ?_⟩
    simp only [prompting, dbgBpList, Session.say]
    split <;> exact ⟨rfl, rfl, .inl hprompt⟩
  | clearBp => exact ⟨prompting (Session.say _ _), rfl, rfl, rfl, .inl hprompt⟩
  | unknown => exact ⟨prompting (t.say _), rfl, rfl, rfl, .inl hprompt⟩
  | addBp no =>
    refine ⟨_, rfl, ?_⟩
    simp only [prompting, dbgBpAdd, Session.say]
    split
    · exact ⟨rfl, rfl, .inl hprompt⟩
    · split <;> exact ⟨rfl, rfl, .inl hprompt⟩
  | delBp no =>
    refine ⟨_, rfl, ?_⟩
    simp only [prompting, dbgBpDel, Session.say]
    split <;> exact ⟨rfl, rfl, .inl hprompt⟩

/-- The plain run does not move while a line is read at a prompt. -/
theorem prompt_together {t u : Session ν} {e : Event} (h : Together t u) (hgo : e ≠ .go)
    (hprompt : t.place = .prompt) (hok : harmless N t e) :
    ∃ t', sessionStep N gfx t e = some t' ∧ Together t' u := by
  have hplace := h.place
  rw [hprompt] at hplace
  cases e with
  | go => exact absurd rfl hgo
  | closed =>
    refine ⟨_, if_pos hprompt, ?_⟩
    exact ⟨h.interp, h.guard, hplace, h.off⟩
  | line l =>
    obtain ⟨t', ht', hinterp, hguard, hat⟩ := dbgCommand_harmless gfx hok hprompt
    refine ⟨t', by simpa only [sessionStep, hprompt, if_pos] using ht', ?_, ?_, ?_, h.off⟩
    · rw [h.interp, hinterp]
    · rw [h.guard, hguard]
    · rcases hat with hat | hat <;> simp [hplace, hat, Place.plain]

theorem prompt_of_step {t t' : Session ν} {e : Event} (hgo : e ≠ .go)
    (hstep : sessionStep N gfx t e = some t') : t.place = .prompt := by
  by_contra hprompt
  cases e with
  | go => exact hgo rfl
  | line l => simp [sessionStep, hprompt] at hstep
  | closed => simp [sessionStep, hprompt] at hstep

/-- The steps of the program in a run under the debugger. -/
def programSteps (es : List Event) : List Event := List.replicate (es.count .go) .go

/-- Every harmless step, of either kind. -/
theorem exec_together {t t' u : Session ν} {es : List Event} (h : Together t u)
    (hok : EachStep (sessionStep N gfx) (fun t e => harmless N t e = true) t es)
    (hrun : exec (sessionStep N gfx) t es = some t') :
    ∃ u', exec (sessionStep N gfx) u (programSteps es) = some u' ∧ Together t' u' := by
  induction es generalizing t u with
  | nil =>
    cases hrun
    exact ⟨u, rfl, h⟩
  | cons e es ih =>
    obtain ⟨t₁, hstep, hrest⟩ := Option.bind_eq_some_iff.mp hrun
    by_cases hgo : e = .go
    · subst hgo
      obtain ⟨u₁, hu₁, h₁⟩ := go_together gfx h hstep
      obtain ⟨u', hu', h'⟩ := ih h₁ (hok.2 t₁ hstep) hrest
      refine ⟨u', ?_, h'⟩
      simpa [programSteps, List.replicate_succ, exec, hu₁] using hu'
    · obtain ⟨t₂, ht₂, h₂⟩ := prompt_together gfx h hgo (prompt_of_step gfx hgo hstep) hok.1
      cases hstep.symm.trans ht₂
      obtain ⟨u', hu', h'⟩ := ih h₂ (hok.2 t₁ hstep) hrest
      refine ⟨u', ?_, h'⟩
      simpa [programSteps, List.count_cons, hgo] using hu'

theorem together_done {t u : Session ν} (h : Together t u) :
    u.place = .done ↔ t.place = .done := by
  rw [h.place]
  cases t.place <;> simp [Place.plain]

/-- One more step of the program, from a prompt through the command `s`. -/
theorem go_on {t u u' : Session ν} (h : Together t u)
    (hgo : sessionStep N gfx u .go = some u') :
    ∃ es t', EachStep (sessionStep N gfx) (fun t e => harmless N t e = true) t es ∧
      exec (sessionStep N gfx) t es = some t' ∧ Together t' u' := by
  have hoff : ∀ {t : Session ν}, Together t u → t.place ≠ .prompt →
      ∃ t', sessionStep N gfx t .go = some t' ∧ Together t' u' := by
    intro t h hprompt
    have hsome := go_isSome (N := N) gfx h hprompt
    rw [hgo, Option.isSome_some] at hsome
    obtain ⟨t', ht'⟩ := Option.isSome_iff_exists.mp hsome
    obtain ⟨u₁, hu₁, h'⟩ := go_together gfx h ht'
    cases hgo.symm.trans hu₁
    exact ⟨t', ht', h'⟩
  by_cases hprompt : t.place = .prompt
  · have hs : command (bytes "s") = .step := by decide
    have hline : sessionStep N gfx t (.line (bytes "s")) =
        some ({ t with dbgStep := true }.goTo .stmt) := by
      simp only [sessionStep, hprompt, if_true, hs, dbgCommand]
    have h₁ : Together ({ t with dbgStep := true }.goTo .stmt) u :=
      ⟨h.interp, h.guard, by rw [h.place, hprompt]; rfl, h.off⟩
    obtain ⟨t', ht', h'⟩ := hoff h₁ (by simp [Session.goTo])
    refine ⟨[.line (bytes "s"), .go], t', ?_, ?_, h'⟩
    · exact ⟨by simp [harmless, hs], fun _ _ => ⟨rfl, fun _ _ => trivial⟩⟩
    · simp [exec, hline, ht']
  · obtain ⟨t', ht', h'⟩ := hoff h hprompt
    refine ⟨[.go], t', ⟨rfl, fun _ _ => trivial⟩, ?_, h'⟩
    simp [exec, ht']

/-- The run can be brought to where the plain run ends. -/
theorem finishes {t u v : Session ν} {m : ℕ} (h : Together t u)
    (hrun : exec (sessionStep N gfx) u (List.replicate m .go) = some v) :
    ∃ es t', EachStep (sessionStep N gfx) (fun t e => harmless N t e = true) t es ∧
      exec (sessionStep N gfx) t es = some t' ∧ Together t' v := by
  induction m generalizing t u with
  | zero =>
    cases hrun
    exact ⟨[], t, trivial, rfl, h⟩
  | succ m ih =>
    obtain ⟨u₁, hu₁, hrest⟩ := Option.bind_eq_some_iff.mp hrun
    obtain ⟨es, t₁, hok, hes, h₁⟩ := go_on gfx h hu₁
    obtain ⟨es', t', hok', hes', h'⟩ := ih h₁ hrest
    refine ⟨es ++ es', t', hok.append fun t ht => ?_, ?_, h'⟩
    · cases hes.symm.trans ht
      exact hok'
    · rw [exec_append, hes]
      exact hes'

theorem start_together {s : Interp ν} (bps : List ℤ) (hprog : s.nprog ≠ 0) :
    Together (debugRun s bps) (plainRun s bps) := by
  simp only [debugRun, plainRun, hprog, if_false]
  exact ⟨rfl, rfl, rfl, rfl⟩

theorem done_stuck {v : Session ν} (h : v.place = .done) : sessionStep N gfx v .go = none := by
  simp [sessionStep, h]

/-- Statement by statement a debug session without a harmful inspection goes with
the plain run: the interpreter is the same, either run has ended if the other
has, and the debugger holds the program only at its prompts, where every command
comes back. -/
theorem debugger_transparent (N : NumOps ν) (gfx : List Out → Bool) (s : Interp ν)
    (bps : List ℤ) (es : List Event) (t : Session ν) (hprog : s.nprog ≠ 0)
    (hok : EachStep (sessionStep N gfx) (fun t e => harmless N t e = true) (debugRun s bps) es)
    (hrun : exec (sessionStep N gfx) (debugRun s bps) es = some t) :
    (∃ u, exec (sessionStep N gfx) (plainRun s bps) (programSteps es) = some u ∧
      u.interp = t.interp ∧ (u.place = .done ↔ t.place = .done) ∧
      (t.place ≠ .prompt →
        (sessionStep N gfx t .go).isSome = (sessionStep N gfx u .go).isSome)) ∧
    (t.place = .prompt →
      ∀ e, e ≠ .go → harmless N t e → ∃ t', sessionStep N gfx t e = some t' ∧
        t'.interp = t.interp) ∧
    ∀ m v, exec (sessionStep N gfx) (plainRun s bps) (List.replicate m .go) = some v →
      v.place = .done → es.count .go ≤ m ∧
        ∃ es' t', EachStep (sessionStep N gfx) (fun t e => harmless N t e = true) t es' ∧
          exec (sessionStep N gfx) t es' = some t' ∧ t'.place = .done ∧
          t'.interp = v.interp := by
  obtain ⟨u, hu, h⟩ := exec_together gfx (start_together bps hprog) hok hrun
  refine ⟨⟨u, hu, h.interp, together_done h, go_isSome gfx h⟩, ?_, ?_⟩
  · intro hprompt e hgo he
    obtain ⟨t', ht', h'⟩ := prompt_together gfx h hgo hprompt he
    exact ⟨t', ht', h'.interp.symm.trans h.interp⟩
  · intro m v hv hdone
    have hle : es.count .go ≤ m := exec_replicate_le hv (done_stuck gfx hdone) hu
    refine ⟨hle, ?_⟩
    have hrest : exec (sessionStep N gfx) u (List.replicate (m - es.count .go) .go) = some v := by
      have hsplit : List.replicate m Event.go =
          programSteps es ++ List.replicate (m - es.count Event.go) Event.go := by
        rw [programSteps, List.replicate_append_replicate, Nat.add_sub_cancel' hle]
      rwa [hsplit, exec_append, hu] at hv
    obtain ⟨es', t', hok', hes', h'⟩ := finishes gfx h hrest
    exact ⟨es', t', hok', hes', (together_done h').mp hdone, h'.interp.symm⟩

end Runs

/-- Exact numbers, which `double` holds for what these programs compute. -/
def ratOps : NumOps ℚ where
  lit := id
  neg := fun a => -a
  add := fun a b => a + b
  sub := fun a b => a - b
  mul := fun a b => a * b
  div := fun a b => a / b
  lt := fun a b => decide (a < b)
  eq := fun a b => decide (a = b)
  toInt := fun a => a.num.tdiv a.den
  toLong := fun a => a.num.tdiv a.den

/-- `gfx_on` of the window. -/
def bwGfxActive (out : List Out) : Bool :=
  out.any fun o =>
    match o with
    | .cls mode => (BitVec.ofInt 32 mode).getLsbD 1
    | .plot _ _ _ | .line _ _ _ _ _ | .circle _ _ _ _ => true
    | _ => false

/-- The program with lines 10, 20 and so on. -/
def loaded (ls : List String) : Interp ℚ :=
  { basicInit ratOps with
    nprog := ls.length
    prog := fun i => ⟨10 * (i + 1), fun k => (bytes (ls.getD i "")).getD k 0⟩ }

/-- A program in front of its first statement. -/
def begun (ls : List String) : Interp ℚ := startRun (loaded ls)

theorem begun_sorted (ls : List String) :
    SortedBy Line.no (begun ls).prog (begun ls).nprog := by
  intro i j hij _
  change 10 * (i + 1) < 10 * (j + 1)
  omega

def dice : Interp ℚ := loaded ["A=RND(32768)", "PRINT A;B$"]

def diceEvents : List Event :=
  [.go, .line (bytes "p 1+2"), .line (bytes "b 20"), .line (bytes "c"), .go,
    .go, .line (bytes "p A/2"), .line (bytes "l"), .line (bytes "dbg> s"), .go, .go]

theorem debugger_transparent_dice :
    ∃ t u, exec (sessionStep ratOps bwGfxActive) (debugRun dice []) diceEvents = some t ∧
      exec (sessionStep ratOps bwGfxActive) (plainRun dice []) (programSteps diceEvents) = some u ∧
      t.place = .done ∧ u.place = .done ∧ u.interp = t.interp := by
  have hruns : (exec (sessionStep ratOps bwGfxActive) (debugRun dice []) diceEvents).map
      (fun t => t.place) = some .done := by
    decide +kernel
  obtain ⟨t, ht, hdone⟩ := Option.map_eq_some_iff.mp hruns
  obtain ⟨⟨u, hu, hinterp, hplace, -⟩, -⟩ := debugger_transparent ratOps bwGfxActive dice []
    diceEvents t (by decide) (by decide +kernel) ht
  exact ⟨t, u, ht, hu, hdone, hplace.mpr hdone, hinterp⟩

/-- An inspection draws from the numbers of the program. -/
theorem inspection_disturbs :
    ∃ t u, exec (sessionStep ratOps bwGfxActive) (debugRun dice [])
        [.go, .line (bytes "p RND(1)"), .line (bytes "c"), .go, .go, .go, .go] = some t ∧
      exec (sessionStep ratOps bwGfxActive) (plainRun dice [])
        [.go, .go, .go, .go, .go] = some u ∧
      t.place = .done ∧ u.place = .done ∧ t.interp.out ≠ u.interp.out := by
  have hdebug : (exec (sessionStep ratOps bwGfxActive) (debugRun dice [])
      [.go, .line (bytes "p RND(1)"), .line (bytes "c"), .go, .go, .go, .go]).map
        (fun t => (t.place, t.interp.out)) =
      some (.done, [.text (bytes "23676"), .text [], .text (bytes "\n"), .text (bytes "Ok\n")]) := by
    decide +kernel
  have hplain : (exec (sessionStep ratOps bwGfxActive) (plainRun dice [])
      [.go, .go, .go, .go, .go]).map (fun t => (t.place, t.interp.out)) =
      some (.done, [.text (bytes "2373"), .text [], .text (bytes "\n"), .text (bytes "Ok\n")]) := by
    decide +kernel
  obtain ⟨t, ht, hdebug⟩ := Option.map_eq_some_iff.mp hdebug
  obtain ⟨u, hu, hplain⟩ := Option.map_eq_some_iff.mp hplain
  obtain ⟨htplace, htout⟩ := Prod.mk.inj hdebug
  obtain ⟨huplace, huout⟩ := Prod.mk.inj hplain
  refine ⟨t, u, ht, hu, htplace, huplace, ?_⟩
  rw [htout, huout]
  decide

end XinuRpi4.Basic
