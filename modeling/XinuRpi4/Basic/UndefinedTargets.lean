import XinuRpi4.Basic.Jumps

/-!
# Undefined targets

A jump to a line that does not exist must end the run with an error. It does for a line number
that is not negative; behind a label that is not found, a negative number and `THEN *label` the
run goes on as if nothing had been said.
-/

namespace XinuRpi4.Basic

open XinuRpi4.Foundation

variable {ν : Type} {N : NumOps ν} {s s' s₁ : Interp ν} {τ : Target} {kind : JumpKind}

/-- The run is at the line of the target, unless the target has no value; without such a line it
has ended with an error. -/
def Lands (N : NumOps ν) (s : Interp ν) (τ : Target) (s₁ : Interp ν) : Prop :=
  ∃ goesOn s', (runStmt N).run s = some (goesOn, s') ∧
    match τ.lineIn s₁ with
    | some i => s₁.err = none → goesOn = true ∧ s'.pc = i ∧ s'.ip = s'.lineStart i
    | none => goesOn = false ∧ ∃ ts, s'.out = s₁.out ++ ts ∧ ∃ t ∈ ts, isMessage t = true

/-- The jump that `s` asks for, with the state behind the evaluation of its target. -/
def Asks (N : NumOps ν) (s : Interp ν) (kind : JumpKind) (τ : Target) (s₁ : Interp ν) : Prop :=
  (jumpAt N false (s.ip.rest.length + 1)).run { s with gGoto := -1 } = some (some (kind, τ), s₁)

/-- The number that stands for the target is the one of its line, and a return address has room. A
label goes right by accident where its line is the next one. -/
def TargetCarried (kind : JumpKind) (s₁ : Interp ν) (τ : Target) : Prop :=
  Overflows kind s₁ ∧ τ.lineIn s₁ = none ∨ ¬ Overflows kind s₁ ∧
    match τ with
    | .line n => 0 ≤ n
    | .label nm =>
      kind ≠ .branch ∧ nm.length ≤ 11 ∧ (τ.lineIn s₁).isSome ∨
        τ.lineIn s₁ = some (s₁.pc + 1) ∧
          (kind = .branch ∨ 11 < nm.length ∧ (Target.label (nm.take 11)).lineIn s₁ = none)

theorem findLine_lt {n : ℤ} {i : ℕ} (h : s.findLine n = some i) : i < s.nprog :=
  List.mem_range.mp (List.mem_of_find?_eq_some h)

theorem lineIn_lt {i : ℕ} (h : τ.lineIn s = some i) : i < s.nprog := by
  cases τ with
  | line n => exact findLine_lt h
  | label nm => exact List.mem_range.mp (List.mem_of_find?_eq_some h)

/-- Each line is found under its number. -/
theorem findLine_no (hsorted : SortedBy Line.no s.prog s.nprog) {i : ℕ} (hi : i < s.nprog) :
    s.findLine (s.prog i).no = some i := by
  cases hfind : s.findLine (s.prog i).no with
  | none =>
    have hno := List.find?_eq_none.mp hfind i (List.mem_range.mpr hi)
    exact absurd (beq_self_eq_true _) hno
  | some j =>
    have hno := List.find?_some hfind
    have hnat : (s.prog j).no = (s.prog i).no := by simpa using hno
    rw [hsorted.index_unique (findLine_lt hfind) hi hnat]

theorem findLine_neg {n : ℤ} (h : n < 0) : s.findLine n = none := by
  refine List.find?_eq_none.mpr fun i _ hno => ?_
  have hnat : ((s.prog i).no : ℤ) = n := by simpa using hno
  omega

theorem findLabel_eq (nm : Text) : s.findLabel nm = match (Target.label nm).lineIn s with
    | some i => ((s.prog i).no : ℤ)
    | none => -1 := rfl

theorem label_matches {nm : Text} {i : ℕ} (h : (Target.label nm).lineIn s = some i) :
    ∃ r, matchKw nm (s.text i).tail = some r := by
  have hfound := List.find?_some h
  rw [Bool.and_eq_true] at hfound
  exact Option.isSome_iff_exists.mp hfound.2

/-- The line of a long label is not the one of its first 11 characters. -/
theorem lineIn_take {nm : Text} {i : ℕ} (hcapitals : Capitals nm) (hlong : 11 < nm.length)
    (h : (Target.label nm).lineIn s = some i) : (Target.label (nm.take 11)).lineIn s ≠ some i := by
  intro h'
  obtain ⟨r, hr⟩ := label_matches h
  obtain ⟨r', hr'⟩ := label_matches h'
  have hsame := matchKw_unique hcapitals
    (fun c d hc => hcapitals c d (List.mem_of_mem_take hc)) hr hr'
  have hlen := congrArg List.length hsame
  rw [List.length_take] at hlen
  omega

theorem lands_goesOn {i : ℕ} (hrun : (runStmt N).run s = some (true, s')) (herr : s₁.err = none)
    (hline : τ.lineIn s₁ = some i) :
    Lands N s τ s₁ ↔ s'.pc = i ∧ s'.ip = s'.lineStart i := by
  simp only [Lands, hrun, hline]
  constructor
  · rintro ⟨b, u, hsame, hright⟩
    obtain ⟨rfl, rfl⟩ := Prod.mk.inj (Option.some.inj hsame)
    exact (hright herr).2
  · intro hright
    exact ⟨true, s', rfl, fun _ => ⟨rfl, hright⟩⟩

/-- Without a line the run may not go on. -/
theorem not_lands (hrun : (runStmt N).run s = some (true, s')) (hline : τ.lineIn s₁ = none) :
    ¬ Lands N s τ s₁ := by
  rintro ⟨b, u, hsame, hright⟩
  obtain ⟨rfl, rfl⟩ := Prod.mk.inj (Option.some.inj (hrun.symm.trans hsame))
  rw [hline] at hright
  cases hright.1

theorem lands_message {ts : List Out} (hrun : (runStmt N).run s = some (false, s'))
    (hout : s'.out = s₁.out ++ ts) (hmessage : ∃ t ∈ ts, isMessage t = true) (herr : s₁.err = none) :
    Lands N s τ s₁ ↔ τ.lineIn s₁ = none := by
  cases hline : τ.lineIn s₁ with
  | none =>
    refine iff_of_true ⟨false, s', hrun, ?_⟩ rfl
    rw [hline]
    exact ⟨rfl, ts, hout, hmessage⟩
  | some i =>
    refine iff_of_false ?_ (by simp)
    rintro ⟨b, u, hsame, hright⟩
    obtain ⟨rfl, rfl⟩ := Prod.mk.inj (Option.some.inj (hrun.symm.trans hsame))
    rw [hline] at hright
    cases (hright herr).1

/-- A jump whose target has no value ends the run. -/
theorem lands_of_error {m : String} (hrun : ∃ ts, (runStmt N).run s =
      some (false, { s' with out := s'.out ++ ts }) ∧ ∃ t ∈ ts, isMessage t = true)
    (hout : s'.out = s₁.out) (herr : s₁.err = some m) : Lands N s τ s₁ := by
  obtain ⟨ts, hrun, hmessage⟩ := hrun
  refine ⟨false, _, hrun, ?_⟩
  cases τ.lineIn s₁ with
  | some i => exact fun hnone => by rw [herr] at hnone; cases hnone
  | none => exact ⟨rfl, ts, congrArg (· ++ ts) hout, hmessage⟩

section Asked

variable {c : Cursor}
  (hexec : (execStmt N (s.ip.rest.length + 1)).run { s with gGoto := -1 } =
    some ((), jumped kind τ c s₁))
  (herr : s₁.err = none)
include hexec herr

theorem lands_overflow (hfull : Overflows kind s₁) : Lands N s τ s₁ ↔ τ.lineIn s₁ = none := by
  have hsome : (jumped kind τ c s₁).err = some "GOSUB overflow" := by
    rw [jumped_overflow kind τ c s₁ hfull, herr]
    rfl
  obtain ⟨ts, hrun, hmessage⟩ := runStmt_error hexec hsome
  exact lands_message hrun (congrArg (· ++ ts) (jumped_fields kind τ c s₁).1) hmessage herr

/-- A number that is not negative finds its line or ends the run. -/
theorem lands_number (hroom : ¬ Overflows kind s₁) {g : ℤ} (hg : (jumped kind τ c s₁).gGoto = g)
    (hpos : 0 ≤ g) : Lands N s τ s₁ ↔ s₁.findLine g = τ.lineIn s₁ := by
  obtain ⟨hout, hprog, hnprog, -⟩ := jumped_fields kind τ c s₁
  have hnone := (jumped_err kind τ c s₁ hroom).trans herr
  have hfind : (jumped kind τ c s₁).findLine g = s₁.findLine g := by
    simp only [Interp.findLine, hprog, hnprog]
  have hjump : (runStmt N).run s = (jump N).run (jumped kind τ c s₁) := by
    rw [runStmt_noError hexec hnone, hg, if_pos hpos]
  cases hline : s₁.findLine g with
  | none =>
    obtain ⟨ts, hrun, hmessage⟩ := jump_none (N := N) (s := jumped kind τ c s₁)
      (by rw [hg, hfind, hline])
    rw [eq_comm]
    exact lands_message (hjump.trans hrun) (congrArg (· ++ ts) hout) hmessage herr
  | some i =>
    have hrun := jump_some (N := N) (s := jumped kind τ c s₁) (i := i) (by rw [hg, hfind, hline])
    cases htarget : τ.lineIn s₁ with
    | none => exact iff_of_false (not_lands (hjump.trans hrun) htarget) (by simp)
    | some j =>
      rw [lands_goesOn (hjump.trans hrun) herr htarget]
      constructor
      · rintro ⟨hpc, -⟩
        exact congrArg some hpc
      · rintro hsame
        obtain rfl := Option.some.inj hsame
        exact ⟨rfl, rfl⟩

/-- A label that is not found sends the run to the next line. -/
theorem lands_nextLine (hroom : ¬ Overflows kind s₁) (hg : (jumped kind τ c s₁).gGoto = -1)
    (hcolon : (skipped (jumped kind τ c s₁)).ip.rest.headD 0 ≠ chr ':') :
    Lands N s τ s₁ ↔ τ.lineIn s₁ = some (s₁.pc + 1) := by
  obtain ⟨-, -, hnprog, hpc⟩ := jumped_fields kind τ c s₁
  have hnone := (jumped_err kind τ c s₁ hroom).trans herr
  obtain ⟨s', hrun, hnext, hip⟩ := runStmt_nextLine hexec hnone hg hcolon
  cases hline : τ.lineIn s₁ with
  | none => exact iff_of_false (not_lands hrun hline) (by simp)
  | some i =>
    rw [lands_goesOn hrun herr hline, hnext, hpc, Option.some_inj]
    constructor
    · rintro ⟨rfl, -⟩
      rfl
    · rintro rfl
      refine ⟨rfl, ?_⟩
      have hlt := lineIn_lt hline
      rw [← hpc, ← hnprog] at hlt
      rw [hip hlt, hpc]

end Asked

/-- Blanks are skipped in front of a colon only. -/
theorem no_colon {c : Cursor} (h : isAlnum (c.rest.headD 0) = true) (hip : s.ip = c) :
    (skipped s).ip.rest.headD 0 ≠ chr ':' := by
  obtain ⟨line, rest⟩ := c
  have hskip : (skipped s).ip.rest = rest.dropWhile isBlank :=
    congrArg (fun c => c.rest.dropWhile isBlank) hip
  rw [hskip]
  cases rest with
  | nil => decide
  | cons x rest =>
    replace h : isAlnum x = true := h
    have hblank : ¬ isBlank x = true := by
      intro hblank
      simp only [isBlank, Bool.or_eq_true, beq_iff_eq] at hblank
      obtain rfl | rfl := hblank <;> exact absurd h (by decide)
    rw [List.dropWhile_cons_of_neg hblank]
    intro hcolon
    obtain rfl : x = chr ':' := hcolon
    exact absurd h (by decide)

section Label

variable {nm : Text} {c : Cursor}
  (hexec : (execStmt N (s.ip.rest.length + 1)).run { s with gGoto := -1 } =
    some ((), jumped kind (.label nm) c s₁))
  (herr : s₁.err = none) (hroom : ¬ Overflows kind s₁)
include hexec herr hroom

theorem lands_label (hkind : kind ≠ .branch) (hsorted : SortedBy Line.no s₁.prog s₁.nprog)
    (hwithin : StopsWithin (.label nm) c) :
    Lands N s (.label nm) s₁ ↔ nm.length ≤ 11 ∧ ((Target.label nm).lineIn s₁).isSome ∨
      (Target.label nm).lineIn s₁ = some (s₁.pc + 1) ∧ 11 < nm.length ∧
        (Target.label (nm.take 11)).lineIn s₁ = none := by
  obtain ⟨hg, hip⟩ := jumped_label c s₁ hkind nm
  rw [findLabel_eq] at hg
  cases htake : (Target.label (nm.take 11)).lineIn s₁ with
  | some j =>
    rw [htake] at hg
    rw [lands_number hexec herr hroom hg (Int.natCast_nonneg _),
      findLine_no hsorted (lineIn_lt htake)]
    by_cases hshort : nm.length ≤ 11
    · rw [List.take_of_length_le hshort] at htake
      exact iff_of_true htake.symm (Or.inl ⟨hshort, by rw [htake]; rfl⟩)
    · refine iff_of_false (fun hsame => ?_) (by simp [hshort])
      have hlong := not_le.mp hshort
      exact lineIn_take (hwithin nm rfl hlong).2 hlong hsame.symm htake
  | none =>
    rw [htake] at hg
    by_cases hshort : nm.length ≤ 11
    · rw [List.take_of_length_le hshort] at htake
      obtain ⟨u, hrun⟩ := runStmt_goesOn hexec ((jumped_err kind _ c s₁ hroom).trans herr)
        (by rw [hg]; exact neg_one_lt_zero)
      exact iff_of_false (not_lands hrun htake) (by simp [htake])
    · have hlong := not_le.mp hshort
      rw [lands_nextLine hexec herr hroom hg (no_colon (hwithin nm rfl hlong).1 hip)]
      simp [hlong]

end Label

theorem Asks.lands_iff (hsorted : SortedBy Line.no s.prog s.nprog) (h : Asks N s kind τ s₁) :
    Lands N s τ s₁ ↔ (s₁.err = none → TargetCarried kind s₁ τ) := by
  have hstays : Stays _ _ := jumpAt_inspects N false _ _ _ _ h
  have hgoto : s₁.gGoto = -1 := hstays.gGoto
  have hsorted' : SortedBy Line.no s₁.prog s₁.nprog := by
    rw [hstays.prog, hstays.nprog]
    exact hsorted
  obtain ⟨c, hexec, hwithin⟩ := execStmt_jump h
  cases herr : s₁.err with
  | some m =>
    have hsome : (jumped kind τ c s₁).err = some m := by
      by_cases hfull : Overflows kind s₁
      · rw [jumped_overflow kind τ c s₁ hfull, herr]
        rfl
      · rw [jumped_err kind τ c s₁ hfull, herr]
    exact iff_of_true (lands_of_error (runStmt_error hexec hsome) (jumped_fields kind τ c s₁).1 herr)
      (fun hnone => by cases hnone)
  | none =>
    rw [imp_iff_right (rfl : (none : Option String) = none)]
    by_cases hfull : Overflows kind s₁
    · rw [lands_overflow hexec herr hfull]
      simp [TargetCarried, hfull]
    · simp only [TargetCarried, hfull, false_and, not_false_eq_true, true_and, false_or]
      cases τ with
      | line n =>
        have hg := jumped_line kind c s₁ n
        by_cases hpos : 0 ≤ n
        · exact iff_of_true ((lands_number hexec herr hfull hg hpos).mpr rfl) hpos
        · obtain ⟨u, hrun⟩ := runStmt_goesOn hexec ((jumped_err kind _ c s₁ hfull).trans herr)
            (by rw [hg]; exact not_le.mp hpos)
          exact iff_of_false (not_lands hrun (findLine_neg (not_le.mp hpos))) hpos
      | label nm =>
        by_cases hkind : kind = .branch
        · subst hkind
          have hcolon : (skipped (jumped .branch (.label nm) c s₁)).ip.rest.headD 0 ≠ chr ':' := by
            change (0 : UInt8) ≠ chr ':'
            decide
          rw [lands_nextLine hexec herr hfull hgoto hcolon]
          simp
        · rw [lands_label hexec herr hfull hkind hsorted' (hwithin hkind)]
          simp [hkind]

/-- Every jump of the statement lands right if and only if its target is carried. -/
theorem jumps_land_iff (N : NumOps ν) (s : Interp ν) (hsorted : SortedBy Line.no s.prog s.nprog) :
    (∀ kind τ s₁, Asks N s kind τ s₁ → Lands N s τ s₁) ↔
      ∀ kind τ s₁, Asks N s kind τ s₁ → s₁.err = none → TargetCarried kind s₁ τ := by
  constructor
  · intro hall kind τ s₁ h
    exact (h.lands_iff hsorted).mp (hall kind τ s₁ h)
  · intro hall kind τ s₁ h
    exact (h.lands_iff hsorted).mpr (hall kind τ s₁ h)

/-- `10 GOTO 15+5` goes on at line 20. -/
theorem goto_computed : ∃ s₁, Asks ratOps (begun ["GOTO 15+5", "END"]) .goto (.line 20) s₁ ∧
    Lands ratOps (begun ["GOTO 15+5", "END"]) (.line 20) s₁ := by
  have hnamed : ((jumpAt ratOps false 10).run { begun ["GOTO 15+5", "END"] with gGoto := -1 }).map
      Prod.fst = some (some (.goto, .line 20)) := by decide +kernel
  obtain ⟨⟨_, s₁⟩, hask, rfl⟩ := Option.map_eq_some_iff.mp hnamed
  refine ⟨s₁, hask, (jumps_land_iff ratOps _ (begun_sorted _)).mpr (fun kind τ u h _ => ?_)
    .goto (.line 20) s₁ hask⟩
  have hrun : (jumpAt ratOps false 10).run { begun ["GOTO 15+5", "END"] with gGoto := -1 } =
      some (some (kind, τ), u) := h
  rw [hrun] at hnamed
  obtain ⟨rfl, rfl⟩ := Prod.mk.inj (Option.some.inj (Option.some.inj hnamed))
  have hroom : ¬ Overflows .goto u := fun hfull => JumpKind.noConfusion hfull.1
  exact Or.inr ⟨hroom, (by decide : (0 : ℤ) ≤ 20)⟩

/-- `10 GOTO *NOWHERE` goes on at line 20. -/
theorem undefined_label_ignored : ¬ ∀ (s : Interp ℚ), SortedBy Line.no s.prog s.nprog →
    ∀ kind τ s₁, Asks ratOps s kind τ s₁ → Lands ratOps s τ s₁ := by
  intro hall
  have hnamed : ((jumpAt ratOps false 14).run
      { begun ["GOTO *NOWHERE", "END"] with gGoto := -1 }).map
      (fun r => (r.1, (Target.label (bytes "NOWHERE")).lineIn r.2)) =
        some (some (.goto, .label (bytes "NOWHERE")), none) := by decide
  have hruns : ((runStmt ratOps).run (begun ["GOTO *NOWHERE", "END"])).map
      (fun r => (r.1, r.2.pc)) = some (true, 1) := by decide
  obtain ⟨⟨_, s₁⟩, hjump, hlabel⟩ := Option.map_eq_some_iff.mp hnamed
  obtain ⟨rfl, hline⟩ := Prod.mk.inj hlabel
  obtain ⟨⟨_, s'⟩, hrun, hon⟩ := Option.map_eq_some_iff.mp hruns
  obtain ⟨rfl, -⟩ := Prod.mk.inj hon
  exact not_lands hrun hline (hall _ (begun_sorted _) .goto _ s₁ hjump)

end XinuRpi4.Basic
