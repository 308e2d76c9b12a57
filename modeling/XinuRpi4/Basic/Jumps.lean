import XinuRpi4.Basic.Debugger
import XinuRpi4.Basic.Keywords

/-!
# Jumps

What a statement names for the target of a jump, and where the run goes on behind it. The
target is handed to the loop of RUN as one number, in which a label that is not found is the
same as no jump.
-/

namespace XinuRpi4.Basic

open XinuRpi4.Foundation

variable {ν : Type}

/-- What stands behind GOTO, GOSUB or THEN, with the value of a line number. -/
inductive Target
  | line (n : ℤ)
  | label (name : Text)
deriving DecidableEq

/-- The word that stands in front of the target; `branch` is THEN. -/
inductive JumpKind
  | goto | gosub | branch
deriving DecidableEq

section Naming

variable (N : NumOps ν)

def targetAt : BasicM ν Target := do
  skipsp
  if (← peek) = chr '*' then
    advance
    return .label (((← rest).takeWhile isAlnum).map bUp)
  else return .line (← intExpr N)

/-- The jump of an IF whose condition is true; `self` is the one of the statement behind THEN. -/
def branchAt (self : BasicM ν (Option (JumpKind × Target))) :
    BasicM ν (Option (JumpKind × Target)) := do
  let c ← expr N
  if ← kw "THEN" then
    skipsp
    if N.isTrue c then
      if bIsdigit (← peek) then return some (.branch, .line (← intExpr N)) else self
    else return none
  else return none

/-- The jump that the statement at the cursor asks for, with its target evaluated. -/
def jumpAt : Bool → ℕ → BasicM ν (Option (JumpKind × Target))
  | _, 0 => failure
  | behindThen, depth + 1 => do
    modify atStatement
    let t ← rest
    if t.headD 0 = chr '*' then
      if behindThen then return some (.branch, ← targetAt N) else return none
    else
      match matchKw (bytes "GOTO") t with
      | some r => do
        setRest r
        return some (.goto, ← targetAt N)
      | none =>
        match matchKw (bytes "GOSUB") t with
        | some r => do
          setRest r
          return some (.gosub, ← targetAt N)
        | none =>
          match matchKw (bytes "IF") t with
          | some r => do
            setRest r
            branchAt N (jumpAt true depth)
          | none => return none

end Naming

/-- The line that a target names. -/
def Target.lineIn (s : Interp ν) : Target → Option ℕ
  | .line n => s.findLine n
  | .label nm => (List.range s.nprog).find? fun i =>
      (s.text i).headD 0 == chr '*' && (matchKw nm (s.text i).tail).isSome

/-- The number that `goto_target` returns. -/
def Target.value (s : Interp ν) : Target → ℤ
  | .line n => n
  | .label nm => s.findLabel (nm.take 11)

/-- Where the run stands and what it runs. -/
structure Stays (s s' : Interp ν) : Prop where
  nprog : s'.nprog = s.nprog
  prog : s'.prog = s.prog
  pc : s'.pc = s.pc
  gGoto : s'.gGoto = s.gGoto

instance : Observes (Stays : Interp ν → Interp ν → Prop) where
  refl _ := ⟨rfl, rfl, rfl, rfl⟩
  trans _ _ _ h h' := ⟨h'.1.trans h.1, h'.2.trans h.2, h'.3.trans h.3, h'.4.trans h.4⟩
  cursor _ _ _ := ⟨rfl, rfl, rfl, rfl⟩
  addVar _ _ _ := ⟨rfl, rfl, rfl, rfl⟩
  draw _ _ := ⟨rfl, rfl, rfl, rfl⟩
  autoDim _ _ _ _ _ _ := ⟨rfl, rfl, rfl, rfl⟩

/-- The state behind the statement, with the cursor at `c`. -/
def jumped (kind : JumpKind) (τ : Target) (c : Cursor) (s : Interp ν) : Interp ν :=
  match kind, τ with
  | .goto, τ => { s with ip := c, gGoto := τ.value s }
  | .gosub, τ =>
    if s.gosubstk.length < gosubMax then
      { s with ip := c, gGoto := τ.value s, gosubstk := (s.pc, c) :: s.gosubstk }
    else { s with ip := c, gGoto := τ.value s, err := s.err <|> some "GOSUB overflow" }
  | .branch, .line n => { s with gGoto := n }
  | .branch, .label _ => { s with ip := { s.ip with rest := [] } }

/-- The stack of return addresses has no room for one more. -/
def Overflows (kind : JumpKind) (s : Interp ν) : Prop :=
  kind = .gosub ∧ gosubMax ≤ s.gosubstk.length

section Jumped

variable (kind : JumpKind) (τ : Target) (c : Cursor) (s : Interp ν)

theorem jumped_fields : (jumped kind τ c s).out = s.out ∧ (jumped kind τ c s).prog = s.prog ∧
    (jumped kind τ c s).nprog = s.nprog ∧ (jumped kind τ c s).pc = s.pc := by
  cases kind with
  | goto => exact ⟨rfl, rfl, rfl, rfl⟩
  | gosub => by_cases hroom : s.gosubstk.length < gosubMax <;> simp [jumped, hroom]
  | branch => cases τ <;> exact ⟨rfl, rfl, rfl, rfl⟩

theorem jumped_overflow (h : Overflows kind s) :
    (jumped kind τ c s).err = (s.err <|> some "GOSUB overflow") := by
  obtain ⟨rfl, hfull⟩ := h
  simp only [jumped, if_neg (not_lt.mpr hfull)]

theorem jumped_err (h : ¬ Overflows kind s) : (jumped kind τ c s).err = s.err := by
  cases kind with
  | goto => rfl
  | gosub =>
    have hroom : s.gosubstk.length < gosubMax := not_le.mp fun hfull => h ⟨rfl, hfull⟩
    simp only [jumped, if_pos hroom]
  | branch => cases τ <;> rfl

theorem jumped_line (n : ℤ) : (jumped kind (.line n) c s).gGoto = n := by
  cases kind with
  | gosub =>
    simp only [jumped]
    split_ifs <;> rfl
  | _ => rfl

theorem jumped_label {kind : JumpKind} (h : kind ≠ .branch) (nm : Text) :
    (jumped kind (.label nm) c s).gGoto = s.findLabel (nm.take 11) ∧
      (jumped kind (.label nm) c s).ip = c := by
  cases kind with
  | goto => exact ⟨rfl, rfl⟩
  | gosub =>
    simp only [jumped]
    split_ifs <;> exact ⟨rfl, rfl⟩
  | branch => exact absurd rfl h

end Jumped

/-- `goto_target` leaves the cursor within a label of more than 11 characters. -/
def StopsWithin (τ : Target) (c : Cursor) : Prop :=
  ∀ nm, τ = .label nm → 11 < nm.length → isAlnum (c.rest.headD 0) = true ∧ Capitals nm

section Run

variable {N : NumOps ν} {s s' s₁ : Interp ν} {τ : Target} {kind : JumpKind}

theorem alnum_behind (t : Text) (h : 11 < (t.takeWhile isAlnum).length) :
    isAlnum ((t.drop ((t.take 11).takeWhile isAlnum).length).headD 0) = true := by
  have hlen : ((t.take 11).takeWhile isAlnum).length = 11 := by
    rw [← List.take_takeWhile, List.length_take]
    omega
  have hsplit : t.drop 11 = (t.takeWhile isAlnum).drop 11 ++ t.dropWhile isAlnum := by
    rw [← List.drop_append_of_le_length h.le, List.takeWhile_append_dropWhile]
  rw [hlen, hsplit]
  cases hdrop : (t.takeWhile isAlnum).drop 11 with
  | nil =>
    have hle := List.drop_eq_nil_iff.mp hdrop
    omega
  | cons x xs =>
    have hmem : x ∈ (t.takeWhile isAlnum).drop 11 := hdrop ▸ List.mem_cons_self
    exact List.mem_takeWhile_imp (List.mem_of_mem_drop hmem)

theorem isAlnum_bUp (c : UInt8) : isAlnum (bUp c) = isAlnum c := by
  unfold bUp
  split_ifs with hsmall
  · have hup : 65 ≤ c - 32 ∧ c - 32 ≤ 90 := by
      simp only [UInt8.le_iff_toNat_le] at hsmall ⊢
      have hsub : (c - 32).toNat = c.toNat - 32 := UInt8.toNat_sub_of_le c 32 (by
        rw [UInt8.le_iff_toNat_le]
        simp at hsmall ⊢
        omega)
      rw [hsub]
      simp at hsmall ⊢
      omega
    simp [isAlnum, bIsalpha, hup, hsmall]
  · rfl

theorem capitals_of_name (t : Text) : Capitals ((t.takeWhile isAlnum).map bUp) := by
  intro c d hc hd
  obtain ⟨a, ha, rfl⟩ := List.mem_map.mp hc
  rw [← isAlnum_bUp, hd, isAlnum_bUp]
  exact List.mem_takeWhile_imp ha

theorem gotoTarget_run (h : (targetAt N).run s = some (τ, s₁)) :
    ∃ c, (gotoTarget N).run s = some (τ.value s₁, { s₁ with ip := c }) ∧ StopsWithin τ c := by
  have htarget : (targetAt N).run s = (if (skipped s).ip.rest.headD 0 = chr '*' then do
      advance
      return .label (((← rest).takeWhile isAlnum).map bUp)
    else return .line (← intExpr N) : BasicM ν Target).run (skipped s) := rfl
  have hcode : (gotoTarget N).run s = (if (skipped s).ip.rest.headD 0 = chr '*' then do
      advance
      let t ← rest
      let nm := (t.take 11).takeWhile isAlnum
      setRest (t.drop nm.length)
      return (← get).findLabel (nm.map bUp)
    else intExpr N : BasicM ν ℤ).run (skipped s) := rfl
  rw [htarget] at h
  rw [hcode]
  by_cases hstar : (skipped s).ip.rest.headD 0 = chr '*'
  · rw [if_pos hstar] at h
    rw [if_pos hstar]
    have hspec : (Target.label (((advanced (skipped s)).ip.rest.takeWhile isAlnum).map bUp),
        advanced (skipped s)) = (τ, s₁) := Option.some.inj h
    obtain ⟨rfl, rfl⟩ := Prod.mk.inj hspec
    have hname (t : Text) : ((t.take 11).takeWhile isAlnum).map bUp =
        ((t.takeWhile isAlnum).map bUp).take 11 := by
      rw [← List.map_take, List.take_takeWhile]
    refine ⟨_, congrArg (fun nm => some ((advanced (skipped s)).findLabel nm, _)) (hname _), ?_⟩
    -- more than 11 characters of a name: the next one is still in it
    rintro nm hnm hlong
    obtain rfl := Target.label.inj hnm
    rw [List.length_map] at hlong
    exact ⟨alnum_behind _ hlong, capitals_of_name _⟩
  · rw [if_neg hstar] at h
    rw [if_neg hstar]
    obtain ⟨n, s₂, hn, hret⟩ := bind_run_iff.mp h
    obtain ⟨rfl, rfl⟩ := Prod.mk.inj (Option.some.inj hret)
    exact ⟨s₂.ip, hn, fun nm hnm => by cases hnm⟩

theorem targetAt_label (h : (skipped s).ip.rest.headD 0 = chr '*') :
    (targetAt N).run s =
      some (.label (((advanced (skipped s)).ip.rest.takeWhile isAlnum).map bUp),
        advanced (skipped s)) := by
  have htarget : (targetAt N).run s = (if (skipped s).ip.rest.headD 0 = chr '*' then do
      advance
      return .label (((← rest).takeWhile isAlnum).map bUp)
    else return .line (← intExpr N) : BasicM ν Target).run (skipped s) := rfl
  rw [htarget, if_pos h]
  rfl

theorem doGosub_run {c : Cursor}
    (h : (gotoTarget N).run s = some (τ.value s₁, { s₁ with ip := c })) :
    (doGosub N).run s = some ((), jumped .gosub τ c s₁) := by
  have hstack : (do
      let s ← get
      if s.gosubstk.length < gosubMax then
        modify fun s => { s with gosubstk := (s.pc, s.ip) :: s.gosubstk }
      else berr "GOSUB overflow"
      setGoto (τ.value s₁) : BasicM ν Unit).run { s₁ with ip := c } =
        some ((), jumped .gosub τ c s₁) := by
    by_cases hroom : s₁.gosubstk.length < gosubMax
    · have hsome : jumped .gosub τ c s₁ = { s₁ with
          ip := c, gGoto := τ.value s₁, gosubstk := (s₁.pc, c) :: s₁.gosubstk } := if_pos hroom
      rw [hsome]
      exact bind_run_iff.mpr ⟨_, _, rfl,
        (congrArg (StateT.run · { s₁ with ip := c }) (if_pos hroom)).trans rfl⟩
    · have hsome : jumped .gosub τ c s₁ = { s₁ with
          ip := c, gGoto := τ.value s₁, err := s₁.err <|> some "GOSUB overflow" } := if_neg hroom
      rw [hsome]
      exact bind_run_iff.mpr ⟨_, _, rfl,
        (congrArg (StateT.run · { s₁ with ip := c }) (if_neg hroom)).trans rfl⟩
  exact bind_run_iff.mpr ⟨_, _, h, hstack⟩

theorem branchAt_run {self : BasicM ν (Option (JumpKind × Target))} {self' : BasicM ν Unit}
    (hself : ∀ s kind τ s₁, self.run s = some (some (kind, τ), s₁) →
      ∃ c, self'.run s = some ((), jumped kind τ c s₁) ∧ (kind ≠ .branch → StopsWithin τ c))
    (h : (branchAt N self).run s = some (some (kind, τ), s₁)) :
    ∃ c, (doIf N self').run s = some ((), jumped kind τ c s₁) ∧
      (kind ≠ .branch → StopsWithin τ c) := by
  obtain ⟨cond, s₂, hcond, hrest⟩ := bind_run_iff.mp h
  obtain ⟨found, s₃, hthen, hrest⟩ := bind_run_iff.mp hrest
  cases found with
  | false => cases hrest
  | true =>
    rw [if_pos rfl] at hrest
    obtain ⟨⟨⟩, s₄, hskip, hrest⟩ := bind_run_iff.mp hrest
    by_cases htrue : N.isTrue cond = true
    · rw [if_pos htrue] at hrest
      have hdo : (doIf N self').run s = (do
          if bIsdigit (← peek) then setGoto (← intExpr N) else self' : BasicM ν Unit).run s₄ := by
        rw [doIf, StateT.run_bind, hcond]
        simp only [Option.bind_eq_bind, Option.bind_some]
        rw [StateT.run_bind, hthen]
        simp only [Option.bind_eq_bind, Option.bind_some, if_true]
        rw [StateT.run_bind, hskip]
        simp only [Option.bind_eq_bind, Option.bind_some]
        rw [if_pos htrue]
      rw [hdo]
      have hpeek {α : Type} (m m' : BasicM ν α) :
          (do if bIsdigit (← peek) then m else m' : BasicM ν α).run s₄ =
            (if bIsdigit (s₄.ip.rest.headD 0) then m else m').run s₄ := rfl
      rw [hpeek] at hrest ⊢
      by_cases hdigit : bIsdigit (s₄.ip.rest.headD 0) = true
      · rw [if_pos hdigit] at hrest ⊢
        obtain ⟨n, s₅, hn, hret⟩ := bind_run_iff.mp hrest
        obtain ⟨hpair, rfl⟩ := Prod.mk.inj (Option.some.inj hret)
        obtain ⟨rfl, rfl⟩ := Prod.mk.inj (Option.some.inj hpair)
        exact ⟨s₅.ip, bind_run_iff.mpr ⟨n, s₅, hn, rfl⟩, fun hkind => absurd rfl hkind⟩
      · rw [if_neg hdigit] at hrest ⊢
        exact hself s₄ kind τ s₁ hrest
    · rw [if_neg htrue] at hrest
      cases hrest

/-- The statement does for the jump that it names what `jumped` says. -/
theorem execStmt_jump {behindThen : Bool} {depth : ℕ}
    (h : (jumpAt N behindThen depth).run s = some (some (kind, τ), s₁)) :
    ∃ c, (execStmt N depth).run s = some ((), jumped kind τ c s₁) ∧
      (kind ≠ .branch → StopsWithin τ c) := by
  induction depth generalizing s behindThen kind τ s₁ with
  | zero => cases h
  | succ depth ih =>
    have hat : (jumpAt N behindThen (depth + 1)).run s =
        (if (atStatement s).ip.rest.headD 0 = chr '*' then
            if behindThen then return some (.branch, ← targetAt N) else return none
          else
            match matchKw (bytes "GOTO") (atStatement s).ip.rest with
            | some r => do
              setRest r
              return some (.goto, ← targetAt N)
            | none =>
              match matchKw (bytes "GOSUB") (atStatement s).ip.rest with
              | some r => do
                setRest r
                return some (.gosub, ← targetAt N)
              | none =>
                match matchKw (bytes "IF") (atStatement s).ip.rest with
                | some r => do
                  setRest r
                  branchAt N (jumpAt N true depth)
                | none => return none : BasicM ν (Option (JumpKind × Target))).run (atStatement s) := rfl
    rw [hat] at h
    by_cases hstar : (atStatement s).ip.rest.headD 0 = chr '*'
    · rw [if_pos hstar] at h
      cases behindThen with
      | false => cases h
      | true =>
        have hblank := skipped_atStatement s
        obtain ⟨τ', s₂, hτ, hret⟩ := bind_run_iff.mp h
        rw [targetAt_label (by rwa [hblank]), hblank] at hτ
        obtain ⟨rfl, rfl⟩ := Prod.mk.inj (Option.some.inj hτ)
        obtain ⟨hpair, rfl⟩ := Prod.mk.inj (Option.some.inj hret)
        obtain ⟨rfl, rfl⟩ := Prod.mk.inj (Option.some.inj hpair)
        refine ⟨s.ip, ?_, fun hkind => absurd rfl hkind⟩
        have hsome : (atStatement s).ip.rest.headD 0 ≠ 0 := by
          rw [hstar]
          decide
        rw [execStmt_run, if_neg hsome, if_pos hstar]
        rfl
    · rw [if_neg hstar] at h
      cases hgoto : matchKw (bytes "GOTO") (atStatement s).ip.rest with
      | some r =>
        rw [hgoto] at h
        have hmem : ("GOTO", do setGoto (← gotoTarget N)) ∈ keywords N (execStmt N depth) := by
          simp [keywords]
        rw [execStmt_keyword N hmem hgoto]
        obtain ⟨⟨⟩, s₂, hset, h⟩ := bind_run_iff.mp h
        obtain ⟨-, rfl⟩ := Prod.mk.inj (Option.some.inj hset)
        obtain ⟨τ', s₃, hτ, hret⟩ := bind_run_iff.mp h
        obtain ⟨hpair, rfl⟩ := Prod.mk.inj (Option.some.inj hret)
        obtain ⟨rfl, rfl⟩ := Prod.mk.inj (Option.some.inj hpair)
        obtain ⟨c, hrun, hwithin⟩ := gotoTarget_run hτ
        exact ⟨c, bind_run_iff.mpr ⟨_, _, hrun, rfl⟩, fun _ => hwithin⟩
      | none =>
        rw [hgoto] at h
        cases hgosub : matchKw (bytes "GOSUB") (atStatement s).ip.rest with
        | some r =>
          rw [hgosub] at h
          have hmem : ("GOSUB", doGosub N) ∈ keywords N (execStmt N depth) := by simp [keywords]
          rw [execStmt_keyword N hmem hgosub]
          obtain ⟨⟨⟩, s₂, hset, h⟩ := bind_run_iff.mp h
          obtain ⟨-, rfl⟩ := Prod.mk.inj (Option.some.inj hset)
          obtain ⟨τ', s₃, hτ, hret⟩ := bind_run_iff.mp h
          obtain ⟨hpair, rfl⟩ := Prod.mk.inj (Option.some.inj hret)
          obtain ⟨rfl, rfl⟩ := Prod.mk.inj (Option.some.inj hpair)
          obtain ⟨c, hrun, hwithin⟩ := gotoTarget_run hτ
          exact ⟨c, doGosub_run hrun, fun _ => hwithin⟩
        | none =>
          rw [hgosub] at h
          cases hif : matchKw (bytes "IF") (atStatement s).ip.rest with
          | some r =>
            rw [hif] at h
            have hmem : ("IF", doIf N (execStmt N depth)) ∈ keywords N (execStmt N depth) := by
              simp [keywords]
            rw [execStmt_keyword N hmem hif]
            obtain ⟨⟨⟩, s₂, hset, h⟩ := bind_run_iff.mp h
            obtain ⟨-, rfl⟩ := Prod.mk.inj (Option.some.inj hset)
            exact branchAt_run (fun s kind τ s₁ hself => ih hself) h
          | none =>
            rw [hif] at h
            cases h

end Run

section Naming

variable (N : NumOps ν) {R : Interp ν → Interp ν → Prop} [Observes R]

theorem targetAt_inspects : Inspects R (targetAt N) := by
  refine skipsp_inspects.bind fun _ => peek_inspects.bind fun _ => .cond ?label ?line
  case label => exact advance_inspects.bind fun _ => rest_inspects.bind fun _ => .pure _
  case line => exact Inspects.bind ((expr_inspects N).bind fun _ => .pure _) fun _ => .pure _

theorem jumpAt_inspects (behindThen : Bool) (depth : ℕ) : Inspects R (jumpAt N behindThen depth) := by
  induction depth generalizing behindThen with
  | zero => exact .failure
  | succ depth ih =>
    have hfound (kind : JumpKind) : Inspects R
        (do return some (kind, ← targetAt N) : BasicM ν (Option (JumpKind × Target))) :=
      (targetAt_inspects N).bind fun _ => .pure _
    have hmodify : Inspects R (modify atStatement : BasicM ν PUnit) := .modify fun _ => rfl
    refine hmodify.bind fun _ => rest_inspects.bind fun t => .cond (.cond (hfound _) (.pure _)) ?_
    cases matchKw (bytes "GOTO") t with
    | some r => exact (setRest_inspects r).bind fun _ => hfound _
    | none =>
      cases matchKw (bytes "GOSUB") t with
      | some r => exact (setRest_inspects r).bind fun _ => hfound _
      | none =>
        cases matchKw (bytes "IF") t with
        | none => exact .pure _
        | some r =>
          refine (setRest_inspects r).bind fun _ => (expr_inspects N).bind fun c =>
            (kw_inspects _).bind fun _ => .cond (skipsp_inspects.bind fun _ => .cond ?_ (.pure _))
              (.pure _)
          refine peek_inspects.bind fun _ => .cond ?_ (ih true)
          exact Inspects.bind ((expr_inspects N).bind fun _ => .pure _) fun _ => .pure _

end Naming

/-- A message of an error. -/
def isMessage : Out → Bool
  | .text t => t.headD 0 == chr '?'
  | _ => false

section Run

variable {N : NumOps ν} {s s' : Interp ν}

theorem runStmt_run (h : (execStmt N (s.ip.rest.length + 1)).run { s with gGoto := -1 } = some ((), s')) :
    (runStmt N).run s = (match s'.err with
      | some m => do reportErr N m; return false
      | none =>
        if 0 ≤ s'.gGoto then jump N
        else do
          if s'.gGoto ≠ -2 then advanceLine
          return true : BasicM ν Bool).run s' := by
  have hrun : (runStmt N).run s = (execStmt N (s.ip.rest.length + 1) >>= fun _ => do
      let s ← get
      match s.err with
      | some m => do reportErr N m; return false
      | none =>
        if 0 ≤ s.gGoto then jump N
        else do
          if s.gGoto ≠ -2 then advanceLine
          return true : BasicM ν Bool).run { s with gGoto := -1 } := rfl
  rw [hrun, StateT.run_bind, h]
  rfl

theorem reportErr_run (m : String) (s : Interp ν) :
    (reportErr N m).run s = some ((), { s with out := s.out ++ [.text (bytes "?"), .text (bytes m),
      .text (bytes " in "), .text (numStr N (N.ofInt (s.prog s.pc).no)), .text (bytes "\n")] }) := by
  have hemits (o : List Out) (a b c d e : Out) :
      o ++ [a, b, c, d, e] = o ++ [a] ++ [b] ++ [c] ++ [d] ++ [e] := by simp
  rw [hemits]
  rfl

/-- An error ends the run with a message. -/
theorem runStmt_error {m : String}
    (h : (execStmt N (s.ip.rest.length + 1)).run { s with gGoto := -1 } = some ((), s'))
    (herr : s'.err = some m) :
    ∃ ts, (runStmt N).run s = some (false, { s' with out := s'.out ++ ts }) ∧
      ∃ t ∈ ts, isMessage t = true := by
  have hreport : (runStmt N).run s =
      (do reportErr N m; return false : BasicM ν Bool).run s' := by
    rw [runStmt_run h, herr]
  rw [hreport, StateT.run_bind, reportErr_run]
  exact ⟨_, rfl, _, List.mem_cons_self, by decide⟩

theorem jump_run (s : Interp ν) : (jump N).run s = (match s.findLine s.gGoto with
    | none => do
      emit (bytes "?undef'd line ")
      emit (numStr N (N.ofInt s.gGoto))
      emit (bytes "\n")
      return false
    | some idx => do
      modify fun s => { s with pc := idx, ip := s.lineStart idx }
      return true : BasicM ν Bool).run s := rfl

theorem jump_none (h : s.findLine s.gGoto = none) :
    ∃ ts, (jump N).run s = some (false, { s with out := s.out ++ ts }) ∧
      ∃ t ∈ ts, isMessage t = true := by
  have hemits (a b c : Out) : s.out ++ [a, b, c] = s.out ++ [a] ++ [b] ++ [c] := by simp
  refine ⟨[.text (bytes "?undef'd line "), .text (numStr N (N.ofInt s.gGoto)), .text (bytes "\n")],
    ?_, _, List.mem_cons_self, by decide⟩
  rw [jump_run, h, hemits]
  rfl

theorem jump_some {i : ℕ} (h : s.findLine s.gGoto = some i) :
    (jump N).run s = some (true, { s with pc := i, ip := s.lineStart i }) := by
  rw [jump_run, h]
  rfl

theorem advanceLine_run (s : Interp ν) : (advanceLine : BasicM ν Unit).run s =
    if (skipped s).ip.rest.headD 0 = chr ':' then some ((), advanced (skipped s))
    else some ((), if s.pc + 1 < s.nprog then { s with pc := s.pc + 1, ip := s.lineStart (s.pc + 1) }
      else { skipped s with pc := s.pc + 1 }) := by
  have hrun : (advanceLine : BasicM ν Unit).run s =
      (if (skipped s).ip.rest.headD 0 = chr ':' then advance
      else do
        modify fun s => { s with pc := s.pc + 1 }
        modify fun s => if s.pc < s.nprog then { s with ip := s.lineStart s.pc } else s :
          BasicM ν Unit).run (skipped s) := rfl
  rw [hrun]
  by_cases hcolon : (skipped s).ip.rest.headD 0 = chr ':'
  · rw [if_pos hcolon, if_pos hcolon]
    rfl
  · rw [if_neg hcolon, if_neg hcolon]
    rfl

theorem runStmt_noError
    (h : (execStmt N (s.ip.rest.length + 1)).run { s with gGoto := -1 } = some ((), s'))
    (herr : s'.err = none) : (runStmt N).run s = (if 0 ≤ s'.gGoto then jump N
      else do
        if s'.gGoto ≠ -2 then advanceLine
        return true : BasicM ν Bool).run s' := by
  rw [runStmt_run h, herr]

/-- A negative number is no jump. -/
theorem runStmt_goesOn
    (h : (execStmt N (s.ip.rest.length + 1)).run { s with gGoto := -1 } = some ((), s'))
    (herr : s'.err = none) (hneg : s'.gGoto < 0) : ∃ s'', (runStmt N).run s = some (true, s'') := by
  rw [runStmt_noError h herr, if_neg (not_le.mpr hneg)]
  by_cases hstay : s'.gGoto ≠ -2
  · rw [if_pos hstay, StateT.run_bind, advanceLine_run]
    split_ifs <;> exact ⟨_, rfl⟩
  · rw [if_neg hstay]
    exact ⟨s', rfl⟩

/-- Without a jump and without a colon the next line is the next statement. -/
theorem runStmt_nextLine
    (h : (execStmt N (s.ip.rest.length + 1)).run { s with gGoto := -1 } = some ((), s'))
    (herr : s'.err = none) (hgoto : s'.gGoto = -1)
    (hcolon : (skipped s').ip.rest.headD 0 ≠ chr ':') :
    ∃ s'', (runStmt N).run s = some (true, s'') ∧ s''.pc = s'.pc + 1 ∧
      (s'.pc + 1 < s'.nprog → s''.ip = s''.lineStart (s'.pc + 1)) := by
  have hneg : ¬ 0 ≤ s'.gGoto := by omega
  have hstay : s'.gGoto ≠ -2 := by omega
  rw [runStmt_noError h herr, if_neg hneg, if_pos hstay, StateT.run_bind, advanceLine_run,
    if_neg hcolon]
  refine ⟨_, rfl, ?_, fun hmore => ?_⟩
  · split_ifs <;> rfl
  · rw [if_pos hmore]
    rfl

end Run

end XinuRpi4.Basic
