import Mathlib.Data.List.DropRight
import XinuRpi4.Basic.Transparency

/-!
# Assignment to a string variable

`V$ = e` builds the text of `e` in the storage of `V$`. A term of `e` that reads `V$`
finds there the text of the terms before it. So the variable gets the value of `e`
where no term depends on the text of `V$`. The other variables keep theirs in any case.
-/

namespace XinuRpi4.Basic

open XinuRpi4.Foundation

variable {ν α β : Type}

/-- The variables and array elements that are there keep their values. -/
structure Spares (s s' : Interp ν) : Prop where
  nvar : s.nvar ≤ s'.nvar
  vval : ∀ i < s.nvar, s'.vval i = s.vval i
  vstr : ∀ i < s.nvar, s'.vstr i = s.vstr i
  varr : ∀ i < s.nvar, (s.varr i).ndim ≠ 0 → s'.varr i = s.varr i
  arrtop : s.arrtop ≤ s'.arrtop
  arrpool : ∀ i < s.arrtop, s'.arrpool i = s.arrpool i

namespace Spares

theorem refl (s : Interp ν) : Spares s s :=
  ⟨le_rfl, fun _ _ => rfl, fun _ _ => rfl, fun _ _ _ => rfl, le_rfl, fun _ _ => rfl⟩

theorem trans (s t u : Interp ν) (hst : Spares s t) (htu : Spares t u) : Spares s u where
  nvar := hst.nvar.trans htu.nvar
  vval i hi := (htu.vval i (hi.trans_le hst.nvar)).trans (hst.vval i hi)
  vstr i hi := (htu.vstr i (hi.trans_le hst.nvar)).trans (hst.vstr i hi)
  varr i hi hdim := by
    have hkept := hst.varr i hi hdim
    refine (htu.varr i (hi.trans_le hst.nvar) ?_).trans hkept
    rwa [hkept]
  arrtop := hst.arrtop.trans htu.arrtop
  arrpool i hi := (htu.arrpool i (hi.trans_le hst.arrtop)).trans (hst.arrpool i hi)

end Spares

instance : Observes (Spares : Interp ν → Interp ν → Prop) where
  refl := Spares.refl
  trans := Spares.trans
  cursor s _ _ := ⟨le_rfl, fun _ _ => rfl, fun _ _ => rfl, fun _ _ _ => rfl, le_rfl, fun _ _ => rfl⟩
  addVar N s name :=
    ⟨Nat.le_succ _, fun i hi => Function.update_of_ne hi.ne _ _,
      fun i hi => Function.update_of_ne hi.ne _ _,
      fun i hi _ => Function.update_of_ne hi.ne _ _, le_rfl, fun _ _ => rfl⟩
  draw s _ := ⟨le_rfl, fun _ _ => rfl, fun _ _ => rfl, fun _ _ _ => rfl, le_rfl, fun _ _ => rfl⟩
  autoDim s li cells hdim _ hcells := by
    refine ⟨le_rfl, fun _ _ => rfl, fun _ _ => rfl, fun i _ hi => ?_, ?_, hcells⟩
    · refine Function.update_of_ne ?_ _ _
      rintro rfl
      exact hi hdim
    · dsimp only
      omega

/-- The state with the text of a variable replaced. -/
def withText (si : ℕ) (t : Text) (s : Interp ν) : Interp ν :=
  { s with vstr := Function.update s.vstr si t }

/-- A program that finds the text `t` in the variable, which is then as before. -/
def reading (si : ℕ) (t : Text) (m : BasicM ν α) : BasicM ν α := do
  let old := (← get).vstr si
  setStr si t
  let a ← m
  setStr si old
  return a

section Assembling

variable (N : NumOps ν) (E : Evals ν) (si max : ℕ)

/-- The first term: a bracket, or a term that finds nothing in the variable. -/
def assembleFirst (assemble : BasicM ν Text) : BasicM ν Text := do
  skipsp
  if (← peek) = chr '(' then
    advance
    let s ← assemble
    skipsp
    expect ')' "expected )"
    return s
  else reading si [] (sfactor N E none max)

/-- The further terms, which find what there is so far. -/
def assembleRest : ℕ → Text → BasicM ν Text
  | 0, _ => failure
  | fuel + 1, out => do
    if (← peek) = chr '+' then
      advance
      let rhs ← reading si out (sfactor N E none svarLen)
      skipsp
      assembleRest fuel (out ++ rhs.take (max - 1 - out.length))
    else return out

def assembleAt (assemble : BasicM ν Text) : BasicM ν Text := do
  let out ← assembleFirst N E si max assemble
  skipsp
  assembleRest N E si max (← loopFuel) out

end Assembling

/-- The terms made up, for brackets up to a depth. -/
def assembles (N : NumOps ν) (si max : ℕ) : ℕ → BasicM ν Text
  | 0 => failure
  | depth + 1 => assembleAt N (evals N depth) si max (assembles N si max depth)

/-- The text that the terms of the expression at the cursor make up, where each finds in the
variable the text of those before it. The variable keeps its text. -/
def assembled (N : NumOps ν) (si max : ℕ) : BasicM ν Text := do
  let n ← loopFuel
  assembles N si max n

section InPlace

variable (N : NumOps ν) (E : Evals ν) {si max : ℕ} {m m₀ : BasicM ν Text}

/-- The result of `m₀` is stored in the variable. -/
def Stores (si : ℕ) (m m₀ : BasicM ν Text) : Prop :=
  ∀ s, m.run s = (m₀.run s).map fun r => (r.1, withText si r.1 r.2)

theorem Stores.bind {p : BasicM ν α} {f f₀ : α → BasicM ν Text} (h : ∀ a, Stores si (f a) (f₀ a)) :
    Stores si (p >>= f) (p >>= f₀) := by
  intro s
  rw [StateT.run_bind, StateT.run_bind]
  refine Eq.trans ?_ (Option.map_bind ..).symm
  exact congrArg _ (funext fun r => h r.1 r.2)

theorem Stores.cond {c : Prop} [Decidable c] {m' m₀' : BasicM ν Text} (h : c → Stores si m m₀)
    (h' : ¬ c → Stores si m' m₀') : Stores si (if c then m else m') (if c then m₀ else m₀') := by
  split_ifs with hc
  · exact h hc
  · exact h' hc

theorem Stores.put (t : Text) : Stores si (do putStr (some si) t; return t : BasicM ν Text)
    (do putStr none t; return t) := fun _ => rfl

theorem finish_stores (t : Text) : Stores si (finish (some si) max t : BasicM ν Text)
    (finish none max t) := fun _ => rfl

theorem midString_stores : Stores si (midString N E (some si) max) (midString N E none max) :=
  .bind fun _ => .bind fun _ => .bind fun _ => .bind fun _ => .bind fun _ => .bind fun _ =>
    .bind fun _ => .bind fun _ => .bind fun _ => finish_stores _

theorem leftString_stores : Stores si (leftString N E (some si) max) (leftString N E none max) :=
  .bind fun _ => .bind fun _ => .bind fun _ => .bind fun _ => .bind fun _ => .bind fun _ =>
    .bind fun _ => .bind fun _ => finish_stores _

theorem rightString_stores : Stores si (rightString N E (some si) max) (rightString N E none max) :=
  .bind fun _ => .bind fun _ => .bind fun _ => .bind fun _ => .bind fun _ => .bind fun _ =>
    .bind fun _ => .bind fun _ => finish_stores _

theorem stringVar_stores : Stores si (stringVar N (some si) max) (stringVar N none max) := by
  refine .bind fun _ => .bind fun slot => ?_
  cases slot with
  | some _ => exact .bind fun _ => finish_stores _
  | none => exact .bind fun _ => .bind fun _ => finish_stores _

theorem literal_stores : Stores si (literal (some si) max : BasicM ν Text) (literal none max) :=
  .bind fun _ => .bind fun _ => .bind fun _ => .put _

/-- A term that is neither a literal nor in brackets. -/
def namedString (dst : Option ℕ) (max : ℕ) : BasicM ν Text := do
  if ← kw "MID$" then midString N E dst max
  else if ← kw "LEFT$" then leftString N E dst max
  else if ← kw "RIGHT$" then rightString N E dst max
  else if ← kw "CHR$" then
    let c := UInt8.ofNat ((N.toInt (← parenNum E)) % 256).toNat
    let s := if c = 0 then [] else [c]
    putStr dst s
    return s
  else if ← kw "STR$" then
    let v ← parenNum E
    putStr dst (numStr N v)
    return numStr N v
  else stringVar N dst max

theorem namedString_stores : Stores si (namedString N E (some si) max) (namedString N E none max) := by
  refine .bind fun mid => .cond (fun _ => midString_stores N E) fun _ => ?_
  refine .bind fun left => .cond (fun _ => leftString_stores N E) fun _ => ?_
  refine .bind fun right => .cond (fun _ => rightString_stores N E) fun _ => ?_
  refine .bind fun chr => .cond (fun _ => .bind fun _ => .put _) fun _ => ?_
  exact .bind fun str => .cond (fun _ => .bind fun _ => .put _) fun _ => stringVar_stores N

/-- `sfactor` behind the clearing of its buffer. -/
def sfactorBody (dst : Option ℕ) (max : ℕ) : BasicM ν Text := do
  let c ← peek
  if c = chr '"' then literal dst max
  else if c = chr '(' then
    advance
    let s ← E.seval dst max
    skipsp
    expect ')' "expected )"
    return s
  else namedString N E dst max

theorem sfactorBody_run {s : Interp ν} (hparen : s.ip.rest.headD 0 ≠ chr '(') :
    (sfactorBody N E (some si) max).run s =
      ((sfactorBody N E none max).run s).map fun r => (r.1, withText si r.1 r.2) := by
  have hbody : ∀ dst : Option ℕ, (sfactorBody N E dst max).run s =
      (if s.ip.rest.headD 0 = chr '"' then literal dst max else namedString N E dst max).run s := by
    intro dst
    change (if s.ip.rest.headD 0 = chr '"' then literal dst max
      else if s.ip.rest.headD 0 = chr '(' then _ else namedString N E dst max).run s = _
    rw [if_neg hparen]
  rw [hbody, hbody]
  exact Stores.cond (fun _ => literal_stores) (fun _ => namedString_stores N E) s

end InPlace

section Runs

variable (N : NumOps ν) (E : Evals ν) {si max : ℕ} {old : Text} {s : Interp ν}

theorem withText_self (hs : s.vstr si = old) : withText si old s = s := by
  rw [withText, ← hs, Function.update_eq_self]

@[simp] theorem withText_withText (t u : Text) : withText si t (withText si u s) = withText si t s := by
  simp [withText]

@[simp] theorem withText_vstr (t : Text) : (withText si t s).vstr si = t := Function.update_self ..

theorem reading_run (t : Text) (m : BasicM ν α) :
    (reading si t m).run s =
      (m.run (withText si t s)).map fun r => (r.1, withText si (s.vstr si) r.2) :=
  (Option.map_eq_bind ..).symm

/-- The run `o'` that keeps the text `old` of the variable goes with the run `o` in place. -/
def Follows (si : ℕ) (old : Text) (o o' : Option (α × Interp ν)) : Prop :=
  o' = o.map fun r => (r.1, withText si old r.2)

theorem Follows.bind {m m' : BasicM ν α} {f f' : α → BasicM ν β} {s s' : Interp ν}
    (hm : Follows si old (m.run s) (m'.run s'))
    (hf : ∀ a u, m.run s = some (a, u) → Follows si old ((f a).run u) ((f' a).run (withText si old u))) :
    Follows si old ((m >>= f).run s) ((m' >>= f').run s') := by
  rw [Follows, StateT.run_bind, StateT.run_bind, hm]
  cases hrun : m.run s with
  | none => rfl
  | some r => exact hf r.1 r.2 hrun

theorem Follows.pure (a : α) :
    Follows si old ((Pure.pure a : BasicM ν α).run s) ((Pure.pure a : BasicM ν α).run (withText si old s)) :=
  rfl

theorem expect_follows (c : Char) (m : String) :
    Follows si old ((expect c m : BasicM ν Unit).run s) ((expect c m).run (withText si old s)) := by
  change _ = ((if s.ip.rest.headD 0 = chr c then advance else berr m : BasicM ν Unit).run s).map _
  change (if s.ip.rest.headD 0 = chr c then advance else berr m : BasicM ν Unit).run _ = _
  split_ifs <;> rfl

/-- In place the text returned is the text of the variable. -/
def InPlace (si : ℕ) (m m' : BasicM ν Text) : Prop :=
  ∀ old s, Follows si old (m.run s) (m'.run (withText si old s)) ∧
    ∀ t u, m.run s = some (t, u) → u.vstr si = t

theorem expect_vstr {c : Char} {m : String} {a : Unit} {u : Interp ν}
    (h : (expect c m).run s = some (a, u)) : u.vstr = s.vstr := by
  change (if s.ip.rest.headD 0 = chr c then advance else berr m : BasicM ν Unit).run s = _ at h
  split_ifs at h
  · obtain ⟨-, rfl⟩ := Prod.mk.inj (Option.some.inj h)
    rfl
  · obtain ⟨-, rfl⟩ := Prod.mk.inj (Option.some.inj h)
    rfl

variable {assemble : BasicM ν Text}

/-- The cursor behind the blanks. -/
def skipped (s : Interp ν) : Interp ν :=
  { s with ip := { s.ip with rest := s.ip.rest.dropWhile isBlank } }

/-- The cursor one character further. -/
def advanced (s : Interp ν) : Interp ν := { s with ip := { s.ip with rest := s.ip.rest.tail } }

theorem skipped_skipped (s : Interp ν) : skipped (skipped s) = skipped s := by
  simp only [skipped, List.dropWhile_idempotent]

theorem sfactor_run (dst : Option ℕ) : (sfactor N E dst max).run s =
    (do putStr dst []; sfactorBody N E dst max : BasicM ν Text).run (skipped s) := rfl

theorem assembleFirst_run : (assembleFirst N E si max assemble).run s =
    (if (skipped s).ip.rest.headD 0 = chr '(' then
      (do advance; let t ← assemble; skipsp; expect ')' "expected )"; return t : BasicM ν Text)
    else reading si [] (sfactor N E none max)).run (skipped s) := rfl

theorem assembleFirst_inPlace (h : InPlace si (E.seval (some si) max) assemble) :
    InPlace si (sfactor N E (some si) max) (assembleFirst N E si max assemble) := by
  intro old s
  have hrun : (sfactor N E (some si) max).run s =
      (sfactorBody N E (some si) max).run (withText si [] (skipped s)) := rfl
  have hsame : (assembleFirst N E si max assemble).run (withText si old s) =
      (if (skipped s).ip.rest.headD 0 = chr '(' then
        (do advance; let t ← assemble; skipsp; expect ')' "expected )"; return t : BasicM ν Text)
      else reading si [] (sfactor N E none max)).run (withText si old (skipped s)) := rfl
  have hbody : (sfactor N E none max).run (withText si [] (skipped s)) =
      (sfactorBody N E none max).run (withText si [] (skipped s)) := by
    rw [sfactor_run]
    exact congrArg (StateT.run (sfactorBody N E none max)) (congrArg (withText si []) (skipped_skipped s))
  rw [hrun, hsame]
  by_cases hparen : (skipped s).ip.rest.headD 0 = chr '('
  · rw [if_pos hparen]
    have hin : (sfactorBody N E (some si) max).run (withText si [] (skipped s)) =
        (do let t ← E.seval (some si) max; skipsp; expect ')' "expected )"; return t : BasicM ν Text).run
          (advanced (withText si [] (skipped s))) := by
      change (if (skipped s).ip.rest.headD 0 = chr '"' then literal (some si) max
        else if (skipped s).ip.rest.headD 0 = chr '(' then _ else _ : BasicM ν Text).run _ = _
      rw [hparen, if_neg (by decide), if_pos rfl]
      rfl
    have hstate : advanced (withText si old (skipped s)) =
        withText si old (advanced (withText si [] (skipped s))) := by
      simp [advanced, withText]
    have hout : (do advance; let t ← assemble; skipsp; expect ')' "expected )"; return t : BasicM ν Text).run
        (withText si old (skipped s)) =
          (do let t ← assemble; skipsp; expect ')' "expected )"; return t : BasicM ν Text).run
            (withText si old (advanced (withText si [] (skipped s)))) := by
      rw [← hstate]
      rfl
    rw [hin, hout]
    obtain ⟨hfollows, hstored⟩ := h old (advanced (withText si [] (skipped s)))
    refine ⟨hfollows.bind fun t u _ => ?_, ?_⟩
    · exact Follows.bind (s := skipped u) (expect_follows _ _) fun _ u' _ => Follows.pure t
    · intro t u hu
      obtain ⟨t', u₁, hseval, hu⟩ := bind_run_iff.mp hu
      obtain ⟨_, u₂, hskip, hu⟩ := bind_run_iff.mp hu
      obtain ⟨_, rfl⟩ := Prod.mk.inj (Option.some.inj hskip)
      obtain ⟨_, u₃, hexpect, hu⟩ := bind_run_iff.mp hu
      obtain ⟨rfl, rfl⟩ := Prod.mk.inj (Option.some.inj hu)
      rw [expect_vstr hexpect]
      have hbracket := hstored _ _ hseval
      exact hbracket
  · have hother : (withText si [] (skipped s)).ip.rest.headD 0 ≠ chr '(' := hparen
    rw [if_neg hparen, sfactorBody_run N E hother, reading_run, withText_withText, withText_vstr, hbody]
    refine ⟨?_, ?_⟩
    · rw [Follows, Option.map_map]
      exact congrArg (Option.map · _) (funext fun r => by simp)
    · intro t u hu
      obtain ⟨r, -, hr⟩ := Option.map_eq_some_iff.mp hu
      obtain ⟨rfl, rfl⟩ := Prod.mk.inj hr
      exact withText_vstr _

/-- One turn: the next term finds the text so far, which grows by it. -/
theorem assembleRest_inPlace (old : Text) {fuel : ℕ} {out : Text} (hout : s.vstr si = out) :
    Follows si old ((sevalLoop N E (some si) max fuel out).run s)
        ((assembleRest N E si max fuel out).run (withText si old s)) ∧
      ∀ t u, (sevalLoop N E (some si) max fuel out).run s = some (t, u) → u.vstr si = t := by
  induction fuel generalizing s out with
  | zero => exact ⟨rfl, fun _ _ hu => by cases hu⟩
  | succ fuel ih =>
    have hloop : (sevalLoop N E (some si) max (fuel + 1) out).run s =
        (if s.ip.rest.headD 0 = chr '+' then (do
            let rhs ← sfactor N E none svarLen
            let out := out ++ rhs.take (max - 1 - out.length)
            putStr (some si) out
            skipsp
            sevalLoop N E (some si) max fuel out : BasicM ν Text).run (advanced s)
          else (return out : BasicM ν Text).run s) := by
      change (if s.ip.rest.headD 0 = chr '+' then _ else _ : BasicM ν Text).run s = _
      split_ifs <;> rfl
    have hrest : (assembleRest N E si max (fuel + 1) out).run (withText si old s) =
        (if s.ip.rest.headD 0 = chr '+' then (do
            let rhs ← reading si out (sfactor N E none svarLen)
            skipsp
            assembleRest N E si max fuel (out ++ rhs.take (max - 1 - out.length)) :
              BasicM ν Text).run (withText si old (advanced s))
          else (return out : BasicM ν Text).run (withText si old s)) := by
      change (if s.ip.rest.headD 0 = chr '+' then _ else _ : BasicM ν Text).run _ = _
      split_ifs <;> rfl
    rw [hloop, hrest]
    split_ifs with hplus
    · have hfound : (advanced s).vstr si = out := hout
      have hread : Follows si old ((sfactor N E none svarLen).run (advanced s))
          ((reading si out (sfactor N E none svarLen)).run (withText si old (advanced s))) := by
        rw [Follows, reading_run, withText_withText, withText_vstr, withText_self hfound]
      have hstate : ∀ (t : Text) (u : Interp ν),
          skipped (withText si old u) = withText si old (skipped (withText si t u)) := by
        simp [skipped, withText]
      refine ⟨hread.bind fun rhs u _ => ?_, fun t u hu => ?_⟩
      · have hnext := (ih (s := skipped (withText si (out ++ rhs.take (max - 1 - out.length)) u))
          (withText_vstr _)).1
        rw [← hstate] at hnext
        exact hnext
      · obtain ⟨rhs, u₁, -, hu⟩ := bind_run_iff.mp hu
        exact (ih (s := skipped (withText si (out ++ rhs.take (max - 1 - out.length)) u₁))
          (withText_vstr _)).2 t u hu
    · refine ⟨rfl, fun t u hu => ?_⟩
      obtain ⟨rfl, rfl⟩ := Prod.mk.inj (Option.some.inj hu)
      exact hout

theorem assembleAt_inPlace (h : InPlace si (E.seval (some si) max) assemble) :
    InPlace si (sevalAt N E (some si) max) (assembleAt N E si max assemble) := by
  intro old s
  obtain ⟨hfirst, hstored⟩ := assembleFirst_inPlace N E h old s
  refine ⟨hfirst.bind fun out u hu => ?_, fun t u hu => ?_⟩
  · exact (assembleRest_inPlace N E old (s := skipped u) (hstored out u hu)).1
  · obtain ⟨out, u₁, hu₁, hu⟩ := bind_run_iff.mp hu
    exact (assembleRest_inPlace N E old (s := skipped u₁) (hstored out u₁ hu₁)).2 t u hu

/-- By induction on the depth of the brackets. -/
theorem assembles_inPlace (depth : ℕ) :
    InPlace si ((evals N depth).seval (some si) max) (assembles N si max depth) := by
  induction depth with
  | zero => exact fun _ _ => ⟨rfl, fun _ _ hu => by cases hu⟩
  | succ depth ih => exact assembleAt_inPlace N (evals N depth) ih

theorem loopFuel_bind_run (f : ℕ → BasicM ν α) (s : Interp ν) :
    (loopFuel >>= f).run s = (f (s.ip.rest.length + 1)).run s := rfl

theorem assembled_inPlace : InPlace si (seval N (some si) max) (assembled N si max) := by
  intro old s
  rw [seval, assembled, loopFuel_bind_run, loopFuel_bind_run]
  exact assembles_inPlace N (s.ip.rest.length + 1) old s

/-- The others are spared whatever the variable reads. -/
theorem reading_spares {m : BasicM ν α} (hm : Inspects Spares m) (t : Text) :
    Inspects Spares (reading si t m) := by
  intro s a s' h
  rw [reading_run] at h
  obtain ⟨r, hr, h⟩ := Option.map_eq_some_iff.mp h
  obtain ⟨rfl, rfl⟩ := Prod.mk.inj h
  obtain ⟨hnvar, hvval, hvstr, hvarr, harrtop, harrpool⟩ := hm _ _ _ hr
  refine ⟨hnvar, hvval, fun i hi => ?_, hvarr, harrtop, harrpool⟩
  by_cases hsi : i = si
  · subst hsi
    exact withText_vstr _
  · have hkept := hvstr i hi
    simp only [withText, Function.update_of_ne hsi] at hkept ⊢
    exact hkept

theorem assembles_spares (depth : ℕ) : Inspects Spares (assembles N si max depth) := by
  induction depth with
  | zero => exact .failure
  | succ depth ih =>
    have hE : (evals N depth).Inspect Spares := evals_inspect N depth
    have hrest : ∀ fuel out, Inspects Spares (assembleRest N (evals N depth) si max fuel out) := by
      intro fuel
      induction fuel with
      | zero => exact fun _ => .failure
      | succ fuel ihf =>
        exact fun out => peek_inspects.bind fun _ => .cond (advance_inspects.bind fun _ =>
          (reading_spares (sfactor_inspects N hE _) out).bind fun _ => skipsp_inspects.bind fun _ =>
            ihf _) (.pure _)
    have hfirst : Inspects Spares (assembleFirst N (evals N depth) si max (assembles N si max depth)) :=
      skipsp_inspects.bind fun _ => peek_inspects.bind fun _ => .cond
        (advance_inspects.bind fun _ => ih.bind fun _ => skipsp_inspects.bind fun _ =>
          (expect_inspects _ _).bind fun _ => .pure _)
        (reading_spares (sfactor_inspects N hE _) _)
    exact hfirst.bind fun out => skipsp_inspects.bind fun _ => loopFuel_inspects.bind fun fuel =>
      hrest fuel out

theorem assembled_spares : Inspects Spares (assembled N si max) :=
  loopFuel_inspects.bind fun n => assembles_spares N n

end Runs

/-- The result and the effect of `m` are the same whatever text the variable holds. -/
def Blind (si : ℕ) (m : BasicM ν α) (s : Interp ν) : Prop :=
  ∀ t, m.run (withText si t s) = (m.run s).map fun r => (r.1, withText si t r.2)

section Free

variable (N : NumOps ν) (E : Evals ν) {si max : ℕ} {s : Interp ν}

/-- Another text makes no difference, and the own one is put back. -/
theorem Blind.reading_run {m : BasicM ν α} (h : Blind si m s) (t : Text) :
    (reading si t m).run s = m.run s := by
  have hown := h (s.vstr si)
  rw [withText_self rfl] at hown
  rw [XinuRpi4.Basic.reading_run, h t, Option.map_map]
  conv_rhs => rw [hown]
  congr 1
  funext r
  exact Prod.ext rfl (withText_withText _ _)

/-- One result and one effect, whatever the text. -/
theorem Blind.of_run {m : BasicM ν α} {a : α} {s' : Interp ν} (hown : s'.vstr si = s.vstr si)
    (h : ∀ t, m.run (withText si t s) = some (a, withText si t s')) :
    Blind si m s ∧ m.run s = some (a, s') := by
  have hrun := h (s.vstr si)
  rw [withText_self rfl, ← hown, withText_self rfl] at hrun
  exact ⟨fun t => by rw [h t, hrun]; rfl, hrun⟩

variable (si max)

/-- A first term in brackets is an expression of its own. -/
def FirstFree (inner : Interp ν → Prop) (s : Interp ν) : Prop :=
  if (skipped s).ip.rest.headD 0 = chr '(' then inner (advanced (skipped s))
  else Blind si (sfactor N E none max) (skipped s)

/-- The terms behind each further `+`. -/
def RestFree : ℕ → Interp ν → Prop
  | 0, _ => True
  | fuel + 1, s => s.ip.rest.headD 0 = chr '+' →
    Blind si (sfactor N E none svarLen) (advanced s) ∧
      ∀ rhs u, (sfactor N E none svarLen).run (advanced s) = some (rhs, u) →
        RestFree fuel (skipped u)

/-- For brackets up to a depth. -/
def FreeWithin : ℕ → Interp ν → Prop
  | 0, _ => True
  | depth + 1, s =>
    FirstFree N (evals N depth) si max (FreeWithin depth) s ∧
      ∀ out u, (sfactor N (evals N depth) none max).run s = some (out, u) →
        RestFree N (evals N depth) si ((skipped u).ip.rest.length + 1) (skipped u)

/-- No term of the expression at the cursor depends on the text of the variable. -/
def TermsFree (s : Interp ν) : Prop := FreeWithin N si svarLen (s.ip.rest.length + 1) s

variable {N E si max}

theorem FirstFree.run_eq {inner : Interp ν → Prop} {assemble : BasicM ν Text}
    (h : FirstFree N E si max inner s)
    (hinner : ∀ s, inner s → assemble.run s = (E.seval none max).run s) :
    (assembleFirst N E si max assemble).run s = (sfactor N E none max).run s := by
  have hskip : (sfactor N E none max).run (skipped s) = (sfactor N E none max).run s := by
    rw [sfactor_run, sfactor_run, skipped_skipped]
  rw [assembleFirst_run, ← hskip]
  unfold FirstFree at h
  split_ifs at h ⊢ with hparen
  · have hout : (sfactor N E none max).run (skipped s) =
        (do let t ← E.seval none max; skipsp; expect ')' "expected )"; return t : BasicM ν Text).run
          (advanced (skipped s)) := by
      rw [sfactor_run, skipped_skipped]
      change (if (skipped s).ip.rest.headD 0 = chr '"' then literal none max
        else if (skipped s).ip.rest.headD 0 = chr '(' then _ else _ : BasicM ν Text).run _ = _
      rw [hparen, if_neg (by decide), if_pos rfl]
      rfl
    have hin : (do advance; let t ← assemble; skipsp; expect ')' "expected )"; return t : BasicM ν Text).run
        (skipped s) = (do let t ← assemble; skipsp; expect ')' "expected )"; return t : BasicM ν Text).run
          (advanced (skipped s)) := rfl
    rw [hout, hin, StateT.run_bind, StateT.run_bind, hinner _ h]
  · exact h.reading_run []

theorem RestFree.run_eq {fuel : ℕ} {out : Text} (h : RestFree N E si fuel s) :
    (assembleRest N E si max fuel out).run s = (sevalLoop N E none max fuel out).run s := by
  induction fuel generalizing s out with
  | zero => rfl
  | succ fuel ih =>
    have hrest : (assembleRest N E si max (fuel + 1) out).run s =
        (if s.ip.rest.headD 0 = chr '+' then (do
            let rhs ← reading si out (sfactor N E none svarLen)
            skipsp
            assembleRest N E si max fuel (out ++ rhs.take (max - 1 - out.length)) :
              BasicM ν Text).run (advanced s)
          else (return out : BasicM ν Text).run s) := by
      change (if s.ip.rest.headD 0 = chr '+' then _ else _ : BasicM ν Text).run _ = _
      split_ifs <;> rfl
    have hloop : (sevalLoop N E none max (fuel + 1) out).run s =
        (if s.ip.rest.headD 0 = chr '+' then (do
            let rhs ← sfactor N E none svarLen
            skipsp
            sevalLoop N E none max fuel (out ++ rhs.take (max - 1 - out.length)) :
              BasicM ν Text).run (advanced s)
          else (return out : BasicM ν Text).run s) := by
      change (if s.ip.rest.headD 0 = chr '+' then _ else _ : BasicM ν Text).run _ = _
      split_ifs <;> rfl
    rw [hrest, hloop]
    split_ifs with hplus
    · obtain ⟨hblind, hnext⟩ := h hplus
      rw [StateT.run_bind, StateT.run_bind, hblind.reading_run]
      exact Option.bind_congr fun r hr => ih (hnext r.1 r.2 hr)
    · rfl

/-- By induction on the depth of the brackets. -/
theorem FreeWithin.run_eq {depth : ℕ} (h : FreeWithin N si max depth s) :
    (assembles N si max depth).run s = ((evals N depth).seval none max).run s := by
  induction depth generalizing s with
  | zero => rfl
  | succ depth ih =>
    obtain ⟨hfirst, hrest⟩ := h
    have hterm := hfirst.run_eq fun s hs => ih hs
    change (assembleAt N (evals N depth) si max (assembles N si max depth)).run s =
      (sevalAt N (evals N depth) none max).run s
    rw [assembleAt, sevalAt, StateT.run_bind, StateT.run_bind, hterm]
    refine Option.bind_congr fun r hr => ?_
    have hfurther : (assembleRest N (evals N depth) si max ((skipped r.2).ip.rest.length + 1) r.1).run
        (skipped r.2) = (sevalLoop N (evals N depth) none max
          ((skipped r.2).ip.rest.length + 1) r.1).run (skipped r.2) := (hrest r.1 r.2 hr).run_eq
    exact hfurther

/-- The terms then make up the value of the expression. -/
theorem TermsFree.assembled_run (h : TermsFree N si s) :
    (assembled N si svarLen).run s = (seval N none svarLen).run s := by
  rw [assembled, seval, loopFuel_bind_run, loopFuel_bind_run]
  exact FreeWithin.run_eq h

end Free

section Statement

variable (N : NumOps ν) {s u : Interp ν} {si : ℕ}

/-- The words that a statement can begin with, in the order they are tried. -/
def statementWords : List String := "REM" :: (keywords N (return ())).map Prod.fst

/-- Behind the blanks and colons in front of a statement. -/
def atStatement (s : Interp ν) : Interp ν :=
  { s with ip := { s.ip with rest := s.ip.rest.dropWhile fun c => isBlank c || c == chr ':' } }

/-- The statement at the cursor is `V$ = e`, with `V$` in the slot `si`; in the state `u` the
cursor is in front of `e`. -/
structure StringLet (s : Interp ν) (si : ℕ) (u : Interp ν) : Prop where
  head : (atStatement s).ip.rest.headD 0 ∉ [0, chr '*', chr '?']
  words : ∀ k ∈ statementWords N, matchKw (bytes k) (atStatement s).ip.rest = none
  target : ∃ v, (do let _ ← kw "LET"; svaridx N : BasicM ν (Option ℕ)).run (atStatement s) =
    some (some si, v) ∧ (skipped v).ip.rest.headD 0 = chr '=' ∧ u = advanced (skipped v)

/-- All values but the text of the variable are as before. -/
structure OthersKept (si : ℕ) (s s' : Interp ν) : Prop where
  text : ∀ i < s.nvar, i ≠ si → s'.vstr i = s.vstr i
  number : ∀ i < s.nvar, s'.vval i = s.vval i
  array : ∀ i < s.nvar, (s.varr i).ndim ≠ 0 → s'.varr i = s.varr i
  cell : ∀ i < s.arrtop, s'.arrpool i = s.arrpool i

theorem kw_run (k : String) (s : Interp ν) :
    (kw k).run s = (match matchKw (bytes k) (skipped s).ip.rest with
      | none => return false
      | some t => do setRest t; return true : BasicM ν Bool).run (skipped s) := rfl

theorem kw_absent {k : String} (hblank : skipped s = s) (h : matchKw (bytes k) s.ip.rest = none) :
    (kw k).run s = some (false, s) := by
  rw [kw_run, hblank, h]
  rfl

theorem dispatch_absent (hblank : skipped s = s) (other : BasicM ν Unit)
    {ks : List (String × BasicM ν Unit)} (h : ∀ km ∈ ks, matchKw (bytes km.1) s.ip.rest = none) :
    (dispatch ks other).run s = other.run s := by
  induction ks with
  | nil => rfl
  | cons km ks ih =>
    rw [dispatch, StateT.run_bind, kw_absent hblank (h km List.mem_cons_self)]
    exact ih fun km' hkm' => h km' (List.mem_cons_of_mem _ hkm')

theorem skipped_atStatement (s : Interp ν) : skipped (atStatement s) = atStatement s := by
  have hdrop : ((atStatement s).ip.rest).dropWhile isBlank = (atStatement s).ip.rest := by
    rw [List.dropWhile_eq_self_iff]
    intro hpos hblank
    have hne : (atStatement s).ip.rest ≠ [] := List.ne_nil_of_length_pos hpos
    have hhead := List.head_dropWhile_not (fun c => isBlank c || c == chr ':') hne
    rw [← List.head_eq_getElem hne] at hblank
    simp only [Bool.or_eq_false_iff] at hhead
    exact absurd hblank (by rw [Bool.not_eq_true]; exact hhead.1)
  rw [skipped, hdrop]

/-- Only an assignment is left where no word fits. -/
theorem execStmt_assign (hhead : (atStatement s).ip.rest.headD 0 ∉ [0, chr '*', chr '?'])
    (hwords : ∀ k ∈ statementWords N, matchKw (bytes k) (atStatement s).ip.rest = none)
    (depth : ℕ) : (execStmt N (depth + 1)).run s = (assign N).run (atStatement s) := by
  have hrun : (execStmt N (depth + 1)).run s =
      (if (atStatement s).ip.rest.headD 0 = 0 then return ()
        else if (atStatement s).ip.rest.headD 0 = chr '*' then setRest []
        else do
          if ← kw "REM" then setRest []
          else if (atStatement s).ip.rest.headD 0 = chr '?' then
            advance
            doPrint N
          else dispatch (keywords N (execStmt N depth)) (assign N) : BasicM ν Unit).run
        (atStatement s) := rfl
  simp only [List.mem_cons, List.not_mem_nil, or_false, not_or] at hhead
  have hrem := kw_absent (skipped_atStatement s) (hwords "REM" List.mem_cons_self)
  rw [hrun, if_neg hhead.1, if_neg hhead.2.1, StateT.run_bind, hrem]
  have hdispatch : (dispatch (keywords N (execStmt N depth)) (assign N)).run (atStatement s) =
      (assign N).run (atStatement s) := by
    refine dispatch_absent (skipped_atStatement s) _ fun km hkm => hwords km.1 ?_
    have hname : km.1 ∈ (keywords N (execStmt N depth)).map Prod.fst := List.mem_map_of_mem hkm
    exact List.mem_cons_of_mem _ hname
  rw [← hdispatch]
  exact congrArg (StateT.run · (atStatement s)) (if_neg hhead.2.2)

theorem assignString_run (s : Interp ν) :
    (assignString N).run s = ((svaridx N).run s).bind fun r =>
      (match r.1 with
        | some si =>
          if (skipped r.2).ip.rest.headD 0 = chr '=' then do
            advance
            let _ ← seval N (some si) svarLen
            return true
          else do
            setIp s.ip
            return false
        | none => do
          setIp s.ip
          return false : BasicM ν Bool).run (skipped r.2) := rfl

/-- The statement evaluates its expression into the variable. -/
theorem StringLet.execStmt_run (h : StringLet N s si u) (depth : ℕ) :
    (execStmt N (depth + 1)).run s =
      ((seval N (some si) svarLen).run u).map fun r => ((), r.2) := by
  obtain ⟨hhead, hwords, v, htarget, hequals, rfl⟩ := h
  rw [execStmt_assign N hhead hwords]
  obtain ⟨b, s₁, hlet, hname⟩ := bind_run_iff.mp htarget
  have hassign : (assignString N).run s₁ =
      ((seval N (some si) svarLen).run (advanced (skipped v))).map fun r => (true, r.2) := by
    rw [assignString_run, hname, Option.bind_some]
    dsimp only
    rw [if_pos hequals]
    exact (Option.map_eq_bind ..).symm
  rw [assign, StateT.run_bind, hlet]
  simp only [Option.bind_eq_bind, Option.bind_some]
  rw [StateT.run_bind, hassign]
  cases (seval N (some si) svarLen).run (advanced (skipped v)) with
  | none => rfl
  | some r => rfl

theorem StringLet.spares (h : StringLet N s si u) : Spares s u := by
  obtain ⟨-, -, v, htarget, -, rfl⟩ := h
  have hname : Spares (atStatement s) v :=
    ((kw_inspects "LET").bind fun _ => svaridx_inspects N) _ _ _ htarget
  have hfront : Spares s (atStatement s) := Observes.cursor s _ s.err
  have hbehind : Spares v (advanced (skipped v)) := Observes.cursor v _ v.err
  exact (hfront.trans _ _ _ hname).trans _ _ _ hbehind

/-- The assignment leaves what the terms of `e` make up when each finds in the variable the text
of the terms before it. -/
theorem StringLet.run_assembled (h : StringLet N s si u) (depth : ℕ) :
    ∃ o, (execStmt N (depth + 1)).run s = o.map (fun r => ((), r.2)) ∧
      (assembled N si svarLen).run u = o.map (fun r => (r.1, withText si (u.vstr si) r.2)) ∧
      ∀ t s', o = some (t, s') → s'.vstr si = t := by
  have hinPlace : InPlace si (seval N (some si) svarLen) (assembled N si svarLen) :=
    assembled_inPlace N
  obtain ⟨hfollows, hstored⟩ := hinPlace (u.vstr si) u
  rw [withText_self rfl, Follows] at hfollows
  exact ⟨_, h.execStmt_run N depth, hfollows, hstored⟩

theorem StringLet.others_kept (h : StringLet N s si u) {depth : ℕ} {s' : Interp ν}
    (hrun : (execStmt N (depth + 1)).run s = some ((), s')) : OthersKept si s s' := by
  obtain ⟨o, hexec, hmade, -⟩ := h.run_assembled N depth
  rw [hrun] at hexec
  obtain ⟨⟨t, s''⟩, rfl, hs'⟩ := Option.map_eq_some_iff.mp hexec.symm
  obtain ⟨-, rfl⟩ := Prod.mk.inj hs'
  have hall := (h.spares N).trans _ _ _ (assembled_spares N _ _ _ hmade)
  refine ⟨fun i hi hsi => ?_, hall.vval, hall.varr, hall.arrpool⟩
  have hkept := hall.vstr i hi
  simp only [withText, Function.update_of_ne hsi] at hkept
  exact hkept

/-- Where `e` has a value and no term of it depends on the text of the variable, the assignment
gives the variable that value. The others are kept whatever the terms depend on. -/
theorem stringLet_stores (h : StringLet N s si u) {v : Text} {w : Interp ν}
    (hvalue : (seval N none svarLen).run u = some (v, w)) (depth : ℕ) :
    (TermsFree N si u →
      ∃ s', (execStmt N (depth + 1)).run s = some ((), s') ∧ s'.vstr si = v ∧ OthersKept si s s') ∧
    ∀ s', (execStmt N (depth + 1)).run s = some ((), s') → OthersKept si s s' := by
  refine ⟨fun hfree => ?_, fun s' hrun => h.others_kept N hrun⟩
  obtain ⟨o, hexec, hmade, hstored⟩ := h.run_assembled N depth
  rw [hfree.assembled_run, hvalue] at hmade
  obtain ⟨⟨t, s'⟩, rfl, hw⟩ := Option.map_eq_some_iff.mp hmade.symm
  obtain ⟨rfl, -⟩ := Prod.mk.inj hw
  exact ⟨s', hexec, hstored _ _ rfl, h.others_kept N hexec⟩

end Statement

/-- `A$` is `x` and `B$` is `b`, and the cursor is in front of `t`. -/
def twoTexts (t : Text) : Interp ℚ :=
  { basicInit ratOps with
    nvar := 2
    vname := fun i => bytes (["A$", "B$"].getD i "")
    vstr := fun i => bytes (["x", "b"].getD i "")
    ip := ⟨none, t⟩ }

/-- `A$=` and the expression -/
def letA (e : Text) : Interp ℚ := twoTexts (bytes "A$=" ++ e)

theorem letA_stringLet {e : Text} (hwords : ∀ k ∈ statementWords ratOps,
    matchKw (bytes k) (bytes "A$=" ++ e) = none) : StringLet ratOps (letA e) 0 (twoTexts e) := by
  refine ⟨?_, hwords, _, rfl, rfl, rfl⟩
  change chr 'A' ∉ [0, chr '*', chr '?']
  decide

/-- A term that reads the other variable. -/
theorem other_blind (E : Evals ℚ) (t : Text) :
    Blind 0 (sfactor ratOps E none svarLen) (twoTexts (bytes "B$" ++ t)) ∧
      (sfactor ratOps E none svarLen).run (twoTexts (bytes "B$" ++ t)) =
        some (bytes "b", twoTexts t) := by
  refine Blind.of_run rfl fun _ => ?_
  rfl

theorem literal_blind (E : Evals ℚ) (t : Text) :
    Blind 0 (sfactor ratOps E none svarLen) (twoTexts ([34, 121, 34] ++ t)) ∧
      (sfactor ratOps E none svarLen).run (twoTexts ([34, 121, 34] ++ t)) =
        some (bytes "y", twoTexts t) :=
  Blind.of_run rfl fun _ => rfl

/-- `A$=(B$+"y")+B$` -/
theorem stringLet_joined : ∃ s', (execStmt ratOps 1).run
    (letA (bytes "(B$+" ++ [34, 121, 34] ++ bytes ")+B$")) = some ((), s') ∧
      s'.vstr 0 = bytes "byb" ∧
      OthersKept 0 (letA (bytes "(B$+" ++ [34, 121, 34] ++ bytes ")+B$")) s' := by
  have hvalue : ((seval ratOps none svarLen).run
      (twoTexts (bytes "(B$+" ++ [34, 121, 34] ++ bytes ")+B$"))).map Prod.fst =
        some (bytes "byb") := by decide
  have hfree : TermsFree ratOps 0 (twoTexts (bytes "(B$+" ++ [34, 121, 34] ++ bytes ")+B$")) := by
    have hbracket : FreeWithin ratOps 0 svarLen 11
        (twoTexts (bytes "B$+" ++ [34, 121, 34] ++ bytes ")+B$")) := by
      refine ⟨(other_blind _ _).1, fun out u hu => ?_⟩
      obtain ⟨-, rfl⟩ := Prod.mk.inj (Option.some.inj ((other_blind _ _).2.symm.trans hu))
      refine fun _ => ⟨(literal_blind _ _).1, fun rhs u hu => ?_⟩
      obtain ⟨-, rfl⟩ := Prod.mk.inj (Option.some.inj ((literal_blind _ _).2.symm.trans hu))
      exact fun hplus => absurd hplus (by decide)
    refine ⟨hbracket, fun out u hu => ?_⟩
    have hbehind : (sfactor ratOps (evals ratOps 11) none svarLen).run
        (twoTexts (bytes "(B$+" ++ [34, 121, 34] ++ bytes ")+B$")) =
          some (bytes "by", twoTexts (bytes "+B$")) := rfl
    obtain ⟨-, rfl⟩ := Prod.mk.inj (Option.some.inj (hbehind.symm.trans hu))
    refine fun _ => ⟨(other_blind _ []).1, fun rhs u hu => ?_⟩
    obtain ⟨-, rfl⟩ := Prod.mk.inj (Option.some.inj ((other_blind _ []).2.symm.trans hu))
    exact fun hplus => absurd hplus (by decide)
  obtain ⟨⟨v, w⟩, hrun, rfl⟩ := Option.map_eq_some_iff.mp hvalue
  exact (stringLet_stores ratOps (letA_stringLet (by decide)) hrun 0).1 hfree

/-- `A$=A$+"y"` leaves `y` in `A$`. -/
theorem append_loses_text : ¬ ∀ (s : Interp ℚ) (si : ℕ) (u : Interp ℚ), StringLet ratOps s si u →
    ∀ v w, (seval ratOps none svarLen).run u = some (v, w) →
      ∃ s', (execStmt ratOps 1).run s = some ((), s') ∧ s'.vstr si = v ∧ OthersKept si s s' := by
  intro hall
  have hvalue : ((seval ratOps none svarLen).run (twoTexts (bytes "A$+" ++ [34, 121, 34]))).map
      Prod.fst = some (bytes "xy") := by decide
  have hleft : ((execStmt ratOps 1).run (letA (bytes "A$+" ++ [34, 121, 34]))).map
      (fun r => r.2.vstr 0) = some (bytes "y") := by decide
  obtain ⟨⟨v, w⟩, hrun, hv⟩ := Option.map_eq_some_iff.mp hvalue
  obtain ⟨s', hexec, htext, -⟩ := hall _ 0 _ (letA_stringLet (by decide)) v w hrun
  rw [hexec, Option.map_some, htext] at hleft
  exact absurd (hv.symm.trans (Option.some.inj hleft)) (by decide)

end XinuRpi4.Basic
