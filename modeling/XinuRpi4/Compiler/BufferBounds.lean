import XinuRpi4.Compiler.TableLimits

/-!
# Where `cc_codegen` writes

`emit` drops what does not fit, but a branch is recorded before it is emitted, and
`resolve_branches` writes to every recorded site. The writes stay in the buffer exactly
when no branch of a function comes to lie behind its end.
-/

namespace XinuRpi4.Compiler

/-- In every function that is begun with `k` words before it, all branches that are
recorded lie in the buffer. Of a function that is too deep only the code in front of the
overrun counts. -/
def BranchesFit (env : GenEnv) (cap : ℤ) : ℕ → List Func → Prop
  | _, [] => True
  | k, fn :: fns =>
    NoWrap cap (k + wordCount (reached (listing env fn))) ∧
      (Shallow env fn →
        (∀ n ∈ (branchIndices 0 (listing env fn)).take Table.bfx.size,
            4 * ((k + n : ℕ) : ℤ) + 4 ≤ cap) ∧
          (walkErr env fn = none → 4 * ((k + wordCount (listing env fn) : ℕ) : ℤ) ≤ cap →
            BranchesFit env cap (k + wordCount (listing env fn)) fns))

instance (env : GenEnv) (cap : ℤ) : ∀ (k : ℕ) (fns : List Func), Decidable (BranchesFit env cap k fns)
  | _, [] => isTrue trivial
  | k, fn :: fns =>
    have := instDecidableBranchesFit env cap (k + wordCount (listing env fn)) fns
    inferInstanceAs (Decidable (_ ∧ _))

namespace CodeBuf

variable {cap : ℤ} {k n : ℕ} {b : CodeBuf} {env : GenEnv} {fn : Func} {fns : List Func}

/-- Every `put32` so far was inside the buffer. -/
def PutsIn (cap : ℤ) (b : CodeBuf) : Prop := ∀ w ∈ b.puts, 0 ≤ w.1 ∧ w.1 + 4 ≤ cap

theorem PutsIn.emit (hp : PutsIn cap b) (h : Filled cap k n b) (hw : NoWrap cap (k + (n + 1)))
    (w : BitVec 32) : PutsIn cap (b.emit w) := by
  have hcap := h.cap_eq
  have hlow := h.low
  have hround := toInt32_emit h hw
  rw [CodeBuf.emit, hround]
  split
  · exact hp
  · exact List.forall_mem_cons.mpr ⟨by simp only; omega, hp⟩

theorem PutsIn.emits {ws : List (BitVec 32)} (hp : PutsIn cap b) (h : Filled cap k n b)
    (hw : NoWrap cap (k + (n + ws.length))) : PutsIn cap (b.emits ws) := by
  induction ws generalizing n b with
  | nil => exact hp
  | cons w ws ih =>
    have hlen : n + (w :: ws).length = n + 1 + ws.length := by simp; omega
    rw [hlen] at hw
    have hw' : NoWrap cap (k + (n + 1)) := hw.mono (by omega)
    exact ih (hp.emit h hw' w) (h.emit hw' w) hw

theorem PutsIn.run {ls : List Line} (hp : PutsIn cap b) (h : Filled cap k n b)
    (hl : ∀ l ∈ ls, l.InTable) (hw : NoWrap cap (k + (n + wordCount ls))) :
    PutsIn cap (b.run ls) := by
  induction ls generalizing n b with
  | nil => exact hp
  | cons l ls ih =>
    rw [List.forall_mem_cons] at hl
    have hcount : n + wordCount (l :: ls) = n + l.words.length + wordCount ls := by
      rw [wordCount_cons, Nat.add_assoc]
    rw [hcount] at hw
    have hw' : NoWrap cap (k + (n + l.words.length)) := hw.mono (by omega)
    have hsame := mark_same b hl.1
    have hmark : PutsIn cap (b.mark l) := by
      rw [PutsIn, hsame.puts]
      exact hp
    rw [run_cons h.running]
    exact ih (hmark.emits (h.of_same hsame) hw') (h.step hl.1 hw') hl.2 hw

section Puts

theorem putsIn_of_suffix {b b' : CodeBuf} (h : b.puts <:+ b'.puts) (h' : PutsIn cap b') :
    PutsIn cap b :=
  fun w hw => h' w (h.subset hw)

theorem emit_puts (b : CodeBuf) (w : BitVec 32) : b.puts <:+ (b.emit w).puts := by
  rw [CodeBuf.emit]
  split
  · exact List.suffix_refl _
  · exact List.suffix_cons _ _

theorem emits_puts (b : CodeBuf) (ws : List (BitVec 32)) : b.puts <:+ (b.emits ws).puts := by
  induction ws generalizing b with
  | nil => exact List.suffix_refl _
  | cons w ws ih => exact (emit_puts b w).trans (ih _)

@[simp] theorem access_puts (b : CodeBuf) (t : Table) (i : ℕ) : (b.access t i).puts = b.puts := by
  rw [access]
  split <;> rfl

theorem mark_puts (b : CodeBuf) (l : Line) : (b.mark l).puts = b.puts := by
  cases l with
  | word w => rfl
  | branch kind lab cond =>
    rw [mark, record]
    split <;> simp
  | call fn =>
    rw [mark, recordCall]
    split <;> simp
  | place lab =>
    rw [mark, CodeBuf.place]
    split <;> simp
  | access t i => simp [mark]

theorem run_puts (b : CodeBuf) (ls : List Line) : b.puts <:+ (b.run ls).puts := by
  induction ls generalizing b with
  | nil => exact List.suffix_refl _
  | cons l ls ih =>
    rw [CodeBuf.run]
    split
    · exact List.suffix_refl _
    · have hstep : b.puts <:+ (b.step l).puts := by
        rw [← mark_puts b l]
        exact emits_puts _ _
      exact hstep.trans (ih _)

theorem resolveBranches_puts (b : CodeBuf) (fs : List Fixup) :
    b.puts <:+ (b.resolveBranches fs).puts := by
  induction fs generalizing b with
  | nil => exact List.suffix_refl _
  | cons f fs ih =>
    rw [resolveBranches]
    split
    · simp
    · refine List.IsSuffix.trans ?_ (ih _)
      simp [put32]

theorem genFunc_puts (env : GenEnv) (fn : Func) (b : CodeBuf) :
    (b.begin.run (listing env fn)).puts <:+ (b.genFunc env fn).puts := by
  rw [CodeBuf.genFunc]
  split
  · exact List.suffix_refl _
  · exact resolveBranches_puts _ _

theorem genFunc_begin_puts (env : GenEnv) (fn : Func) (b : CodeBuf) :
    b.puts <:+ (b.genFunc env fn).puts :=
  (run_puts b.begin _).trans (genFunc_puts env fn b)

theorem genLoop_puts (env : GenEnv) (fns : List Func) (b : CodeBuf) (offs : List ℤ) :
    b.puts <:+ (genLoop env fns b offs).buf.puts := by
  induction fns generalizing b offs with
  | nil => exact List.suffix_refl _
  | cons fn fns ih =>
    have hfn := genFunc_begin_puts env fn b
    rcases genLoop_cases env fn fns b offs with
      ⟨-, heq⟩ | ⟨-, -, heq⟩ | ⟨-, -, -, heq⟩ | ⟨-, -, -, heq⟩ <;> rw [heq]
    · exact hfn
    · exact hfn
    · exact hfn
    · exact hfn.trans (ih _ _)

/-- The functions that come later only add to the writes. -/
theorem genLoop_cons_puts (env : GenEnv) (fn : Func) (fns : List Func) (b : CodeBuf)
    (offs : List ℤ) : (b.genFunc env fn).puts <:+ (genLoop env (fn :: fns) b offs).buf.puts := by
  rcases genLoop_cases env fn fns b offs with
    ⟨-, heq⟩ | ⟨-, -, heq⟩ | ⟨-, -, -, heq⟩ | ⟨-, -, -, heq⟩ <;> rw [heq]
  exact genLoop_puts _ _ _ _

end Puts

section Wrap

/-- The word that leaves the `int`s is put behind the end of the buffer. -/
theorem emits_wraps {ws : List (BitVec 32)} (hcap : cap < 2 ^ 31) (h : Filled cap k n b)
    (hw : NoWrap cap (k + n)) (hbig : ¬ NoWrap cap (k + (n + ws.length))) :
    ¬ PutsIn cap (b.emits ws) := by
  induction ws generalizing n b with
  | nil => exact absurd hw hbig
  | cons w ws ih =>
    have hlen : n + (w :: ws).length = n + 1 + ws.length := by simp; omega
    rw [hlen] at hbig
    by_cases hw' : NoWrap cap (k + (n + 1))
    · exact ih (h.emit hw' w) hw' hbig
    · intro hin
      have hemit := putsIn_of_suffix (emits_puts (b.emit w) ws) hin
      simp only [NoWrap, not_or, not_lt, not_le] at hw hw'
      push_cast at hw hw'
      have hlast : (k : ℤ) + n = 2 ^ 29 - 1 := by omega
      rcases h.room with ⟨-, hroom⟩ | ⟨-, hfull, hroom⟩
      · have hpos : b.pos = 2 ^ 31 - 4 := by omega
        have hcap' := h.cap_eq
        have hround : toInt32 (b.pos + 4) = -2 ^ 31 := by
          rw [hpos]
          decide
        rw [CodeBuf.emit, hround, if_neg (by omega)] at hemit
        have := (hemit (b.pos, w) List.mem_cons_self).2
        simp only at this
        omega
      · omega

theorem run_wraps {ls : List Line} (hcap : cap < 2 ^ 31) (h : Filled cap k n b)
    (hl : ∀ l ∈ ls, l.InTable) (hw : NoWrap cap (k + n))
    (hbig : ¬ NoWrap cap (k + (n + wordCount ls))) : ¬ PutsIn cap (b.run ls) := by
  induction ls generalizing n b with
  | nil => exact absurd hw hbig
  | cons l ls ih =>
    rw [List.forall_mem_cons] at hl
    have hcount : n + wordCount (l :: ls) = n + l.words.length + wordCount ls := by
      rw [wordCount_cons, Nat.add_assoc]
    rw [hcount] at hbig
    rw [run_cons h.running]
    by_cases hw' : NoWrap cap (k + (n + l.words.length))
    · exact ih (h.step hl.1 hw') hl.2 hw' hbig
    · intro hin
      exact emits_wraps hcap (h.of_same (mark_same b hl.1)) hw hw'
        (putsIn_of_suffix (run_puts _ _) hin)

end Wrap

theorem putsIn_iff : PutsIn cap b ↔ ∀ p ∈ b.puts.map Prod.fst, 0 ≤ p ∧ p + 4 ≤ cap := by
  rw [List.forall_mem_map]
  rfl

theorem Patched.putsIn_iff {ps : List ℤ} {b b' : CodeBuf} (h : Patched ps b b') :
    PutsIn cap b' ↔ PutsIn cap b ∧ ∀ p ∈ ps, 0 ≤ p ∧ p + 4 ≤ cap := by
  rw [CodeBuf.putsIn_iff, h.puts, List.forall_mem_append, CodeBuf.putsIn_iff, and_comm]
  simp only [List.mem_reverse]

section Functions

theorem run_reached_puts (b : CodeBuf) (ls : List Line) :
    (b.run (reached ls)).puts <:+ (b.run ls).puts := by
  have hsplit : ls = reached ls ++ ls.dropWhile fun l => decide l.InTable :=
    List.takeWhile_append_dropWhile.symm
  conv_rhs => rw [hsplit, run_append]
  exact run_puts _ _

/-- Behind the first access outside a table nothing is put. -/
theorem run_puts_reached (hr : b.overrun = none) (ls : List Line) :
    (b.run ls).puts = (b.run (reached ls)).puts := by
  induction ls generalizing b with
  | nil => rfl
  | cons l ls ih =>
    rw [reached, List.takeWhile_cons]
    by_cases hl : l.InTable
    · rw [if_pos (by simpa using hl), run_cons hr, run_cons hr]
      exact ih ((step_overrun hr).mpr hl)
    · have hsome := Option.ne_none_iff_isSome.mp ((step_overrun hr).not.mpr hl)
      have hstep : (b.step l).puts = b.puts := by
        cases l with
        | word w => exact absurd trivial hl
        | branch kind lab cond => exact absurd trivial hl
        | call fn => exact absurd trivial hl
        | place lab => exact absurd trivial hl
        | access t i => exact access_puts b t i
      rw [if_neg (by simpa using hl), run_cons hr, run_of_overrun hsome, hstep]
      rfl

/-- The writes of one function that leaves a table. -/
theorem genFunc_putsIn_stopped (h : Filled cap k 0 b) (hp : PutsIn cap b)
    (hl : ¬ ∀ l ∈ listing env fn, l.InTable)
    (hw : NoWrap cap (k + wordCount (reached (listing env fn)))) :
    PutsIn cap (b.genFunc env fn) := by
  have hbegin : PutsIn cap b.begin := hp
  rw [(genFunc_stopped h.running hl).2, PutsIn,
    run_puts_reached (show b.begin.overrun = none from h.running)]
  exact hbegin.run h.begin (reached_inTable _) (by simpa using hw)

/-- The writes of one function are inside the buffer exactly when its branches are. -/
theorem genFunc_putsIn (h : Filled cap k 0 b) (hc : CallsIn b) (hp : PutsIn cap b)
    (hl : ∀ l ∈ listing env fn, l.InTable) (hw : NoWrap cap (k + wordCount (listing env fn))) :
    PutsIn cap (b.genFunc env fn) ↔
      ∀ n ∈ (branchIndices 0 (listing env fn)).take Table.bfx.size,
        4 * ((k + n : ℕ) : ℤ) + 4 ≤ cap := by
  have hnone : Sites cap k [] b.begin := .nil
  have hbegin : PutsIn cap b.begin := hp
  have hw' : NoWrap cap (k + (0 + wordCount (listing env fn))) := by simpa using hw
  obtain ⟨-, -, hsites⟩ := run_lines h.begin hc hnone hl hw'
  rw [List.nil_append] at hsites
  rw [(genFunc_patched h.running hl).putsIn_iff, and_iff_right (hbegin.run h.begin hl hw'),
    List.forall_mem_map]
  constructor
  · intro hin n hn
    obtain ⟨f, hf, hrel⟩ := hsites.left n hn
    exact hrel.2.mp (hin f hf).2
  · intro hin f hf
    obtain ⟨n, hn, hrel⟩ := hsites.right f hf
    exact ⟨hrel.1, hrel.2.mpr (hin n hn)⟩

end Functions

end CodeBuf

section Programs

open CodeBuf

variable {env : GenEnv} {cap : ℤ} {k : ℕ} {b : CodeBuf}

/-- The functions stay in the buffer exactly when their branches fit. -/
theorem genLoop_putsIn (hcap : cap < 2 ^ 31) (fns : List Func) (offs : List ℤ)
    (h : Filled cap k 0 b) (hc : CallsIn b) (hp : PutsIn cap b) :
    (PutsIn cap (genLoop env fns b offs).buf ↔ BranchesFit env cap k fns) ∧
      (PutsIn cap (genLoop env fns b offs).buf → (genLoop env fns b offs).err = none →
        (genLoop env fns b offs).buf.overrun = none →
          ∃ k', Filled cap k' 0 (genLoop env fns b offs).buf ∧
            CallsIn (genLoop env fns b offs).buf) := by
  induction fns generalizing k b offs with
  | nil => exact ⟨iff_of_true hp trivial, fun _ _ _ => ⟨k, h, hc⟩⟩
  | cons fn fns ih =>
    have hpos := wordCount_listing_pos env fn
    have hgrow : PutsIn cap (genLoop env (fn :: fns) b offs).buf → PutsIn cap (b.genFunc env fn) :=
      putsIn_of_suffix (genLoop_cons_puts env fn fns b offs)
    rw [BranchesFit]
    by_cases hw : NoWrap cap (k + wordCount (reached (listing env fn)))
    · by_cases hshallow : Shallow env fn
      · have hl := (shallow_iff env fn).mp hshallow
        rw [reached_eq hl] at hw
        have hrun := (genFunc_overrun h.running).mpr hl
        have hsites := genFunc_putsIn h hc hp hl hw
        obtain ⟨hfill, hcalls⟩ := genFunc_filled h hc hl hw
        rcases genLoop_cases env fn fns b offs with
          ⟨hover, -⟩ | ⟨-, hfail, heq⟩ | ⟨-, herr, hoom, heq⟩ | ⟨-, herr, hoom, heq⟩
        · exact absurd hrun (Option.isSome_iff_ne_none.mp hover)
        · rw [heq, hsites]
          refine ⟨⟨fun hin => ⟨by rwa [reached_eq hl], fun _ => ⟨hin, fun hnone => ?_⟩⟩,
            fun hfit => (hfit.2 hshallow).1⟩, fun _ hnone => ?_⟩
          · exact absurd hnone (Option.isSome_iff_ne_none.mp hfail)
          · exact absurd hnone (Option.isSome_iff_ne_none.mp hfail)
        · rw [heq, hsites]
          refine ⟨⟨fun hin => ⟨by rwa [reached_eq hl], fun _ => ⟨hin, fun _ hroom => ?_⟩⟩,
            fun hfit => (hfit.2 hshallow).1⟩, fun _ hnone => by simp at hnone⟩
          have hkept := (hfill.oom_iff hpos).mpr hroom
          simp [hoom] at hkept
        · rw [heq] at hgrow ⊢
          by_cases hin : PutsIn cap (b.genFunc env fn)
          · have hroom := (hfill.oom_iff hpos).mp hoom
            obtain ⟨hiff, hlast⟩ := ih (offs ++ [b.pos]) (hfill.next hoom) hcalls hin
            refine ⟨hiff.trans ?_, hlast⟩
            constructor
            · exact fun hfit => ⟨by rwa [reached_eq hl], fun _ => ⟨hsites.mp hin, fun _ _ => hfit⟩⟩
            · exact fun hfit => (hfit.2 hshallow).2 herr hroom
          · exact ⟨iff_of_false (fun hputs => hin (hgrow hputs)) fun hfit =>
              hin (hsites.mpr (hfit.2 hshallow).1), fun hputs => absurd (hgrow hputs) hin⟩
      · have hl := (shallow_iff env fn).not.mp hshallow
        have hputs := genFunc_putsIn_stopped h hp hl hw
        have hover : ¬ (b.genFunc env fn).overrun = none := (genFunc_overrun h.running).not.mpr hl
        rcases genLoop_cases env fn fns b offs with
          ⟨-, heq⟩ | ⟨hrun, -⟩ | ⟨hrun, -⟩ | ⟨hrun, -⟩
        · rw [heq]
          exact ⟨iff_of_true hputs ⟨hw, fun hin => absurd hin hshallow⟩, fun _ _ hrun => absurd hrun hover⟩
        · exact absurd hrun hover
        · exact absurd hrun hover
        · exact absurd hrun hover
    · have hwraps := run_wraps hcap h.begin (reached_inTable (listing env fn)) (h.noWrap hcap)
        (by simpa using hw)
      have hout : ¬ PutsIn cap (genLoop env (fn :: fns) b offs).buf := fun hputs =>
        hwraps (putsIn_of_suffix ((run_reached_puts _ _).trans (genFunc_puts env fn b))
          (hgrow hputs))
      exact ⟨iff_of_false hout fun hfit => hw hfit.1, fun hputs => absurd hputs hout⟩

theorem putsIn_start (env : GenEnv) (cap : ℤ) : PutsIn cap (.start env cap) := by
  simp [PutsIn, CodeBuf.start]

/-- Calls are patched inside the buffer when nothing has been dropped. -/
theorem putsIn_patchCalls (env : GenEnv) (offs : List ℤ) (h : Filled cap k 0 b) (hc : CallsIn b)
    (hp : PutsIn cap b) :
    PutsIn cap (patchCalls env offs b.cfx b) := by
  obtain ⟨ps, hps, hin⟩ := patchCalls_patched env offs b.cfx b
  rw [hps.putsIn_iff]
  refine ⟨hp, fun p hp => ?_⟩
  obtain ⟨c, hcm, hlow, hhigh⟩ := hin p hp
  obtain ⟨hpos, hend⟩ := hc c hcm
  have hlast := hend h.at_begin.1
  have hcap := h.high
  omega

/-- Every `put32` of `cc_codegen` is inside the buffer, and it answers -1 when it has dropped a
word. -/
def InBuffer (env : GenEnv) (cap : ℤ) : Prop :=
  (∀ w ∈ (ccCodegen env cap).buf.puts, 0 ≤ w.1 ∧ w.1 + 4 ≤ cap) ∧
    ((ccCodegen env cap).buf.oom = true → ∀ v, (ccCodegen env cap).ret = some v → v = -1)

/-- As far as the run is followed, that is up to an overrun of a loop stack, the branches decide. -/
theorem inBuffer_iff (env : GenEnv) {cap : ℤ} (hcap : cap < 2 ^ 31) :
    InBuffer env cap ↔ BranchesFit env cap 0 env.funcs := by
  obtain ⟨hiff, hlast⟩ := genLoop_putsIn hcap env.funcs [] (filled_start env cap)
    (callsIn_start env cap) (putsIn_start env cap)
  rw [InBuffer, ← hiff]
  rcases ccCodegen_cases env cap with ⟨-, heq⟩ | ⟨-, -, heq⟩ | ⟨hrun, herr, hbuf, -⟩
  · rw [heq]
    exact and_iff_left (by simp)
  · rw [heq]
    exact and_iff_left (by simp)
  · obtain ⟨ps, hps, -⟩ := patchCalls_patched env
      (genLoop env env.funcs (.start env cap) []).codeOff
      (genLoop env env.funcs (.start env cap) []).buf.cfx
      (genLoop env env.funcs (.start env cap) []).buf
    have hoom := genLoop_oom env env.funcs (.start env cap) [] rfl herr hrun
    rw [hbuf, hps.oom, hoom]
    refine (and_iff_left (by simp)).trans ⟨fun hin => (hps.putsIn_iff.mp hin).1, fun hin => ?_⟩
    obtain ⟨k', hfill, hcalls⟩ := hlast hin herr hrun
    exact putsIn_patchCalls env _ hfill hcalls hin

/-- For every program and every capacity: if no function that is reached is too deep for the loop
stacks and no branch of one lies behind the end of the buffer, `cc_codegen` is carried out with
all writes inside it. Where such a branch does, so does a write. -/
theorem put32_in_buffer (env : GenEnv) {cap : ℤ} (hcap : cap < 2 ^ 31) :
    (NestingFits env cap 0 env.funcs ∧ BranchesFit env cap 0 env.funcs →
        (ccCodegen env cap).buf.overrun = none ∧ InBuffer env cap) ∧
      (¬ BranchesFit env cap 0 env.funcs → ¬ InBuffer env cap) :=
  ⟨fun h => ⟨(ccCodegen_overrun env cap).mpr h.1, (inBuffer_iff env hcap).mpr h.2⟩,
    (inBuffer_iff env hcap).not.mpr⟩

theorem put32_in_buffer_returnZero :
    (ccCodegen (loneProgram returnZero) 44).buf.overrun = none ∧
      InBuffer (loneProgram returnZero) 44 :=
  (put32_in_buffer (loneProgram returnZero) (by decide)).1 (by decide)

/-- The six words before the branch of `return` fill 24 bytes, and it is patched behind them. -/
theorem put32_behind_buffer :
    ¬ ∀ w ∈ (ccCodegen (loneProgram returnZero) 24).buf.puts, 0 ≤ w.1 ∧ w.1 + 4 ≤ 24 := by
  decide

end Programs

end XinuRpi4.Compiler
