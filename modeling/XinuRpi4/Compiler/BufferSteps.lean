import Mathlib.Data.List.TakeWhile
import XinuRpi4.Compiler.CodeLabels

/-!
# Filling the code buffer

How far the buffer is filled after some lines, which accesses leave a table, and what
the patches do to it.
-/

namespace XinuRpi4.Compiler

namespace Line

/-- A line that keeps to the tables. -/
def InTable : Line → Prop
  | access t i => i < t.size
  | _ => True

instance : DecidablePred InTable
  | word _ => isTrue trivial
  | branch _ _ _ => isTrue trivial
  | call _ => isTrue trivial
  | place _ => isTrue trivial
  | access t i => inferInstanceAs (Decidable (i < t.size))

end Line

/-- How many words lines come to. -/
def wordCount (ls : List Line) : ℕ := (ls.map fun l => l.words.length).sum

@[simp] theorem wordCount_nil : wordCount [] = 0 := rfl

@[simp] theorem wordCount_cons (l : Line) (ls : List Line) :
    wordCount (l :: ls) = l.words.length + wordCount ls := by simp [wordCount]

@[simp] theorem wordCount_append (ls ls' : List Line) :
    wordCount (ls ++ ls') = wordCount ls + wordCount ls' := by simp [wordCount]

/-- The branches of lines, each by the number of words before it. -/
def branchIndices : ℕ → List Line → List ℕ
  | _, [] => []
  | n, .branch kind lab cond :: ls =>
    n :: branchIndices (n + (Line.branch kind lab cond).words.length) ls
  | n, l :: ls => branchIndices (n + l.words.length) ls

/-- The lines up to the first access outside a table. -/
def reached (ls : List Line) : List Line := ls.takeWhile fun l => decide l.InTable

/-- Positions of `g_pos` for `m` words do not leave the `int`s, or the buffer ends before. -/
def NoWrap (cap : ℤ) (m : ℕ) : Prop := cap < 2 ^ 31 - 4 ∨ 4 * (m : ℤ) ≤ 2 ^ 31 - 4

instance (cap : ℤ) (m : ℕ) : Decidable (NoWrap cap m) := inferInstanceAs (Decidable (_ ∨ _))

theorem NoWrap.mono {cap : ℤ} {m n : ℕ} (h : NoWrap cap n) (hmn : m ≤ n) : NoWrap cap m := by
  rcases h with h | h
  · exact Or.inl h
  · exact Or.inr (by omega)

namespace CodeBuf

variable {cap : ℤ} {k n : ℕ} {b : CodeBuf}

/-- The buffer after `n` words of a function that begins behind `k` words. -/
structure Filled (cap : ℤ) (k n : ℕ) (b : CodeBuf) : Prop where
  cap_eq : b.cap = cap
  running : b.overrun = none
  low : 4 * (k : ℤ) ≤ b.pos
  high : b.pos ≤ max cap 0
  room : b.oom = false ∧ b.pos = 4 * (k + n) ∨
    b.oom = true ∧ cap < b.pos + 4 ∧ b.pos + 4 ≤ 4 * (k + n)

theorem toInt32_eq {x : ℤ} (h : 0 ≤ x) (h' : x < 2 ^ 31) : toInt32 x = x :=
  Int.bmod_eq_of_le (by omega) (by omega)

/-- The position behind the next word is still an `int`. -/
theorem toInt32_emit (h : Filled cap k n b) (hw : NoWrap cap (k + (n + 1))) :
    toInt32 (b.pos + 4) = b.pos + 4 := by
  have hlow := h.low
  have hhigh := h.high
  refine toInt32_eq (by omega) ?_
  rcases hw with hw | hw
  · omega
  · rcases h.room with ⟨-, hroom⟩ | ⟨-, -, hroom⟩ <;> push_cast at hw <;> omega

theorem Filled.emit (h : Filled cap k n b) (hw : NoWrap cap (k + (n + 1))) (w : BitVec 32) :
    Filled cap k (n + 1) (b.emit w) := by
  have hlow := h.low
  have hhigh := h.high
  have hcap := h.cap_eq
  rw [CodeBuf.emit, toInt32_emit h hw]
  rcases h.room with ⟨hoom, hroom⟩ | ⟨hoom, hfull, hroom⟩
  · split
    · next hfull =>
      refine { h with room := Or.inr ⟨rfl, by simp only; omega, ?_⟩ }
      push_cast
      omega
    · next hfits =>
      refine ⟨h.cap_eq, h.running, ?_, ?_, Or.inl ⟨hoom, ?_⟩⟩
      · exact hlow.trans (by simp)
      · simp only
        omega
      · simp only
        push_cast
        omega
  · rw [if_pos (by omega)]
    refine { h with room := Or.inr ⟨rfl, hfull, ?_⟩ }
    push_cast
    omega

theorem Filled.emits {ws : List (BitVec 32)} (h : Filled cap k n b)
    (hw : NoWrap cap (k + (n + ws.length))) : Filled cap k (n + ws.length) (b.emits ws) := by
  induction ws generalizing n b with
  | nil => exact h
  | cons w ws ih =>
    have hlen : n + (w :: ws).length = n + 1 + ws.length := by simp; omega
    rw [hlen] at hw ⊢
    exact ih (h.emit (hw.mono (by omega)) w) hw

@[simp] theorem emit_bfx (b : CodeBuf) (w : BitVec 32) : (b.emit w).bfx = b.bfx := by
  rw [CodeBuf.emit]
  split <;> rfl

@[simp] theorem emit_cfx (b : CodeBuf) (w : BitVec 32) : (b.emit w).cfx = b.cfx := by
  rw [CodeBuf.emit]
  split <;> rfl

@[simp] theorem emits_bfx (b : CodeBuf) (ws : List (BitVec 32)) : (b.emits ws).bfx = b.bfx := by
  induction ws generalizing b with
  | nil => rfl
  | cons w ws ih => simp [CodeBuf.emits, ih]

@[simp] theorem emits_cfx (b : CodeBuf) (ws : List (BitVec 32)) : (b.emits ws).cfx = b.cfx := by
  induction ws generalizing b with
  | nil => rfl
  | cons w ws ih => simp [CodeBuf.emits, ih]

theorem access_eq (b : CodeBuf) {t : Table} {i : ℕ} (h : i < t.size) : b.access t i = b := if_pos h

/-- What `mark` leaves alone. -/
structure SameBuf (b b' : CodeBuf) : Prop where
  pos : b'.pos = b.pos
  cap : b'.cap = b.cap
  oom : b'.oom = b.oom
  puts : b'.puts = b.puts
  overrun : b'.overrun = b.overrun

theorem SameBuf.refl (b : CodeBuf) : SameBuf b b := ⟨rfl, rfl, rfl, rfl, rfl⟩

theorem mark_same (b : CodeBuf) {l : Line} (h : l.InTable) : SameBuf b (b.mark l) := by
  cases l with
  | word w => exact .refl b
  | branch kind lab cond =>
    rw [mark, record]
    split
    · next hlt =>
      rw [access_eq b hlt]
      exact ⟨rfl, rfl, rfl, rfl, rfl⟩
    · exact .refl b
  | call fn =>
    rw [mark, recordCall]
    split
    · next hlt =>
      rw [access_eq b hlt]
      exact ⟨rfl, rfl, rfl, rfl, rfl⟩
    · exact .refl b
  | place lab =>
    rw [mark, CodeBuf.place]
    split
    · next hlt =>
      rw [access_eq b hlt]
      exact ⟨rfl, rfl, rfl, rfl, rfl⟩
    · exact .refl b
  | access t i =>
    rw [mark, access_eq b h]
    exact .refl b

theorem Filled.of_same {b' : CodeBuf} (h : Filled cap k n b) (hs : SameBuf b b') :
    Filled cap k n b' where
  cap_eq := hs.cap.trans h.cap_eq
  running := hs.overrun.trans h.running
  low := hs.pos ▸ h.low
  high := hs.pos ▸ h.high
  room := by rw [hs.oom, hs.pos]; exact h.room

theorem Filled.step {l : Line} (h : Filled cap k n b) (hl : l.InTable)
    (hw : NoWrap cap (k + (n + l.words.length))) :
    Filled cap k (n + l.words.length) (b.step l) :=
  (h.of_same (mark_same b hl)).emits hw

/-- The calls recorded so far have their four words in the buffer. -/
def CallsIn (b : CodeBuf) : Prop := ∀ c ∈ b.cfx, 0 ≤ c.1 ∧ (b.oom = false → c.1 + 16 ≤ b.pos)

/-- What happens to `g_pos` while words are emitted. -/
theorem Filled.pos_emits {ws : List (BitVec 32)} (h : Filled cap k n b)
    (hw : NoWrap cap (k + (n + ws.length))) (hoom : (b.emits ws).oom = false) :
    b.oom = false ∧ (b.emits ws).pos = b.pos + 4 * ws.length := by
  have h' := h.emits hw
  rcases h'.room with ⟨-, hpos'⟩ | ⟨hoom', -⟩
  · have hkeep : b.oom = false := by
      rcases h.room with ⟨hno, -⟩ | ⟨hyes, hfull, hle⟩
      · exact hno
      · have hhigh' := h'.high
        have hlow := h.low
        push_cast at hpos'
        omega
    rcases h.room with ⟨-, hpos⟩ | ⟨hyes, -⟩
    · refine ⟨hkeep, ?_⟩
      push_cast at hpos'
      omega
    · simp [hkeep] at hyes
  · simp [hoom] at hoom'

theorem CallsIn.step {l : Line} (hc : CallsIn b) (h : Filled cap k n b) (hl : l.InTable)
    (hw : NoWrap cap (k + (n + l.words.length))) : CallsIn (b.step l) := by
  have hs := mark_same b hl
  have hm := h.of_same hs
  have hold : ∀ c ∈ b.cfx, 0 ≤ c.1 ∧ ((b.step l).oom = false → c.1 + 16 ≤ (b.step l).pos) := by
    intro c hcm
    refine ⟨(hc c hcm).1, fun hoom => ?_⟩
    obtain ⟨hno, hpos⟩ := hm.pos_emits hw hoom
    have := (hc c hcm).2 (hs.oom ▸ hno)
    rw [CodeBuf.step, hpos, hs.pos]
    omega
  cases l with
  | word w => simpa [CallsIn, CodeBuf.step, mark] using hold
  | branch kind lab cond =>
    intro c hcm
    refine hold c ?_
    rw [CodeBuf.step, emits_cfx, mark, record] at hcm
    split at hcm
    · next hlt => simpa [access_eq b hlt] using hcm
    · exact hcm
  | place lab =>
    intro c hcm
    refine hold c ?_
    rw [CodeBuf.step, emits_cfx, mark, CodeBuf.place] at hcm
    split at hcm
    · next hlt => simpa [access_eq b hlt] using hcm
    · exact hcm
  | access t i =>
    intro c hcm
    refine hold c ?_
    rwa [CodeBuf.step, emits_cfx, mark, access_eq b hl] at hcm
  | call fn =>
    intro c hcm
    rw [CodeBuf.step, emits_cfx, mark, recordCall] at hcm
    split at hcm
    · next hlt =>
      rw [access_eq b hlt] at hcm
      rcases List.mem_append.mp hcm with hcm | hcm
      · exact hold c hcm
      · obtain rfl := List.mem_singleton.mp hcm
        have hlow := h.low
        refine ⟨by simp only; omega, fun hoom => ?_⟩
        obtain ⟨-, hpos⟩ := hm.pos_emits hw hoom
        rw [CodeBuf.step, hpos, hs.pos]
        simp [Line.words, loadimmWords]
    · exact hold c hcm

/-- The recorded branches stand for the first branches of the listing. -/
def Sites (cap : ℤ) (k : ℕ) (ns : List ℕ) (b : CodeBuf) : Prop :=
  List.Forall₂ (fun n f => 0 ≤ f.site ∧
    (f.site + 4 ≤ cap ↔ 4 * ((k + n : ℕ) : ℤ) + 4 ≤ cap)) (ns.take Table.bfx.size) b.bfx

/-- Each entry on the left has a partner on the right. -/
theorem exists_of_forall₂ {α β : Type} {R : α → β → Prop} {l : List α} {l' : List β}
    (h : List.Forall₂ R l l') : ∀ a ∈ l, ∃ b ∈ l', R a b := by
  induction h with
  | nil => simp
  | cons hab _ ih =>
    rw [List.forall_mem_cons]
    refine ⟨⟨_, List.mem_cons_self, hab⟩, fun a ha => ?_⟩
    obtain ⟨b, hb, hR⟩ := ih a ha
    exact ⟨b, List.mem_cons_of_mem _ hb, hR⟩

theorem Sites.left {ns : List ℕ} (h : Sites cap k ns b) :
    ∀ n ∈ ns.take Table.bfx.size, ∃ f ∈ b.bfx, 0 ≤ f.site ∧
      (f.site + 4 ≤ cap ↔ 4 * ((k + n : ℕ) : ℤ) + 4 ≤ cap) :=
  exists_of_forall₂ h

theorem Sites.right {ns : List ℕ} (h : Sites cap k ns b) :
    ∀ f ∈ b.bfx, ∃ n ∈ ns.take Table.bfx.size, 0 ≤ f.site ∧
      (f.site + 4 ≤ cap ↔ 4 * ((k + n : ℕ) : ℤ) + 4 ≤ cap) :=
  exists_of_forall₂ h.flip

/-- The branches of one line. -/
def lineBranches (n : ℕ) : Line → List ℕ
  | .branch _ _ _ => [n]
  | _ => []

theorem branchIndices_cons (n : ℕ) (l : Line) (ls : List Line) :
    branchIndices n (l :: ls) = lineBranches n l ++ branchIndices (n + l.words.length) ls := by
  cases l <;> rfl

/-- A branch is recorded at a position that fits exactly when its place in the listing does. -/
theorem Filled.site_iff (h : Filled cap k n b) :
    b.pos + 4 ≤ cap ↔ 4 * ((k + n : ℕ) : ℤ) + 4 ≤ cap := by
  rcases h.room with ⟨-, hpos⟩ | ⟨-, hfull, hle⟩ <;> push_cast <;> omega

theorem Sites.step {l : Line} {ns : List ℕ} (hs : Sites cap k ns b) (h : Filled cap k n b)
    (hl : l.InTable) : Sites cap k (ns ++ lineBranches n l) (b.step l) := by
  rw [Sites, CodeBuf.step, emits_bfx]
  cases l with
  | word w =>
    rw [lineBranches, List.append_nil]
    · exact hs
    · simp
  | call fn =>
    simp only [lineBranches, List.append_nil, mark, recordCall]
    split
    · next hlt =>
      rw [access_eq b hlt]
      exact hs
    · exact hs
  | place lab =>
    simp only [lineBranches, List.append_nil, mark, CodeBuf.place]
    split
    · next hlt =>
      rw [access_eq b hlt]
      exact hs
    · exact hs
  | access t i =>
    simp only [lineBranches, List.append_nil, mark, access_eq b hl]
    exact hs
  | branch kind lab cond =>
    have hlen : b.bfx.length = min Table.bfx.size ns.length := by
      rw [← hs.length_eq, List.length_take]
    simp only [lineBranches, mark, record]
    split
    · next hlt =>
      have hns : ns.length < Table.bfx.size := by omega
      rw [access_eq b hlt, List.take_of_length_le (by simp; omega)]
      rw [Sites, List.take_of_length_le hns.le] at hs
      have hlow := h.low
      refine List.rel_append (R := _) hs (.cons ⟨by simp only; omega, h.site_iff⟩ .nil)
    · rw [List.take_append_of_le_length (by omega)]
      exact hs

theorem run_of_overrun (h : b.overrun.isSome) (ls : List Line) : b.run ls = b := by
  cases ls with
  | nil => rfl
  | cons l ls => exact if_pos h

theorem run_cons (h : b.overrun = none) (l : Line) (ls : List Line) :
    b.run (l :: ls) = (b.step l).run ls :=
  if_neg (by simp [h])

/-- Lines that keep to the tables are carried out to the end. -/
theorem run_lines {ls : List Line} {ns : List ℕ} (h : Filled cap k n b) (hc : CallsIn b)
    (hs : Sites cap k ns b) (hl : ∀ l ∈ ls, l.InTable)
    (hw : NoWrap cap (k + (n + wordCount ls))) :
    Filled cap k (n + wordCount ls) (b.run ls) ∧ CallsIn (b.run ls) ∧
      Sites cap k (ns ++ branchIndices n ls) (b.run ls) := by
  induction ls generalizing n b ns with
  | nil =>
    rw [branchIndices, List.append_nil]
    exact ⟨h, hc, hs⟩
  | cons l ls ih =>
    rw [List.forall_mem_cons] at hl
    have hcount : n + wordCount (l :: ls) = n + l.words.length + wordCount ls := by
      rw [wordCount_cons, Nat.add_assoc]
    rw [hcount] at hw ⊢
    have hw' : NoWrap cap (k + (n + l.words.length)) := hw.mono (by omega)
    rw [run_cons h.running, branchIndices_cons, ← List.append_assoc]
    exact ih (h.step hl.1 hw') (hc.step h hl.1 hw') (hs.step h hl.1) hl.2 hw

theorem run_append (b : CodeBuf) (ls ls' : List Line) : b.run (ls ++ ls') = (b.run ls).run ls' := by
  induction ls generalizing b with
  | nil => rfl
  | cons l ls ih =>
    rw [List.cons_append, CodeBuf.run, CodeBuf.run]
    split
    · next hsome => exact (run_of_overrun hsome ls').symm
    · exact ih _

/-- How the loop of `cc_codegen` goes on behind a function. -/
theorem genLoop_cases (env : GenEnv) (fn : Func) (fns : List Func) (b : CodeBuf) (offs : List ℤ) :
    ((b.genFunc env fn).overrun.isSome ∧
        genLoop env (fn :: fns) b offs = ⟨b.genFunc env fn, offs ++ [b.pos], none⟩) ∨
      ((b.genFunc env fn).overrun = none ∧ (walkErr env fn).isSome ∧
        genLoop env (fn :: fns) b offs = ⟨b.genFunc env fn, offs ++ [b.pos], walkErr env fn⟩) ∨
      ((b.genFunc env fn).overrun = none ∧ walkErr env fn = none ∧ (b.genFunc env fn).oom = true ∧
        genLoop env (fn :: fns) b offs =
          ⟨b.genFunc env fn, offs ++ [b.pos], some "code buffer overflow"⟩) ∨
      ((b.genFunc env fn).overrun = none ∧ walkErr env fn = none ∧ (b.genFunc env fn).oom = false ∧
        genLoop env (fn :: fns) b offs = genLoop env fns (b.genFunc env fn) (offs ++ [b.pos])) := by
  rw [genLoop]
  by_cases hrun : (b.genFunc env fn).overrun.isSome
  · exact Or.inl ⟨hrun, if_pos hrun⟩
  · have hrun' := Option.not_isSome_iff_eq_none.mp hrun
    rw [if_neg hrun]
    by_cases herr : (walkErr env fn).isSome
    · exact Or.inr (Or.inl ⟨hrun', herr, if_pos herr⟩)
    · have herr' := Option.not_isSome_iff_eq_none.mp herr
      rw [if_neg herr]
      cases hoom : (b.genFunc env fn).oom with
      | true => exact Or.inr (Or.inr (Or.inl ⟨hrun', herr', rfl, if_pos rfl⟩))
      | false => exact Or.inr (Or.inr (Or.inr ⟨hrun', herr', rfl, if_neg Bool.false_ne_true⟩))

section Patches

/-- Words are put at the positions `ps`, and nothing else happens. -/
structure Patched (ps : List ℤ) (b b' : CodeBuf) : Prop where
  pos : b'.pos = b.pos
  cap : b'.cap = b.cap
  oom : b'.oom = b.oom
  cfx : b'.cfx = b.cfx
  overrun : b'.overrun = b.overrun
  puts : b'.puts.map Prod.fst = ps.reverse ++ b.puts.map Prod.fst

theorem Patched.refl (b : CodeBuf) : Patched [] b b := ⟨rfl, rfl, rfl, rfl, rfl, rfl⟩

theorem Patched.put32 {ps : List ℤ} {p : ℤ} {w : BitVec 32} {b b' : CodeBuf}
    (h : Patched ps (b.put32 p w) b') : Patched (p :: ps) b b' where
  pos := h.pos
  cap := h.cap
  oom := h.oom
  cfx := h.cfx
  overrun := h.overrun
  puts := by simpa [CodeBuf.put32] using h.puts

theorem Patched.trans {ps ps' : List ℤ} {b b₁ b₂ : CodeBuf} (h : Patched ps b b₁)
    (h' : Patched ps' b₁ b₂) : Patched (ps ++ ps') b b₂ where
  pos := h'.pos.trans h.pos
  cap := h'.cap.trans h.cap
  oom := h'.oom.trans h.oom
  cfx := h'.cfx.trans h.cfx
  overrun := h'.overrun.trans h.overrun
  puts := by rw [h'.puts, h.puts, List.reverse_append, List.append_assoc]

theorem resolveBranches_patched {fs : List Fixup} (hr : b.overrun = none)
    (hlab : ∀ f ∈ fs, f.lab < Table.labOff.size) :
    Patched (fs.map Fixup.site) b (b.resolveBranches fs) := by
  induction fs generalizing b with
  | nil => exact .refl b
  | cons f fs ih =>
    rw [List.forall_mem_cons] at hlab
    rw [resolveBranches]
    rw [access_eq b hlab.1, hr, Option.isSome_none, if_neg Bool.false_ne_true]
    refine Patched.put32 (ih ?_ hlab.2)
    exact hr

theorem putWords_patched (b : CodeBuf) (p : ℤ) (ws : List (BitVec 32)) :
    Patched ((List.range ws.length).map fun i : ℕ => p + 4 * i) b (b.putWords p ws) := by
  induction ws generalizing b p with
  | nil => exact .refl b
  | cons w ws ih =>
    have hrange : ((List.range (w :: ws).length).map fun i : ℕ => p + 4 * (i : ℤ)) =
        p :: (List.range ws.length).map fun i : ℕ => p + 4 + 4 * (i : ℤ) := by
      rw [List.length_cons, List.range_succ_eq_map, List.map_cons, List.map_map]
      refine congrArg₂ _ (by simp) (List.map_congr_left fun i _ => ?_)
      simp only [Function.comp, Nat.cast_succ]
      ring
    rw [hrange]
    exact (ih (b.put32 p w) (p + 4)).put32

theorem patchCalls_patched (env : GenEnv) (offs : List ℤ) (cfx : List (ℤ × ℕ)) (b : CodeBuf) :
    ∃ ps, Patched ps b (patchCalls env offs cfx b) ∧
      ∀ p ∈ ps, ∃ c ∈ cfx, c.1 ≤ p ∧ p + 4 ≤ c.1 + 16 := by
  induction cfx generalizing b with
  | nil => exact ⟨[], .refl b, by simp⟩
  | cons c cfx ih =>
    obtain ⟨site, fn⟩ := c
    rw [patchCalls]
    obtain ⟨ps, hps, hin⟩ := ih (b.patchLoadimm site X9 (env.buf + BitVec.ofInt 64 (offs.getD fn 0)))
    refine ⟨_, (putWords_patched b site _).trans hps, ?_⟩
    intro p hp
    rcases List.mem_append.mp hp with hp | hp
    · obtain ⟨i, hi, rfl⟩ := List.mem_map.mp hp
      rw [List.mem_range] at hi
      simp only [loadimmWords, List.length_cons, List.length_nil] at hi
      exact ⟨_, List.mem_cons_self, by simp only; omega, by simp only; omega⟩
    · obtain ⟨c, hc, hle⟩ := hin p hp
      exact ⟨c, List.mem_cons_of_mem _ hc, hle⟩

end Patches

section Tables

theorem emit_overrun (b : CodeBuf) (w : BitVec 32) : (b.emit w).overrun = b.overrun := by
  rw [CodeBuf.emit]
  split <;> rfl

theorem emits_overrun (b : CodeBuf) (ws : List (BitVec 32)) :
    (b.emits ws).overrun = b.overrun := by
  induction ws generalizing b with
  | nil => rfl
  | cons w ws ih => rw [CodeBuf.emits, ih, emit_overrun]

theorem step_overrun {l : Line} (hr : b.overrun = none) :
    (b.step l).overrun = none ↔ l.InTable := by
  rw [CodeBuf.step, emits_overrun]
  by_cases hl : l.InTable
  · rw [(mark_same b hl).overrun]
    exact iff_of_true hr hl
  · refine iff_of_false ?_ hl
    cases l with
    | word w => exact absurd trivial hl
    | branch kind lab cond => exact absurd trivial hl
    | call fn => exact absurd trivial hl
    | place lab => exact absurd trivial hl
    | access t i =>
      rw [mark, access, if_neg (show ¬ i < t.size from hl)]
      exact Option.some_ne_none _

/-- Lines leave the tables exactly when one of them does. -/
theorem run_overrun {ls : List Line} (hr : b.overrun = none) :
    (b.run ls).overrun = none ↔ ∀ l ∈ ls, l.InTable := by
  induction ls generalizing b with
  | nil => exact iff_of_true hr (by simp)
  | cons l ls ih =>
    rw [run_cons hr, List.forall_mem_cons]
    by_cases hl : l.InTable
    · rw [ih ((step_overrun hr).mpr hl), and_iff_right hl]
    · have hsome := Option.ne_none_iff_isSome.mp ((step_overrun hr).not.mpr hl)
      rw [run_of_overrun hsome, step_overrun hr]
      exact iff_of_false hl fun h => hl h.1

/-- The recorded branches go to labels of the table. -/
def FixupsIn (b : CodeBuf) : Prop := ∀ f ∈ b.bfx, f.lab < Table.labOff.size

theorem FixupsIn.step {l : Line} (h : FixupsIn b) (hlab : l.LabelIn) : FixupsIn (b.step l) := by
  intro f hf
  rw [CodeBuf.step, emits_bfx] at hf
  cases l with
  | word w => exact h f hf
  | branch kind lab cond =>
    rw [mark, record] at hf
    split at hf
    · next hlt =>
      rw [access_eq b hlt] at hf
      rcases List.mem_append.mp hf with hf | hf
      · exact h f hf
      · obtain rfl := List.mem_singleton.mp hf
        exact hlab
    · exact h f hf
  | call fn =>
    rw [mark, recordCall] at hf
    split at hf
    · next hlt =>
      rw [access_eq b hlt] at hf
      exact h f hf
    · exact h f hf
  | place lab =>
    rw [mark, CodeBuf.place] at hf
    split at hf
    · next hlt =>
      rw [access_eq b hlt] at hf
      exact h f hf
    · exact h f hf
  | access t i =>
    rw [mark, access] at hf
    split at hf <;> exact h f hf

theorem FixupsIn.run {ls : List Line} (h : FixupsIn b) (hlab : ∀ l ∈ ls, l.LabelIn) :
    FixupsIn (b.run ls) := by
  induction ls generalizing b with
  | nil => exact h
  | cons l ls ih =>
    rw [List.forall_mem_cons] at hlab
    rw [CodeBuf.run]
    split
    · exact h
    · exact ih (h.step hlab.1) hlab.2

end Tables

section Functions

variable {env : GenEnv} {fn : Func} {fns : List Func}

theorem reached_inTable (ls : List Line) : ∀ l ∈ reached ls, l.InTable :=
  fun _ hl => by simpa using List.mem_takeWhile_imp hl

theorem reached_eq {ls : List Line} (h : ∀ l ∈ ls, l.InTable) : reached ls = ls :=
  List.takeWhile_eq_self_iff.mpr fun l hl => by simpa using h l hl

/-- The lines of a function are carried out from here. -/
def begin (b : CodeBuf) : CodeBuf := { b with bfx := [] }

theorem genFunc_run_overrun (hr : b.overrun = none) :
    (b.begin.run (listing env fn)).overrun = none ↔ ∀ l ∈ listing env fn, l.InTable :=
  run_overrun (show b.begin.overrun = none from hr)

/-- A function that keeps to the tables is patched at the recorded sites. -/
theorem genFunc_patched (hr : b.overrun = none) (hl : ∀ l ∈ listing env fn, l.InTable) :
    Patched ((b.begin.run (listing env fn)).bfx.map Fixup.site) (b.begin.run (listing env fn))
      (b.genFunc env fn) := by
  have hrun : (b.begin.run (listing env fn)).overrun = none := (genFunc_run_overrun hr).mpr hl
  have hbegin : FixupsIn b.begin := by simp [FixupsIn, CodeBuf.begin]
  have hgen : b.genFunc env fn = (b.begin.run (listing env fn)).resolveBranches
      (b.begin.run (listing env fn)).bfx :=
    if_neg (by simp [show ({ b with bfx := [] } : CodeBuf) = b.begin from rfl, hrun])
  rw [hgen]
  exact resolveBranches_patched hrun (hbegin.run (listing_labelIn env fn))

/-- A function that leaves a table is not patched. -/
theorem genFunc_stopped (hr : b.overrun = none) (hl : ¬ ∀ l ∈ listing env fn, l.InTable) :
    (b.begin.run (listing env fn)).overrun.isSome ∧
      b.genFunc env fn = b.begin.run (listing env fn) := by
  have hsome := Option.ne_none_iff_isSome.mp ((genFunc_run_overrun hr).not.mpr hl)
  exact ⟨hsome, if_pos hsome⟩

theorem genFunc_overrun (hr : b.overrun = none) :
    (b.genFunc env fn).overrun = none ↔ ∀ l ∈ listing env fn, l.InTable := by
  by_cases hl : ∀ l ∈ listing env fn, l.InTable
  · rw [(genFunc_patched hr hl).overrun]
    exact genFunc_run_overrun hr
  · obtain ⟨hsome, heq⟩ := genFunc_stopped hr hl
    rw [heq]
    exact genFunc_run_overrun hr

/-- At the begin of a function nothing has been dropped. -/
theorem Filled.at_begin (h : Filled cap k 0 b) : b.oom = false ∧ b.pos = 4 * k := by
  have hlow := h.low
  rcases h.room with ⟨hoom, hpos⟩ | ⟨-, -, hle⟩
  · exact ⟨hoom, by simpa using hpos⟩
  · push_cast at hle
    omega

theorem Filled.begin (h : Filled cap k 0 b) : Filled cap k 0 b.begin := { h with }

theorem Filled.noWrap (hcap : cap < 2 ^ 31) (h : Filled cap k 0 b) : NoWrap cap k := by
  have hhigh := h.high
  have hpos := h.at_begin.2
  rw [NoWrap]
  omega

theorem Filled.of_patched {ps : List ℤ} {b' : CodeBuf} (h : Filled cap k n b)
    (hp : Patched ps b b') : Filled cap k n b' where
  cap_eq := hp.cap.trans h.cap_eq
  running := hp.overrun.trans h.running
  low := hp.pos ▸ h.low
  high := hp.pos ▸ h.high
  room := by
    rw [hp.oom, hp.pos]
    exact h.room

theorem CallsIn.of_patched {ps : List ℤ} {b' : CodeBuf} (h : CallsIn b) (hp : Patched ps b b') :
    CallsIn b' := by
  rw [CallsIn, hp.cfx, hp.oom, hp.pos]
  exact h

/-- What `gen_func` does when its tables hold out. -/
theorem genFunc_filled (h : Filled cap k 0 b) (hc : CallsIn b)
    (hl : ∀ l ∈ listing env fn, l.InTable) (hw : NoWrap cap (k + wordCount (listing env fn))) :
    Filled cap k (wordCount (listing env fn)) (b.genFunc env fn) ∧ CallsIn (b.genFunc env fn) := by
  have hnone : Sites cap k [] b.begin := .nil
  obtain ⟨hfill, hcalls, -⟩ := run_lines h.begin hc hnone hl (by simpa using hw)
  rw [Nat.zero_add] at hfill
  have hpatch := genFunc_patched h.running hl
  exact ⟨hfill.of_patched hpatch, hcalls.of_patched hpatch⟩

/-- A function that has dropped nothing leaves the buffer ready for the next one. -/
theorem Filled.next (h : Filled cap k n b) (hoom : b.oom = false) : Filled cap (k + n) 0 b where
  cap_eq := h.cap_eq
  running := h.running
  low := by
    rcases h.room with ⟨-, hpos⟩ | ⟨hyes, -⟩
    · push_cast
      omega
    · simp [hoom] at hyes
  high := h.high
  room := by
    rcases h.room with ⟨-, hpos⟩ | ⟨hyes, -⟩
    · refine Or.inl ⟨hoom, ?_⟩
      push_cast
      omega
    · simp [hoom] at hyes

theorem Filled.oom_iff (h : Filled cap k n b) (hn : 0 < n) :
    b.oom = false ↔ 4 * ((k + n : ℕ) : ℤ) ≤ cap := by
  have hhigh := h.high
  push_cast
  rcases h.room with ⟨hoom, hpos⟩ | ⟨hoom, hfull, hle⟩
  · simp only [hoom, true_iff]
    omega
  · simp only [hoom, Bool.true_eq_false, false_iff]
    omega

end Functions

end CodeBuf

section Programs

open CodeBuf

variable {env : GenEnv} {cap : ℤ} {k : ℕ} {b : CodeBuf}

/-- A function has code: it ends with a return. -/
theorem wordCount_listing_pos (env : GenEnv) (fn : Func) : 0 < wordCount (listing env fn) := by
  have hmem : Line.word retWord ∈ listing env fn := by
    simp [listing, genFunc, Bind.bind, Walk.bind, emit, Walk.line]
  obtain ⟨l, l', heq⟩ := List.append_of_mem hmem
  rw [heq, wordCount_append, wordCount_cons]
  simp [Line.words]

theorem genLoop_oom (env : GenEnv) (fns : List Func) (b : CodeBuf) (offs : List ℤ)
    (hb : b.oom = false) (herr : (genLoop env fns b offs).err = none)
    (hrun : (genLoop env fns b offs).buf.overrun = none) :
    (genLoop env fns b offs).buf.oom = false := by
  induction fns generalizing b offs with
  | nil => exact hb
  | cons fn fns ih =>
    rcases genLoop_cases env fn fns b offs with
      ⟨hover, heq⟩ | ⟨-, hfail, heq⟩ | ⟨-, -, -, heq⟩ | ⟨-, -, hoom, heq⟩ <;>
      rw [heq] at herr hrun ⊢
    · exact absurd hrun (Option.isSome_iff_ne_none.mp hover)
    · exact absurd herr (Option.isSome_iff_ne_none.mp hfail)
    · exact absurd herr (Option.some_ne_none _)
    · exact ih _ _ hoom herr hrun

/-- How `cc_codegen` ends. -/
theorem ccCodegen_cases (env : GenEnv) (cap : ℤ) :
    let r := genLoop env env.funcs (.start env cap) []
    (r.buf.overrun.isSome ∧ ccCodegen env cap = ⟨r.buf, none, none, none⟩) ∨
      (r.buf.overrun = none ∧ r.err.isSome ∧ ccCodegen env cap = ⟨r.buf, r.err, some (-1), none⟩) ∨
      (r.buf.overrun = none ∧ r.err = none ∧
        (ccCodegen env cap).buf = patchCalls env r.codeOff r.buf.cfx r.buf ∧
        (env.findFunc "main" = none ∧ (ccCodegen env cap).err.isSome ∧
            (ccCodegen env cap).ret = some (-1) ∨
          (env.findFunc "main").isSome ∧ (ccCodegen env cap).err = none)) := by
  intro r
  by_cases hrun : r.buf.overrun.isSome
  · exact Or.inl ⟨hrun, if_pos hrun⟩
  · have hrun' := Option.not_isSome_iff_eq_none.mp hrun
    by_cases herr : r.err.isSome
    · refine Or.inr (Or.inl ⟨hrun', herr, ?_⟩)
      rw [ccCodegen, if_neg hrun, if_pos herr]
    · refine Or.inr (Or.inr ⟨hrun', Option.not_isSome_iff_eq_none.mp herr, ?_⟩)
      rw [ccCodegen, if_neg hrun, if_neg herr]
      cases env.findFunc "main" with
      | none => exact ⟨rfl, Or.inl ⟨rfl, rfl, rfl⟩⟩
      | some i => exact ⟨rfl, Or.inr ⟨rfl, rfl⟩⟩

theorem filled_start (env : GenEnv) (cap : ℤ) : Filled cap 0 0 (.start env cap) where
  cap_eq := rfl
  running := rfl
  low := le_rfl
  high := le_max_right _ _
  room := Or.inl ⟨rfl, rfl⟩

theorem callsIn_start (env : GenEnv) (cap : ℤ) : CallsIn (.start env cap) := by
  simp [CallsIn, CodeBuf.start]

end Programs

end XinuRpi4.Compiler
