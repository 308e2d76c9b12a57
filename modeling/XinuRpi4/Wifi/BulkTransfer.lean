import XinuRpi4.Wifi.Backplane

/-!
# What a bulk transfer moves

A turn of more than 64 bytes goes in whole blocks of 64, and the bytes behind the last whole
block are counted as moved. So a transfer is exact just if each of its turns moves at most 64
bytes or whole blocks. No command leaves the window.
-/

namespace XinuRpi4.Wifi

open XinuRpi4.Foundation

variable {m m' m₁ : Sdio} {write : Bool} {p n len addr : ℕ}

/-- The bytes at the addresses `A` of the chip and those of the host from `p` on, copied the way
`write` says. -/
def Moves (write : Bool) (m m' : Sdio) (A : ℕ → ℕ) (p n : ℕ) (arrives : ℕ → Prop) : Prop :=
  if write then Copies m.mem m.host m'.mem A (p + ·) n arrives ∧ m'.host = m.host
  else Copies m.host m.mem m'.host (p + ·) A n arrives ∧ m'.mem = m.mem

theorem Moves.zero {A : ℕ → ℕ} {P : ℕ → Prop} (hmem : m'.mem = m.mem) (hhost : m'.host = m.host) :
    Moves write m m' A p 0 P := by
  unfold Moves
  rw [hmem, hhost]
  split_ifs
  · exact ⟨.zero, rfl⟩
  · exact ⟨.zero, rfl⟩

theorem Moves.append {A : ℕ → ℕ} {P Q R : ℕ → Prop} {k : ℕ} (h₁ : Moves write m m₁ A p n P)
    (h₂ : Moves write m₁ m' (fun i => A (n + i)) (p + n) k Q)
    (hA : ∀ i < n, ∀ j < k, A i ≠ A (n + j)) (hP : ∀ i < n, (R i ↔ P i))
    (hQ : ∀ i < k, (R (n + i) ↔ Q i)) : Moves write m m' A p (n + k) R := by
  have hadd : (fun i => p + n + i) = fun i => p + (n + i) := funext fun i => Nat.add_assoc ..
  unfold Moves at *
  rw [hadd] at h₂
  split_ifs at * with hwrite
  · obtain ⟨h₁, hhost₁⟩ := h₁
    obtain ⟨h₂, hhost₂⟩ := h₂
    rw [hhost₁] at h₂ hhost₂
    exact ⟨h₁.append h₂ hA hP hQ, hhost₂⟩
  · obtain ⟨h₁, hmem₁⟩ := h₁
    obtain ⟨h₂, hmem₂⟩ := h₂
    rw [hmem₁] at h₂ hmem₂
    exact ⟨h₁.append h₂ (fun i hi j _ => by omega) hP hQ, hmem₂⟩

theorem Moves.extend {A : ℕ → ℕ} {P : ℕ → Prop} {k : ℕ} (h : Moves write m m' A p n P) (hle : n ≤ k)
    (hA : ∀ i < n, ∀ j < k - n, A i ≠ A (n + j)) :
    Moves write m m' A p k fun i => i < n ∧ P i := by
  unfold Moves at *
  split_ifs at * with hwrite
  · exact ⟨h.1.extend hle hA, h.2⟩
  · exact ⟨h.1.extend hle fun i hi j _ => by omega, h.2⟩

theorem Moves.congr {A : ℕ → ℕ} {P Q : ℕ → Prop} (h : Moves write m m' A p n P)
    (hP : ∀ i < n, (P i ↔ Q i)) : Moves write m m' A p n Q := by
  unfold Moves at *
  split_ifs at * with hwrite
  · exact ⟨h.1.congr hP, h.2⟩
  · exact ⟨h.1.congr hP, h.2⟩

theorem Moves.places {A A' : ℕ → ℕ} {P : ℕ → Prop} (h : Moves write m m' A p n P)
    (hA : ∀ i < n, A' i = A i) : Moves write m m' A' p n P := by
  unfold Moves at *
  split_ifs at * with hwrite
  · exact ⟨h.1.places hA fun _ _ => rfl, h.2⟩
  · exact ⟨h.1.places (fun _ _ => rfl) hA, h.2⟩

/-- The memories that a move starts from and ends in. -/
theorem Moves.of_eq {A : ℕ → ℕ} {P : ℕ → Prop} {u u' : Sdio} (h : Moves write m m' A p n P)
    (hmem : u.mem = m.mem) (hhost : u.host = m.host) (hmem' : u'.mem = m'.mem)
    (hhost' : u'.host = m'.host) : Moves write u u' A p n P := by
  unfold Moves at *
  rwa [hmem, hhost, hmem', hhost']

/-- The data of a command moves, and nothing else changes but the time. -/
structure SameCommand (m m' : Sdio) : Prop where
  regs : m'.regs = m.regs
  cmd : m'.cmd = m.cmd
  luck : m'.luck = m.luck
  sent : m'.sent = m.sent

theorem SameCommand.trans (h : SameCommand m m₁) (h' : SameCommand m₁ m') : SameCommand m m' :=
  ⟨h'.regs.trans h.regs, h'.cmd.trans h.cmd, h'.luck.trans h.luck, h'.sent.trans h.sent⟩

theorem wait_run (m : Sdio) : wait.run m =
    if m.luck m.tick then some ((), { m with tick := m.tick + 1 }) else none := by
  change (if m.luck m.tick then return () else failure : SdioM Unit).run { m with tick := m.tick + 1 } = _
  split_ifs <;> rfl

theorem wait_bind_run {α : Type} (f : Unit → SdioM α) (m : Sdio) : (wait >>= f).run m =
    if m.luck m.tick then (f ()).run { m with tick := m.tick + 1 } else none := by
  rw [StateT.run_bind, wait_run]
  split_ifs <;> rfl

theorem sdioCmd52_run (a : ℕ) (v : UInt8) (m : Sdio) : (sdioCmd52 a v).run m =
    if m.luck m.tick then
      some ((), { m with tick := m.tick + 1, regs := Function.update m.regs a v })
    else none := by
  rw [sdioCmd52, wait_bind_run]
  split_ifs <;> rfl

theorem window_bytes (haddr : addr < 2 ^ 32) :
    ((UInt8.ofNat (addr / sbWsize * sbWsize / 2 ^ 8)).toNat * 2 ^ 8 +
      (UInt8.ofNat (addr / sbWsize * sbWsize / 2 ^ 8 / 2 ^ 8)).toNat * 2 ^ 16 +
      (UInt8.ofNat (addr / sbWsize * sbWsize / 2 ^ 8 / 2 ^ 8 / 2 ^ 8)).toNat * 2 ^ 24) /
        sbWsize * sbWsize = addr / sbWsize * sbWsize := by
  simp only [UInt8.toNat_ofNat', sbWsize]
  omega

theorem update_three (r : ℕ → UInt8) (a : ℕ) (x y z : UInt8) :
    Function.update (Function.update (Function.update r a x) (a + 1) y) (a + 2) z a = x ∧
      Function.update (Function.update (Function.update r a x) (a + 1) y) (a + 2) z (a + 1) = y ∧
      Function.update (Function.update (Function.update r a x) (a + 1) y) (a + 2) z (a + 2) = z := by
  simp

/-- The window is moved to the address. -/
theorem sdioSetWindow_run (haddr : addr < 2 ^ 32) (h : (sdioSetWindow addr).run m = some ((), m')) :
    m'.window = addr / sbWsize * sbWsize ∧ m'.mem = m.mem ∧ m'.host = m.host ∧
      m'.luck = m.luck ∧ m'.sent = m.sent := by
  unfold sdioSetWindow at h
  obtain ⟨_, m₁, h₁, h⟩ := bind_run_iff.mp h
  obtain ⟨_, m₂, h₂, h₃⟩ := bind_run_iff.mp h
  rw [sdioCmd52_run] at h₁ h₂ h₃
  split_ifs at h₁ h₂ h₃
  obtain ⟨-, rfl⟩ := Prod.mk.inj (Option.some.inj h₁)
  obtain ⟨-, rfl⟩ := Prod.mk.inj (Option.some.inj h₂)
  obtain ⟨-, rfl⟩ := Prod.mk.inj (Option.some.inj h₃)
  refine ⟨?_, rfl, rfl, rfl, rfl⟩
  obtain ⟨hlow, hmid, hhigh⟩ := update_three m.regs sbAddrlow
    (UInt8.ofNat (addr / sbWsize * sbWsize / 2 ^ 8))
    (UInt8.ofNat (addr / sbWsize * sbWsize / 2 ^ 8 / 2 ^ 8))
    (UInt8.ofNat (addr / sbWsize * sbWsize / 2 ^ 8 / 2 ^ 8 / 2 ^ 8))
  refine Eq.trans ?_ (window_bytes haddr)
  unfold Sdio.window
  dsimp only
  rw [hlow, hmid, hhigh]

theorem sdioCmd52_isSome (hluck : ∀ k, m.luck k = true) (a : ℕ) (v : UInt8) :
    ∃ m', (sdioCmd52 a v).run m = some ((), m') ∧ m'.luck = m.luck := by
  rw [sdioCmd52_run, if_pos (hluck _)]
  exact ⟨_, rfl, rfl⟩

theorem sdioSetWindow_isSome (hluck : ∀ k, m.luck k = true) (addr : ℕ) :
    ∃ m', (sdioSetWindow addr).run m = some ((), m') := by
  unfold sdioSetWindow
  obtain ⟨m₁, h₁, hluck₁⟩ := sdioCmd52_isSome hluck sbAddrlow
    (UInt8.ofNat (addr / sbWsize * sbWsize / 2 ^ 8))
  rw [← hluck₁] at hluck
  obtain ⟨m₂, h₂, hluck₂⟩ := sdioCmd52_isSome hluck (sbAddrlow + 1)
    (UInt8.ofNat (addr / sbWsize * sbWsize / 2 ^ 8 / 2 ^ 8))
  rw [← hluck₂] at hluck
  obtain ⟨m₃, h₃, -⟩ := sdioCmd52_isSome hluck (sbAddrlow + 2)
    (UInt8.ofNat (addr / sbWsize * sbWsize / 2 ^ 8 / 2 ^ 8 / 2 ^ 8))
  exact ⟨m₃, bind_run_iff.mpr ⟨_, _, h₁, bind_run_iff.mpr ⟨_, _, h₂, h₃⟩⟩⟩

/-- The chip has at least a word left to move. -/
theorem word_moves (write : Bool) (p : ℕ) (m : Sdio) (hleft : 4 ≤ m.left) :
    SameCommand m (m.word write p) ∧ (m.word write p).moved = m.moved + 4 ∧
      Moves write m (m.word write p) (m.next + ·) p 4 fun _ => True := by
  have hmin : min 4 m.left = 4 := min_eq_left hleft
  unfold Sdio.word Moves
  dsimp only
  rw [hmin]
  generalize m.next = q
  cases write with
  | true =>
    simp only [if_true]
    refine ⟨⟨rfl, rfl, rfl, rfl⟩, trivial, ⟨fun i hi _ => ?_, fun _ _ h => absurd trivial h, fun x hx => ?_⟩,
      trivial⟩
    · simp [hi]
    · have hout : ¬ (q ≤ x ∧ x < q + 4) := by
        intro h
        exact hx (x - q) (by omega) (by omega)
      simp [hout]
  | false =>
    simp only [Bool.false_eq_true, if_false]
    refine ⟨⟨rfl, rfl, rfl, rfl⟩, trivial, ⟨fun i hi _ => ?_, fun _ _ h => absurd trivial h, fun x hx => ?_⟩,
      trivial⟩
    · simp [hi]
    · have hout : ¬ (p ≤ x ∧ x < p + 4) := by
        intro h
        exact hx (x - p) (by omega) (by omega)
      simp [hout]

/-- The words of a turn, one behind the other. -/
theorem pioWords_run (write : Bool) (n p : ℕ) (m : Sdio) (hincr : m.cmd.incr = true)
    (hleft : 4 * n ≤ m.left) :
    ∃ m', (pioWords write n p).run m = some ((), m') ∧ SameCommand m m' ∧
      m'.moved = m.moved + 4 * n ∧ Moves write m m' (m.next + ·) p (4 * n) fun _ => True := by
  induction n generalizing p m with
  | zero => exact ⟨m, rfl, ⟨rfl, rfl, rfl, rfl⟩, rfl, .zero rfl rfl⟩
  | succ n ih =>
    obtain ⟨hsame₁, hmoved₁, hmoves₁⟩ := word_moves write p m (by omega)
    have hrun₁ : (pioWord write p).run m = some ((), m.word write p) := rfl
    generalize m.word write p = m₁ at *
    have hincr₁ : m₁.cmd.incr = true := by rw [hsame₁.cmd]; exact hincr
    have hleft₁ : 4 * n ≤ m₁.left := by
      unfold Sdio.left at *
      rw [hsame₁.cmd, hmoved₁]
      omega
    have hnext : m₁.next = m.next + 4 := by
      unfold Sdio.next Sdio.window
      rw [hsame₁.cmd, hsame₁.regs, hmoved₁, hincr]
      simp only [if_true]
      omega
    obtain ⟨m', hrun', hsame', hmoved', hmoves'⟩ := ih (p + 4) m₁ hincr₁ hleft₁
    refine ⟨m', bind_run_iff.mpr ⟨_, _, hrun₁, hrun'⟩, hsame₁.trans hsame', by omega, ?_⟩
    have hplace : (fun i => m₁.next + i) = fun i => m.next + (4 + i) := by
      funext i
      omega
    rw [hplace] at hmoves'
    have hall := hmoves₁.append hmoves' (R := fun _ => True) (fun i hi j _ => by omega)
      (fun _ _ => Iff.rfl) fun _ _ => Iff.rfl
    have hcount : 4 * (n + 1) = 4 + 4 * n := by omega
    rw [hcount]
    exact hall

/-- The state behind a wait. -/
def waited (m : Sdio) : Sdio := { m with tick := m.tick + 1 }

theorem waited_same (m : Sdio) : SameCommand m (waited m) := ⟨rfl, rfl, rfl, rfl⟩

/-- By induction on the words that are left. -/
theorem pioBlocks_run {fn total words : ℕ} (hincr : m.cmd.incr = true) (hleft : 4 * words ≤ m.left)
    (h : (pioBlocks write fn total words p).run m = some ((), m')) :
    SameCommand m m' ∧ Moves write m m' (m.next + ·) p (4 * words) fun _ => True := by
  induction words using Nat.strong_induction_on generalizing p m with
  | _ words ih =>
    rw [pioBlocks] at h
    by_cases hwords : words = 0
    · rw [dif_pos hwords] at h
      obtain ⟨-, rfl⟩ := Prod.mk.inj (Option.some.inj h)
      subst hwords
      exact ⟨⟨rfl, rfl, rfl, rfl⟩, .zero rfl rfl⟩
    · rw [dif_neg hwords, wait_bind_run] at h
      split_ifs at h with hluck
      have hpos : 0 < pioChunk fn total words := pioChunk_pos (Nat.pos_of_ne_zero hwords)
      have hle := pioChunk_le fn total words
      generalize pioChunk fn total words = k at *
      obtain ⟨m₁, hrun₁, hsame₁, hmoved₁, hmoves₁⟩ := pioWords_run write k p (waited m) hincr (by
        have hsame : (waited m).left = m.left := rfl
        omega)
      obtain ⟨_, m₂, hwordsRun, h⟩ := bind_run_iff.mp h
      obtain ⟨-, rfl⟩ := Prod.mk.inj (Option.some.inj (hrun₁.symm.trans hwordsRun))
      have hmoved : (waited m).moved = m.moved := rfl
      have hcmd₁ : m₁.cmd = m.cmd := hsame₁.cmd
      have hnext : m₁.next = m.next + 4 * k := by
        unfold Sdio.next Sdio.window
        rw [hcmd₁, hsame₁.regs, hmoved₁, hmoved, hincr]
        simp only [if_true]
        exact (Nat.add_assoc ..).symm
      have hleft₁ : 4 * (words - k) ≤ m₁.left := by
        unfold Sdio.left at *
        rw [hcmd₁, hmoved₁, hmoved]
        omega
      obtain ⟨hsame₂, hmoves₂⟩ := ih (words - k) (by omega) (by rw [hcmd₁]; exact hincr) hleft₁ h
      refine ⟨((waited_same m).trans hsame₁).trans hsame₂, ?_⟩
      have hplace : (fun i => m₁.next + i) = fun i => m.next + (4 * k + i) := by
        funext i
        omega
      rw [hplace] at hmoves₂
      have hfirst : Moves write m m₁ (m.next + ·) p (4 * k) fun _ => True :=
        hmoves₁.of_eq rfl rfl rfl rfl
      have hall := hfirst.append hmoves₂ (R := fun _ => True) (fun i hi j _ => by omega)
        (fun _ _ => Iff.rfl) fun _ _ => Iff.rfl
      have hcount : 4 * words = 4 * k + 4 * (words - k) := by omega
      rw [hcount]
      exact hall

theorem pioBlocks_isSome {fn total words : ℕ} (hluck : ∀ k, m.luck k = true)
    (hincr : m.cmd.incr = true) (hleft : 4 * words ≤ m.left) :
    ∃ m', (pioBlocks write fn total words p).run m = some ((), m') := by
  induction words using Nat.strong_induction_on generalizing p m with
  | _ words ih =>
    rw [pioBlocks]
    by_cases hwords : words = 0
    · rw [dif_pos hwords]
      exact ⟨m, rfl⟩
    · rw [dif_neg hwords, wait_bind_run, if_pos (hluck _)]
      have hpos : 0 < pioChunk fn total words := pioChunk_pos (Nat.pos_of_ne_zero hwords)
      have hle := pioChunk_le fn total words
      generalize pioChunk fn total words = k at *
      have hsame : (waited m).left = m.left := rfl
      obtain ⟨m₁, hrun₁, hsame₁, hmoved₁, -⟩ := pioWords_run write k p (waited m) hincr (by omega)
      have hmoved : (waited m).moved = m.moved := rfl
      have hcmd₁ : m₁.cmd = m.cmd := hsame₁.cmd
      have hleft₁ : 4 * (words - k) ≤ m₁.left := by
        unfold Sdio.left at *
        rw [hcmd₁, hmoved₁, hmoved]
        omega
      have hluck₁ : ∀ k, m₁.luck k = true := by
        rw [hsame₁.luck]
        exact hluck
      obtain ⟨m', hrun'⟩ := ih (words - k) (by omega) hluck₁ (by rw [hcmd₁]; exact hincr) hleft₁
      exact ⟨m', bind_run_iff.mpr ⟨_, _, hrun₁, hrun'⟩⟩

/-- The bytes of a turn that are moved: those in whole blocks, if there is more than one block. -/
def landed (c : ℕ) : ℕ := if 64 < c then c / 64 * 64 else c

theorem landed_le (c : ℕ) : landed c ≤ c := by
  unfold landed
  split_ifs <;> omega

theorem landed_eq_iff (c : ℕ) : landed c = c ↔ c ≤ 64 ∨ 64 ∣ c := by
  unfold landed
  split_ifs <;> omega

/-- What a command of `wifi_sbmem` does for a turn of `c` bytes. -/
structure Commanded (write : Bool) (m m' : Sdio) (off p c : ℕ) : Prop where
  luck : m'.luck = m.luck
  sent : ∃ cmd : Cmd53, m'.sent = m.sent ++ [cmd] ∧ cmd.InWindow
  moves : Moves write m m' (m.window + off + ·) p c fun i => i < landed c

/-- The command that is sent, and the state when it has been. -/
def commandOf (write : Bool) (off c : ℕ) : Cmd53 where
  write := write
  fn := 1
  blkmode := decide (64 < c)
  incr := true
  off := (off + 0x8000) % 2 ^ 17
  count := (if 64 < c then c / 64 else c) % 2 ^ 9

theorem commandOf_place {off : ℕ} (hoff : off < sbWsize) (c : ℕ) :
    (commandOf write off c).place = off := by
  unfold Cmd53.place commandOf sbWsize at *
  dsimp only
  omega

theorem commandOf_size {c : ℕ} (hc : c ≤ sbXfer) (off : ℕ) :
    (commandOf write off c).size = landed c := by
  unfold Cmd53.size commandOf landed sbXfer at *
  by_cases hlong : 64 < c
  · simp only [hlong, decide_true, if_true]
    omega
  · simp only [hlong, decide_false, if_false, Bool.false_eq_true]
    omega

def commanded (c : Cmd53) (m : Sdio) : Sdio :=
  waited { waited m with cmd := c, moved := 0, sent := m.sent ++ [c] }

theorem wifiCmd53Pio_run_eq {c off : ℕ} (hc : c ≠ 0) (m : Sdio) :
    (wifiCmd53Pio write 1 (off + 0x8000) p c true).run m =
      if m.luck m.tick then
        if m.luck (m.tick + 1) then
          (pioBlocks write 1 (landed c) ((landed c + 3) / 4) p).run
            (commanded (commandOf write off c) m)
        else none
      else none := by
  have hrun : (wifiCmd53Pio write 1 (off + 0x8000) p c true) = (do
      wait
      issue (commandOf write off c)
      wait
      pioBlocks write 1 (landed c) ((landed c + 3) / 4) p) := by
    unfold wifiCmd53Pio
    rw [if_neg hc]
    have hsize : blockSize 1 = 64 := rfl
    unfold commandOf landed
    rw [hsize]
    by_cases hlong : 64 < c
    · simp only [hlong, decide_true, if_true]
    · simp only [hlong, decide_false, if_false, Bool.false_eq_true]
  rw [hrun, wait_bind_run]
  refine if_congr Iff.rfl ?_ rfl
  have hissue : ∀ (f : Unit → SdioM Unit), (issue (commandOf write off c) >>= f).run
      { m with tick := m.tick + 1 } = (f ()).run
        { waited m with cmd := commandOf write off c, moved := 0,
                        sent := m.sent ++ [commandOf write off c] } := fun _ => rfl
  rw [hissue, wait_bind_run]
  rfl

section Command

variable {c off : ℕ}

theorem landed_words (h4 : 4 ∣ c) : 4 * ((landed c + 3) / 4) = landed c := by
  unfold landed
  split_ifs <;> omega

theorem commanded_left (hc : c ≤ sbXfer) (m : Sdio) :
    (commanded (commandOf write off c) m).left = landed c := by
  have hleft : (commanded (commandOf write off c) m).left = (commandOf write off c).size - 0 := rfl
  rw [hleft, commandOf_size hc, Nat.sub_zero]

theorem commanded_next (hoff : off < sbWsize) (m : Sdio) :
    (commanded (commandOf write off c) m).next = m.window + off := by
  have hnext : (commanded (commandOf write off c) m).next =
      m.window + (commandOf write off c).place + 0 := rfl
  rw [hnext, commandOf_place hoff, Nat.add_zero]

/-- A turn that stays in the window is done by one command. -/
theorem wifiCmd53Pio_run (hc : c ≠ 0) (hmax : c ≤ sbXfer) (h4 : 4 ∣ c) (hoff : off + c ≤ sbWsize)
    (h : (wifiCmd53Pio write 1 (off + 0x8000) p c true).run m = some ((), m')) :
    Commanded write m m' off p c := by
  rw [wifiCmd53Pio_run_eq hc] at h
  split_ifs at h
  have hin : off < sbWsize := by omega
  have hle := landed_le c
  obtain ⟨hsame, hmoves⟩ := pioBlocks_run rfl (by rw [landed_words h4, commanded_left hmax]) h
  rw [landed_words h4, commanded_next hin] at hmoves
  refine ⟨hsame.luck, ⟨commandOf write off c, hsame.sent, ?_⟩, ?_⟩
  · unfold Cmd53.InWindow
    rw [commandOf_place hin, commandOf_size hmax]
    omega
  · have hwhole : Moves write m m' (m.window + off + ·) p (landed c) fun _ => True :=
      hmoves.of_eq rfl rfl rfl rfl
    exact (hwhole.extend hle fun i hi j _ => by omega).congr fun i _ => and_iff_left trivial

theorem wifiCmd53Pio_isSome (hluck : ∀ k, m.luck k = true) (hc : c ≠ 0) (hmax : c ≤ sbXfer)
    (h4 : 4 ∣ c) : ∃ m', (wifiCmd53Pio write 1 (off + 0x8000) p c true).run m = some ((), m') := by
  rw [wifiCmd53Pio_run_eq hc, if_pos (hluck _), if_pos (hluck _)]
  exact pioBlocks_isSome hluck rfl (by rw [landed_words h4, commanded_left hmax])

end Command

/-- The byte at a position of the transfer is moved in its turn. -/
inductive Arrives : ℕ → ℕ → ℕ → Prop
  | here {len addr i : ℕ} (hlen : len ≠ 0) (hi : i < landed (sbChunk len addr)) : Arrives len addr i
  | behind {len addr i : ℕ} (hlen : len ≠ 0)
      (h : Arrives (len - sbChunk len addr) ((addr + sbChunk len addr) % 2 ^ 32) i) :
      Arrives len addr (sbChunk len addr + i)

/-- The sizes of the turns. -/
def sbChunks (len addr : ℕ) : List ℕ :=
  if h : len = 0 then []
  else sbChunk len addr ::
    sbChunks (len - sbChunk len addr) ((addr + sbChunk len addr) % 2 ^ 32)
termination_by len
decreasing_by
  have hpos : 0 < sbChunk len addr := sbChunk_pos h
  omega

/-- Every turn moves at most 64 bytes or whole blocks of 64. -/
def WholeBlocks (len addr : ℕ) : Prop := ∀ c ∈ sbChunks len addr, c ≤ 64 ∨ 64 ∣ c

theorem sbChunks_cons (h : len ≠ 0) : sbChunks len addr = sbChunk len addr ::
    sbChunks (len - sbChunk len addr) ((addr + sbChunk len addr) % 2 ^ 32) := by
  rw [sbChunks, dif_neg h]

theorem sbChunk_le (len addr : ℕ) : sbChunk len addr ≤ len := by
  unfold sbChunk
  omega

theorem arrives_here {i : ℕ} (hlen : len ≠ 0) (hi : i < sbChunk len addr) :
    Arrives len addr i ↔ i < landed (sbChunk len addr) := by
  constructor
  · intro h
    cases h with
    | here _ h => exact h
    | behind _ h => omega
  · exact .here hlen

theorem arrives_behind {i : ℕ} (hlen : len ≠ 0) :
    Arrives len addr (sbChunk len addr + i) ↔
      Arrives (len - sbChunk len addr) ((addr + sbChunk len addr) % 2 ^ 32) i := by
  constructor
  · intro h
    generalize hk : sbChunk len addr + i = k at h
    cases h with
    | here _ h =>
      have hle := landed_le (sbChunk len addr)
      omega
    | behind _ h =>
      obtain rfl : _ = i := Nat.add_left_cancel hk.symm
      exact h
  · exact .behind hlen

/-- All bytes arrive just if every turn moves all of its bytes. -/
theorem wholeBlocks_iff (len addr : ℕ) : WholeBlocks len addr ↔ ∀ i < len, Arrives len addr i := by
  induction len using Nat.strong_induction_on generalizing addr with
  | _ len ih =>
    by_cases hlen : len = 0
    · subst hlen
      simp [WholeBlocks, sbChunks]
    · have hpos : 0 < sbChunk len addr := sbChunk_pos hlen
      have hle := sbChunk_le len addr
      have hland := landed_le (sbChunk len addr)
      have hrest := ih (len - sbChunk len addr) (by omega) ((addr + sbChunk len addr) % 2 ^ 32)
      unfold WholeBlocks at hrest ⊢
      rw [sbChunks_cons hlen, List.forall_mem_cons, hrest, ← landed_eq_iff]
      constructor
      · rintro ⟨hwhole, hall⟩ i hi
        rcases Nat.lt_or_ge i (sbChunk len addr) with hlt | hge
        · rw [arrives_here hlen hlt, hwhole]
          exact hlt
        · obtain ⟨k, rfl⟩ := Nat.exists_eq_add_of_le hge
          rw [arrives_behind hlen]
          exact hall k (by omega)
      · intro hall
        refine ⟨?_, fun i hi => (arrives_behind hlen).mp (hall _ (by omega))⟩
        by_contra hne
        have hlast := (arrives_here hlen (i := landed (sbChunk len addr)) (by omega)).mp
          (hall _ (by omega))
        omega

theorem sbChunk_dvd (h4 : 4 ∣ len) (haddr : 4 ∣ addr) : 4 ∣ sbChunk len addr := by
  unfold sbChunk sbXfer sbWsize
  omega

theorem sbChunk_window (len addr : ℕ) : addr % sbWsize + sbChunk len addr ≤ sbWsize := by
  unfold sbChunk sbXfer sbWsize
  omega

/-- The length of the command is the size of the turn. -/
theorem sbChunk_round (h4 : 4 ∣ len) (haddr : 4 ∣ addr) :
    (sbChunk len addr + 3) / 4 * 4 = sbChunk len addr := by
  have hdvd := sbChunk_dvd h4 haddr
  omega

/-- The memories differ where bytes have arrived, and no command has left the window. -/
structure Transferred (write : Bool) (m m' : Sdio) (p len addr : ℕ) : Prop where
  moves : Moves write m m' (fun i => (addr + i) % 2 ^ 32) p len (Arrives len addr)
  commands : ∃ cmds, m'.sent = m.sent ++ cmds ∧ ∀ c ∈ cmds, c.InWindow

/-- By induction on the bytes that are left. -/
theorem sbmemLoop_run (haddr : addr < 2 ^ 32) (hlen : len < 2 ^ 31) (h4 : 4 ∣ len) (h4' : 4 ∣ addr)
    (h : (sbmemLoop write p len addr).run m = some ((), m')) : Transferred write m m' p len addr := by
  induction len using Nat.strong_induction_on generalizing addr p m with
  | _ len ih =>
    rw [sbmemLoop] at h
    by_cases hzero : len = 0
    · rw [dif_pos hzero] at h
      obtain ⟨-, rfl⟩ := Prod.mk.inj (Option.some.inj h)
      subst hzero
      exact ⟨.zero rfl rfl, [], by simp, by simp⟩
    · rw [dif_neg hzero, sbChunk_round h4 h4'] at h
      have hpos : 0 < sbChunk len addr := sbChunk_pos hzero
      have hle := sbChunk_le len addr
      have hdvd := sbChunk_dvd h4 h4'
      have hwindow := sbChunk_window len addr
      have hmax : sbChunk len addr ≤ sbXfer := by unfold sbChunk; omega
      have hland : ∀ i < sbChunk len addr, (Arrives len addr i ↔ i < landed (sbChunk len addr)) :=
        fun i hi => arrives_here hzero hi
      have hbehind : ∀ i, (Arrives len addr (sbChunk len addr + i) ↔
          Arrives (len - sbChunk len addr) ((addr + sbChunk len addr) % 2 ^ 32) i) :=
        fun i => arrives_behind hzero
      generalize sbChunk len addr = c at *
      obtain ⟨_, m₁, hset, h⟩ := bind_run_iff.mp h
      obtain ⟨_, m₂, hpio, hloop⟩ := bind_run_iff.mp h
      obtain ⟨hwin, hmem, hhost, -, hsent⟩ := sdioSetWindow_run haddr hset
      have hturn := wifiCmd53Pio_run hpos.ne' hmax hdvd hwindow hpio
      obtain ⟨hmoves, cmds, hcmds, hall⟩ := ih (len - c) (by omega) (Nat.mod_lt _ (by decide))
        (by omega) (by omega) (by omega) hloop
      obtain ⟨cmd, hcmd, hin⟩ := hturn.sent
      refine ⟨?_, cmd :: cmds, ?_, ?_⟩
      · have hplace : (fun i => m₁.window + addr % sbWsize + i) = fun i => addr + i := by
          funext i
          rw [hwin]
          unfold sbWsize
          omega
        have hfirst : Moves write m m₂ (fun i => m₁.window + addr % sbWsize + i) p c
            fun i => i < landed c := hturn.moves.of_eq hmem.symm hhost.symm rfl rfl
        rw [hplace] at hfirst
        have hcount : len = c + (len - c) := by omega
        have hfit : ∀ i < c, (addr + i) % 2 ^ 32 = addr + i := by
          intro i hi
          unfold sbWsize at hwindow
          omega
        have hnext : Moves write m₂ m' (fun i => (addr + (c + i)) % 2 ^ 32) (p + c) (len - c)
            (Arrives (len - c) ((addr + c) % 2 ^ 32)) :=
          hmoves.places fun i _ => by omega
        rw [hcount]
        exact (hfirst.places hfit).append hnext (fun i hi j hj => by omega)
          (by rw [← hcount]; exact hland) fun i _ => by rw [← hcount]; exact hbehind i
      · rw [hcmds, hcmd, hsent, List.append_assoc]
        rfl
      · rw [List.forall_mem_cons]
        exact ⟨hin, hall⟩

theorem sbmemLoop_isSome (hluck : ∀ k, m.luck k = true) (haddr : addr < 2 ^ 32) (h4 : 4 ∣ len)
    (h4' : 4 ∣ addr) : ∃ m', (sbmemLoop write p len addr).run m = some ((), m') := by
  induction len using Nat.strong_induction_on generalizing addr p m with
  | _ len ih =>
    rw [sbmemLoop]
    by_cases hzero : len = 0
    · rw [dif_pos hzero]
      exact ⟨m, rfl⟩
    · rw [dif_neg hzero, sbChunk_round h4 h4']
      have hpos : 0 < sbChunk len addr := sbChunk_pos hzero
      have hdvd := sbChunk_dvd h4 h4'
      have hwindow := sbChunk_window len addr
      have hmax : sbChunk len addr ≤ sbXfer := by unfold sbChunk; omega
      generalize sbChunk len addr = c at *
      obtain ⟨m₁, hset⟩ := sdioSetWindow_isSome hluck addr
      obtain ⟨-, -, -, hluck₁, -⟩ := sdioSetWindow_run haddr hset
      rw [← hluck₁] at hluck
      obtain ⟨m₂, hpio⟩ : ∃ m₂, (wifiCmd53Pio write 1 (addr % sbWsize + 0x8000) p c true).run m₁ =
          some ((), m₂) := wifiCmd53Pio_isSome hluck hpos.ne' hmax hdvd
      rw [← (wifiCmd53Pio_run hpos.ne' hmax hdvd hwindow hpio).luck] at hluck
      have hnext : (addr + c) % 2 ^ 32 < 2 ^ 32 := Nat.mod_lt _ (by decide)
      have hnext4 : 4 ∣ (addr + c) % 2 ^ 32 := by omega
      obtain ⟨m', hloop⟩ := ih (len - c) (by omega) hluck hnext (by omega) hnext4
      exact ⟨m', bind_run_iff.mpr ⟨_, _, hset, bind_run_iff.mpr ⟨_, _, hpio, hloop⟩⟩⟩

/-- Every byte of the transfer has got where it goes, and no other has changed. -/
structure Exact (write : Bool) (m m' : Sdio) (p len addr : ℕ) : Prop where
  written : write = true → ∀ i < len, m'.mem ((addr + i) % 2 ^ 32) = m.host (p + i)
  read : write = false → ∀ i < len, m'.host (p + i) = m.mem ((addr + i) % 2 ^ 32)
  mem : ∀ a, (write = true → ∀ i < len, a ≠ (addr + i) % 2 ^ 32) → m'.mem a = m.mem a
  host : ∀ a, (write = false → ∀ i < len, a ≠ p + i) → m'.host a = m.host a
  commands : ∃ cmds, m'.sent = m.sent ++ cmds ∧ ∀ c ∈ cmds, c.InWindow

/-- Whatever the memories hold and whenever the controller is ready: a transfer that reports
success is exact. -/
def MovesEveryByte (len : ℤ) (addr : ℕ) : Prop :=
  ∀ (write : Bool) (p : ℕ) (m m' : Sdio),
    (wifiSbmem write p len addr).run m = some ((), m') → Exact write m m' p len.toNat addr

theorem exact_of_arrives (h : Transferred write m m' p len addr)
    (hall : ∀ i < len, Arrives len addr i) : Exact write m m' p len addr := by
  obtain ⟨hmoves, hcommands⟩ := h
  cases write with
  | true =>
    obtain ⟨hcopy, hhost⟩ := hmoves
    exact ⟨fun _ i hi => hcopy.inside i hi (hall i hi), fun h => absurd h (by decide),
      fun a ha => hcopy.outside a (ha rfl), fun a _ => congrFun hhost a, hcommands⟩
  | false =>
    obtain ⟨hcopy, hmem⟩ := hmoves
    exact ⟨fun h => absurd h (by decide), fun _ i hi => hcopy.inside i hi (hall i hi),
      fun a _ => congrFun hmem a, fun a ha => hcopy.outside a (ha rfl), hcommands⟩

/-- A chip and a host whose bytes all differ, with a controller that is always ready. -/
def unlike : Sdio where
  mem := fun _ => 0
  regs := fun _ => 0
  cmd := ⟨false, 0, false, false, 0, 0⟩
  moved := 0
  host := fun _ => 1
  luck := fun _ => true
  tick := 0
  sent := []

/-- A byte that does not arrive is missed where the chip held something else. -/
theorem not_exact_of_lost (haddr : addr < 2 ^ 32) (hlen : len < 2 ^ 31) (h4 : 4 ∣ len)
    (h4' : 4 ∣ addr) {i : ℕ} (hi : i < len) (hlost : ¬ Arrives len addr i) :
    ¬ MovesEveryByte len addr := by
  intro hexact
  have hluck : ∀ k, unlike.luck k = true := fun _ => rfl
  obtain ⟨m', hrun⟩ : ∃ m', (sbmemLoop true 0 len addr).run unlike = some ((), m') :=
    sbmemLoop_isSome hluck haddr h4 h4'
  have hmoves := (sbmemLoop_run haddr hlen h4 h4' hrun).moves
  have hkept : m'.mem ((addr + i) % 2 ^ 32) = 0 := hmoves.1.left i hi hlost
  have hmoved : m'.mem ((addr + i) % 2 ^ 32) = 1 := (hexact true 0 unlike m' hrun).written rfl i hi
  rw [hkept] at hmoved
  exact absurd hmoved (by decide)

theorem movesEveryByte_iff {len : ℤ} {addr : ℕ} (haddr : addr < 2 ^ 32) (hlen : len < 2 ^ 31)
    (h4 : 4 ∣ len) (h4' : 4 ∣ addr) :
    MovesEveryByte len addr ↔ WholeBlocks len.toNat addr := by
  have hlen' : len.toNat < 2 ^ 31 := by omega
  have hdvd : 4 ∣ len.toNat := by omega
  rw [wholeBlocks_iff]
  constructor
  · intro hexact i hi
    by_contra hlost
    have hcast : (len.toNat : ℤ) = len := by omega
    exact not_exact_of_lost haddr hlen' hdvd h4' hi hlost (by rw [hcast]; exact hexact)
  · intro hall write p m m' hrun
    exact exact_of_arrives (sbmemLoop_run haddr hlen' hdvd h4' hrun) hall

/-- The 4096 bytes that a probe writes at the base of the RAM go in two turns. -/
theorem movesEveryByte_probe : MovesEveryByte 4096 0x198000 := by
  have hfirst : sbChunk 4096 0x198000 = 2048 := by norm_num [sbChunk, sbXfer, sbWsize]
  have hsecond : sbChunk (4096 - 2048) ((0x198000 + 2048) % 2 ^ 32) = 2048 := by
    norm_num [sbChunk, sbXfer, sbWsize]
  have hchunks : sbChunks (4096 : ℤ).toNat 0x198000 = [2048, 2048] := by
    have hlen : (4096 : ℤ).toNat = 4096 := rfl
    rw [hlen, sbChunks_cons (by decide), hfirst, sbChunks_cons (by decide), hsecond, sbChunks]
    rfl
  refine (movesEveryByte_iff (by norm_num) (by norm_num) (by norm_num) (by norm_num)).mpr ?_
  rw [WholeBlocks, hchunks]
  decide

/-- The last four of 68 bytes are not moved. -/
theorem tail_not_moved : ¬ ∀ (len : ℤ) (addr : ℕ), addr < 2 ^ 32 → len < 2 ^ 31 → 4 ∣ len →
    4 ∣ addr → MovesEveryByte len addr := by
  intro h
  have hchunk : sbChunk 68 0x198000 = 68 := by norm_num [sbChunk, sbXfer, sbWsize]
  have hlost : ¬ Arrives 68 0x198000 64 := by
    rw [arrives_here (by decide) (by rw [hchunk]; decide), hchunk]
    decide
  exact not_exact_of_lost (by norm_num) (by norm_num) (by norm_num) (by norm_num)
    (by decide : 64 < 68) hlost
    (h 68 0x198000 (by norm_num) (by norm_num) (by norm_num) (by norm_num))

end XinuRpi4.Wifi
