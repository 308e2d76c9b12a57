import XinuRpi4.Compiler.Grammar
import XinuRpi4.Compiler.ParserProgress

/-!
# What a call of the parser reads and builds

A call is described by the scope and the tokens in front of it and behind it. As long as
the arena has room the call answers, and it records no error.
-/

namespace XinuRpi4.Compiler

variable {α β : Type}

/-- The names and types of a state. -/
def PState.scope (s : PState) : Scope where
  curLocals := s.curLocals
  globals := s.globals
  tags := s.tags
  typedefs := s.typedefs
  types := s.types
  ntypes := s.ntypes

/-- The call answers `a` and leaves tokens and scope, with no new error; `c` bytes of the
arena are enough for it. -/
structure Answers (c : ℕ) (s : PState) (a : α) (σ : Scope) (T : List Token) (s' : PState) :
    Prop where
  tk : s'.tk = T
  scope : s'.scope = σ
  err : s'.err = s.err
  cap : s'.arena.cap = s.arena.cap
  room : s'.arena.pos ≤ s.arena.pos + c

/-- In front of the tokens `T` the call builds `a`, unless the arena is exhausted. -/
def Yields (p : P α) (σ : Scope) (T : List Token) (a : α) (σ' : Scope) (T' : List Token) : Prop :=
  ∃ c, ∀ s : PState, s.tk = T → s.scope = σ →
    (∃ s', p s = .done a s' ∧ Answers c s a σ' T' s') ∨
      s.arena.cap < s.arena.pos + c ∧ ∃ s', p s = .stop .arena s'

section Rules

variable {p : P α} {f : α → P β} {σ σ₁ σ₂ : Scope} {T T₁ T₂ : List Token} {a : α} {b : β}

theorem Yields.bind (hp : Yields p σ T a σ₁ T₁) (hf : Yields (f a) σ₁ T₁ b σ₂ T₂) :
    Yields (p >>= f) σ T b σ₂ T₂ := by
  obtain ⟨c, hc⟩ := hp
  obtain ⟨d, hd⟩ := hf
  refine ⟨c + d, fun s hT hσ => ?_⟩
  rw [bind_eq]
  obtain ⟨s₁, hps, h₁⟩ | ⟨hfull, s₁, hps⟩ := hc s hT hσ
  · rw [hps]
    have hroom := h₁.room
    have hcap := h₁.cap
    obtain ⟨s₂, hfs, h₂⟩ | ⟨hfull, s₂, hfs⟩ := hd s₁ h₁.tk h₁.scope
    · left
      have hroom₂ := h₂.room
      exact ⟨s₂, hfs, h₂.tk, h₂.scope, h₂.err.trans h₁.err, h₂.cap.trans h₁.cap, by omega⟩
    · right
      exact ⟨by omega, s₂, hfs⟩
  · right
    exact ⟨by omega, s₁, by rw [hps]⟩

theorem yields_pure : Yields (Pure.pure a : P α) σ T a σ T :=
  ⟨0, fun s hT hσ => Or.inl ⟨s, rfl, hT, hσ, rfl, rfl, le_rfl⟩⟩

/-- What is read off the state is known from the scope and the tokens. -/
theorem Yields.get {f : PState → P β} {q : P β}
    (h : ∀ s : PState, s.tk = T → s.scope = σ → f s s = q s)
    (hq : Yields q σ T b σ₂ T₂) : Yields (P.get >>= f) σ T b σ₂ T₂ := by
  obtain ⟨c, hc⟩ := hq
  refine ⟨c, fun s hT hσ => ?_⟩
  have heq : (P.get >>= f) s = q s := h s hT hσ
  rw [heq]
  exact hc s hT hσ

theorem yields_modify {g : PState → PState} (hT : ∀ s : PState, (g s).tk = s.tk)
    (hσ : ∀ s : PState, s.scope = σ → (g s).scope = σ₁)
    (hother : ∀ s : PState, (g s).err = s.err ∧ (g s).arena = s.arena) :
    Yields (P.modify g) σ T () σ₁ T := by
  refine ⟨0, fun s hs hs' => Or.inl ⟨g s, rfl, (hT s).trans hs, hσ s hs', (hother s).1, ?_, ?_⟩⟩
  · rw [(hother s).2]
  · rw [(hother s).2]
    exact le_rfl

/-- A block is asked for; its address is not part of what is built. -/
theorem Yields.alloc {n : ℕ} {q : P β} (hq : Yields q σ T b σ₂ T₂) :
    Yields (ccAlloc n >>= fun _ => q) σ T b σ₂ T₂ := by
  obtain ⟨c, hc⟩ := hq
  refine ⟨Arena.align16 n + c, fun s hT hσ => ?_⟩
  rw [bind_eq, ccAlloc]
  by_cases hfit : s.arena.Fits n
  · have hnew : s.arena.alloc n = (s.arena.base + s.arena.pos, { s.arena with
        pos := s.arena.pos + Arena.align16 n
        served := (s.arena.base + s.arena.pos, n) :: s.arena.served }) := if_pos hfit
    rw [hnew]
    dsimp only
    rw [if_pos hfit]
    dsimp only
    obtain ⟨s₂, hq, h₂⟩ | ⟨hfull, s₂, hq⟩ := hc { s with arena := { s.arena with
        pos := s.arena.pos + Arena.align16 n
        served := (s.arena.base + s.arena.pos, n) :: s.arena.served } } hT hσ
    · left
      have hroom := h₂.room
      dsimp only at hroom
      exact ⟨s₂, hq, h₂.tk, h₂.scope, h₂.err, h₂.cap, by omega⟩
    · right
      dsimp only at hfull
      exact ⟨by omega, s₂, hq⟩
  · right
    have hfull : ¬ s.arena.pos + Arena.align16 n ≤ s.arena.cap := hfit
    dsimp only
    rw [if_neg hfit]
    exact ⟨by omega, _, rfl⟩

theorem Yields.node {q : P β} (hq : Yields q σ T b σ₂ T₂) :
    Yields (newNode >>= fun _ => q) σ T b σ₂ T₂ := hq.alloc

end Rules

section Cursor

variable {σ σ₂ : Scope} {T T₂ : List Token} {b : β} {x : Token} {t : String}

/-- `consume` and `expect` find their text at the cursor. -/
def Starts (T : List Token) (t : String) : Bool := isPunct T t || isKw T t

@[simp] theorem isPunct_punct (u t : String) : isPunct (.punct u :: T) t = decide (u = t) := by
  simp [isPunct, Token.punct]

@[simp] theorem isPunct_kw (u t : String) : isPunct (.kw u :: T) t = false := by
  simp [isPunct, Token.kw]

@[simp] theorem isPunct_num (v : Word) (t : String) : isPunct (.num v :: T) t = false := by
  simp [isPunct, Token.num]

@[simp] theorem isPunct_str (v : Word) (t : String) : isPunct (.str_ v :: T) t = false := by
  simp [isPunct, Token.str_]

@[simp] theorem isPunct_ident (u t : String) : isPunct (.ident u :: T) t = false := by
  simp [isPunct, Token.ident]

@[simp] theorem isKw_punct (u t : String) : isKw (.punct u :: T) t = false := by
  simp [isKw, Token.punct]

@[simp] theorem isKw_kw (u t : String) : isKw (.kw u :: T) t = decide (u = t) := by
  simp [isKw, Token.kw]

@[simp] theorem isKw_num (v : Word) (t : String) : isKw (.num v :: T) t = false := by
  simp [isKw, Token.num]

@[simp] theorem isKw_str (v : Word) (t : String) : isKw (.str_ v :: T) t = false := by
  simp [isKw, Token.str_]

@[simp] theorem isKw_ident (u t : String) : isKw (.ident u :: T) t = false := by
  simp [isKw, Token.ident]

theorem not_isPunct (h : Starts T t = false) : isPunct T t = false := by
  rw [Starts, Bool.or_eq_false_iff] at h
  exact h.1

/-- A call that only reads the cursor. -/
theorem yields_of_run {p : P α} {a : α} {T₁ : List Token}
    (h : ∀ s : PState, s.tk = T → p s = .done a { s with tk := T₁ }) : Yields p σ T a σ T₁ := by
  refine ⟨0, fun s hT hσ => Or.inl ⟨_, h s hT, rfl, hσ, rfl, rfl, le_rfl⟩⟩

theorem yields_consume_hit (h : Starts (x :: T) t = true) :
    Yields (consume t) σ (x :: T) true σ T := by
  refine yields_of_run fun s hs => ?_
  rw [consume, hs]
  exact if_pos h

theorem yields_consume_miss (h : Starts T t = false) : Yields (consume t) σ T false σ T := by
  refine yields_of_run fun s hs => ?_
  have hfalse : ¬ (isPunct s.tk t || isKw s.tk t) = true := by
    rw [hs]
    exact Bool.not_eq_true _ ▸ h
  rw [consume, if_neg hfalse, ← hs]

theorem yields_expect (h : Starts (x :: T) t = true) : Yields (expect t) σ (x :: T) () σ T := by
  refine yields_of_run fun s hs => ?_
  have htrue : (isPunct s.tk t || isKw s.tk t) = true := hs ▸ h
  rw [expect, if_pos htrue, advance, hs]

theorem yields_advance : Yields advance σ (x :: T) () σ T := by
  refine yields_of_run fun s hs => ?_
  rw [advance, hs]

theorem yields_cur : Yields cur σ (x :: T) x σ (x :: T) := by
  refine yields_of_run fun s hs => ?_
  rw [cur, hs]
  dsimp only
  rw [← hs]

theorem yields_atPunct : Yields (atPunct t) σ T (isPunct T t) σ T := by
  refine yields_of_run fun s hs => ?_
  rw [atPunct, ← hs]

theorem yields_logHead (k : LoopKind) : Yields (logHead k) σ T () σ T :=
  yields_modify (fun _ => rfl) (fun _ h => h) fun _ => ⟨rfl, rfl⟩

theorem yields_logLength : Yields logLength σ T () σ T :=
  yields_modify (fun _ => rfl) (fun _ h => h) fun _ => ⟨rfl, rfl⟩

variable {q r : P β} {f : Unit → P β} {g : Token → P β}

theorem Yields.hit (h : Starts (x :: T) t = true) (hq : Yields q σ T b σ₂ T₂) :
    Yields (consume t >>= fun c => if c = true then q else r) σ (x :: T) b σ₂ T₂ :=
  (yields_consume_hit h).bind (by rwa [if_pos rfl])

theorem Yields.miss (h : Starts T t = false) (hr : Yields r σ T b σ₂ T₂) :
    Yields (consume t >>= fun c => if c = true then q else r) σ T b σ₂ T₂ :=
  (yields_consume_miss h).bind (by rwa [if_neg Bool.false_ne_true])

theorem Yields.at (h : isPunct T t = true) (hq : Yields q σ T b σ₂ T₂) :
    Yields (atPunct t >>= fun c => if c = true then q else r) σ T b σ₂ T₂ :=
  yields_atPunct.bind (by rwa [h, if_pos rfl])

theorem Yields.notAt (h : isPunct T t = false) (hr : Yields r σ T b σ₂ T₂) :
    Yields (atPunct t >>= fun c => if c = true then q else r) σ T b σ₂ T₂ :=
  yields_atPunct.bind (by rwa [h, if_neg Bool.false_ne_true])

theorem Yields.expect (h : Starts (x :: T) t = true) (hf : Yields (f ()) σ T b σ₂ T₂) :
    Yields (expect t >>= f) σ (x :: T) b σ₂ T₂ := (yields_expect h).bind hf

theorem Yields.advance (hf : Yields (f ()) σ T b σ₂ T₂) :
    Yields (advance >>= f) σ (x :: T) b σ₂ T₂ := yields_advance.bind hf

theorem Yields.cur (hg : Yields (g x) σ (x :: T) b σ₂ T₂) :
    Yields (cur >>= g) σ (x :: T) b σ₂ T₂ := yields_cur.bind hg

end Cursor

section Blocks

variable {σ : Scope} {T : List Token}

theorem yields_newNum (v : Word) : Yields (newNum v) σ T (.num v) σ T := yields_pure.node

theorem yields_newBinary (k : BinKind) (l r : Expr) :
    Yields (newBinary k l r) σ T (.binary k l r .int) σ T := yields_pure.node

theorem yields_tyPtrTo (t : Ty) : Yields (tyPtrTo t) σ T (.ptr t) σ T := yields_pure.alloc

theorem yields_tyArrayOf (t : Ty) (len : ℤ) :
    Yields (tyArrayOf t len) σ T (.array t len (toInt32 (t.size σ.types * len))) σ T := by
  refine Yields.alloc (Yields.get (q := Pure.pure _) (fun s _ hσ => ?_) yields_pure)
  rw [← hσ]
  rfl

theorem yields_scale {l : Expr} {b : Ty} (h : l.ty.base = some b) :
    Yields (scale l) σ T (BitVec.ofInt 64 (b.size σ.types)) σ T := by
  refine Yields.get (q := Pure.pure _) (fun s _ hσ => ?_) yields_pure
  rw [← hσ, h]
  rfl

theorem yields_newScaled (k : BinKind) {l : Expr} (r : Expr) {b : Ty} (h : l.ty.base = some b) :
    Yields (newScaled k l r) σ T (.binary k l (σ.scaled r b) (.ptr b)) σ T := by
  refine (yields_scale h).bind ((yields_newNum _).bind ((yields_newBinary _ _ _).bind ?_))
  refine Yields.node ((yields_tyPtrTo _).bind ?_)
  rw [h]
  exact yields_pure

theorem isPtrlike_iff (t : Ty) : t.isPtrlike = t.base.isSome := by
  cases t with
  | int => rfl
  | char => rfl
  | ptr b => rfl
  | array b len size => rfl
  | struct id => rfl

theorem yields_newAdd {l r t : Expr} (h : σ.sum l r = some t) : Yields (newAdd l r) σ T t σ T := by
  simp only [newAdd, isPtrlike_iff]
  simp only [Scope.sum] at h
  cases hl : l.ty.base with
  | none =>
    cases hr : r.ty.base with
    | none =>
      rw [hl, hr, Option.some.injEq] at h
      exact h ▸ yields_newBinary .add l r
    | some b =>
      rw [hl, hr, Option.some.injEq] at h
      exact h ▸ yields_newScaled .add l hr
  | some b =>
    cases hr : r.ty.base with
    | none =>
      rw [hl, hr, Option.some.injEq] at h
      exact h ▸ yields_newScaled .add r hl
    | some b' =>
      rw [hl, hr] at h
      cases h

theorem yields_newSub {l r t : Expr} (h : σ.difference l r = some t) :
    Yields (newSub l r) σ T t σ T := by
  simp only [newSub, isPtrlike_iff]
  simp only [Scope.difference] at h
  cases hl : l.ty.base with
  | none =>
    cases hr : r.ty.base with
    | none =>
      rw [hl, hr, Option.some.injEq] at h
      exact h ▸ yields_newBinary .sub l r
    | some b =>
      rw [hl, hr] at h
      cases h
  | some b =>
    cases hr : r.ty.base with
    | none =>
      rw [hl, hr, Option.some.injEq] at h
      exact h ▸ yields_newScaled .sub r hl
    | some b' =>
      rw [hl, hr, Option.some.injEq] at h
      subst h
      refine (yields_scale hl).bind ((yields_newBinary _ _ _).bind ((yields_newNum _).bind ?_))
      exact yields_newBinary _ _ _

end Blocks

end XinuRpi4.Compiler
