import Mathlib.Data.List.Basic
import Mathlib.Data.List.GetD
import Mathlib.Logic.Function.Basic
import Mathlib.Tactic

/-!
# Texts in memory

Texts written into one buffer, and strings in a memory made of objects.

A buffer is a function of its positions. A text is written one element behind the other,
and a string is a text with a zero behind it.

Memory is a family of objects, each a sequence of bytes. Pointers into
different objects never meet; pointers into one object may. A string that is
written reads back, and what is not overwritten stays.
-/

namespace XinuRpi4.Foundation

section

variable {α : Type*}

/-- Elements written one behind the other from position `o` on. -/
def fill (out : ℕ → α) (o : ℕ) : List α → ℕ → α
  | [] => out
  | c :: cs => fill (Function.update out o c) (o + 1) cs

theorem fill_append (out : ℕ → α) (o : ℕ) (s t : List α) :
    fill out o (s ++ t) = fill (fill out o s) (o + s.length) t := by
  induction s generalizing out o with
  | nil => rfl
  | cons c s ih =>
    rw [List.cons_append, fill, fill, ih, List.length_cons, Nat.add_right_comm, Nat.add_assoc]

theorem fill_before {out : ℕ → α} {o i : ℕ} (s : List α) (h : i < o) : fill out o s i = out i := by
  induction s generalizing out o with
  | nil => rfl
  | cons c s ih => rw [fill, ih (by omega), Function.update_of_ne (by omega)]

theorem fill_behind {out : ℕ → α} {o i : ℕ} (s : List α) (h : o + s.length ≤ i) :
    fill out o s i = out i := by
  induction s generalizing out o with
  | nil => rfl
  | cons c s ih =>
    rw [List.length_cons] at h
    rw [fill, ih (by omega), Function.update_of_ne (by omega)]

theorem fill_at {out : ℕ → α} {o i : ℕ} {s : List α} (h : i < s.length) :
    fill out o s (o + i) = s.get ⟨i, h⟩ := by
  induction s generalizing out o i with
  | nil => exact absurd h (Nat.not_lt_zero i)
  | cons c s ih =>
    cases i with
    | zero =>
      rw [Nat.add_zero, fill, fill_before s (Nat.lt_succ_self o), Function.update_self]
      rfl
    | succ i =>
      rw [fill, show o + (i + 1) = o + 1 + i by omega]
      exact ih (Nat.lt_of_succ_lt_succ h)

theorem fill_get {out : ℕ → α} {i : ℕ} {s : List α} (h : i < s.length) :
    fill out 0 s i = s.get ⟨i, h⟩ := by
  have hget : fill out 0 s (0 + i) = s.get ⟨i, h⟩ := fill_at h
  rwa [Nat.zero_add] at hget

/-- What is written covers the same positions of every buffer. -/
theorem fill_congr {out out' : ℕ → α} {i : ℕ} (o : ℕ) (s : List α) (h : out i = out' i) :
    fill out o s i = fill out' o s i := by
  induction s generalizing out out' o with
  | nil => exact h
  | cons c s ih =>
    refine ih (o + 1) ?_
    by_cases hi : i = o
    · rw [hi, Function.update_self, Function.update_self]
    · rw [Function.update_of_ne hi, Function.update_of_ne hi, h]

/-- The `n` elements from position `o` on. -/
def slice (out : ℕ → α) (o n : ℕ) : List α := (List.range n).map fun k => out (o + k)

section Slice

variable {out out' : ℕ → α} {o p m n : ℕ}

@[simp] theorem length_slice : (slice out o n).length = n := by simp [slice]

theorem getElem_slice {k : ℕ} (h : k < (slice out o n).length) : (slice out o n)[k] = out (o + k) := by
  simp [slice]

theorem slice_congr (h : ∀ i, o ≤ i → i < o + n → out i = out' i) : slice out o n = slice out' o n := by
  apply List.map_congr_left
  intro k hk
  have hlt := List.mem_range.mp hk
  exact h (o + k) (by omega) (by omega)

theorem slice_add (out : ℕ → α) (o m n : ℕ) :
    slice out o (m + n) = slice out o m ++ slice out (o + m) n := by
  simp only [slice, List.range_add, List.map_append, List.map_map]
  congr 1
  apply List.map_congr_left
  intro k _
  exact congrArg out (Nat.add_assoc o m k).symm

theorem slice_fill (out : ℕ → α) (o : ℕ) (s : List α) : slice (fill out o s) o s.length = s := by
  apply List.ext_getElem length_slice
  intro k hk hk'
  rw [getElem_slice, fill_at hk']
  rfl

theorem slice_fill_of_disjoint (s : List α) (h : o + n ≤ p ∨ p + s.length ≤ o) :
    slice (fill out p s) o n = slice out o n := by
  apply slice_congr
  intro i hlo hhi
  obtain h | h := h
  · exact fill_before s (by omega)
  · exact fill_behind s (by omega)

/-- The parts of what is read. -/
theorem slice_eq_append {s t : List α} (h : slice out o (s ++ t).length = s ++ t) :
    slice out o s.length = s ∧ slice out (o + s.length) t.length = t := by
  rw [List.length_append, slice_add] at h
  exact List.append_inj h length_slice

theorem slice_eq_cons {c : α} {s : List α} (h : slice out o (c :: s).length = c :: s) :
    out o = c ∧ slice out (o + 1) s.length = s := by
  obtain ⟨hhead, htail⟩ := slice_eq_append (s := [c]) h
  exact ⟨List.singleton_inj.mp hhead, htail⟩

/-- A part of what has been read from a buffer. -/
theorem drop_take_slice (h : o + n ≤ m) : ((slice out 0 m).drop o).take n = slice out o n := by
  obtain ⟨k, rfl⟩ := Nat.exists_eq_add_of_le h
  rw [slice_add, slice_add, List.append_assoc, List.drop_left' length_slice, Nat.zero_add,
    List.take_left' length_slice]

end Slice

/-- The buffer, of size `max`, holds the string and its zero, and is as before behind them. -/
structure HoldsString [Zero α] (out out' : ℕ → α) (max : ℕ) (s : List α) : Prop where
  bytes : ∀ i, (h : i < s.length) → out' i = s.get ⟨i, h⟩
  nul : out' s.length = 0
  fits : s.length < max
  rest : ∀ i, max ≤ i → out' i = out i

theorem holdsString_fill [Zero α] (out : ℕ → α) {max : ℕ} {s : List α} (h : s.length < max) :
    HoldsString out (fill out 0 (s ++ [0])) max s := by
  refine ⟨fun i hi => ?_, ?_, h, fun i hi => ?_⟩
  · have hlt : i < (s ++ [0]).length := by
      rw [List.length_append]
      omega
    rw [fill_get hlt]
    exact List.getElem_append_left hi
  · have hlt : s.length < (s ++ [0]).length := by
      rw [List.length_append]
      exact Nat.lt_succ_self _
    rw [fill_get hlt]
    exact List.getElem_concat_length rfl hlt
  · refine fill_behind _ ?_
    rw [List.length_append, List.length_singleton]
    omega

end

structure Pointer (ω : Type*) where
  obj : ω
  off : ℕ

structure Memory (ω : Type*) where
  byte : ω → ℕ → UInt8

namespace Memory

variable {ω : Type*}

/-- The `len` bytes at a pointer. -/
def bytes (m : Memory ω) (p : Pointer ω) (len : ℕ) : List UInt8 :=
  (List.range len).map fun i => m.byte p.obj (p.off + i)

def write [DecidableEq ω] (m : Memory ω) (p : Pointer ω) (xs : List UInt8) : Memory ω where
  byte o a :=
    if o = p.obj ∧ p.off ≤ a ∧ a < p.off + xs.length then xs.getD (a - p.off) 0 else m.byte o a

variable {m m' : Memory ω} {p q : Pointer ω} {len : ℕ} {xs : List UInt8}

@[simp] theorem length_bytes (m : Memory ω) (p : Pointer ω) (len : ℕ) :
    (m.bytes p len).length = len := by
  simp [bytes]

theorem bytes_congr (h : ∀ i < len, m'.byte p.obj (p.off + i) = m.byte p.obj (p.off + i)) :
    m'.bytes p len = m.bytes p len :=
  List.map_congr_left fun i hi => h i (List.mem_range.mp hi)

/-- A string and the one behind it. -/
theorem bytes_append (m : Memory ω) (p : Pointer ω) (len len' : ℕ) :
    m.bytes p (len + len') = m.bytes p len ++ m.bytes { p with off := p.off + len } len' := by
  simp [bytes, List.range_add, Nat.add_assoc, Function.comp_def]

variable [DecidableEq ω]

theorem write_of_obj {o : ω} (ho : o ≠ p.obj) : (m.write p xs).byte o = m.byte o := by
  funext a
  simp [write, ho]

theorem write_of_lt {a : ℕ} (ha : a < p.off) :
    (m.write p xs).byte p.obj a = m.byte p.obj a :=
  if_neg (by omega)

theorem write_at {i : ℕ} (hi : i < xs.length) :
    (m.write p xs).byte p.obj (p.off + i) = xs.getD i 0 := by
  simp [write, hi]

theorem bytes_write_self (m : Memory ω) (p : Pointer ω) (xs : List UInt8) :
    (m.write p xs).bytes p xs.length = xs := by
  apply List.ext_getElem (length_bytes _ _ _)
  intro i hi hi'
  simp only [bytes, List.getElem_map, List.getElem_range]
  rw [write_at hi', List.getD_eq_getElem _ _ hi']

theorem bytes_write_of_obj (h : q.obj ≠ p.obj) : (m.write p xs).bytes q len = m.bytes q len :=
  bytes_congr fun i _ => by rw [write_of_obj h]

end Memory

end XinuRpi4.Foundation
