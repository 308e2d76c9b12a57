import XinuRpi4.Foundation.KeyedHash
import XinuRpi4.Foundation.TextBuffer
import XinuRpi4.Wifi.Sha1

/-!
# The keys of the WiFi driver

`hmac_sha1` reads its message before it writes its output, so the two may
overlap, as they do in the iteration of `pbkdf2_sha1`. The derived key is that
of the standard, and nothing but the key is written outside the stack.
-/

namespace XinuRpi4.Wifi

open XinuRpi4.Foundation

/-- The local array `k`: zeros, overwritten from the front. -/
def hmacKeyArray (k : List UInt8) : List UInt8 := (List.range 64).map fun i => k.getD i 0

def hmacSha1 {ω : Type} [DecidableEq ω] (c : Sha1) (m : Memory ω) (key : Pointer ω) (klen : ℕ)
    (msg : Pointer ω) (mlen : ℕ) (mac : Pointer ω) : Memory ω :=
  let (c, k) :=
    if 64 < klen then
      let c := sha1Update (sha1Init c) (m.bytes key klen)
      (sha1Pad c, hmacKeyArray (sha1Final c))
    else (c, hmacKeyArray (m.bytes key klen))
  let ipad := k.map (· ^^^ 0x36)
  let opad := k.map (· ^^^ 0x5C)
  let c := sha1Update (sha1Update (sha1Init c) ipad) (m.bytes msg mlen)
  let inner := sha1Final c
  let c := sha1Update (sha1Update (sha1Init (sha1Pad c)) opad) inner
  m.write mac (sha1Final c)

/-- The objects `pbkdf2_sha1` works on: the memory of its caller, and its own
arrays `salt_i` and `u`. The array `t` is no argument of a call. -/
inductive Pbkdf2Obj
  | caller | saltI | u
deriving DecidableEq

section Pbkdf2

variable (c : Sha1) (pass : Pointer Pbkdf2Obj) (plen : ℕ)

/-- `for (j = 1; j < iter; j++)`, for the turns that are left. -/
def pbkdf2Iterate : ℕ → Memory Pbkdf2Obj → List UInt8 → Memory Pbkdf2Obj × List UInt8
  | 0, m, t => (m, t)
  | turns + 1, m, t =>
    let m := hmacSha1 c m pass plen ⟨.u, 0⟩ 20 ⟨.u, 0⟩
    pbkdf2Iterate turns m (xorBytes t (m.bytes ⟨.u, 0⟩ 20))

/-- The array `t` of a block. -/
def pbkdf2Block (salt : Pointer Pbkdf2Obj) (slen iter block : ℕ) (m : Memory Pbkdf2Obj) :
    Memory Pbkdf2Obj × List UInt8 :=
  let m := m.write ⟨.saltI, 0⟩ (m.bytes salt (min slen 36))
  let m := m.write ⟨.saltI, slen⟩
    [UInt8.ofNat (block >>> 24), UInt8.ofNat (block >>> 16), UInt8.ofNat (block >>> 8),
      UInt8.ofNat block]
  let m := hmacSha1 c m pass plen ⟨.saltI, 0⟩ (slen + 4) ⟨.u, 0⟩
  pbkdf2Iterate c pass plen (iter - 1) m (m.bytes ⟨.u, 0⟩ 20)

/-- `while (off < dklen)` -/
def pbkdf2Loop (salt : Pointer Pbkdf2Obj) (slen iter : ℕ) (dk : Pointer Pbkdf2Obj) (dklen : ℕ)
    (block off : ℕ) (m : Memory Pbkdf2Obj) : Memory Pbkdf2Obj :=
  if off < dklen then
    let (m, t) := pbkdf2Block c pass plen salt slen iter block m
    let cpy := min (dklen - off) 20
    pbkdf2Loop salt slen iter dk dklen (block + 1) (off + cpy)
      (m.write { dk with off := dk.off + off } (t.take cpy))
  else m
termination_by dklen - off

def pbkdf2Sha1 (salt : Pointer Pbkdf2Obj) (slen iter : ℕ) (dk : Pointer Pbkdf2Obj) (dklen : ℕ)
    (m : Memory Pbkdf2Obj) : Memory Pbkdf2Obj :=
  pbkdf2Loop c pass plen salt slen iter dk dklen 1 0 m

end Pbkdf2

/-- HMAC over SHA-1. -/
def hmacOfSha1 : List UInt8 → List UInt8 → List UInt8 := hmac SecureHash.sha1 64

@[simp] theorem length_hmacOfSha1 (key text : List UInt8) : (hmacOfSha1 key text).length = 20 :=
  SecureHash.length_sha1 _

theorem hmacKeyArray_eq {k : List UInt8} (hk : k.length ≤ 64) :
    hmacKeyArray k = k ++ List.replicate (64 - k.length) 0 := by
  apply List.ext_getElem
  · simp only [hmacKeyArray, List.length_map, List.length_range, List.length_append,
      List.length_replicate]
    omega
  · intro i hi hi'
    simp only [hmacKeyArray, List.getElem_map, List.getElem_range]
    by_cases hlt : i < k.length
    · rw [List.getD_eq_getElem _ _ hlt, List.getElem_append_left hlt]
    · rw [List.getD_eq_default _ _ (not_lt.mp hlt), List.getElem_append_right (not_lt.mp hlt),
        List.getElem_replicate]

/-- The context between its uses does not matter. -/
theorem sha1_two_pieces (c : Sha1) (xs ys : List UInt8) :
    sha1Final (sha1Update (sha1Update (sha1Init c) xs) ys) = SecureHash.sha1 (xs ++ ys) := by
  simpa using sha1Final_updates c [xs, ys]

theorem hmacSha1_eq {ω : Type} [DecidableEq ω] (c : Sha1) (m : Memory ω) (key : Pointer ω)
    (klen : ℕ) (msg : Pointer ω) (mlen : ℕ) (mac : Pointer ω) :
    hmacSha1 c m key klen msg mlen mac =
      m.write mac (hmacOfSha1 (m.bytes key klen) (m.bytes msg mlen)) := by
  have hkey : hmacKey SecureHash.sha1 64 (m.bytes key klen) =
      if 64 < klen then hmacKeyArray (SecureHash.sha1 (m.bytes key klen))
      else hmacKeyArray (m.bytes key klen) := by
    unfold hmacKey
    rw [Memory.length_bytes]
    split_ifs with hlong
    · rw [hmacKeyArray_eq (by simp)]
    · rw [hmacKeyArray_eq (by simpa using hlong)]
  have hdigest : sha1Final (sha1Update (sha1Init c) (m.bytes key klen)) =
      SecureHash.sha1 (m.bytes key klen) := by
    simpa using sha1Final_updates c [m.bytes key klen]
  unfold hmacSha1 hmacOfSha1 hmac
  rw [hkey]
  split_ifs with hlong
  · simp only [sha1_two_pieces, hdigest]
  · simp only [sha1_two_pieces]

section Derivation

variable {c : Sha1} {pass plen salt slen iter dk dklen block off : ℕ} {m m' : Memory Pbkdf2Obj}
  {P S t : List UInt8}

/-- The iteration leaves the sum of the iterates in `t`, and works on `u` alone. -/
theorem pbkdf2Iterate_spec {i j : ℕ} (turns : ℕ) (hP : m.bytes ⟨.caller, pass⟩ plen = P)
    (hu : m.bytes ⟨.u, 0⟩ 20 = pbkdf2U hmacOfSha1 P S i j) (ht : t = pbkdf2F hmacOfSha1 P S i j) :
    (pbkdf2Iterate c ⟨.caller, pass⟩ plen turns m t).2 = pbkdf2F hmacOfSha1 P S i (j + turns) ∧
      (pbkdf2Iterate c ⟨.caller, pass⟩ plen turns m t).1.byte .caller = m.byte .caller := by
  induction turns generalizing j m t with
  | zero => exact ⟨ht, rfl⟩
  | succ turns ih =>
    have hnext : hmacSha1 c m ⟨.caller, pass⟩ plen ⟨.u, 0⟩ 20 ⟨.u, 0⟩ =
        m.write ⟨.u, 0⟩ (pbkdf2U hmacOfSha1 P S i (j + 1)) := by
      rw [hmacSha1_eq, hP, hu]
      rfl
    have hread : (m.write ⟨.u, 0⟩ (pbkdf2U hmacOfSha1 P S i (j + 1))).bytes ⟨.u, 0⟩ 20 =
        pbkdf2U hmacOfSha1 P S i (j + 1) := by
      have hself := Memory.bytes_write_self m ⟨.u, 0⟩ (pbkdf2U hmacOfSha1 P S i (j + 1))
      rwa [length_pbkdf2U length_hmacOfSha1] at hself
    have hcaller : (m.write ⟨.u, 0⟩ (pbkdf2U hmacOfSha1 P S i (j + 1))).byte .caller =
        m.byte .caller :=
      Memory.write_of_obj (by simp)
    have hP' : (m.write ⟨.u, 0⟩ (pbkdf2U hmacOfSha1 P S i (j + 1))).bytes ⟨.caller, pass⟩ plen =
        P := by
      rw [Memory.bytes_write_of_obj (by simp), hP]
    obtain ⟨hsum, hkept⟩ := ih (t := xorBytes t (pbkdf2U hmacOfSha1 P S i (j + 1))) hP' hread
      (by rw [ht]; rfl)
    rw [pbkdf2Iterate, hnext, hread, show j + (turns + 1) = j + 1 + turns by omega]
    exact ⟨hsum, hkept.trans hcaller⟩

theorem blockNumber_eq (block : ℕ) :
    [UInt8.ofNat (block >>> 24), UInt8.ofNat (block >>> 16), UInt8.ofNat (block >>> 8),
      UInt8.ofNat block] = int4 block := by
  simp [int4, Nat.shiftRight_eq_div_pow]

/-- `salt_i` holds the salt and behind it the block number. -/
theorem bytes_saltI (hslen : slen ≤ 36) (hS : m.bytes ⟨.caller, salt⟩ slen = S) :
    ((m.write ⟨.saltI, 0⟩ (m.bytes ⟨.caller, salt⟩ (min slen 36))).write ⟨.saltI, slen⟩
      (int4 block)).bytes ⟨.saltI, 0⟩ (slen + 4) = S ++ int4 block := by
  have hlen : S.length = slen := by rw [← hS, Memory.length_bytes]
  rw [min_eq_left hslen, hS, Foundation.Memory.bytes_append]
  congr 1
  · have hsalt := Memory.bytes_write_self m ⟨.saltI, 0⟩ S
    rw [hlen] at hsalt
    rw [← hsalt]
    refine Memory.bytes_congr fun i hi => ?_
    rw [hsalt]
    exact Memory.write_of_lt (p := (⟨.saltI, slen⟩ : Pointer Pbkdf2Obj)) (by simpa using hi)
  · simpa [int4] using Memory.bytes_write_self (m.write ⟨.saltI, 0⟩ S) ⟨.saltI, slen⟩ (int4 block)

theorem pbkdf2Block_spec (c : Sha1) (iter block : ℕ) (hslen : slen ≤ 36)
    (hP : m.bytes ⟨.caller, pass⟩ plen = P) (hS : m.bytes ⟨.caller, salt⟩ slen = S) :
    (pbkdf2Block c ⟨.caller, pass⟩ plen ⟨.caller, salt⟩ slen iter block m).2 =
        pbkdf2F hmacOfSha1 P S block (iter - 1) ∧
      (pbkdf2Block c ⟨.caller, pass⟩ plen ⟨.caller, salt⟩ slen iter block m).1.byte
          .caller = m.byte .caller := by
  obtain ⟨m₁, hm₁⟩ : ∃ m₁, m₁ = (m.write ⟨.saltI, 0⟩
      (m.bytes ⟨.caller, salt⟩ (min slen 36))).write ⟨.saltI, slen⟩ (int4 block) := ⟨_, rfl⟩
  have hcaller₁ : m₁.byte .caller = m.byte .caller := by
    rw [hm₁, Memory.write_of_obj (by simp), Memory.write_of_obj (by simp)]
  have hP₁ : m₁.bytes ⟨.caller, pass⟩ plen = P := by
    rw [hm₁, Memory.bytes_write_of_obj (by simp), Memory.bytes_write_of_obj (by simp), hP]
  obtain ⟨m₂, hm₂⟩ : ∃ m₂, m₂ = m₁.write ⟨.u, 0⟩ (pbkdf2U hmacOfSha1 P S block 0) := ⟨_, rfl⟩
  have hmac : hmacSha1 c m₁ ⟨.caller, pass⟩ plen ⟨.saltI, 0⟩ (slen + 4) ⟨.u, 0⟩ = m₂ := by
    rw [hmacSha1_eq, hP₁, hm₂, hm₁, bytes_saltI hslen hS]
    rfl
  have hu : m₂.bytes ⟨.u, 0⟩ 20 = pbkdf2U hmacOfSha1 P S block 0 := by
    have hself := Memory.bytes_write_self m₁ ⟨.u, 0⟩ (pbkdf2U hmacOfSha1 P S block 0)
    rwa [length_pbkdf2U length_hmacOfSha1, ← hm₂] at hself
  have hP₂ : m₂.bytes ⟨.caller, pass⟩ plen = P := by
    rw [hm₂, Memory.bytes_write_of_obj (by simp), hP₁]
  have hcaller₂ : m₂.byte .caller = m₁.byte .caller := by
    rw [hm₂, Memory.write_of_obj (by simp)]
  obtain ⟨hsum, hkept⟩ := pbkdf2Iterate_spec (c := c) (iter - 1) hP₂ hu hu
  rw [Nat.zero_add] at hsum
  dsimp only [pbkdf2Block]
  rw [blockNumber_eq, ← hm₁, hmac]
  exact ⟨hsum, hkept.trans (hcaller₂.trans hcaller₁)⟩

/-- One turn of the loop writes the bytes of its block. -/
theorem pbkdf2_turn (c : Sha1) (iter dk dklen : ℕ) (hslen : slen ≤ 36) (hP : m.bytes ⟨.caller, pass⟩ plen = P)
    (hS : m.bytes ⟨.caller, salt⟩ slen = S) {i : ℕ} (hoff : off = 20 * i)
    {r : Memory Pbkdf2Obj × List UInt8}
    (hr : r = pbkdf2Block c ⟨.caller, pass⟩ plen ⟨.caller, salt⟩ slen iter (i + 1) m) (x : ℕ) :
    (r.1.write ⟨.caller, dk + off⟩ (r.2.take (min (dklen - off) 20))).byte .caller x =
      if dk + off ≤ x ∧ x < dk + off + min (dklen - off) 20 then
        (pbkdf2 hmacOfSha1 20 P S iter dklen).getD (x - dk) 0
      else m.byte .caller x := by
  obtain ⟨ht, hcaller⟩ := pbkdf2Block_spec c iter (i + 1) hslen hP hS
  rw [← hr] at ht hcaller
  have hlen : (r.2.take (min (dklen - off) 20)).length = min (dklen - off) 20 := by
    rw [List.length_take, ht, length_pbkdf2F length_hmacOfSha1]
    omega
  by_cases hx : dk + off ≤ x ∧ x < dk + off + min (dklen - off) 20
  · obtain ⟨k, rfl⟩ : ∃ k, x = dk + off + k := ⟨x - (dk + off), by omega⟩
    have hk : k < min (dklen - off) 20 := by omega
    have hwrite := Memory.write_at (m := r.1) (p := (⟨.caller, dk + off⟩ : Pointer Pbkdf2Obj))
      (show k < (r.2.take (min (dklen - off) 20)).length by rw [hlen]; exact hk)
    rw [if_pos hx, hwrite, show dk + off + k - dk = off + k by omega]
    rw [List.getD_eq_getElem?_getD, List.getD_eq_getElem?_getD, List.getElem?_take_of_lt hk,
      getElem?_pbkdf2 length_hmacOfSha1 (by decide) (show off + k < dklen by omega), ht,
      show (off + k) / 20 = i by omega, show (off + k) % 20 = k by omega]
  · rw [if_neg hx, ← hcaller]
    refine if_neg ?_
    rw [hlen]
    exact fun h => hx h.2

/-- The `n` bytes at `p` and the `k` bytes at `q` have no byte in common. -/
def Apart (p n q k : ℕ) : Prop := ∀ i < n, ∀ j < k, p + i ≠ q + j

/-- From block `i + 1` on, the loop writes the rest of the key. -/
theorem pbkdf2Loop_spec (hslen : slen ≤ 36) (hpass : Apart dk dklen pass plen)
    (hsalt : Apart dk dklen salt slen) (hP : m.bytes ⟨.caller, pass⟩ plen = P)
    (hS : m.bytes ⟨.caller, salt⟩ slen = S) {i : ℕ} (hoff : off = min (20 * i) dklen) (x : ℕ) :
    (pbkdf2Loop c ⟨.caller, pass⟩ plen ⟨.caller, salt⟩ slen iter ⟨.caller, dk⟩ dklen (i + 1) off
        m).byte .caller x =
      if dk + off ≤ x ∧ x < dk + dklen then
        (pbkdf2 hmacOfSha1 20 P S iter dklen).getD (x - dk) 0
      else m.byte .caller x := by
  induction hrest : dklen - off using Nat.strong_induction_on generalizing m off i with
  | _ rest ih =>
    rw [pbkdf2Loop]
    by_cases hmore : off < dklen
    · have hturn := pbkdf2_turn c iter dk dklen hslen hP hS (show off = 20 * i by omega) rfl
      rw [if_pos hmore]
      dsimp only
      generalize (pbkdf2Block c ⟨.caller, pass⟩ plen ⟨.caller, salt⟩ slen iter (i + 1) m).1.write
        ⟨.caller, dk + off⟩ _ = m₂ at hturn ⊢
      -- the password and the salt are not in the way
      have houtside : ∀ y, (∀ k < dklen, dk + k ≠ y) → m₂.byte .caller y = m.byte .caller y := by
        intro y hy
        rw [hturn, if_neg]
        intro hin
        exact hy (y - dk) (by omega) (by omega)
      have hP₂ : m₂.bytes ⟨.caller, pass⟩ plen = P := by
        rw [← hP]
        exact Memory.bytes_congr fun j hj => houtside _ fun k hk => hpass k hk j hj
      have hS₂ : m₂.bytes ⟨.caller, salt⟩ slen = S := by
        rw [← hS]
        exact Memory.bytes_congr fun j hj => houtside _ fun k hk => hsalt k hk j hj
      rw [ih (dklen - (off + min (dklen - off) 20)) (by omega) hP₂ hS₂ (i := i + 1) (by omega) rfl,
        hturn]
      split_ifs <;> first | rfl | omega
    · rw [if_neg hmore, if_neg (by omega)]

theorem pbkdf2Sha1_spec (hslen : slen ≤ 36) (hpass : Apart dk dklen pass plen)
    (hsalt : Apart dk dklen salt slen) :
    (pbkdf2Sha1 c ⟨.caller, pass⟩ plen ⟨.caller, salt⟩ slen iter ⟨.caller, dk⟩ dklen m).byte
        .caller =
      (m.write ⟨.caller, dk⟩
        (pbkdf2 hmacOfSha1 20 (m.bytes ⟨.caller, pass⟩ plen) (m.bytes ⟨.caller, salt⟩ slen) iter
          dklen)).byte .caller := by
  funext x
  rw [pbkdf2Sha1, pbkdf2Loop_spec (i := 0) hslen hpass hsalt rfl rfl (by simp) x]
  simp [Memory.write, length_pbkdf2 length_hmacOfSha1]

end Derivation

/-- SHA-1 in pieces, HMAC-SHA1 with any overlap of its buffers, and the key
derivation are those of the standards. -/
theorem key_derivation_standard :
    (∀ c pieces, sha1Final (List.foldl sha1Update (sha1Init c) pieces) =
      SecureHash.sha1 pieces.flatten) ∧
    (∀ (ω : Type) [DecidableEq ω] c (m : Memory ω) key klen msg mlen mac,
      hmacSha1 c m key klen msg mlen mac =
        m.write mac (hmac SecureHash.sha1 64 (m.bytes key klen) (m.bytes msg mlen))) ∧
    ∀ c m pass plen salt slen iter dk dklen, slen ≤ 36 → 1 ≤ iter →
      Apart dk dklen pass plen → Apart dk dklen salt slen →
      (pbkdf2 (hmac SecureHash.sha1 64) 20 (m.bytes ⟨.caller, pass⟩ plen)
          (m.bytes ⟨.caller, salt⟩ slen) iter dklen).length = dklen ∧
        (pbkdf2Sha1 c ⟨.caller, pass⟩ plen ⟨.caller, salt⟩ slen iter ⟨.caller, dk⟩ dklen m).byte
            .caller =
          (m.write ⟨.caller, dk⟩
            (pbkdf2 (hmac SecureHash.sha1 64) 20 (m.bytes ⟨.caller, pass⟩ plen)
              (m.bytes ⟨.caller, salt⟩ slen) iter dklen)).byte .caller := by
  refine ⟨sha1Final_updates, fun ω _ => hmacSha1_eq, ?_⟩
  intro c m pass plen salt slen iter dk dklen hslen _ hpass hsalt
  exact ⟨length_pbkdf2 length_hmacOfSha1 (by decide) _ _, pbkdf2Sha1_spec hslen hpass hsalt⟩

/-- A context whose block buffer holds zeros. -/
def zeroContext : Sha1 where
  h := fun _ => 0
  buf := fun _ => 0
  n := 0
  n_lt := zero_lt_block
  len := 0

/-- A password of eight bytes at 0 and a network name of four at 8. -/
def joinMemory : Memory Pbkdf2Obj where
  byte _ a := UInt8.ofNat a

/-- The 32-byte key at 12, from 4096 iterations. -/
theorem key_derivation_standard_pmk :
    (pbkdf2Sha1 zeroContext ⟨.caller, 0⟩ 8 ⟨.caller, 8⟩ 4 4096 ⟨.caller, 12⟩ 32 joinMemory).byte
        .caller =
      (joinMemory.write ⟨.caller, 12⟩
        (pbkdf2 (hmac SecureHash.sha1 64) 20 (joinMemory.bytes ⟨.caller, 0⟩ 8)
          (joinMemory.bytes ⟨.caller, 8⟩ 4) 4096 32)).byte .caller :=
  (key_derivation_standard.2.2 zeroContext joinMemory 0 8 8 4 4096 12 32
    (by decide) (by decide) (by intro i _ j _; omega) (by intro i _ j _; omega)).2

end XinuRpi4.Wifi
