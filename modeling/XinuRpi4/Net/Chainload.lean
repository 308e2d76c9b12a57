import XinuRpi4.Foundation.Pieces
import XinuRpi4.Net.QueryParam
import XinuRpi4.Net.RequestArrival

/-!
# Staging a kernel image

`POST /chainload?off=<byte>` writes its body into the staging area, at the offset of the
query. An image is posted in pieces; `g_chain_len` is the end of what was staged since
the last post at offset 0.
-/

namespace XinuRpi4.Net

open XinuRpi4.Foundation

/-- `g_app_req`, the bytes from `STAGE` on and before it, and `g_chain_len`. -/
structure Staging where
  appReq : ℕ → UInt8
  stage : ℤ → UInt8
  chainLen : ℤ

/-- The loop of `s_putdec`, which writes the last digit first. -/
def putDigits : ℕ → ℕ → List UInt8
  | 0, _ => []
  | k + 1, v => if v = 0 then [] else putDigits k (v / 10) ++ [48 + UInt8.ofNat (v % 10)]

/-- `s_putdec`, with room for 16 digits. -/
def putDec (v : ℤ) : List UInt8 :=
  if v = 0 then [48] else (if v < 0 then [45] else []) ++ putDigits 16 v.natAbs

/-- `for (int i = 0; i < n; i++) STAGE[off + i] = b[i];` -/
def stageBytes (b : ℕ → UInt8) (off : ℤ) : ℕ → (ℤ → UInt8) → ℤ → UInt8
  | 0, m => m
  | n + 1, m => Function.update (stageBytes b off n m) (off + n) (b n)

/-- `POST /chainload` -/
def chainloadPath : List UInt8 :=
  [80, 79, 83, 84, 32, 47, 99, 104, 97, 105, 110, 108, 111, 97, 100]

/-- `off` -/
def offKey : List UInt8 := [111, 102, 102]

/-- `ok off=` .. ` n=` .. ` total=` -/
def okReply (off n total : ℤ) : List UInt8 :=
  [111, 107, 32, 111, 102, 102, 61] ++ putDec off ++ [32, 110, 61] ++ putDec n ++
    [32, 116, 111, 116, 97, 108, 61] ++ putDec total ++ [10]

/-- `usage: POST /chainload?off=<byte>  body=<chunk>` -/
def usageReply : List UInt8 :=
  [117, 115, 97, 103, 101, 58, 32, 80, 79, 83, 84, 32, 47, 99, 104, 97, 105, 110, 108, 111, 97, 100,
    63, 111, 102, 102, 61, 60, 98, 121, 116, 101, 62, 32, 32, 98, 111, 100, 121, 61, 60, 99, 104,
    117, 110, 107, 62, 10]

/-- The answer is `ok`. -/
def IsOk (reply : List UInt8) : Prop := startsWith reply [111, 107, 32] = true

instance (reply : List UInt8) : Decidable (IsOk reply) := inferInstanceAs (Decidable (_ = _))

namespace Staging

/-- `queue_to_app` -/
def copyRequest (s : Staging) (req : List UInt8) : Staging :=
  { s with
    appReq := fun k =>
      if k < req.length then req.getD k 0 else if k = req.length then 0 else s.appReq k }

/-- The branch of `http_build` for `POST /chainload`: the body of the reply. Nothing is said
where the `int` sum of offset and length overflows. -/
def chainload (s : Staging) : Option (List UInt8 × Staging) :=
  let req := cString s.appReq reqCap 0
  let off := qInt req offKey (-1)
  let cl := contentLength req
  let len := if off = 0 then 0 else s.chainLen
  match findHeaderEnd req 0 with
  | some he =>
    if 0 ≤ off ∧ 0 < cl then
      if off + cl < 2 ^ 31 then
        let total := if len < off + cl then off + cl else len
        some (okReply off cl total,
          { s with
            stage := stageBytes (fun i => s.appReq (he + i)) off cl.toNat s.stage
            chainLen := total })
      else none
    else some (usageReply, { s with chainLen := len })
  | none => some (usageReply, { s with chainLen := len })

/-- What has arrived of a request is looked at: no reply before it is complete. Other paths
are left out. -/
def post (s : Staging) (arrived : List UInt8) : Option (List UInt8 × Staging) :=
  if requestComplete (beforeNul arrived) arrived.length then
    let s := s.copyRequest arrived
    if startsWith (cString s.appReq reqCap 0) chainloadPath then s.chainload else none
  else none

/-- Requests one after the other, with the replies. -/
def posts : Staging → List (List UInt8) → Option (List (List UInt8) × Staging)
  | s, [] => some ([], s)
  | s, req :: reqs => do
    let (reply, s) ← s.post req
    let (replies, s) ← s.posts reqs
    pure (reply :: replies, s)

end Staging

/-- The digits of an offset. -/
def decimalDigits (n : ℕ) : List (Fin 10) :=
  if n = 0 then [0] else (Nat.digits 10 n).reverse.map (Fin.ofNat 10)

/-- `/chainload?off=` -/
def chainloadTarget : List UInt8 := [47, 99, 104, 97, 105, 110, 108, 111, 97, 100, 63, 111, 102, 102, 61]

/-- A request that posts a chunk with its offset, and what has arrived of it when it is
looked at. -/
structure ChunkPost where
  offset : ℕ
  request : HttpRequest
  arrived : List UInt8
  post : request.IsPost
  target : request.target = chainloadTarget ++ (decimalDigits offset).map decByte
  length : request.length = some request.body.length
  sent : arrived <+: request.text
  stored : arrived.length ≤ reqCap - 1

namespace ChunkPost

variable (p : ChunkPost)

def piece : ℕ × List UInt8 := (p.offset, p.request.body)

/-- The end of the chunk. -/
def last : ℕ := p.offset + p.request.body.length

/-- What becomes of `g_chain_len`. -/
def extend (g : ℤ) : ℤ := max (if p.offset = 0 then 0 else g) p.last

end ChunkPost

/-- The posts from the last one at offset 0 on. -/
def sinceStart (ps : List ChunkPost) : List ChunkPost :=
  ps.foldl (fun l p => if p.offset = 0 then [p] else l ++ [p]) []

theorem horner_reverse (b : ℕ) (ds : List ℕ) : horner b 0 ds.reverse = Nat.ofDigits b ds := by
  induction ds with
  | nil => rfl
  | cons d ds ih =>
    rw [List.reverse_cons, horner_append, ih, Nat.ofDigits_cons, horner, horner]
    ring

theorem decimalDigits_value (n : ℕ) : horner 10 0 ((decimalDigits n).map Fin.val) = n := by
  rw [decimalDigits]
  split_ifs with hn
  · simp [horner, hn]
  · have hval : ((Nat.digits 10 n).reverse.map (Fin.ofNat 10)).map Fin.val =
        (Nat.digits 10 n).reverse := by
      rw [List.map_map]
      conv_rhs => rw [← List.map_id (Nat.digits 10 n).reverse]
      apply List.map_congr_left
      intro d hd
      have hlt := Nat.digits_lt_base (by decide : 1 < 10) (List.mem_reverse.mp hd)
      simp [Fin.ofNat, Nat.mod_eq_of_lt hlt]
    rw [hval, horner_reverse, Nat.ofDigits_digits]

theorem decimalDigits_length {n : ℕ} (hn : n < 10 ^ 15) : (decimalDigits n).length ≤ 15 := by
  rw [decimalDigits]
  split_ifs
  · simp
  · simpa using (Nat.digits_length_le_iff (by decide : 1 < 10) n).mpr hn

/-- An offset below 2^32 is read, as an `int`. -/
theorem readNumber_offset {n : ℕ} (hn : n < 2 ^ 32) :
    readNumber (((decimalDigits n).map decByte).take 15) = Int.bmod n (2 ^ 32) := by
  have hlen := decimalDigits_length (show n < 10 ^ 15 by omega)
  have hread := readNumber_text (.decimal false (decimalDigits n))
  rw [List.take_of_length_le (by simpa using hlen)]
  simpa [Numeral.text, signText, Numeral.number, Numeral.negative, Numeral.magnitude,
    decimalDigits_value] using hread

/-- The mailbox holds the request, with a NUL behind it. -/
theorem cString_copyRequest (s : Staging) {req : List UInt8} (h : req.length ≤ reqCap - 1) :
    cString (s.copyRequest req).appReq reqCap 0 = beforeNul req := by
  have hcap : 0 < reqCap := by decide
  have hnul : (s.copyRequest req).appReq req.length = 0 := by simp [Staging.copyRequest]
  have hbytes : (List.range (req.length - 0)).map (fun k => (s.copyRequest req).appReq (0 + k)) =
      req := by
    apply List.ext_getElem
    · simp
    · intro k _ hk
      simp [Staging.copyRequest, hk]
  rw [cString_eq hnul (Nat.zero_le _) (by omega), hbytes]

namespace ChunkPost

variable (p : ChunkPost)

/-- The text of the request up to the header's other lines. -/
theorem text_start : ∃ t, ∀ x, p.request.header ++ x = chainloadPath ++ 63 ::
    (offKey ++ 61 :: ((decimalDigits p.offset).map decByte ++ 32 :: (t ++ x))) := by
  obtain ⟨t, ht⟩ := intercalate_crlf_cons p.request.requestLine
    (p.request.fields.map HeaderField.text)
  have hmethod : p.request.method = [80, 79, 83, 84] := p.post
  use p.request.version ++ t ++ crlf ++ crlf
  intro x
  rw [HttpRequest.header, HttpRequest.head, HttpRequest.lines, ht, HttpRequest.requestLine,
    p.target, hmethod]
  simp [chainloadPath, chainloadTarget, offKey]

theorem startsWith_path (x : List UInt8) :
    startsWith (p.request.header ++ x) chainloadPath = true := by
  obtain ⟨t, ht⟩ := p.text_start
  rw [startsWith_iff, ht]
  exact List.prefix_append _ _

theorem takeWhile_digits (ds : List (Fin 10)) (t : List UInt8) :
    (ds.map decByte ++ 32 :: t).takeWhile (fun c => c ≠ 38 ∧ c ≠ 32) = ds.map decByte := by
  rw [takeWhile_append_stop (by decide), List.takeWhile_eq_self_iff]
  intro c hc
  obtain ⟨d, -, rfl⟩ := List.mem_map.mp hc
  have hdigit : ∀ d : Fin 10, decByte d ≠ 38 ∧ decByte d ≠ 32 := by decide
  exact decide_eq_true (hdigit d)

theorem qInt_offset (x : List UInt8) (dflt : ℤ) (h : p.offset < 2 ^ 32) :
    qInt (p.request.header ++ x) offKey dflt = Int.bmod p.offset (2 ^ 32) := by
  obtain ⟨t, ht⟩ := p.text_start
  have hscan : ∀ q, scan (matchParam offKey) (chainloadPath ++ 63 :: (offKey ++ 61 :: q)) = some q := by
    intro q
    simp [scan, matchParam, chainloadPath, offKey]
  rw [qInt, qParam, ht, hscan, Option.map_some, copyValue_eq, takeWhile_digits]
  exact readNumber_offset h

/-- A chunk that is looked at has arrived when the server takes it for complete. -/
theorem arrived_eq (hreads : ReadsField p.request)
    (hcomplete : requestComplete (beforeNul p.arrived) p.arrived.length = true) :
    p.arrived = p.request.text := by
  have htake : p.arrived = p.request.text.take p.arrived.length :=
    List.prefix_iff_eq_take.mp p.sent
  have hle := p.sent.length_le
  have hiff := (complete_iff p.request ((length_iff p.request).mpr hreads)).mpr (Or.inl p.post)
    p.arrived.length hle
  rw [← htake] at hiff
  obtain ⟨hheader, hbody⟩ := hiff.mp hcomplete
  have hrest := hbody p.post p.request.body.length p.length
  have htext : p.request.text.length = p.request.header.length + p.request.body.length := by
    simp [HttpRequest.text]
  rw [htake, List.take_of_length_le (by omega)]

theorem contentLength_eq (hreads : ReadsField p.request) :
    contentLength (p.request.header ++ beforeNul p.request.body) = p.request.body.length := by
  have hall : (beforeNul p.request.body).take p.request.body.length = beforeNul p.request.body :=
    List.take_of_length_le (List.takeWhile_prefix _).length_le
  have hlength := (length_iff p.request).mpr hreads p.request.body.length le_rfl
  rwa [hall, p.length] at hlength

end ChunkPost

theorem stageBytes_eq {b : ℕ → UInt8} {off : ℤ} {m : ℤ → UInt8} {data : List UInt8}
    (hb : ∀ i (hi : i < data.length), b i = data[i]) :
    stageBytes b off data.length m = patch m off data := by
  induction data using List.reverseRecOn with
  | nil =>
    funext x
    simp [stageBytes, patch]
  | append_singleton data a ih =>
    have hlast : b data.length = a := by simpa using hb data.length (by simp)
    rw [List.length_append, List.length_singleton, stageBytes, patch_concat, hlast, ih]
    intro i hi
    rw [hb i (by simp; omega), List.getElem_append_left hi]

/-- The sign of an `int` that is read from 32 bits. -/
theorem bmod_offset {n : ℕ} (hn : n < 2 ^ 32) :
    Int.bmod n (2 ^ 32) = if n < 2 ^ 31 then (n : ℤ) else n - 2 ^ 32 := by
  rw [Int.bmod_def]
  split_ifs <;> omega

/-- What a post does that is answered `ok`; the offset is the one that is read. -/
structure Staged (s s' : Staging) (off : ℤ) (data : List UInt8) : Prop where
  nonneg : 0 ≤ off
  nonempty : data ≠ []
  room : off + data.length < 2 ^ 31
  stage : s'.stage = patch s.stage off data
  chainLen : s'.chainLen = max (if off = 0 then 0 else s.chainLen) (off + data.length)

namespace ChunkPost

variable {p : ChunkPost}

/-- The mailbox as the scans see it. -/
theorem mailbox_eq (harrived : p.arrived = p.request.text) (s : Staging) :
    cString (s.copyRequest p.arrived).appReq reqCap 0 =
      p.request.header ++ beforeNul p.request.body := by
  rw [cString_copyRequest s p.stored, harrived, HttpRequest.text,
    beforeNul_append p.request.header_no_nul]

/-- The handler on a request that has arrived. -/
theorem chainload_eq (hreads : ReadsField p.request) (hoff : p.offset < 2 ^ 32)
    (harrived : p.arrived = p.request.text) (s : Staging) :
    (s.copyRequest p.arrived).chainload =
      if 0 ≤ Int.bmod p.offset (2 ^ 32) ∧ (0 : ℤ) < p.request.body.length then
        if Int.bmod p.offset (2 ^ 32) + p.request.body.length < 2 ^ 31 then
          some (okReply (Int.bmod p.offset (2 ^ 32)) p.request.body.length
              (max (if Int.bmod p.offset (2 ^ 32) = 0 then 0 else s.chainLen)
                (Int.bmod p.offset (2 ^ 32) + p.request.body.length)),
            { appReq := (s.copyRequest p.arrived).appReq
              stage := patch s.stage (Int.bmod p.offset (2 ^ 32)) p.request.body
              chainLen := max (if Int.bmod p.offset (2 ^ 32) = 0 then 0 else s.chainLen)
                (Int.bmod p.offset (2 ^ 32) + p.request.body.length) })
        else none
      else some (usageReply,
        { s.copyRequest p.arrived with
          chainLen := if Int.bmod p.offset (2 ^ 32) = 0 then 0 else s.chainLen }) := by
  have hlen : (s.copyRequest p.arrived).chainLen = s.chainLen := rfl
  have hstage : (s.copyRequest p.arrived).stage = s.stage := rfl
  have hbytes : stageBytes (fun i => (s.copyRequest p.arrived).appReq
      (p.request.header.length + i)) (Int.bmod p.offset (2 ^ 32)) p.request.body.length s.stage =
      patch s.stage (Int.bmod p.offset (2 ^ 32)) p.request.body := by
    apply stageBytes_eq
    intro i hi
    simp [Staging.copyRequest, harrived, HttpRequest.text, hi]
  simp only [Staging.chainload, mailbox_eq harrived, p.qInt_offset _ _ hoff,
    p.contentLength_eq hreads, p.request.findHeaderEnd_header, hlen, hstage, Int.toNat_natCast,
    hbytes, ← max_def_lt]

theorem staged (hreads : ReadsField p.request) (hoff : p.offset < 2 ^ 32)
    {s s' : Staging} {reply : List UInt8} (h : s.post p.arrived = some (reply, s'))
    (hok : IsOk reply) : Staged s s' (Int.bmod p.offset (2 ^ 32)) p.request.body := by
  have husage : ¬ IsOk usageReply := by decide
  rw [Staging.post] at h
  split_ifs at h with hcomplete
  have harrived := p.arrived_eq hreads hcomplete
  simp only [mailbox_eq harrived, p.startsWith_path, if_true,
    chainload_eq hreads hoff harrived] at h
  by_cases hdata : 0 ≤ Int.bmod p.offset (2 ^ 32) ∧ (0 : ℤ) < p.request.body.length
  · rw [if_pos hdata] at h
    by_cases hroom : Int.bmod p.offset (2 ^ 32) + p.request.body.length < 2 ^ 31
    · rw [if_pos hroom] at h
      obtain ⟨-, rfl⟩ := Prod.mk.inj (Option.some.inj h)
      exact ⟨hdata.1, List.ne_nil_of_length_pos (by omega), hroom, rfl, rfl⟩
    · rw [if_neg hroom] at h
      exact absurd h (Option.some_ne_none _).symm
  · rw [if_neg hdata] at h
    obtain ⟨rfl, -⟩ := Prod.mk.inj (Option.some.inj h)
    exact absurd hok husage

end ChunkPost

namespace Staging

/-- The states that answered posts go through. -/
inductive Answered : Staging → List ChunkPost → Staging → Prop
  | done {s : Staging} : Answered s [] s
  | next {s s' s'' : Staging} {p : ChunkPost} {ps : List ChunkPost} {reply : List UInt8} :
    s.post p.arrived = some (reply, s') → IsOk reply → Answered s' ps s'' → Answered s (p :: ps) s''

theorem answered_of_posts {ps : List ChunkPost} {s s' : Staging} {replies : List (List UInt8)}
    (h : s.posts (ps.map ChunkPost.arrived) = some (replies, s')) (hok : ∀ r ∈ replies, IsOk r) :
    Answered s ps s' := by
  induction ps generalizing s replies with
  | nil =>
    obtain ⟨-, rfl⟩ := Prod.mk.inj (Option.some.inj h)
    exact .done
  | cons p ps ih =>
    rw [List.map_cons, posts] at h
    simp only [Option.bind_eq_bind, Option.bind_eq_some_iff, Option.pure_def, Option.some.injEq,
      Prod.exists, Prod.mk.injEq] at h
    obtain ⟨reply, s₁, hpost, rest, s₂, hrest, rfl, rfl⟩ := h
    exact .next hpost (hok reply List.mem_cons_self)
      (ih hrest fun r hr => hok r (List.mem_cons_of_mem _ hr))

variable {s s' : Staging} {ps : List ChunkPost}

theorem Answered.mem (h : Answered s ps s') {p : ChunkPost} (hp : p ∈ ps) :
    ∃ (s₁ s₂ : Staging) (reply : List UInt8),
      s₁.post p.arrived = some (reply, s₂) ∧ IsOk reply := by
  induction h with
  | done => simp at hp
  | next hpost hok _ ih =>
    rcases List.mem_cons.mp hp with rfl | hp
    · exact ⟨_, _, _, hpost, hok⟩
    · exact ih hp

/-- Every chunk starts below 2^31: the first one that did not would be refused. -/
theorem Answered.offset_lt {cs : List (List UInt8)} (h : Answered s ps s')
    (hsize : ∀ c ∈ cs, c.length ≤ 24 * 1024) (hreads : ∀ p ∈ ps, ReadsField p.request)
    (hall : ∀ q ∈ pieces 0 cs, ∃ p ∈ ps, p.piece = q) {q : ℕ × List UInt8}
    (hq : q ∈ pieces 0 cs) : q.1 < 2 ^ 31 := by
  by_contra hge
  obtain ⟨q', hq', hlow, hhigh⟩ := exists_piece_start (b := 2 ^ 31) hsize (by decide) hq (by omega)
  obtain ⟨p, hp, rfl⟩ := hall q' hq'
  obtain ⟨s₁, s₂, reply, hpost, hok⟩ := h.mem hp
  have hoffset : p.piece.1 = p.offset := rfl
  have hstaged := ChunkPost.staged (hreads p hp) (by omega) hpost hok
  have hnonneg := hstaged.nonneg
  rw [bmod_offset (by omega), if_neg (by omega)] at hnonneg
  omega

/-- A run of answered posts writes their pieces, and keeps the end of what is staged. -/
theorem Answered.staged (h : Answered s ps s') (hreads : ∀ p ∈ ps, ReadsField p.request)
    (hoff : ∀ p ∈ ps, p.offset < 2 ^ 31) :
    s'.stage = patchAll s.stage (ps.map ChunkPost.piece) ∧
      s'.chainLen = ps.foldl (fun g p => p.extend g) s.chainLen := by
  induction h with
  | done => exact ⟨rfl, rfl⟩
  | @next s s₁ s' p ps reply hpost hok _ ih =>
    have hlt := hoff p List.mem_cons_self
    have hstaged := ChunkPost.staged (hreads p List.mem_cons_self) (by omega) hpost hok
    obtain ⟨hstage, hlen⟩ := ih (fun q hq => hreads q (List.mem_cons_of_mem _ hq))
      fun q hq => hoff q (List.mem_cons_of_mem _ hq)
    rw [bmod_offset (by omega), if_pos hlt] at hstaged
    rw [hstage, hlen, hstaged.stage, hstaged.chainLen]
    constructor
    · rfl
    · rw [List.foldl_cons, ChunkPost.extend, ChunkPost.last]
      norm_cast

end Staging

/-- The length that is kept reaches no further than the image, and its end when one of the
posts since the start does. -/
def Reached (image : ℕ) (g : ℤ) (l : List ChunkPost) : Prop :=
  g ≤ image ∧ (g = image ↔ ∃ p ∈ l, p.last = image)

section Reached

variable {image : ℕ} {g : ℤ} {p : ChunkPost} {l ps : List ChunkPost}

theorem reached_start (hzero : p.offset = 0) (hp : p.last ≤ image) :
    Reached image (p.extend g) [p] := by
  have hextend : p.extend g = p.last := by simp [ChunkPost.extend, hzero]
  rw [Reached, hextend]
  simp [hp]

theorem Reached.step (h : Reached image g l) (hp : p.last ≤ image) :
    Reached image (p.extend g) (if p.offset = 0 then [p] else l ++ [p]) := by
  split_ifs with hzero
  · exact reached_start hzero hp
  · obtain ⟨hle, hiff⟩ := h
    have hextend : p.extend g = max g p.last := by simp [ChunkPost.extend, hzero]
    rw [Reached, hextend]
    constructor
    · omega
    · simp only [List.mem_append, List.mem_singleton, or_and_right, exists_or, ← hiff,
        exists_eq_left]
      omega

theorem Reached.run (h : Reached image g l) (hps : ∀ p ∈ ps, p.last ≤ image) :
    Reached image (ps.foldl (fun g p => p.extend g) g)
      (ps.foldl (fun l p => if p.offset = 0 then [p] else l ++ [p]) l) := by
  induction ps generalizing g l with
  | nil => exact h
  | cons p ps ih =>
    exact ih (h.step (hps p List.mem_cons_self)) fun q hq => hps q (List.mem_cons_of_mem _ hq)

theorem reached_of_start (hps : ∀ p ∈ ps, p.last ≤ image) (hstart : ∃ p ∈ ps, p.offset = 0) :
    Reached image (ps.foldl (fun g p => p.extend g) g) (sinceStart ps) := by
  obtain ⟨p, hp, hzero⟩ := hstart
  obtain ⟨before, after, rfl⟩ := List.append_of_mem hp
  rw [sinceStart, List.foldl_append, List.foldl_append, List.foldl_cons, List.foldl_cons,
    if_pos hzero]
  apply Reached.run
  · exact reached_start hzero (hps p hp)
  · exact fun q hq => hps q (by simp [hq])

end Reached

/-- The staging area holds the image and nothing else is written, in whatever order and
however often the chunks are posted. The length is that of the image exactly when a post
that ends it comes no earlier than the last one at offset 0. -/
theorem staged_image (cs : List (List UInt8)) (hsize : ∀ c ∈ cs, c.length ≤ 24 * 1024)
    (ps : List ChunkPost) (hreads : ∀ p ∈ ps, ReadsField p.request)
    (hall : ∀ q ∈ pieces 0 cs, ∃ p ∈ ps, p.piece = q) (honly : ∀ p ∈ ps, p.piece ∈ pieces 0 cs)
    (s s' : Staging) (replies : List (List UInt8))
    (hrun : s.posts (ps.map ChunkPost.arrived) = some (replies, s'))
    (hok : ∀ reply ∈ replies, IsOk reply) :
    (∀ i : ℕ, i < cs.flatten.length → some (s'.stage i) = cs.flatten[i]?) ∧
      (∀ x : ℤ, x < 0 ∨ cs.flatten.length ≤ x → s'.stage x = s.stage x) ∧
      (cs.flatten ≠ [] → (s'.chainLen = cs.flatten.length ↔
        ∃ p ∈ sinceStart ps, p.last = cs.flatten.length)) := by
  have hanswered := Staging.answered_of_posts hrun hok
  have hoff : ∀ p ∈ ps, p.offset < 2 ^ 31 := fun p hp =>
    hanswered.offset_lt hsize hreads hall (honly p hp)
  obtain ⟨hstage, hlen⟩ := hanswered.staged hreads hoff
  have hin : ∀ q ∈ ps.map ChunkPost.piece, q ∈ pieces 0 cs := by
    intro q hq
    obtain ⟨p, hp, rfl⟩ := List.mem_map.mp hq
    exact honly p hp
  have hcover : ∀ q ∈ pieces 0 cs, q ∈ ps.map ChunkPost.piece := by
    intro q hq
    obtain ⟨p, hp, rfl⟩ := hall q hq
    exact List.mem_map_of_mem hp
  constructor
  · intro i hi
    rw [hstage]
    exact patchAll_inside hin hcover hi
  constructor
  · intro x hx
    rw [hstage]
    exact patchAll_outside hin hx
  · intro hne
    have hlast : ∀ p ∈ ps, p.last ≤ cs.flatten.length := fun p hp => pieces_end (honly p hp)
    obtain ⟨q, hq, hle, -⟩ := exists_piece (o := 0) (List.length_pos_of_ne_nil hne)
    obtain ⟨p, hp, rfl⟩ := hall q hq
    have hzero : p.offset = 0 := Nat.le_zero.mp hle
    have hreached := reached_of_start (g := s.chainLen) hlast ⟨p, hp, hzero⟩
    rw [hlen]
    exact hreached.2

/-- `Content-Length: 1` -/
def lengthOne : HeaderField :=
  ⟨[67, 111, 110, 116, 101, 110, 116, 45, 76, 101, 110, 103, 116, 104], [32, 49]⟩

/-- `POST /chainload?off=<d> HTTP/1.1` with one byte of body. -/
def oneByteRequest (d : Fin 10) (b : UInt8) : HttpRequest where
  method := [80, 79, 83, 84]
  target := chainloadTarget ++ [decByte d]
  version := [72, 84, 84, 80, 47, 49, 46, 49]
  fields := [lengthOne]
  body := [b]
  line_clean := by
    unfold InLine
    revert d
    decide
  method_word := post_word
  field_clean := by unfold InLine; decide
  length_number := by decide

/-- The byte `A` at offset 0. -/
def firstPost : ChunkPost where
  offset := 0
  request := oneByteRequest 0 65
  arrived := (oneByteRequest 0 65).text
  post := rfl
  target := by simp [oneByteRequest, decimalDigits]
  length := by decide
  sent := List.prefix_rfl
  stored := by decide

/-- The byte `B` at offset 1. -/
def lastPost : ChunkPost where
  offset := 1
  request := oneByteRequest 1 66
  arrived := (oneByteRequest 1 66).text
  post := rfl
  target := by
    have hdigits : decimalDigits 1 = [1] := by
      simp [decimalDigits]
      rfl
    rw [hdigits]
    rfl
  length := by decide
  sent := List.prefix_rfl
  stored := by decide

def emptyStaging : Staging := ⟨fun _ => 0, fun _ => 0, 0⟩

theorem oneByte_readsField (d : Fin 10) (b : UInt8) : ReadsField (oneByteRequest d b) := by
  have hlength : (oneByteRequest d b).length = some 1 := rfl
  have hfirst : ∀ d, FirstLength (oneByteRequest d 0).head 32 := by
    unfold FirstLength LengthAt
    decide
  have hnumber : ∀ d, numberAt (oneByteRequest d 0).head 32 = some 1 := by decide
  rw [ReadsField, hlength]
  exact ⟨by decide, 32, 1, hfirst d, hnumber d, rfl⟩

/-- A run whose replies are all `ok`, to a state that passes a test. -/
theorem exists_answered (reqs : List (List UInt8)) (test : Staging → Bool)
    (h : (emptyStaging.posts reqs).any (fun r => r.1.all (fun x => decide (IsOk x)) && test r.2) =
      true) : ∃ replies s', emptyStaging.posts reqs = some (replies, s') ∧
        (∀ reply ∈ replies, IsOk reply) ∧ test s' = true := by
  cases hrun : emptyStaging.posts reqs with
  | none => simp [hrun] at h
  | some r =>
    rw [hrun, Option.any_some, Bool.and_eq_true, List.all_eq_true] at h
    exact ⟨r.1, r.2, rfl, fun reply hr => of_decide_eq_true (h.1 reply hr), h.2⟩

theorem staged_image_twoPosts : ∃ replies s',
    emptyStaging.posts ([firstPost, lastPost, lastPost].map ChunkPost.arrived) =
        some (replies, s') ∧
      (∀ i : ℕ, i < [[65], [66]].flatten.length →
        some (s'.stage i) = ([[65], [66]] : List (List UInt8)).flatten[i]?) ∧
      (∀ x : ℤ, x < 0 ∨ ([[65], [66]] : List (List UInt8)).flatten.length ≤ x →
        s'.stage x = emptyStaging.stage x) ∧
      (([[65], [66]] : List (List UInt8)).flatten ≠ [] →
        (s'.chainLen = ([[65], [66]] : List (List UInt8)).flatten.length ↔
          ∃ p ∈ sinceStart [firstPost, lastPost, lastPost],
            p.last = ([[65], [66]] : List (List UInt8)).flatten.length)) := by
  obtain ⟨replies, s', hrun, hok, -⟩ := exists_answered
    ([firstPost, lastPost, lastPost].map ChunkPost.arrived) (fun _ => true) (by decide)
  have hpieces : pieces 0 [[65], [66]] = [firstPost.piece, lastPost.piece] := rfl
  refine ⟨replies, s', hrun, staged_image [[65], [66]] (by decide)
    [firstPost, lastPost, lastPost] ?_ ?_ ?_ emptyStaging s' replies hrun hok⟩
  · simp [firstPost, lastPost, oneByte_readsField]
  · simp [hpieces]
  · simp [hpieces]

/-- `POST /chainload?off=0 HTTP/1.1` with `X-Content-Length: 1` before `Content-Length: 2`. -/
def namedRequest : HttpRequest where
  method := [80, 79, 83, 84]
  target := chainloadTarget ++ [48]
  version := [72, 84, 84, 80, 47, 49, 46, 49]
  fields := [⟨[88, 45] ++ lengthOne.name, [32, 49]⟩, ⟨lengthOne.name, [32, 50]⟩]
  body := [65, 66]
  line_clean := by unfold InLine; decide
  method_word := post_word
  field_clean := by unfold InLine; decide
  length_number := by decide

def namedPost : ChunkPost where
  offset := 0
  request := namedRequest
  arrived := namedRequest.text
  post := rfl
  target := by simp [namedRequest, decimalDigits]; rfl
  length := by decide
  sent := List.prefix_rfl
  stored := by decide

/-- Two bytes posted with the second one first leave a length of 1; and of two bytes one is
staged where another field with `Content-Length:` in its name says 1. -/
theorem start_posted_last :
    (pieces 0 [[65], [66]] = [firstPost.piece, lastPost.piece] ∧ ∃ replies s',
      emptyStaging.posts ([lastPost, firstPost].map ChunkPost.arrived) = some (replies, s') ∧
        (∀ reply ∈ replies, IsOk reply) ∧ s'.chainLen ≠ 2) ∧
    (pieces 0 [[65, 66]] = [namedPost.piece] ∧ ∃ replies s',
      emptyStaging.posts ([namedPost].map ChunkPost.arrived) = some (replies, s') ∧
        (∀ reply ∈ replies, IsOk reply) ∧ s'.stage 1 ≠ 66) := by
  obtain ⟨r, s, hrun, hok, htest⟩ := exists_answered
    ([lastPost, firstPost].map ChunkPost.arrived) (fun s => decide (s.chainLen ≠ 2))
    (by decide)
  obtain ⟨r', s', hrun', hok', htest'⟩ := exists_answered
    ([namedPost].map ChunkPost.arrived) (fun s => decide (s.stage 1 ≠ 66)) (by decide)
  exact ⟨⟨rfl, r, s, hrun, hok, of_decide_eq_true htest⟩,
    rfl, r', s', hrun', hok', of_decide_eq_true htest'⟩

end XinuRpi4.Net
