import XinuRpi4.Dhcp.OptionReads

/-!
# What the two DHCP parsers agree on

A well-formed reply has a list of pads and options up to the end mark. The parser of the
WiFi driver takes a pad and the byte behind it for an option, so it stays in step with the
other one when pads come in pairs.
-/

namespace XinuRpi4.Dhcp

open XinuRpi4.Foundation XinuRpi4.Foundation.MemoryProgram XinuRpi4.Net

inductive DhcpItem
  | pad
  | option (code : UInt8) (data : List UInt8)
deriving DecidableEq

namespace DhcpItem

def Legal : DhcpItem → Prop
  | pad => True
  | option code data => code ≠ 0 ∧ code ≠ 255 ∧ data.length ≤ 255

def bytes : DhcpItem → List UInt8
  | pad => [0]
  | option code data => code :: UInt8.ofNat data.length :: data

instance (i : DhcpItem) : Decidable i.Legal :=
  match i with
  | pad => isTrue trivial
  | option code data => inferInstanceAs (Decidable (code ≠ 0 ∧ code ≠ 255 ∧ data.length ≤ 255))

end DhcpItem

/-- The options of a message with their end mark. -/
def optionBytes (items : List DhcpItem) : List UInt8 := items.flatMap DhcpItem.bytes ++ [255]

/-- A DHCP reply with the transaction id, with its options. -/
structure WellFormedReply (xid : UInt32) (f : Frame) (items : List DhcpItem) : Prop where
  ethertype : f.bytes 12 = 0x08 ∧ f.bytes 13 = 0x00
  version : f.bytes 14 >>> 4 = 4
  header : 20 ≤ ihl f
  proto : f.bytes 23 = 17
  ports : be16 f.bytes (14 + ihl f) = 67 ∧ be16 f.bytes (14 + ihl f + 2) = 68
  op : f.bytes (bootpAt f) = 2
  xid : be32 f.bytes (bootpAt f + 4) = xid
  magic : slice f.bytes (bootpAt f + 236) 4 = cookie
  legal : ∀ i ∈ items, i.Legal
  options : slice f.bytes (bootpAt f + 240) (optionBytes items).length = optionBytes items
  inside : bootpAt f + 240 + (optionBytes items).length ≤ f.len
  type : ∃ t, .option 53 [t] ∈ items

/-- Pads come in pairs before an option; one before the end mark does no harm when there
are fewer than 255 bytes behind the mark. -/
def PadsPaired (behind : ℕ) : List DhcpItem → Prop
  | [] => True
  | .option _ _ :: items => PadsPaired behind items
  | [.pad] => behind < 255
  | .pad :: .pad :: items => PadsPaired behind items
  | .pad :: .option _ _ :: _ => False

/-- The values of a reply as `dhcp_parse` gives them. -/
def leaseOf (yiaddr : Ip4) (opts : DhcpOptions) : UInt8 × WifiLease :=
  (opts.msgType,
    { yiaddr := yiaddr, srvid := opts.serverId, mask := opts.netmask, gw := opts.router,
      dns := opts.dns })

/-- No address has been written yet. -/
def noLease : WifiLease where
  yiaddr := 0
  srvid := 0
  mask := 0
  gw := 0
  dns := 0

variable {b : ℕ → UInt8}

theorem readValue_parseOption (b : ℕ → UInt8) (t : UInt8) (l o : ℕ) (yiaddr : Ip4) (opts : DhcpOptions) :
    readValue (parseOption t l o (leaseOf yiaddr opts)) b = leaseOf yiaddr (takeOption b t l o opts) := by
  have hip (g : Ip4 → UInt8 × WifiLease) :
      readValue (readIp4 o >>= fun v => pure (g v)) b = g (ip4At b o) := by
    rw [readValue_bind (reading_readIp4 o), readValue_readIp4, readValue_pure]
  unfold parseOption takeOption
  simp only [readValue_ite, readValue_pure, hip, readValue_bind (reading_fetch _), readValue_fetch]
  by_cases h53 : t = 53
  · by_cases hl : 1 ≤ l <;> simp [h53, hl, leaseOf]
  by_cases h54 : t = 54
  · by_cases hl : 4 ≤ l <;> simp [h54, hl, leaseOf]
  by_cases h3 : t = 3
  · by_cases hl : 4 ≤ l <;> simp [h3, hl, leaseOf]
  by_cases h1 : t = 1
  · by_cases hl : 4 ≤ l <;> simp [h1, hl, leaseOf]
  by_cases h6 : t = 6
  · by_cases hl : 4 ≤ l <;> simp [h6, hl, leaseOf]
  by_cases h51 : t = 51
  · by_cases hl : 4 ≤ l <;> simp [h51, hl, leaseOf]
  · simp [h53, h54, h3, h1, h6, h51]

section Walk

variable {elen turns o : ℕ} {r : UInt8 × WifiLease}

theorem walkOptions_end (h : b o = 255) :
    readValue (walkOptions elen (turns + 1) o r) b = r := by
  rw [walkOptions, readValue_ite, readValue_pure, readValue_bind (reading_fetch _), readValue_fetch,
    readValue_ite, if_pos h, readValue_pure, ite_self]

/-- One turn takes the code and the length of an option in the frame. -/
theorem walkOptions_option {l : ℕ} (hcode : b o ≠ 255) (hl : (b (o + 1)).toNat = l)
    (hfit : o + 2 + l ≤ elen) : readValue (walkOptions elen (turns + 1) o r) b =
      readValue (walkOptions elen turns (o + 2 + l)
        (readValue (parseOption (b o) l (o + 2) r) b)) b := by
  rw [walkOptions, if_pos (by omega), readValue_bind (reading_fetch _), readValue_fetch, if_neg hcode,
    if_neg (by omega), readValue_bind (reading_fetch _), readValue_fetch, hl, if_neg (by omega),
    readValue_bind (reading_parseOption _ _ _ _)]

/-- A length that leads out of the frame ends the loop. -/
theorem walkOptions_over (hcode : b o ≠ 255) (hin : o + 1 < elen)
    (hover : elen < o + 2 + (b (o + 1)).toNat) :
    readValue (walkOptions elen (turns + 1) o r) b = r := by
  rw [walkOptions, if_pos (by omega), readValue_bind (reading_fetch _), readValue_fetch, if_neg hcode,
    if_neg (by omega), readValue_bind (reading_fetch _), readValue_fetch, if_pos hover, readValue_pure]

theorem parseOption_pad (l : ℕ) : readValue (parseOption 0 l o r) b = r := rfl

end Walk

theorem parseOptions_pad {opts : DhcpOptions} (bp bpLen turns o : ℕ) (hin : o < bpLen)
    (hcode : b (bp + o) = 0) : parseOptions b bp bpLen (turns + 1) o opts =
      parseOptions b bp bpLen turns (o + 1) opts := by
  rw [parseOptions, hcode, if_pos hin, if_pos rfl]

theorem optionBytes_cons (i : DhcpItem) (items : List DhcpItem) :
    optionBytes (i :: items) = i.bytes ++ optionBytes items := by
  simp [optionBytes]

theorem optionBytes_pos (items : List DhcpItem) : 0 < (optionBytes items).length := by
  simp [optionBytes]

/-- The parsers end with the same values. The induction is on the list of items; the parsers
stand at the same item after each option and after each pair of pads. -/
theorem walkOptions_agrees {behind bp bpLen : ℕ} {items : List DhcpItem} (yiaddr : Ip4)
    (hpads : PadsPaired behind items) (hlegal : ∀ i ∈ items, i.Legal) {o : ℕ}
    (hbytes : slice b (bp + o) (optionBytes items).length = optionBytes items)
    (hlen : o + (optionBytes items).length + behind = bpLen) {turns turns' : ℕ}
    (hturns : (optionBytes items).length ≤ turns) (hturns' : (optionBytes items).length ≤ turns')
    (opts : DhcpOptions) :
    readValue (walkOptions (bp + bpLen) turns (bp + o) (leaseOf yiaddr opts)) b =
      leaseOf yiaddr (parseOptions b bp bpLen turns' o opts) := by
  fun_induction PadsPaired behind items generalizing o turns turns' opts with
  | case1 =>
    obtain ⟨hend, _⟩ := slice_eq_cons hbytes
    obtain ⟨k, rfl⟩ := Nat.exists_eq_add_of_le' hturns
    obtain ⟨k', rfl⟩ := Nat.exists_eq_add_of_le' hturns'
    exact (walkOptions_end hend).trans (congrArg _ (parseOptions_end bp bpLen _ o hend).symm)
  | case2 code data items ih =>
    obtain ⟨hpad, hend, hdata⟩ := hlegal _ List.mem_cons_self
    have hrest (i : DhcpItem) (hi : i ∈ items) : i.Legal := hlegal i (List.mem_cons_of_mem _ hi)
    rw [optionBytes_cons] at hbytes hlen hturns hturns'
    obtain ⟨hitem, htail⟩ := slice_eq_append hbytes
    obtain ⟨hcode, hitem⟩ := slice_eq_cons hitem
    obtain ⟨holen, _⟩ := slice_eq_cons hitem
    have hsize : (DhcpItem.option code data).bytes.length = data.length + 2 := rfl
    have hnat : (UInt8.ofNat data.length).toNat = data.length := by
      rw [UInt8.toNat_ofNat']
      omega
    rw [List.length_append, hsize] at hlen hturns hturns'
    rw [hsize] at htail
    obtain ⟨k, rfl⟩ : ∃ k, turns = k + 1 := ⟨turns - 1, by omega⟩
    obtain ⟨k', rfl⟩ : ∃ k', turns' = k' + 1 := ⟨turns' - 1, by omega⟩
    have hoff : bp + o + 2 + data.length = bp + (o + 2 + data.length) := by omega
    have htail' : slice b (bp + (o + 2 + data.length)) (optionBytes items).length = optionBytes items := by
      rwa [← hoff, Nat.add_assoc _ 2, Nat.add_comm 2]
    have hnext : readValue (walkOptions (bp + bpLen) k (bp + (o + 2 + data.length))
          (leaseOf yiaddr (takeOption b code data.length (bp + (o + 2)) opts))) b =
        leaseOf yiaddr (parseOptions b bp bpLen k' (o + 2 + data.length)
          (takeOption b code data.length (bp + (o + 2)) opts)) :=
      ih hpads hrest htail' (by omega) (by omega) (by omega) _
    rw [walkOptions_option (l := data.length) (by rwa [hcode]) (by rw [holen, hnat]) (by omega),
      readValue_parseOption, hcode, hoff, Nat.add_assoc bp o 2, hnext,
      parseOptions_option bp bpLen k' o code (UInt8.ofNat data.length) hcode holen hpad hend
        (by omega), hnat]
  | case3 =>
    have hpads : behind < 255 := hpads
    obtain ⟨hfirst, hsecond⟩ := slice_eq_cons (c := 0) (s := [255]) hbytes
    obtain ⟨hend, _⟩ := slice_eq_cons (c := 255) (s := []) hsecond
    have hsize : (optionBytes [.pad]).length = 2 := rfl
    have hnat : (255 : UInt8).toNat = 255 := rfl
    obtain ⟨k, rfl⟩ : ∃ k, turns = k + 1 := ⟨turns - 1, by omega⟩
    obtain ⟨k', rfl⟩ : ∃ k', turns' = k' + 1 + 1 := ⟨turns' - 2, by omega⟩
    rw [walkOptions_over (by rw [hfirst]; decide) (by omega) (by rw [hend, hnat]; omega),
      parseOptions_pad bp bpLen _ o (by omega) hfirst, parseOptions_end bp bpLen _ (o + 1) hend]
  | case4 items ih =>
    have hrest (i : DhcpItem) (hi : i ∈ items) : i.Legal :=
      hlegal i (List.mem_cons_of_mem _ (List.mem_cons_of_mem _ hi))
    rw [optionBytes_cons, optionBytes_cons] at hbytes hlen hturns hturns'
    obtain ⟨hfirst, hsecond⟩ := slice_eq_cons (c := 0) (s := 0 :: optionBytes items) hbytes
    obtain ⟨hpad, htail⟩ := slice_eq_cons (c := 0) (s := optionBytes items) hsecond
    have hsize : (DhcpItem.pad.bytes ++ (DhcpItem.pad.bytes ++ optionBytes items)).length =
      (optionBytes items).length + 2 := rfl
    rw [hsize] at hlen hturns hturns'
    obtain ⟨k, rfl⟩ : ∃ k, turns = k + 1 := ⟨turns - 1, by omega⟩
    obtain ⟨k', rfl⟩ : ∃ k', turns' = k' + 1 + 1 := ⟨turns' - 2, by omega⟩
    have hnext : readValue (walkOptions (bp + bpLen) k (bp + (o + 2)) (leaseOf yiaddr opts)) b =
        leaseOf yiaddr (parseOptions b bp bpLen k' (o + 2) opts) :=
      ih hpads hrest htail (by omega) (by omega) (by omega) opts
    rw [walkOptions_option (l := 0) (by rw [hfirst]; decide) (by rw [hpad]; rfl) (by omega), hfirst,
      parseOption_pad, Nat.add_zero, Nat.add_assoc bp o 2, hnext,
      parseOptions_pad bp bpLen _ o (by omega) hfirst,
      parseOptions_pad bp bpLen _ (o + 1) (by omega) hpad]
  | case5 => exact hpads.elim

section Reads

variable {n o : ℕ}

theorem readsIn_readMatch {xs : List UInt8} (h : o + xs.length ≤ n) :
    ReadsIn (Set.Iio n) (readMatch o xs) b :=
  fun _ hi => lt_of_lt_of_le (readMatch_lt hi) h

theorem readsIn_read16 (h : o + 2 ≤ n) : ReadsIn (Set.Iio n) (read16 o) b := by
  simp only [ReadsIn, readOffsets_read16, List.mem_cons, List.not_mem_nil, or_false, Set.mem_Iio]
  omega

theorem readsIn_read32 (h : o + 4 ≤ n) : ReadsIn (Set.Iio n) (read32 o) b := by
  simp only [ReadsIn, readOffsets_read32, List.mem_cons, List.not_mem_nil, or_false, Set.mem_Iio]
  omega

theorem readsIn_readIp4 (h : o + 4 ≤ n) : ReadsIn (Set.Iio n) (readIp4 o) b := by
  have hoffsets : readOffsets (readIp4 o) b = [o, o + 1, o + 2, o + 3] := rfl
  simp only [ReadsIn, hoffsets, List.mem_cons, List.not_mem_nil, or_false, Set.mem_Iio]
  omega

/-- A comparison stays below `n` if it ends there or before a byte from `n` on. -/
theorem readsIn_readMatch_iff {xs : List UInt8} (ho : o < n) :
    ReadsIn (Set.Iio n) (readMatch o xs) b ↔
      o + xs.length ≤ n ∨ ∃ j < xs.length, o + j < n ∧ b (o + j) ≠ xs.getD j 0 := by
  induction xs generalizing o with
  | nil =>
    simp [readMatch, ho.le]
  | cons x xs ih =>
    rw [readMatch, readsIn_bind (reading_fetch o), readsIn_fetch, readValue_fetch]
    by_cases hx : b o = x
    · rw [if_pos hx]
      obtain hlt | hge := Nat.lt_or_ge (o + 1) n
      · rw [ih hlt, List.length_cons]
        constructor
        · rintro ⟨_, hle | ⟨j, hj, hin, hne⟩⟩
          · exact Or.inl (by omega)
          · exact Or.inr ⟨j + 1, by omega, by omega, by rwa [← Nat.add_assoc, Nat.add_right_comm]⟩
        · rintro (hle | ⟨j, hj, hin, hne⟩)
          · exact ⟨ho, Or.inl (by omega)⟩
          · cases j with
            | zero => exact absurd hx hne
            | succ j =>
              refine ⟨ho, Or.inr ⟨j, by omega, by omega, ?_⟩⟩
              rwa [Nat.add_right_comm]
      · -- the next byte is the first one that must not be read
        cases xs with
        | nil =>
          simp [readMatch, ho]
        | cons y ys =>
          have hout : ¬ ReadsIn (Set.Iio n) (readMatch (o + 1) (y :: ys)) b := by
            rw [readMatch, readsIn_bind (reading_fetch _), readsIn_fetch]
            exact fun h => absurd h.1 (Nat.not_lt.mpr hge)
          rw [iff_false_left fun h => hout h.2]
          rintro (hle | ⟨j, _, hin, hne⟩)
          · simp only [List.length_cons] at hle
            omega
          · obtain rfl : j = 0 := by omega
            exact hne hx
    · rw [if_neg hx]
      exact iff_of_true ⟨ho, readsIn_pure _⟩ (Or.inr ⟨0, Nat.succ_pos _, ho, hx⟩)

/-- An option is read where it lies. -/
theorem readsIn_readOption {code : UInt8} {olen : ℕ} {opts : DhcpOptions} (h : o + olen ≤ n) :
    ReadsIn (Set.Iio n) (readOption code olen o opts) b := by
  have hip (g : Ip4 → DhcpOptions) (hlen : 4 ≤ olen) :
      ReadsIn (Set.Iio n) (readIp4 o >>= fun v => pure (g v)) b :=
    (readsIn_bind (reading_readIp4 o) _).mpr ⟨readsIn_readIp4 (by omega), readsIn_pure _⟩
  have hnone : ReadsIn (Set.Iio n) (pure opts : FrameProgram DhcpOptions) b := readsIn_pure _
  unfold readOption
  refine .ite (fun _ => .ite (fun hlen => ?_) fun _ => hnone) fun _ =>
    .ite (fun _ => .ite (hip _) fun _ => hnone) fun _ =>
    .ite (fun _ => .ite (hip _) fun _ => hnone) fun _ =>
    .ite (fun _ => .ite (hip _) fun _ => hnone) fun _ =>
    .ite (fun _ => .ite (hip _) fun _ => hnone) fun _ =>
    .ite (fun _ => .ite (fun hlen => ?_) fun _ => hnone) fun _ => hnone
  · refine (readsIn_bind (reading_fetch o) _).mpr ⟨readsIn_fetch o |>.mpr ?_, readsIn_pure _⟩
    exact Set.mem_Iio.mpr (by omega)
  · exact (readsIn_bind (reading_read32 o) _).mpr ⟨readsIn_read32 (by omega), readsIn_pure _⟩

theorem readsIn_parseOption {t : UInt8} {l : ℕ} {r : UInt8 × WifiLease} (h : o + l ≤ n) :
    ReadsIn (Set.Iio n) (parseOption t l o r) b := by
  have hip (g : Ip4 → UInt8 × WifiLease) (hlen : 4 ≤ l) :
      ReadsIn (Set.Iio n) (readIp4 o >>= fun v => pure (g v)) b :=
    (readsIn_bind (reading_readIp4 o) _).mpr ⟨readsIn_readIp4 (by omega), readsIn_pure _⟩
  unfold parseOption
  refine .ite (fun hlen => ?_) fun _ => .ite (fun h => hip _ h.2) fun _ =>
    .ite (fun h => hip _ h.2) fun _ => .ite (fun h => hip _ h.2) fun _ =>
    .ite (fun h => hip _ h.2) fun _ => readsIn_pure _
  refine (readsIn_bind (reading_fetch o) _).mpr ⟨readsIn_fetch o |>.mpr ?_, readsIn_pure _⟩
  exact Set.mem_Iio.mpr (by omega)

theorem readsIn_readOptions (bp bpLen turns : ℕ) (opts : DhcpOptions) :
    ReadsIn (Set.Iio (bp + bpLen)) (readOptions bp bpLen turns o opts) b := by
  induction turns generalizing o opts with
  | zero => exact readsIn_pure _
  | succ turns ih =>
    rw [readOptions]
    refine .ite (fun ho => ?_) fun _ => readsIn_pure _
    refine (readsIn_bind (reading_fetch _) _).mpr ⟨readsIn_fetch _ |>.mpr ?_, ?_⟩
    · exact Set.mem_Iio.mpr (by omega)
    refine .ite (fun _ => ih _) fun _ => .ite (fun _ => readsIn_pure _) fun _ =>
      .ite (fun _ => readsIn_pure _) fun hlen => ?_
    refine (readsIn_bind (reading_fetch _) _).mpr ⟨readsIn_fetch _ |>.mpr ?_, ?_⟩
    · exact Set.mem_Iio.mpr (by omega)
    refine .ite (fun _ => readsIn_pure _) fun hfit => ?_
    exact (readsIn_bind (reading_readOption _ _ _ _) _).mpr ⟨readsIn_readOption (by omega), ih _⟩

theorem readsIn_walkOptions (elen turns : ℕ) (r : UInt8 × WifiLease) :
    ReadsIn (Set.Iio elen) (walkOptions elen turns o r) b := by
  induction turns generalizing o r with
  | zero => exact readsIn_pure _
  | succ turns ih =>
    rw [walkOptions]
    refine .ite (fun ho => ?_) fun _ => readsIn_pure _
    refine (readsIn_bind (reading_fetch _) _).mpr ⟨readsIn_fetch _ |>.mpr ho, ?_⟩
    refine .ite (fun _ => readsIn_pure _) fun _ => .ite (fun _ => readsIn_pure _) fun hlen => ?_
    refine (readsIn_bind (reading_fetch _) _).mpr ⟨readsIn_fetch _ |>.mpr ?_, ?_⟩
    · exact Set.mem_Iio.mpr (by omega)
    refine .ite (fun _ => readsIn_pure _) fun hfit => ?_
    exact (readsIn_bind (reading_parseOption _ _ _ _) _).mpr ⟨readsIn_parseOption (by omega), ih _⟩

end Reads

theorem ihl_le (f : Frame) : ihl f ≤ 60 := by
  have hle : (f.bytes 14 &&& 0x0F).toNat ≤ 15 := by
    rw [UInt8.toNat_and]
    exact Nat.and_le_right
  unfold ihl
  omega

/-- The parser of the wired client reads bytes of the frame only. -/
theorem readsIn_readReply (turns : ℕ) (gXid : UInt32) (f : Frame) :
    ReadsIn (Set.Iio f.len) (readReply turns f.len gXid) f.bytes := by
  have hihl := ihl_le f
  unfold readReply
  refine .ite (fun _ => readsIn_pure _) fun hlong => ?_
  refine (readsIn_bind (reading_readMatch _ _) _).mpr ⟨readsIn_readMatch (by simp; omega), ?_⟩
  refine .ite (fun _ => ?_) fun _ => readsIn_pure _
  refine (readsIn_bind (reading_fetch _) _).mpr ⟨readsIn_fetch _ |>.mpr ?_, ?_⟩
  · exact Set.mem_Iio.mpr (by omega)
  refine .ite (fun _ => ?_) fun _ => readsIn_pure _
  refine (readsIn_bind (reading_fetch _) _).mpr ⟨readsIn_fetch _ |>.mpr ?_, ?_⟩
  · exact Set.mem_Iio.mpr (by omega)
  refine (readsIn_bind (reading_fetch _) _).mpr ⟨readsIn_fetch _ |>.mpr ?_, ?_⟩
  · exact Set.mem_Iio.mpr (by omega)
  refine .ite (fun _ => ?_) fun _ => readsIn_pure _
  change ReadsIn _ (read16 (14 + ihl f) >>= fun sport => read16 (14 + ihl f + 2) >>= fun dport => _) _
  refine (readsIn_bind (reading_read16 _) _).mpr ⟨readsIn_read16 (by omega), ?_⟩
  refine (readsIn_bind (reading_read16 _) _).mpr ⟨readsIn_read16 (by omega), ?_⟩
  refine .ite (fun _ => .ite (fun _ => readsIn_pure _) fun hmessage => ?_) fun _ => readsIn_pure _
  change ¬ f.len - bootpAt f < 240 at hmessage
  change ReadsIn _ (read32 (bootpAt f + 4) >>= fun xid => _) _
  refine (readsIn_bind (reading_read32 _) _).mpr ⟨readsIn_read32 (by omega), ?_⟩
  refine .ite (fun _ => ?_) fun _ => readsIn_pure _
  change ReadsIn _ (readMatch (bootpAt f + 236) cookie >>= fun magic => _) _
  have hcookie : cookie.length = 4 := rfl
  refine (readsIn_bind (reading_readMatch _ _) _).mpr ⟨readsIn_readMatch (by omega), ?_⟩
  refine .ite (fun _ => ?_) fun _ => readsIn_pure _
  change ReadsIn _ (readIp4 (bootpAt f + 16) >>= fun yiaddr => _) _
  refine (readsIn_bind (reading_readIp4 _) _).mpr ⟨readsIn_readIp4 (by omega), ?_⟩
  refine (readsIn_bind (reading_readOptions _ _ _ _ _) _).mpr ⟨?_, readsIn_pure _⟩
  have hall := readsIn_readOptions (b := f.bytes) (o := 240) (bootpAt f) (f.len - bootpAt f) turns noOptions
  rwa [Nat.add_sub_cancel' (by omega)] at hall

/-- The checks of `dhcp_parse` in front of the cookie. -/
structure CookieReached (xid : UInt32) (f : Frame) : Prop where
  long : 282 ≤ f.len
  ethertype : f.bytes 12 = 0x08 ∧ f.bytes 13 = 0x00
  proto : f.bytes 23 = 17
  dport : f.bytes (14 + ihl f + 2) = 0 ∧ f.bytes (14 + ihl f + 3) = 68
  op : f.bytes (bootpAt f) = 2
  xid : be32 f.bytes (bootpAt f + 4) = xid

/-- The cookie lies in the frame, or a byte of it that does is a wrong one. -/
def CookieInside (f : Frame) : Prop :=
  bootpAt f + 240 ≤ f.len ∨
    ∃ j < 4, bootpAt f + 236 + j < f.len ∧ f.bytes (bootpAt f + 236 + j) ≠ cookie.getD j 0

theorem dport_iff (b : ℕ → UInt8) (o : ℕ) :
    (List.range ([0, 68] : List UInt8).length).map (fun k => b (o + k)) = [0, 68] ↔
      b o = 0 ∧ b (o + 1) = 68 := by
  simp [List.range_succ]

/-- The parser of the driver reads bytes of the frame only, if and only if the cookie lies in the
frame whenever it is looked at. -/
theorem readsIn_dhcpParse_iff (turns : ℕ) (xid : UInt32) (f : Frame) (r : WifiLease) :
    ReadsIn (Set.Iio f.len) (dhcpParse turns f.len xid r) f.bytes ↔
      (CookieReached xid f → CookieInside f) := by
  have hihl := ihl_le f
  have hbootp : bootpAt f = 14 + ihl f + 8 := rfl
  have hnone (r : UInt8 × WifiLease) : ReadsIn (Set.Iio f.len) (pure r : FrameProgram _) f.bytes :=
    readsIn_pure r
  unfold dhcpParse
  by_cases hlong : f.len < 282
  · rw [if_pos hlong]
    exact iff_of_true (hnone _) fun h => absurd h.long (by omega)
  rw [if_neg hlong, readsIn_bind (reading_readMatch _ _), readValue_readMatch,
    and_iff_right (readsIn_readMatch (by simp; omega))]
  by_cases hether : f.bytes 12 = 0x08 ∧ f.bytes 13 = 0x00
  swap
  · rw [if_neg fun h => hether ((ethertype_iff _).mp (of_decide_eq_true h))]
    exact iff_of_true (hnone _) fun h => absurd h.ethertype hether
  rw [if_pos (decide_eq_true ((ethertype_iff _).mpr hether)), readsIn_bind (reading_fetch _),
    readsIn_bind (reading_fetch _), readValue_fetch, readValue_fetch,
    and_iff_right (readsIn_fetch _ |>.mpr (Set.mem_Iio.mpr (by omega))),
    and_iff_right (readsIn_fetch _ |>.mpr (Set.mem_Iio.mpr (by omega)))]
  by_cases hproto : f.bytes 23 = 17
  swap
  · rw [if_neg hproto]
    exact iff_of_true (hnone _) fun h => absurd h.proto hproto
  rw [if_pos hproto]
  change ReadsIn _ (readMatch (14 + ihl f + 2) [0, 68] >>= fun dport => _) _ ↔ _
  rw [readsIn_bind (reading_readMatch _ _), readValue_readMatch,
    and_iff_right (readsIn_readMatch (by simp; omega))]
  by_cases hdport : f.bytes (14 + ihl f + 2) = 0 ∧ f.bytes (14 + ihl f + 3) = 68
  swap
  · rw [if_neg fun h => hdport ((dport_iff _ _).mp (of_decide_eq_true h))]
    exact iff_of_true (hnone _) fun h => absurd h.dport hdport
  rw [if_pos (decide_eq_true ((dport_iff _ _).mpr hdport))]
  change ReadsIn _ (fetch (bootpAt f) >>= fun op => _) _ ↔ _
  rw [readsIn_bind (reading_fetch _), readValue_fetch,
    and_iff_right (readsIn_fetch _ |>.mpr (Set.mem_Iio.mpr (by omega)))]
  by_cases hop : f.bytes (bootpAt f) = 2
  swap
  · rw [if_neg hop]
    exact iff_of_true (hnone _) fun h => absurd h.op hop
  rw [if_pos hop]
  change ReadsIn _ (read32 (bootpAt f + 4) >>= fun got => _) _ ↔ _
  rw [readsIn_bind (reading_read32 _), readValue_read32, and_iff_right (readsIn_read32 (by omega))]
  by_cases hxid : be32 f.bytes (bootpAt f + 4) = xid
  swap
  · rw [if_neg hxid]
    exact iff_of_true (hnone _) fun h => absurd h.xid hxid
  rw [if_pos hxid, imp_iff_right ⟨by omega, hether, hproto, hdport, hop, hxid⟩]
  change ReadsIn _ (readIp4 (bootpAt f + 16) >>= fun yiaddr => readMatch (bootpAt f + 236) cookie >>=
    fun magic => _) _ ↔ _
  rw [readsIn_bind (reading_readIp4 _), and_iff_right (readsIn_readIp4 (by omega)),
    readsIn_bind (reading_readMatch _ _)]
  have hrest (magic : Bool) (r : WifiLease) : ReadsIn (Set.Iio f.len)
      (if magic then walkOptions f.len turns (bootpAt f + 240) (0, r) else pure (0, r)) f.bytes :=
    .ite (fun _ => readsIn_walkOptions _ _ _) fun _ => hnone _
  refine (and_iff_left (hrest _ _)).trans ?_
  obtain hlt | hge := Nat.lt_or_ge (bootpAt f + 236) f.len
  · exact readsIn_readMatch_iff hlt
  · have hout : ¬ ReadsIn (Set.Iio f.len) (readMatch (bootpAt f + 236) cookie) f.bytes := by
      rw [cookie, readMatch, readsIn_bind (reading_fetch _), readsIn_fetch]
      exact fun h => absurd h.1 (Nat.not_lt.mpr hge)
    refine iff_of_false hout ?_
    rintro (hle | ⟨j, _, hin, _⟩) <;> omega

/-- What the two parsers make of a frame and of the transaction id. -/
structure ParsersAgree (xid : UInt32) (f : Frame) : Prop where
  same : ∀ items, WellFormedReply xid f items →
    ∃ m, readValue (readReply f.len f.len xid) f.bytes = some m ∧
      readValue (dhcpParse f.len f.len xid noLease) f.bytes = leaseOf m.yiaddr m.opts
  wiredEnds : ∀ k, readReply (f.len + k) f.len xid = readReply f.len f.len xid
  wifiEnds : ∀ k r, dhcpParse (f.len + k) f.len xid r = dhcpParse f.len f.len xid r
  wiredInside : ReadsIn (Set.Iio f.len) (readReply f.len f.len xid) f.bytes
  wifiInside : ∀ r, ReadsIn (Set.Iio f.len) (dhcpParse f.len f.len xid r) f.bytes

/-- The pads of a well-formed reply do not put the parsers out of step. -/
def InStep (xid : UInt32) (f : Frame) : Prop :=
  ∀ items, WellFormedReply xid f items →
    PadsPaired (f.len - (bootpAt f + 240 + (optionBytes items).length)) items

section Agreement

variable {xid : UInt32} {f : Frame} {items : List DhcpItem}

theorem length_bytes_lt {i : DhcpItem} (h : i ∈ items) : i.bytes.length < (optionBytes items).length := by
  induction items with
  | nil => cases h
  | cons j items ih =>
    have hpos := optionBytes_pos items
    rw [optionBytes_cons, List.length_append]
    obtain rfl | h := List.mem_cons.mp h
    · omega
    · have := ih h
      omega

theorem WellFormedReply.isReply (h : WellFormedReply xid f items) : IsReply xid f := by
  obtain ⟨t, ht⟩ := h.type
  have htype := length_bytes_lt ht
  have hsize : (DhcpItem.option 53 [t]).bytes.length = 3 := rfl
  have hheader := h.header
  have hinside := h.inside
  have hbootp : bootpAt f = 14 + ihl f + 8 := rfl
  exact ⟨by omega, h.ethertype, h.version, h.proto, h.ports, by omega, h.xid, h.magic⟩

theorem be16_low {b : ℕ → UInt8} {o : ℕ} {n : UInt8} (h : be16 b o = n.toUInt16) :
    b o = 0 ∧ b (o + 1) = n := by
  have hnat := congrArg UInt16.toNat h
  have hlow := (b (o + 1)).toNat_lt
  have hn := n.toNat_lt
  rw [be16_toNat, UInt8.toNat_toUInt16] at hnat
  constructor
  · exact UInt8.toNat_inj.mp (by simp; omega)
  · exact UInt8.toNat_inj.mp (by omega)

/-- What `dhcp_parse` returns for a reply. -/
theorem readValue_dhcpParse (h : WellFormedReply xid f items) (turns : ℕ) (r : WifiLease) :
    readValue (dhcpParse turns f.len xid r) f.bytes =
      readValue (walkOptions f.len turns (bootpAt f + 240)
        (0, { r with yiaddr := ip4At f.bytes (bootpAt f + 16) })) f.bytes := by
  have hlong := h.isReply.long
  have hdport := (dport_iff f.bytes (14 + ihl f + 2)).mpr (be16_low h.ports.2)
  unfold dhcpParse
  rw [if_neg (by omega), readValue_bind (reading_readMatch _ _), readValue_readMatch,
    if_pos (decide_eq_true ((ethertype_iff _).mpr h.ethertype)), readValue_bind (reading_fetch _),
    readValue_bind (reading_fetch _), readValue_fetch, readValue_fetch, if_pos h.proto]
  change readValue (readMatch (14 + ihl f + 2) [0, 68] >>= fun dport => _) _ = _
  rw [readValue_bind (reading_readMatch _ _), readValue_readMatch, if_pos (decide_eq_true hdport)]
  change readValue (fetch (bootpAt f) >>= fun op => _) _ = _
  rw [readValue_bind (reading_fetch _), readValue_fetch, if_pos h.op]
  change readValue (read32 (bootpAt f + 4) >>= fun got => _) _ = _
  rw [readValue_bind (reading_read32 _), readValue_read32, if_pos h.xid]
  change readValue (readIp4 (bootpAt f + 16) >>= fun yiaddr => readMatch (bootpAt f + 236) cookie >>=
    fun magic => _) _ = _
  rw [readValue_bind (reading_readIp4 _), readValue_bind (reading_readMatch _ _), readValue_readIp4,
    readValue_readMatch, if_pos (decide_eq_true ((cookie_iff _ _).mpr h.magic))]
  rfl

theorem WellFormedReply.same (h : WellFormedReply xid f items)
    (hpads : PadsPaired (f.len - (bootpAt f + 240 + (optionBytes items).length)) items) :
    ∃ m, readValue (readReply f.len f.len xid) f.bytes = some m ∧
      readValue (dhcpParse f.len f.len xid noLease) f.bytes = leaseOf m.yiaddr m.opts := by
  have hinside := h.inside
  refine ⟨replyAt f.len f, by rw [readValue_readReply, if_pos h.isReply], ?_⟩
  rw [readValue_dhcpParse h]
  have hall : readValue (walkOptions (bootpAt f + (f.len - bootpAt f)) f.len (bootpAt f + 240)
        (leaseOf (ip4At f.bytes (bootpAt f + 16)) noOptions)) f.bytes =
      leaseOf (ip4At f.bytes (bootpAt f + 16))
        (parseOptions f.bytes (bootpAt f) (f.len - bootpAt f) f.len 240 noOptions) :=
    walkOptions_agrees _ hpads h.legal h.options (by omega) (by omega) (by omega) noOptions
  rwa [Nat.add_sub_cancel' (by omega)] at hall

theorem readReply_turns (len k : ℕ) (xid : UInt32) :
    readReply (len + k) len xid = readReply len len xid := by
  have hturns (bp o : ℕ) (opts : DhcpOptions) : readOptions bp (len - bp) (len + k) o opts =
      readOptions bp (len - bp) len o opts := readOptions_turns _ _ _ _ _ _ (by omega)
  unfold readReply
  simp only [hturns]

theorem dhcpParse_turns (elen k : ℕ) (xid : UInt32) (r : WifiLease) :
    dhcpParse (elen + k) elen xid r = dhcpParse elen elen xid r := by
  have hturns (o : ℕ) (r : UInt8 × WifiLease) : walkOptions elen (elen + k) o r =
      walkOptions elen elen o r := walkOptions_turns _ _ _ _ _ (by omega)
  unfold dhcpParse
  simp only [hturns]

end Agreement

/-- The parsers agree on a frame and read its bytes only, when pads come in pairs and the cookie lies
in the frame; and they do not when the cookie does not. -/
theorem parsersAgree_of_inStep (xid : UInt32) (f : Frame) :
    (InStep xid f ∧ (CookieReached xid f → CookieInside f) → ParsersAgree xid f) ∧
      (ParsersAgree xid f → CookieReached xid f → CookieInside f) := by
  constructor
  · rintro ⟨hstep, hcookie⟩
    exact
      { same := fun items h => h.same (hstep items h)
        wiredEnds := fun k => readReply_turns f.len k xid
        wifiEnds := fun k r => dhcpParse_turns f.len k xid r
        wiredInside := readsIn_readReply f.len xid f
        wifiInside := fun r => (readsIn_dhcpParse_iff f.len xid f r).mpr hcookie }
  · exact fun h => (readsIn_dhcpParse_iff f.len xid f noLease).mp (h.wifiInside noLease)

/-- An OFFER with a pad in front of the message type. -/
def paddedOffer : Frame where
  bytes o :=
    if o = 12 then 0x08
    else if o = 14 then 0x45
    else if o = 23 then 17
    else if o = 35 then 67
    else if o = 37 then 68
    else if o = 42 then 2
    else if o < 278 then 0
    else (cookie ++ [0, 53, 1, 2, 255]).getD (o - 278) 0
  len := 287

theorem paddedOffer_wellFormed : WellFormedReply 0 paddedOffer [.pad, .option 53 [2]] := by
  constructor
  · exact ⟨rfl, rfl⟩
  · decide
  · decide
  · rfl
  · decide
  · decide
  · decide
  · decide
  · decide
  · decide
  · decide
  · exact ⟨2, by decide⟩

/-- The driver takes the code behind the pad for a length. -/
theorem padded_offer_dropped : ¬ ParsersAgree 0 paddedOffer := by
  intro h
  obtain ⟨m, hm, hlease⟩ := h.same _ paddedOffer_wellFormed
  have hwired : (readValue (readReply 287 287 0) paddedOffer.bytes).map (·.opts.msgType) = some 2 := by
    decide
  have hwifi : (readValue (dhcpParse 287 287 0 noLease) paddedOffer.bytes).1 = 0 := by decide
  have hlen : paddedOffer.len = 287 := rfl
  rw [hlen] at hm hlease
  rw [hm] at hwired
  rw [hlease] at hwifi
  have htype : m.opts.msgType = 2 := Option.some.inj hwired
  have hzero : m.opts.msgType = 0 := hwifi
  exact absurd (hzero.symm.trans htype) (by decide)

end XinuRpi4.Dhcp
