import XinuRpi4.Files.Fat32
import XinuRpi4.Foundation.ByteWords
import Mathlib.Data.List.DropRight
import Mathlib.Data.List.ReduceOption
import Mathlib.Data.List.TakeWhile

/-!
# The entries a directory walk visits

A directory is the stream of the entries read along its chain, with a gap where a
sector cannot be read. The walk visits the entries of the stream up to the first gap
or end marker, whatever the visitor does to the sector that the walks share.
-/

namespace XinuRpi4.Files

open XinuRpi4.Foundation

section Chain

variable (card : Card) (fs : Fat32)

/-- The value of the FAT at a cluster; where it cannot be read the chain ends. -/
def Fat32.fatEntry (cluster : UInt32) : UInt32 :=
  match card (fs.fatSector cluster) with
  | none => 0x0FFFFFFF
  | some s => fatWord cluster s &&& 0x0FFFFFFF

/-- The cluster numbers below the end marks. -/
abbrev IsCluster (cluster : UInt32) : Prop := 2 ≤ cluster ∧ cluster < 0x0FFFFFF8

/-- The chain from a cluster, where it ends. -/
inductive Chain : UInt32 → List UInt32 → Prop
  | done {c : UInt32} : ¬ IsCluster c → Chain c []
  | next {c : UInt32} {cs : List UInt32} :
    IsCluster c → Chain (fs.fatEntry card c) cs → Chain c (c :: cs)

/-- The first clusters of the chain, which may have no end. -/
def Fat32.clusters : ℕ → UInt32 → List UInt32
  | 0, _ => []
  | n + 1, c => if IsCluster c then c :: clusters n (fs.fatEntry card c) else []

/-- The sectors of a cluster, in order. -/
def Fat32.sectors (cluster : UInt32) : List (Option Sector) :=
  (List.range fs.sectorsPerCluster.toNat).map fun s =>
    card (fs.clusterToLba cluster + UInt64.ofNat s)

end Chain

/-- The entries of a sector; a gap for one that cannot be read. -/
def sectorStream : Option Sector → List (Option DirBytes)
  | none => [none]
  | some s => s.entries.map some

/-- The entries of the clusters of a chain, in the order they lie on the card. -/
def Fat32.stream (card : Card) (fs : Fat32) (cs : List UInt32) : List (Option DirBytes) :=
  cs.flatMap fun c => (fs.sectors card c).flatMap sectorStream

/-- An entry that was read and is not the end marker. -/
def goesOn (o : Option DirBytes) : Bool := o.any fun e => e 0 ≠ 0x00

/-- The entries before the first end marker and the first gap. -/
def live (l : List (Option DirBytes)) : List DirBytes := (l.takeWhile goesOn).reduceOption

/-- What a walk over a part of the stream returns; nothing where it goes on. -/
def outcome (l : List (Option DirBytes)) : Option ℤ :=
  match l.dropWhile goesOn with
  | [] => none
  | none :: _ => some (-1)
  | some _ :: _ => some 0

section Stream

variable {l m : List (Option DirBytes)}

theorem goesOn_some {e : DirBytes} : goesOn (some e) = true ↔ e 0 ≠ 0 := by
  simp [goesOn]

theorem outcome_eq_none : outcome l = none ↔ ∀ o ∈ l, goesOn o = true := by
  rw [← List.dropWhile_eq_nil_iff, outcome]
  split <;> simp_all

theorem outcome_append : outcome (l ++ m) = (outcome l).or (outcome m) := by
  induction l with
  | nil => rfl
  | cons o l ih =>
    by_cases ho : goesOn o = true
    · simpa [outcome, ho] using ih
    · cases o <;> simp [outcome, ho]

theorem live_append : live (l ++ m) = live l ++ if outcome l = none then live m else [] := by
  by_cases h : ∀ o ∈ l, goesOn o = true
  · have htake : l.takeWhile goesOn = l := List.takeWhile_eq_self_iff.mpr h
    rw [if_pos (outcome_eq_none.mpr h), live, live, live, htake,
      List.takeWhile_append_of_pos h, List.reduceOption_append]
  · have hlen : (l.takeWhile goesOn).length ≠ l.length := by
      intro heq
      have := (List.takeWhile_prefix goesOn).eq_of_length heq
      exact h (List.takeWhile_eq_self_iff.mp this)
    rw [if_neg fun hnone => h (outcome_eq_none.mp hnone), List.append_nil, live, live,
      List.takeWhile_append, if_neg hlen]

theorem live_length : (live l).length ≤ l.length :=
  (List.reduceOption_length_le _).trans (List.takeWhile_prefix goesOn).length_le

end Stream

namespace DirBytes

/-- Neither deleted, nor a part of a long name, nor a volume label. -/
def Listed (e : DirBytes) : Prop :=
  e 0 ≠ 0xE5 ∧ e 11 &&& 0x0F ≠ 0x0F ∧ e 11 &&& 0x08 = 0

instance (e : DirBytes) : Decidable e.Listed := by
  unfold Listed
  infer_instance

/-- The fields of the entry, least significant byte first, under a name. -/
def visit (depth : ℤ) (name : Text) (e : DirBytes) : Visit where
  name := name
  isDir := (e 11).toNat.testBit 4
  size := UInt32.ofNat ((e 28).toNat + (e 29).toNat * 2 ^ 8 + (e 30).toNat * 2 ^ 16 +
    (e 31).toNat * 2 ^ 24)
  firstCluster := UInt32.ofNat ((e 26).toNat + (e 27).toNat * 2 ^ 8 + (e 20).toNat * 2 ^ 16 +
    (e 21).toNat * 2 ^ 24)
  depth := depth

/-- Base and extension without their trailing spaces, the extension behind a dot. -/
def shortName (e : DirBytes) : Text :=
  let ext := e.ext.rdropWhile (· = 32)
  cString (e.base.rdropWhile (· = 32) ++ if ext = [] then [] else 46 :: ext)

end DirBytes

/-- Nothing but spaces from the first space on. -/
def Unspaced (field : List UInt8) : Prop := ∀ b ∈ field.dropWhile (· ≠ 32), b = 32

/-- No space stands before another character in the base or in the extension. -/
def DirBytes.Unspaced (e : DirBytes) : Prop := Files.Unspaced e.base ∧ Files.Unspaced e.ext

/-- The visits of a directory under a way to name its entries. -/
def directoryVisits (name : DirBytes → Text) (depth : ℤ) (es : List DirBytes) : List Visit :=
  (es.filter fun e => e.Listed ∧ name e ≠ Vfs.dot ∧ name e ≠ Vfs.dotdot).map fun e =>
    e.visit depth (name e)

section Names

variable {field out : List UInt8} {outlen : ℕ}

theorem copyField_eq (h : out.length + field.length < outlen) :
    copyField outlen field out = out ++ field.takeWhile (· ≠ 32) := by
  induction field generalizing out with
  | nil => simp [copyField]
  | cons b field ih =>
    rw [List.length_cons] at h
    rw [copyField, if_pos (by omega)]
    split_ifs with hb
    · simp [hb]
    · rw [ih (by simp; omega)]
      simp [hb]

/-- The bytes of `format_8_3` before its `NUL`; the buffer of the walk is never full. -/
def name83 (base ext : List UInt8) : List UInt8 :=
  base.takeWhile (· ≠ 32) ++ if ext.any (· ≠ 32) then 46 :: ext.takeWhile (· ≠ 32) else []

theorem takeWhile_of_blank (h : ¬ field.any (· ≠ 32)) : field.takeWhile (· ≠ 32) = [] := by
  cases field with
  | nil => rfl
  | cons b field =>
    have hb : b = 32 := by
      by_contra hne
      exact h (by simp [hne])
    simp [hb]

theorem format83Buffer_eq {base ext : List UInt8} (h : base.length + 1 + ext.length < outlen) :
    format83Buffer base ext outlen = name83 base ext ++ [0] := by
  have htake := (List.takeWhile_prefix (· ≠ 32) (l := base)).length_le
  have hbase : copyField outlen base [] = base.takeWhile (· ≠ 32) := copyField_eq (by simp; omega)
  by_cases hext : ext.any (· ≠ 32) = true
  · have hroom : (base.takeWhile (· ≠ 32)).length < outlen - 1 := by omega
    simp only [format83Buffer, hbase, hext, hroom, and_self, if_true, name83]
    rw [copyField_eq (by rw [List.length_append, List.length_singleton]; omega)]
    simp only [List.append_assoc, List.singleton_append]
  · rw [format83Buffer, hbase, if_neg fun hdot => hext hdot.1, name83, if_neg hext,
      copyField_eq (by omega), takeWhile_of_blank hext]

/-- The name that the walk hands to the visitor: base and extension up to their first spaces. -/
def DirBytes.name (e : DirBytes) : Text := cString (name83 e.base e.ext)

theorem cString_buffer (bytes : List UInt8) : cString (bytes ++ [0]) = cString bytes := by
  induction bytes with
  | nil => rfl
  | cons b bytes ih =>
    by_cases hb : b = 0
    · simp [cString, hb]
    · simpa [cString, hb] using ih

theorem isDots_iff (bytes : List UInt8) :
    isDots (bytes ++ [0]) = true ↔ cString bytes = Vfs.dot ∨ cString bytes = Vfs.dotdot := by
  rcases bytes with _ | ⟨a, _ | ⟨b, _ | ⟨c, bytes⟩⟩⟩ <;>
    simp [isDots, cString, Vfs.dot, Vfs.dotdot, List.takeWhile_cons] <;> split_ifs <;> simp_all

end Names

section Bytes

variable (p₀ p₁ p₂ p₃ : UInt8)

theorem le16_toNat : (le16 p₀ p₁).toNat = p₀.toNat + p₁.toNat * 2 ^ 8 := by
  have h₁ := shifted_toNat p₁ (k := 8) (by decide)
  have hk₁ : (8 : UInt32).toNat = 8 := rfl
  rw [hk₁] at h₁
  have hb₀ := p₀.toNat_lt
  have h₀ := UInt8.toNat_toUInt32 p₀
  rw [le16, UInt32.or_comm, or_toNat (k := 8) (by omega) (by omega), h₀, h₁, Nat.add_comm]

theorem le32_toNat : (le32 p₀ p₁ p₂ p₃).toNat =
    p₀.toNat + p₁.toNat * 2 ^ 8 + p₂.toNat * 2 ^ 16 + p₃.toNat * 2 ^ 24 := by
  have h₂ := shifted_toNat p₂ (k := 16) (by decide)
  have h₃ := shifted_toNat p₃ (k := 24) (by decide)
  have hk₂ : (16 : UInt32).toNat = 16 := rfl
  have hk₃ : (24 : UInt32).toNat = 24 := rfl
  rw [hk₂] at h₂
  rw [hk₃] at h₃
  have hb₀ := p₀.toNat_lt
  have hb₁ := p₁.toNat_lt
  have hb₂ := p₂.toNat_lt
  have hlow := le16_toNat p₀ p₁
  have hmid := or_toNat (k := 16) (x := p₂.toUInt32 <<< 16) (y := le16 p₀ p₁) (by omega) (by omega)
  rw [UInt32.or_comm] at hmid
  have hhigh := or_toNat (k := 24) (x := p₃.toUInt32 <<< 24)
    (y := le16 p₀ p₁ ||| p₂.toUInt32 <<< 16) (by omega) (by omega)
  rw [UInt32.or_comm] at hhigh
  rw [le32, ← le16, hhigh, hmid, h₂, h₃, hlow]
  omega

end Bytes

/-- The visitor that also notes each call. -/
def recorded {σ : Type} (visit : Visitor σ) : Visitor (σ × List Visit) := fun v w =>
  let w' := visit v ⟨w.scratch, w.ctx.1⟩
  ⟨w'.scratch, w'.ctx, w.ctx.2 ++ [v]⟩

/-- The calls that a walk makes of its visitor. -/
def walkVisits {σ : Type} (card : Card) (fs : Fat32) (depth : ℤ) (visit : Visitor σ)
    (cluster : UInt32) (w : World σ) : List Visit :=
  (fat32WalkDir card fs depth (recorded visit) cluster ⟨w.scratch, w.ctx, []⟩).2.ctx.2

theorem attr_isDir : ∀ b : UInt8, decide (b &&& 0x10 ≠ 0) = b.toNat.testBit 4 := by
  rintro ⟨b⟩
  revert b
  decide

theorem firstCluster_toNat (p₀ p₁ p₂ p₃ : UInt8) :
    ((le16 p₂ p₃ <<< 16) ||| le16 p₀ p₁).toNat =
      p₀.toNat + p₁.toNat * 2 ^ 8 + p₂.toNat * 2 ^ 16 + p₃.toNat * 2 ^ 24 := by
  have hlow := le16_toNat p₀ p₁
  have hhigh := le16_toNat p₂ p₃
  have hb₀ := p₀.toNat_lt
  have hb₁ := p₁.toNat_lt
  have hb₂ := p₂.toNat_lt
  have hb₃ := p₃.toNat_lt
  have hshift : (le16 p₂ p₃ <<< 16).toNat = (le16 p₂ p₃).toNat * 2 ^ 16 := by
    have hk : (16 : UInt32).toNat % 32 = 16 := rfl
    rw [UInt32.toNat_shiftLeft, hk, Nat.shiftLeft_eq]
    omega
  rw [or_toNat (k := 16) (by omega) (by omega), hshift, hlow, hhigh]
  omega

/-- The walk decodes an entry as its fields say. -/
theorem visit_fields (depth : ℤ) (name : Text) (e : DirBytes) :
    (⟨name, e 11 &&& 0x10 ≠ 0, le32 (e 28) (e 29) (e 30) (e 31),
      (le16 (e 20) (e 21) <<< 16) ||| le16 (e 26) (e 27), depth⟩ : Visit) = e.visit depth name := by
  have hsize := le32_toNat (e 28) (e 29) (e 30) (e 31)
  have hfirst := firstCluster_toNat (e 26) (e 27) (e 20) (e 21)
  rw [DirBytes.visit, attr_isDir, ← hsize, ← hfirst, UInt32.ofNat_toNat, UInt32.ofNat_toNat]

section Walk

variable {σ τ : Type} {card : Card} {fs : Fat32} {depth : ℤ} {visit : Visitor σ} {w : World σ}

/-- An entry that is not the end marker: either it is visited or the walk passes over it. -/
theorem walkEntries_cons {e : DirBytes} (es : List DirBytes) (hend : e 0 ≠ 0) :
    walkEntries depth visit (e :: es) w =
      walkEntries depth visit es
        (if e.Listed ∧ e.name ≠ Vfs.dot ∧ e.name ≠ Vfs.dotdot then visit (e.visit depth e.name) w
          else w) := by
  have hbuf : format83Buffer e.base e.ext 16 = name83 e.base e.ext ++ [0] :=
    format83Buffer_eq (by simp [DirBytes.base, DirBytes.ext])
  have hname : cString (name83 e.base e.ext ++ [0]) = e.name := cString_buffer _
  have hdots : isDots (name83 e.base e.ext ++ [0]) = true ↔ e.name = Vfs.dot ∨ e.name = Vfs.dotdot :=
    isDots_iff _
  have hfields := visit_fields depth e.name e
  rw [walkEntries, if_neg hend]
  split_ifs with hdel hlfn hvol hlisted hlisted <;> simp_all [DirBytes.Listed]

theorem walkEntries_outcome (es : List DirBytes) :
    (walkEntries depth visit es w).1 = outcome (es.map some) := by
  induction es generalizing w with
  | nil => rfl
  | cons e es ih =>
    by_cases hend : e 0 = 0
    · simp [walkEntries, outcome, goesOn, hend]
    · rw [walkEntries_cons es hend, ih, List.map_cons]
      simp [outcome, goesOn, hend]

/-- A part of the world that visits change by `act` and the reads of the FAT do not. -/
structure View (visit : Visitor σ) (view : World σ → τ) (act : τ → Visit → τ) : Prop where
  visit : ∀ v w, view (visit v w) = act (view w) v
  scratch : ∀ w s, view { w with scratch := s } = view w

variable {view : World σ → τ} {act : τ → Visit → τ}

theorem walkEntries_view (hview : View visit view act) (es : List DirBytes) :
    view (walkEntries depth visit es w).2 =
      (directoryVisits DirBytes.name depth (live (es.map some))).foldl act (view w) := by
  induction es generalizing w with
  | nil => rfl
  | cons e es ih =>
    by_cases hend : e 0 = 0
    · simp [walkEntries, live, goesOn, directoryVisits, hend]
    · have hlive : live ((e :: es).map some) = e :: live (es.map some) := by
        simp [live, goesOn, hend, List.reduceOption_cons_of_some]
      rw [walkEntries_cons es hend, ih, hlive, directoryVisits, directoryVisits, List.filter_cons]
      split_ifs with hvisited hvisited' <;> simp_all [hview.visit]

theorem directoryVisits_append (name : DirBytes → Text) (es es' : List DirBytes) :
    directoryVisits name depth (es ++ es') =
      directoryVisits name depth es ++ directoryVisits name depth es' := by
  rw [directoryVisits, directoryVisits, directoryVisits, List.filter_append, List.map_append]

/-- What a walk over a part of the stream does, whatever part it is. -/
structure Walks (depth : ℤ) (view : World σ → τ) (act : τ → Visit → τ)
    (l : List (Option DirBytes)) (w : World σ) (r : Option ℤ × World σ) : Prop where
  outcome : r.1 = outcome l
  view : view r.2 = (directoryVisits DirBytes.name depth (live l)).foldl act (view w)

theorem Walks.stop {l m : List (Option DirBytes)} {r : Option ℤ × World σ} {i : ℤ}
    (h : Walks depth view act l w r) (hr : r.1 = some i) : Walks depth view act (l ++ m) w r := by
  have hstop : Files.outcome l = some i := h.outcome.symm.trans hr
  constructor
  · rw [outcome_append, hstop, hr, Option.some_or]
  · rw [live_append, hstop, if_neg (Option.some_ne_none i), List.append_nil]
    exact h.view

theorem Walks.goOn {l m : List (Option DirBytes)} {r r' : Option ℤ × World σ}
    (h : Walks depth view act l w r) (hr : r.1 = none) (h' : Walks depth view act m r.2 r') :
    Walks depth view act (l ++ m) w r' := by
  have hon : Files.outcome l = none := h.outcome.symm.trans hr
  constructor
  · rw [outcome_append, hon, Option.none_or]
    exact h'.outcome
  · rw [live_append, hon, if_pos rfl, directoryVisits_append, List.foldl_append, ← h.view]
    exact h'.view

theorem walkEntries_walks (depth : ℤ) (w : World σ) (hview : View visit view act) (es : List DirBytes) :
    Walks depth view act (es.map some) w (walkEntries depth visit es w) :=
  ⟨walkEntries_outcome es, walkEntries_view hview es⟩

theorem walkSectors_walks (card : Card) (depth : ℤ) (w : World σ) (hview : View visit view act)
    (base : UInt64) (ss : List ℕ) :
    Walks depth view act ((ss.map fun s => card (base + UInt64.ofNat s)).flatMap sectorStream) w
      (walkSectors card depth visit base ss w) := by
  induction ss generalizing w with
  | nil => exact ⟨rfl, rfl⟩
  | cons s ss ih =>
    rw [List.map_cons, List.flatMap_cons, walkSectors]
    cases hread : card (base + UInt64.ofNat s) with
    | none => exact Walks.stop ⟨rfl, rfl⟩ rfl
    | some dirsec =>
      have hentries := walkEntries_walks depth w hview dirsec.entries
      cases hres : walkEntries depth visit dirsec.entries w with
      | mk r w' =>
        rw [hres] at hentries
        simp only [hres]
        cases r with
        | none => exact hentries.goOn rfl (ih w')
        | some i => exact hentries.stop rfl

theorem fat32NextCluster_eq (cur : UInt32) (w : World σ) :
    (fat32NextCluster card fs cur w).1 = fs.fatEntry card cur := by
  rw [fat32NextCluster, Fat32.fatEntry]
  cases card (fs.fatSector cur) <;> rfl

theorem fat32NextCluster_view (card : Card) (fs : Fat32) (hview : View visit view act)
    (cur : UInt32) (w : World σ) :
    view (fat32NextCluster card fs cur w).2 = view w := by
  rw [fat32NextCluster]
  cases card (fs.fatSector cur) with
  | none => rfl
  | some s => exact hview.scratch w s

/-- The walk of a chain, as far as `safety` lets it go. -/
theorem walkChain_walks (card : Card) (fs : Fat32) (depth : ℤ) (w : World σ)
    (hview : View visit view act) (safety : ℕ) (cur : UInt32) :
    ∃ r, (walkChain card fs depth visit safety cur w).1 = r.getD 0 ∧
      Walks depth view act (fs.stream card (fs.clusters card safety cur)) w
        (r, (walkChain card fs depth visit safety cur w).2) := by
  induction safety generalizing cur w with
  | zero => exact ⟨none, rfl, rfl, rfl⟩
  | succ safety ih =>
    rw [walkChain, Fat32.clusters]
    by_cases hcur : IsCluster cur
    · have hsectors := walkSectors_walks card depth w hview
        (fs.clusterToLba cur) (List.range fs.sectorsPerCluster.toNat)
      rw [if_pos hcur, if_pos hcur, Fat32.stream, List.flatMap_cons]
      cases hres : walkSectors card depth visit (fs.clusterToLba cur)
          (List.range fs.sectorsPerCluster.toNat) w with
      | mk r w' =>
        rw [hres] at hsectors
        simp only
        cases r with
        | some i => exact ⟨some i, rfl, hsectors.stop rfl⟩
        | none =>
          obtain ⟨r, hret, hrest⟩ := ih (fat32NextCluster card fs cur w').2 (fs.fatEntry card cur)
          rw [← fat32NextCluster_eq cur w'] at hret hrest
          have hview' := fat32NextCluster_view card fs hview cur w'
          have hrest' : Walks depth view act _ w' _ := ⟨hrest.outcome, hview' ▸ hrest.view⟩
          rw [← fat32NextCluster_eq cur w']
          exact ⟨r, hret, hsectors.goOn rfl hrest'⟩
    · rw [if_neg hcur, if_neg hcur]
      exact ⟨none, rfl, rfl, rfl⟩

/-- The walk of a directory on a part of the world that its reads of the FAT leave alone. -/
theorem walkDir_view (hview : View visit view act) (cluster : UInt32) :
    view (fat32WalkDir card fs depth visit cluster w).2 =
      (directoryVisits DirBytes.name depth
        (live (fs.stream card (fs.clusters card 1024 cluster)))).foldl act (view w) := by
  obtain ⟨r, _, hwalk⟩ := walkChain_walks card fs depth w hview 1024 cluster
  exact hwalk.view

theorem recorded_view (visit : Visitor σ) :
    View (recorded visit) (fun w => w.ctx.2) fun l v => l ++ [v] :=
  ⟨fun _ _ => rfl, fun _ _ => rfl⟩

theorem foldl_noted (l vs : List Visit) : vs.foldl (fun l v => l ++ [v]) l = l ++ vs := by
  induction vs generalizing l with
  | nil => simp
  | cons v vs ih => rw [List.foldl_cons, ih, List.append_assoc, List.singleton_append]

theorem walkVisits_eq (visit : Visitor σ) (cluster : UInt32) (w : World σ) :
    walkVisits card fs depth visit cluster w = directoryVisits DirBytes.name depth
      (live (fs.stream card (fs.clusters card 1024 cluster))) := by
  rw [walkVisits, walkDir_view (recorded_view visit), foldl_noted, List.nil_append]

end Walk

theorem Chain.clusters_eq {card : Card} {fs : Fat32} {c : UInt32} {cs : List UInt32} {n : ℕ}
    (h : Chain card fs c cs) (hn : cs.length ≤ n) : fs.clusters card n c = cs := by
  induction h generalizing n with
  | @done c hc => cases n with
    | zero => rfl
    | succ n => rw [Fat32.clusters, if_neg hc]
  | next hc _ ih => cases n with
    | zero => simp at hn
    | succ n => rw [Fat32.clusters, if_pos hc, ih (by simpa using hn)]

theorem clusters_length (card : Card) (fs : Fat32) (n : ℕ) (c : UInt32) :
    (fs.clusters card n c).length ≤ n := by
  induction n generalizing c with
  | zero => exact le_rfl
  | succ n ih =>
    rw [Fat32.clusters]
    split_ifs
    · simpa using ih (fs.fatEntry card c)
    · simp

theorem sectorStream_length (o : Option Sector) : (sectorStream o).length ≤ 16 := by
  cases o <;> simp [sectorStream, Sector.entries]

theorem flatMap_length_le {α β : Type} {f : α → List β} {n : ℕ} (h : ∀ a, (f a).length ≤ n)
    (l : List α) : (l.flatMap f).length ≤ l.length * n := by
  induction l with
  | nil => simp
  | cons a l ih =>
    have ha := h a
    rw [List.flatMap_cons, List.length_append, List.length_cons, Nat.succ_mul]
    omega

theorem stream_length (card : Card) (fs : Fat32) (cs : List UInt32) :
    (fs.stream card cs).length ≤ cs.length * (fs.sectorsPerCluster.toNat * 16) := by
  apply flatMap_length_le
  intro c
  simpa [Fat32.sectors] using flatMap_length_le sectorStream_length (fs.sectors card c)

theorem directoryVisits_length (name : DirBytes → Text) (depth : ℤ) (es : List DirBytes) :
    (directoryVisits name depth es).length ≤ es.length := by
  rw [directoryVisits, List.length_map]
  exact List.length_filter_le _ _

theorem rdropWhile_append_blank {t d : List UInt8} (hd : ∀ b ∈ d, b = 32) :
    (t ++ d).rdropWhile (· = 32) = t.rdropWhile (· = 32) := by
  induction d using List.reverseRecOn with
  | nil => rw [List.append_nil]
  | append_singleton d b ih =>
    have hb : b = 32 := hd b (by simp)
    rw [← List.append_assoc, List.rdropWhile_concat_pos _ _ _ (by simpa using hb)]
    exact ih fun b' hb' => hd b' (List.mem_append_left _ hb')

/-- Where no space stands before another character, the first space ends what is kept. -/
theorem Unspaced.trimmed {field : List UInt8} (h : Unspaced field) :
    field.rdropWhile (· = 32) = field.takeWhile (· ≠ 32) := by
  conv_lhs => rw [← List.takeWhile_append_dropWhile (p := (· ≠ 32)) (l := field)]
  rw [rdropWhile_append_blank h, List.rdropWhile_eq_self_iff]
  intro hne hlast
  have hmem := List.mem_takeWhile_imp (List.getLast_mem hne)
  simp_all

theorem DirBytes.Unspaced.name_eq {e : DirBytes} (h : e.Unspaced) : e.name = e.shortName := by
  have hblank : e.ext.any (· ≠ 32) = true ↔ e.ext.takeWhile (· ≠ 32) ≠ [] := by
    rw [← h.2.trimmed, Ne, List.rdropWhile_eq_nil_iff]
    simp
  rw [DirBytes.name, name83, DirBytes.shortName, h.1.trimmed, h.2.trimmed]
  by_cases hext : e.ext.takeWhile (· ≠ 32) = []
  · rw [if_pos hext, if_neg fun hany => hblank.mp hany hext]
  · rw [if_neg hext, if_pos (hblank.mpr hext)]

/-- Of every card the walk ends, and of a chain that ends in time it visits the listed
entries one by one, up to the end marker or the first sector that cannot be read. A name is
cut at the first space, which leaves the names without a space inside as they are. -/
theorem walkDir_visits {σ : Type} (card : Card) (fs : Fat32) (depth : ℤ) (visit : Visitor σ)
    (cluster : UInt32) (w : World σ) :
    (walkVisits card fs depth visit cluster w).length ≤ 1024 * (fs.sectorsPerCluster.toNat * 16) ∧
      (∀ e : DirBytes, e.Unspaced → e.name = e.shortName) ∧
      ∀ cs, Chain card fs cluster cs → cs.length ≤ 1024 →
        walkVisits card fs depth visit cluster w =
          directoryVisits DirBytes.name depth (live (fs.stream card cs)) := by
  refine ⟨?_, fun e he => he.name_eq, fun cs hchain hlen => ?_⟩
  · have hclusters := clusters_length card fs 1024 cluster
    rw [walkVisits_eq]
    calc _ ≤ (live (fs.stream card (fs.clusters card 1024 cluster))).length :=
          directoryVisits_length _ _ _
      _ ≤ (fs.stream card (fs.clusters card 1024 cluster)).length := live_length
      _ ≤ (fs.clusters card 1024 cluster).length * (fs.sectorsPerCluster.toNat * 16) :=
          stream_length _ _ _
      _ ≤ 1024 * (fs.sectorsPerCluster.toNat * 16) := Nat.mul_le_mul_right _ hclusters
  · rw [walkVisits_eq, hchain.clusters_eq hlen]

/-- The sector that starts with some bytes, with deleted entries behind. -/
def sectorOf (bytes : List UInt8) : Sector := fun i => bytes.getD i.1 0xE5

/-- An entry: its name, its attributes and the low half of its first cluster. -/
def entryOf (name : List UInt8) (attr cluster : UInt8) : List UInt8 :=
  name ++ [attr] ++ List.replicate 14 0 ++ [cluster] ++ List.replicate 5 0

/-- `A`, with a blank extension. -/
def nameA : List UInt8 := 65 :: List.replicate 10 32

/-- A FAT in sector 1, in which 2 is followed by 3 and the chains from 3 and 4 end there. -/
def smallFat : Sector := sectorOf (List.replicate 8 0 ++ [3, 0, 0, 0] ++ List.replicate 8 0xFF)

/-- The clusters lie from sector 2 on. -/
def smallFs (sectorsPerCluster : UInt32) : Fat32 where
  bytesPerSector := 512
  sectorsPerCluster := sectorsPerCluster
  reservedSectors := 1
  numFats := 1
  sectorsPerFat := 1
  rootCluster := 2
  partLba := 0
  fatLba := 1
  dataLba := 2

/-- A directory of two clusters with a directory in the first, and that directory. -/
def nestedCard : Card := fun lba =>
  if lba = 1 then some smallFat
  else if lba = 2 then some (sectorOf (entryOf nameA 0x10 4))
  else if lba = 3 then some (sectorOf (entryOf nameA 0x20 0))
  else if lba = 4 then some (sectorOf (entryOf nameA 0x20 0))
  else none

/-- A visitor that walks the directories it meets. -/
def nestedVisit (card : Card) (fs : Fat32) : Visitor Unit := fun v w =>
  if v.isDir then (fat32WalkDir card fs (v.depth + 1) (fun _ w => w) v.firstCluster w).2 else w

theorem walkDir_visits_nested :
    walkVisits nestedCard (smallFs 1) 0 (nestedVisit nestedCard (smallFs 1)) 2 ⟨fun _ => 0, ()⟩ =
      directoryVisits DirBytes.name 0 (live ((smallFs 1).stream nestedCard [2, 3])) :=
  (walkDir_visits nestedCard (smallFs 1) 0 (nestedVisit nestedCard (smallFs 1)) 2
    ⟨fun _ => 0, ()⟩).2.2 [2, 3]
    (.next (by decide) (.next (by decide) (.done (by decide)))) (by decide)

/-- The entries of a stream before the end marker, gaps or not. -/
def beforeEnd (l : List (Option DirBytes)) : List DirBytes :=
  l.reduceOption.takeWhile fun e => e 0 ≠ 0x00

/-- Two sectors in cluster 3, the first of which cannot be read. -/
def gapCard : Card := fun lba =>
  if lba = 1 then some smallFat
  else if lba = 5 then some (sectorOf (entryOf nameA 0x20 0))
  else none

/-- A file whose name is `A B`. -/
def spacedCard : Card := fun lba =>
  if lba = 1 then some smallFat
  else if lba = 3 then
    some (sectorOf (entryOf ([65, 32, 66] ++ List.replicate 8 32) 0x20 0))
  else none

/-- A sector that cannot be read hides the file behind it, and the file `A B` is called `A`. -/
theorem gap_ends_walk :
    (Chain gapCard (smallFs 2) 3 [3] ∧
      walkVisits gapCard (smallFs 2) 0 (fun _ w => w) 3 ⟨fun _ => 0, ()⟩ ≠
        directoryVisits DirBytes.shortName 0
          (beforeEnd ((smallFs 2).stream gapCard [3]))) ∧
    (Chain spacedCard (smallFs 1) 3 [3] ∧
      walkVisits spacedCard (smallFs 1) 0 (fun _ w => w) 3 ⟨fun _ => 0, ()⟩ ≠
        directoryVisits DirBytes.shortName 0
          (beforeEnd ((smallFs 1).stream spacedCard [3]))) :=
  ⟨⟨.next (by decide) (.done (by decide)), by decide⟩,
    .next (by decide) (.done (by decide)), by decide⟩

end XinuRpi4.Files
