import XinuRpi4.Files.FileCommands

/-!
# The FAT32 reader

`fs/fat32.c`: the mount, the FAT, the short names and the walk of a directory. The
card is what `sd_read_block` reads. The walk calls a visitor, which may start walks
of its own; all of them share the sector `scratch`.
-/

namespace XinuRpi4.Files

/-- `SD_BLOCK_SIZE` bytes. -/
abbrev Sector := Fin 512 → UInt8

/-- `sd_read_block`: the sector at an address, nothing where the read fails. -/
abbrev Card := UInt64 → Option Sector

/-- The 32 bytes of a directory entry. -/
abbrev DirBytes := Fin 32 → UInt8

instance neZeroEntry : NeZero 32 := ⟨by decide⟩

def le16 (p₀ p₁ : UInt8) : UInt32 := p₀.toUInt32 ||| (p₁.toUInt32 <<< 8)

def le32 (p₀ p₁ p₂ p₃ : UInt8) : UInt32 :=
  p₀.toUInt32 ||| (p₁.toUInt32 <<< 8) ||| (p₂.toUInt32 <<< 16) ||| (p₃.toUInt32 <<< 24)

/-- `fat32_t` -/
structure Fat32 where
  bytesPerSector : UInt32
  sectorsPerCluster : UInt32
  reservedSectors : UInt32
  numFats : UInt32
  sectorsPerFat : UInt32
  rootCluster : UInt32
  partLba : UInt64
  fatLba : UInt64
  dataLba : UInt64

/-- The boot sector of the partition, without the checks on it. -/
def Fat32.ofBootSector (partLba : UInt64) (boot : Sector) : Fat32 :=
  let reserved := le16 (boot 0x0E) (boot 0x0F)
  let numFats := (boot 0x10).toUInt32
  let perFat := le32 (boot 0x24) (boot 0x25) (boot 0x26) (boot 0x27)
  let fatLba := partLba + reserved.toUInt64
  { bytesPerSector := le16 (boot 0x0B) (boot 0x0C)
    sectorsPerCluster := (boot 0x0D).toUInt32
    reservedSectors := reserved
    numFats := numFats
    sectorsPerFat := perFat
    rootCluster := le32 (boot 0x2C) (boot 0x2D) (boot 0x2E) (boot 0x2F)
    partLba := partLba
    fatLba := fatLba
    dataLba := fatLba + numFats.toUInt64 * perFat.toUInt64 }

/-- The signature that ends the master boot record and the boot sector. -/
def Sector.signed (s : Sector) : Bool := s 510 = 0x55 ∧ s 511 = 0xAA

/-- `fat32_mount`; nothing where it returns -1. -/
def fat32Mount (card : Card) : Option Fat32 := do
  let mbr ← card 0
  guard mbr.signed
  guard (mbr (0x1BE + 0x04) = 0x0B ∨ mbr (0x1BE + 0x04) = 0x0C)
  let partLba := (le32 (mbr 0x1C6) (mbr 0x1C7) (mbr 0x1C8) (mbr 0x1C9)).toUInt64
  let boot ← card partLba
  guard boot.signed
  let fs := Fat32.ofBootSector partLba boot
  guard (fs.bytesPerSector = 512)
  guard (fs.sectorsPerCluster ≠ 0)
  guard (2 ≤ fs.rootCluster)
  pure fs

/-- `cluster_to_lba` -/
def Fat32.clusterToLba (fs : Fat32) (cluster : UInt32) : UInt64 :=
  fs.dataLba + (cluster - 2).toUInt64 * fs.sectorsPerCluster.toUInt64

/-- What the walk reaches: the sector shared by all walks, and what the visitor works on. -/
structure World (σ : Type) where
  scratch : Sector
  ctx : σ

section Fat

variable (card : Card) (fs : Fat32)

/-- The four bytes at offset `(cluster * 4) % SD_BLOCK_SIZE` of a sector of the FAT. -/
def fatWord (cluster : UInt32) (s : Sector) : UInt32 :=
  let off := cluster.toNat * 4 % 512
  le32 (s ⟨off, by omega⟩) (s ⟨off + 1, by omega⟩) (s ⟨off + 2, by omega⟩) (s ⟨off + 3, by omega⟩)

/-- The sector of the FAT that holds the entry of a cluster. -/
def Fat32.fatSector (cluster : UInt32) : UInt64 := fs.fatLba + cluster.toUInt64 * 4 / 512

/-- `fat32_next_cluster`; a failed read ends the chain. -/
def fat32NextCluster {σ : Type} (cluster : UInt32) (w : World σ) : UInt32 × World σ :=
  match card (fs.fatSector cluster) with
  | none => (0x0FFFFFFF, w)
  | some scratch => (fatWord cluster scratch &&& 0x0FFFFFFF, { w with scratch := scratch })

end Fat

/-- A loop of `format_8_3` over a field: stop at a space or at the end of the buffer. -/
def copyField (outlen : ℕ) : List UInt8 → List UInt8 → List UInt8
  | [], out => out
  | b :: field, out =>
    if out.length < outlen - 1 then
      if b = 32 then out else copyField outlen field (out ++ [b])
    else out

/-- `format_8_3`: the bytes of the buffer up to the `NUL` it appends. -/
def format83Buffer (base ext : List UInt8) (outlen : ℕ) : List UInt8 :=
  let out := copyField outlen base []
  let out := if ext.any (· ≠ 32) ∧ out.length < outlen - 1 then out ++ [46] else out
  copyField outlen ext out ++ [0]

/-- `name[0] == '.' && (name[1] == 0 || (name[1] == '.' && name[2] == 0))` -/
def isDots (name : List UInt8) : Bool :=
  name[0]? = some 46 ∧ (name[1]? = some 0 ∨ name[1]? = some 46 ∧ name[2]? = some 0)

/-- A string of C: the bytes before the first `NUL`. -/
def cString (bytes : List UInt8) : Text := bytes.takeWhile (· ≠ 0)

/-- One call of the visitor. -/
structure Visit where
  name : Text
  isDir : Bool
  size : UInt32
  firstCluster : UInt32
  depth : ℤ
deriving DecidableEq

/-- The visitor with its context, and whatever it does to the shared sector. -/
abbrev Visitor (σ : Type) := Visit → World σ → World σ

def DirBytes.base (e : DirBytes) : List UInt8 := [e 0, e 1, e 2, e 3, e 4, e 5, e 6, e 7]

def DirBytes.ext (e : DirBytes) : List UInt8 := [e 8, e 9, e 10]

/-- The entry `off / 32` of a sector. -/
def Sector.entry (s : Sector) (k : Fin 16) : DirBytes := fun i => s ⟨32 * k.1 + i.1, by omega⟩

def Sector.entries (s : Sector) : List DirBytes := (List.finRange 16).map s.entry

section Walk

variable {σ : Type} (card : Card) (fs : Fat32) (depth : ℤ) (visit : Visitor σ)

/-- The entries of a sector; a result where the walk returns. -/
def walkEntries : List DirBytes → World σ → Option ℤ × World σ
  | [], w => (none, w)
  | e :: es, w =>
    if e 0 = 0x00 then (some 0, w)
    else if e 0 = 0xE5 then walkEntries es w
    else if e 11 &&& 0x0F = 0x0F then walkEntries es w
    else if e 11 &&& 0x08 ≠ 0 then walkEntries es w
    else
      let name := format83Buffer e.base e.ext 16
      if isDots name then walkEntries es w
      else
        let isDir := e 11 &&& 0x10 ≠ 0
        let size := le32 (e 28) (e 29) (e 30) (e 31)
        let first := (le16 (e 20) (e 21) <<< 16) ||| le16 (e 26) (e 27)
        walkEntries es (visit ⟨cString name, isDir, size, first, depth⟩ w)

/-- The sectors of a cluster. -/
def walkSectors (base : UInt64) : List ℕ → World σ → Option ℤ × World σ
  | [], w => (none, w)
  | s :: ss, w =>
    match card (base + UInt64.ofNat s) with
    | none => (some (-1), w)
    | some dirsec =>
      match walkEntries depth visit dirsec.entries w with
      | (some r, w) => (some r, w)
      | (none, w) => walkSectors base ss w

/-- The clusters of a chain, at most `safety` of them. -/
def walkChain : ℕ → UInt32 → World σ → ℤ × World σ
  | 0, _, w => (0, w)
  | safety + 1, cur, w =>
    if 2 ≤ cur ∧ cur < 0x0FFFFFF8 then
      match walkSectors card depth visit (fs.clusterToLba cur)
          (List.range fs.sectorsPerCluster.toNat) w with
      | (some r, w) => (r, w)
      | (none, w) =>
        let (next, w) := fat32NextCluster card fs cur w
        walkChain safety next w
    else (0, w)

/-- `fat32_walk_dir` -/
def fat32WalkDir (cluster : UInt32) (w : World σ) : ℤ × World σ :=
  walkChain card fs depth visit 1024 cluster w

end Walk

end XinuRpi4.Files
