import XinuRpi4.Files.Vfs
import XinuRpi4.Foundation.Runs

/-!
# The file commands of `shell/fscmd.c` and the mount of the SD card

A command gets its arguments behind its own name. What a command prints is left
out, except for the bytes of `cat`. The mount walks the entries of the card's
root directory and of the directories in it.
-/

namespace XinuRpi4.Files

open XinuRpi4.Foundation

def shellBuflen : ℕ := 128

/-- An argument of a command, or a name. -/
abbrev Text := List UInt8

namespace Vfs

/-- The copy loop of `dst_file`. A null `altname` reads the bytes at address 0. -/
def altLeaf (s : Vfs) (altname : Option Text) : Text :=
  match altname with
  | some name => name.take vfsNameMax
  | none => ((List.range vfsNameMax).map (s.bytes none)).takeWhile (· ≠ 0)

/-- The part of `dst_file` behind the choice of directory and name. -/
def dstIn (s : Vfs) (dir : NodeRef) (leaf : Text) : Option NodeRef × Vfs :=
  match s.vfsChild (some dir) leaf with
  | some ex => if (s.node ex).kind = .file then (some ex, s) else (none, s)
  | none => s.vfsCreateFile (some dir) leaf

def dstFile (s : Vfs) (path : Text) (altname : Option Text) : Option NodeRef × Vfs :=
  match s.vfsResolve path with
  | some n =>
    if (s.node n).kind = .file then (some n, s)
    else s.dstIn n (s.altLeaf altname)
  | none =>
    match s.vfsResolveParent path (vfsNameMax + 1) with
    | none => (none, s)
    | some (dir, leaf) => s.dstIn dir leaf

def cmdCd (s : Vfs) (argv : List Text) : ℤ × Vfs :=
  let n := match argv with
    | [] => some .gRoot
    | path :: _ => s.vfsResolve path
  match n with
  | none => (-1, s)
  | some n =>
    match s.vfsChdir (some n) with
    | (0, s) => (0, s)
    | (_, s) => (-1, s)

def cmdMkdir (s : Vfs) (argv : List Text) : ℤ × Vfs :=
  match argv with
  | [] => (-1, s)
  | path :: _ =>
    match s.vfsResolveParent path (vfsNameMax + 1) with
    | none => (-1, s)
    | some (parent, leaf) =>
      match s.vfsMkdir (some parent) leaf with
      | (none, s) => (-1, s)
      | (some _, s) => (0, s)

def cmdTouch (s : Vfs) (argv : List Text) : ℤ × Vfs :=
  match argv with
  | [] => (-1, s)
  | path :: _ =>
    match s.dstFile path none with
    | (none, s) => (-1, s)
    | (some _, s) => (0, s)

/-- The bytes `cat` prints for one argument. -/
def catFile (s : Vfs) (path : Text) : List UInt8 :=
  match s.vfsResolve path with
  | none => []
  | some n =>
    if (s.node n).kind ≠ .file then []
    else
      let d := (List.range (s.node n).size).map (s.bytes (s.node n).data)
      if (s.node n).size ≠ 0 ∧ s.bytes (s.node n).data ((s.node n).size - 1) ≠ 10 then d ++ [10]
      else d

def cmdCat (s : Vfs) (argv : List Text) : List UInt8 := argv.flatMap s.catFile

end Vfs

/-- The copy loop of `cmd_write`, for the arguments behind the path. -/
def writeText : Text → List Text → Text
  | buf, [] => buf
  | buf, arg :: rest =>
    let buf := (buf ++ arg).take shellBuflen
    if rest ≠ [] ∧ buf.length < shellBuflen then writeText (buf ++ [32]) rest
    else writeText buf rest

/-- `unsigned long cap = 8192;` -/
def editCap : ℕ := 8192

/-- The editor's loop, up to the line that is a single `.`. -/
def editText : Text → List Text → Text
  | acc, [] => acc
  | acc, line :: rest =>
    if line = [46] then acc
    else
      let acc := (acc ++ line).take (editCap - 1)
      if acc.length < editCap - 1 then editText (acc ++ [10]) rest else editText acc rest

namespace Vfs

def writeTo (s : Vfs) (f : NodeRef) (text : Text) : ℤ × Vfs :=
  s.vfsWrite (some f) (fun i => text.getD i 0) text.length

def cmdWrite (s : Vfs) (argv : List Text) : ℤ × Vfs :=
  match argv with
  | [] => (-1, s)
  | path :: args =>
    match s.dstFile path none with
    | (none, s) => (-1, s)
    | (some f, s) =>
      let buf := writeText [] args
      let buf := if buf.length < shellBuflen then buf ++ [10] else buf
      (0, (s.writeTo f buf).2)

/-- `lines` are the lines typed. -/
def cmdEdit (s : Vfs) (argv : List Text) (lines : List Text) : ℤ × Vfs :=
  match argv with
  | [] => (-1, s)
  | path :: _ =>
    match s.dstFile path none with
    | (none, s) => (-1, s)
    | (some f, s) =>
      match s.kmalloc editCap with
      | (none, s) => (-1, s)
      | (some acc, s) => (0, (s.writeTo f (editText [] lines)).2.kfree acc)

def rmFile (s : Vfs) (path : Text) : Vfs :=
  match s.vfsResolve path with
  | none => s
  | some n => if (s.node n).kind ≠ .file then s else (s.vfsUnlink (some n)).2

def cmdRm (s : Vfs) (argv : List Text) : ℤ × Vfs :=
  match argv with
  | [] => (-1, s)
  | _ => (0, argv.foldl rmFile s)

def cmdRmdir (s : Vfs) (argv : List Text) : ℤ × Vfs :=
  match argv with
  | [] => (-1, s)
  | path :: _ =>
    match s.vfsResolve path with
    | none => (-1, s)
    | some n =>
      if n = s.vfsCwd then (-1, s)
      else
        match s.vfsRmdir (some n) with
        | (0, s) => (0, s)
        | (_, s) => (-1, s)

/-- The common part of `cmd_cp` and `cmd_mv`: the source and the file written,
which is none where the two are the same file. -/
def copyFile (s : Vfs) (argv : List Text) : Option (NodeRef × Option NodeRef) × Vfs :=
  match argv with
  | srcPath :: dstPath :: _ =>
    match s.vfsResolve srcPath with
    | none => (none, s)
    | some src =>
      if (s.node src).kind ≠ .file then (none, s)
      else
        match s.dstFile dstPath (some (s.node src).name) with
        | (none, s) => (none, s)
        | (some dst, s) =>
          if dst = src then (some (src, none), s)
          else
            match s.vfsWrite (some dst) (s.bytes (s.node src).data) (s.node src).size with
            | (0, s) => (some (src, some dst), s)
            | (_, s) => (none, s)
  | _ => (none, s)

def cmdCp (s : Vfs) (argv : List Text) : ℤ × Vfs :=
  match s.copyFile argv with
  | (some (_, some _), s) => (0, s)
  | (_, s) => (-1, s)

def cmdMv (s : Vfs) (argv : List Text) : ℤ × Vfs :=
  match s.copyFile argv with
  | (some (_, none), s) => (0, s)
  | (some (src, some _), s) => (0, (s.vfsUnlink (some src)).2)
  | (none, s) => (-1, s)

end Vfs

/-- The fields of a directory entry that `fat32_walk_dir` reads. -/
structure RawDirEntry where
  name : Fin 11 → UInt8
  attr : UInt8
  size : UInt32
  firstCluster : UInt32

/-- `format_8_3`: the bytes before the first `NUL` of the name it makes. -/
def format83 (raw : Fin 11 → UInt8) : Text :=
  let base := ((List.finRange 11).take 8).map raw
  let ext := ((List.finRange 11).drop 8).map raw
  let out := base.takeWhile (· ≠ 32) ++ if ext.all (· = 32) then [] else 46 :: ext.takeWhile (· ≠ 32)
  out.takeWhile (· ≠ 0)

def RawDirEntry.isDir (e : RawDirEntry) : Bool := e.attr &&& 0x10 ≠ 0

/-- The entries among those read for which `fat32_walk_dir` calls the visitor. -/
def fat32Visited : List RawDirEntry → List RawDirEntry
  | [] => []
  | e :: es =>
    if e.name 0 = 0x00 then []
    else if e.name 0 = 0xE5 ∨ e.attr &&& 0x0F = 0x0F ∨ e.attr &&& 0x08 ≠ 0 ∨
        format83 e.name = Vfs.dot ∨ format83 e.name = Vfs.dotdot then fat32Visited es
    else e :: fat32Visited es

/-- A mounted card: the entries read along the chain from a cluster, in order,
up to its end or a read error. -/
structure SdCard where
  rootCluster : UInt32
  chain : UInt32 → List RawDirEntry

def sdMaxDepth : ℕ := 2

def sdMaxDirEntries : ℕ := 256

/-- `struct sd_walk_ctx`, and the file system the visitor fills. -/
structure SdWalk where
  fs : Vfs
  parent : ℕ → Option NodeRef
  remaining : ℕ → ℕ

namespace SdWalk

variable (c : SdWalk) (depth : ℕ)

/-- `c->remaining[depth]--;` -/
def spend : SdWalk :=
  { c with remaining := Function.update c.remaining depth (c.remaining depth - 1) }

def addDir (e : RawDirEntry) : Option NodeRef × SdWalk :=
  let (node, fs) := c.fs.vfsMkdir (c.parent depth) (format83 e.name)
  (node, { c with fs := fs })

/-- The real size is recorded, without the contents. -/
def addFile (e : RawDirEntry) : SdWalk :=
  let (node, fs) := c.fs.vfsCreateFile (c.parent depth) (format83 e.name)
  match node with
  | none => { c with fs := fs }
  | some n => { c with fs := fs.setNode n { fs.node n with size := e.size.toNat } }

/-- Set up the next level for the walk of the new directory. -/
def enter (n : NodeRef) : SdWalk :=
  { c with
    parent := Function.update c.parent (depth + 1) (some n)
    remaining := Function.update c.remaining (depth + 1) sdMaxDirEntries }

def leave : SdWalk := { c with parent := Function.update c.parent (depth + 1) none }

end SdWalk

/-- The visitor and the walks it starts; `levels` bounds their nesting, which
the depth test of the visitor ends. -/
def sdVisit (card : SdCard) : ℕ → ℕ → SdWalk → RawDirEntry → SdWalk
  | levels, depth, c, e =>
    if 8 ≤ depth ∨ c.parent depth = none ∨ c.remaining depth = 0 then c
    else if e.isDir then
      match (c.spend depth).addDir depth e with
      | (none, c) => c
      | (some n, c) =>
        if depth + 1 < sdMaxDepth ∧ depth + 1 < 8 then
          match levels with
          | 0 => c
          | levels + 1 =>
            ((fat32Visited (card.chain e.firstCluster)).foldl (sdVisit card levels (depth + 1))
              (c.enter depth n)).leave depth
        else c
    else (c.spend depth).addFile depth e

/-- `vfs_mount_sd`; no card where `sd_init` or `fat32_mount` fails. -/
def Vfs.mountSd (s : Vfs) (card : Option SdCard) : Vfs :=
  match s.vfsMkdir (some .gRoot) [115, 100] with
  | (none, s) => s
  | (some sd, s) =>
    match card with
    | none => s
    | some card =>
      let c : SdWalk :=
        { fs := s, parent := Function.update (fun _ => none) 0 (some sd),
          remaining := Function.update (fun _ => 0) 0 sdMaxDirEntries }
      ((fat32Visited (card.chain card.rootCluster)).foldl (sdVisit card sdMaxDepth 0) c).fs

/-- A shell command, the mount, or a call of `fs/vfs.c` by other code. -/
inductive FileOp
  | cd (argv : List Text)
  | mkdir (argv : List Text)
  | touch (argv : List Text)
  | write (argv : List Text)
  | edit (argv : List Text) (lines : List Text)
  | rm (argv : List Text)
  | rmdir (argv : List Text)
  | cp (argv : List Text)
  | mv (argv : List Text)
  | mountSd (card : Option SdCard)
  | vfsMkdir (parent : Option NodeRef) (name : Text)
  | vfsCreateFile (parent : Option NodeRef) (name : Text)
  | vfsWrite (file : Option NodeRef) (buf : ℕ → UInt8) (len : ℕ)
  | vfsUnlink (file : Option NodeRef)
  | vfsRmdir (dir : Option NodeRef)
  | vfsChdir (dir : Option NodeRef)

def Vfs.run (s : Vfs) : FileOp → Vfs
  | .cd argv => (s.cmdCd argv).2
  | .mkdir argv => (s.cmdMkdir argv).2
  | .touch argv => (s.cmdTouch argv).2
  | .write argv => (s.cmdWrite argv).2
  | .edit argv lines => (s.cmdEdit argv lines).2
  | .rm argv => (s.cmdRm argv).2
  | .rmdir argv => (s.cmdRmdir argv).2
  | .cp argv => (s.cmdCp argv).2
  | .mv argv => (s.cmdMv argv).2
  | .mountSd card => s.mountSd card
  | .vfsMkdir parent name => (s.vfsMkdir parent name).2
  | .vfsCreateFile parent name => (s.vfsCreateFile parent name).2
  | .vfsWrite file buf len => (s.vfsWrite file buf len).2
  | .vfsUnlink file => (s.vfsUnlink file).2
  | .vfsRmdir dir => (s.vfsRmdir dir).2
  | .vfsChdir dir => (s.vfsChdir dir).2

/-- An operation, with what its calls of `kmalloc` find. -/
structure FileEvent where
  op : FileOp
  kmem : List (Option Addr)

def Vfs.step (s : Vfs) (e : FileEvent) : Option Vfs := some ({ s with kmem := e.kmem }.run e.op)

/-- The static root, alone; `low` holds the bytes at address 0, and the other
memory is arbitrary. -/
def Vfs.start (memory : Option Addr → ℕ → UInt8) (garbage : VfsNode) : Vfs where
  node n :=
    match n with
    | .gRoot =>
      { name := [], kind := .dir, size := 0, capacity := 0, data := none, parent := none,
        children := none, next := none }
    | .block _ => garbage
  bytes := memory
  block _ := none
  kmem := []
  gNodeCount := 1
  gCwd := none
  touched := []

end XinuRpi4.Files
