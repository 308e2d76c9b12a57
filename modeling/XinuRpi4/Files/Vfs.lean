import Mathlib.Tactic

/-!
# The tmpfs of `fs/vfs.c`

Nodes and data buffers live in blocks of `kmalloc`; the root node is static. A
block that was given back keeps its contents. What the next calls of `kmalloc`
find is part of the state: nothing, or a block that no one holds.

The walks along a child list carry fuel. There are `2 ^ 64` addresses, so a walk
that is still running after more steps has met a node twice and never ends.
-/

namespace XinuRpi4.Files

abbrev Addr := Fin (2 ^ 64)

instance neZeroWord : NeZero (2 ^ 64) := ⟨by decide⟩

/-- A `vfs_node_t *` other than null. -/
inductive NodeRef
  | gRoot
  | block (a : Addr)
deriving DecidableEq

inductive VfsKind
  | dir | file
deriving DecidableEq

def vfsNameMax : ℕ := 31

/-- A name is given by its bytes before the `NUL`. -/
structure VfsNode where
  name : List UInt8
  kind : VfsKind
  size : ℕ
  capacity : ℕ
  data : Option Addr
  parent : Option NodeRef
  children : Option NodeRef
  next : Option NodeRef

/-- `sizeof(vfs_node_t)` -/
def nodeSize : ℕ := 88

structure Vfs where
  node : NodeRef → VfsNode
  /-- The bytes behind a data pointer; `none` is the null pointer. -/
  bytes : Option Addr → ℕ → UInt8
  /-- The blocks that are handed out, with the sizes asked for. -/
  block : Addr → Option ℕ
  /-- What the next calls of `kmalloc` find. -/
  kmem : List (Option Addr)
  gNodeCount : ℕ
  gCwd : Option NodeRef
  /-- History: the files written or removed, the latest first. -/
  touched : List NodeRef

namespace Vfs

def walkFuel : ℕ := 2 ^ 64 + 1

/-- A block that is still held is not found. -/
def kmalloc (s : Vfs) (n : ℕ) : Option Addr × Vfs :=
  match s.kmem with
  | [] => (none, s)
  | none :: kmem => (none, { s with kmem := kmem })
  | some a :: kmem =>
    if s.block a = none then
      (some a, { s with kmem := kmem, block := Function.update s.block a (some n) })
    else (none, { s with kmem := kmem })

def kfree (s : Vfs) (a : Addr) : Vfs :=
  { s with block := Function.update s.block a none }

def setNode (s : Vfs) (n : NodeRef) (v : VfsNode) : Vfs :=
  { s with node := Function.update s.node n v }

def findLoop (s : Vfs) (name : List UInt8) : ℕ → Option NodeRef → Option NodeRef
  | 0, _ => none
  | _ + 1, none => none
  | fuel + 1, some c =>
    if (s.node c).name = name then some c else findLoop s name fuel (s.node c).next

def findChild (s : Vfs) (parent : Option NodeRef) (name : List UInt8) : Option NodeRef :=
  match parent with
  | none => none
  | some p => if (s.node p).kind ≠ .dir then none else s.findLoop name walkFuel (s.node p).children

def vfsChild (s : Vfs) (dir : Option NodeRef) (name : List UInt8) : Option NodeRef :=
  s.findChild dir name

/-- `while (t->next) t = t->next;` -/
def tailLoop (s : Vfs) : ℕ → NodeRef → NodeRef
  | 0, t => t
  | fuel + 1, t =>
    match (s.node t).next with
    | none => t
    | some u => tailLoop s fuel u

/-- Tail-insert into the parent's child list. -/
def appendChild (s : Vfs) (p n : NodeRef) : Vfs :=
  match (s.node p).children with
  | none => s.setNode p { s.node p with children := some n }
  | some t =>
    let t := s.tailLoop walkFuel t
    s.setNode t { s.node t with next := some n }

def newNode (s : Vfs) (kind : VfsKind) (name : List UInt8) (parent : NodeRef) :
    Option NodeRef × Vfs :=
  match s.kmalloc nodeSize with
  | (none, s) => (none, s)
  | (some a, s) =>
    let n := NodeRef.block a
    let s := s.setNode n
      { name := name.take vfsNameMax, kind := kind, size := 0, capacity := 0, data := none,
        parent := some parent, children := none, next := none }
    let s := s.appendChild parent n
    (some n, { s with gNodeCount := s.gNodeCount + 1 })

/-- The common body of `vfs_mkdir` and `vfs_create_file`. -/
def makeChild (kind : VfsKind) (s : Vfs) (parent : Option NodeRef) (name : List UInt8) :
    Option NodeRef × Vfs :=
  match parent with
  | none => (none, s)
  | some p =>
    if (s.node p).kind ≠ .dir then (none, s)
    else if (s.findChild (some p) name).isSome then (none, s)
    else s.newNode kind name p

def vfsMkdir : Vfs → Option NodeRef → List UInt8 → Option NodeRef × Vfs := makeChild .dir

def vfsCreateFile : Vfs → Option NodeRef → List UInt8 → Option NodeRef × Vfs := makeChild .file

/-- The copy loop of `vfs_write`. -/
def copyIn (s : Vfs) (d : Option Addr) (buf : ℕ → UInt8) (len : ℕ) : Vfs :=
  { s with
    bytes := Function.update s.bytes d fun i => if i < len then buf i else s.bytes d i }

/-- The part of `vfs_write` behind the growing of the buffer. -/
def fillFile (s : Vfs) (f : NodeRef) (buf : ℕ → UInt8) (len : ℕ) : ℤ × Vfs :=
  let s := s.copyIn (s.node f).data buf len
  let s := s.setNode f { s.node f with size := len }
  (0, { s with touched := f :: s.touched })

def kfreeData (s : Vfs) (data : Option Addr) : Vfs :=
  match data with
  | none => s
  | some a => s.kfree a

def vfsWrite (s : Vfs) (file : Option NodeRef) (buf : ℕ → UInt8) (len : ℕ) : ℤ × Vfs :=
  match file with
  | none => (-1, s)
  | some f =>
    if (s.node f).kind ≠ .file then (-1, s)
    else if (s.node f).capacity < len then
      match s.kmalloc len with
      | (none, s) => (-1, s)
      | (some nb, s) =>
        let s := s.kfreeData (s.node f).data
        let s := s.setNode f { s.node f with data := some nb, capacity := len }
        s.fillFile f buf len
    else s.fillFile f buf len

/-- The value returned, as an `int`, and the bytes copied. -/
def vfsRead (s : Vfs) (file : Option NodeRef) (max : ℕ) : ℤ × List UInt8 :=
  match file with
  | none => (-1, [])
  | some f =>
    if (s.node f).kind ≠ .file then (-1, [])
    else
      let n := min (s.node f).size max
      ((BitVec.ofNat 32 n).toInt, (List.range n).map (s.bytes (s.node f).data))

def vfsCwd (s : Vfs) : NodeRef := s.gCwd.getD .gRoot

def vfsChdir (s : Vfs) (dir : Option NodeRef) : ℤ × Vfs :=
  match dir with
  | none => (-1, s)
  | some d => if (s.node d).kind ≠ .dir then (-1, s) else (0, { s with gCwd := some d })

/-- `'/'` -/
def slash : UInt8 := 47

/-- `"."` -/
def dot : List UInt8 := [46]

/-- `".."` -/
def dotdot : List UInt8 := [46, 46]

/-- One turn of the loop takes one component off the path, so the length of the
path is fuel enough. -/
def resolveLoop (s : Vfs) (wantParent : Bool) (leafmax : ℕ) :
    ℕ → List UInt8 → NodeRef → Option (NodeRef × List UInt8)
  | 0, _, _ => none
  | fuel + 1, path, cur =>
    let p := path.dropWhile (· = slash)
    if p = [] then if wantParent then none else some (cur, [])
    else
      let name := (p.take vfsNameMax).takeWhile (· ≠ slash)
      let p := p.drop name.length
      if p ≠ [] ∧ p.head? ≠ some slash then none  -- component too long
      else
        let q := p.dropWhile (· = slash)
        if wantParent ∧ q = [] then
          if (s.node cur).kind ≠ .dir then none
          else if name = dot ∨ name = dotdot then none
          else some (cur, name.take (leafmax - 1))
        else if name = dot then resolveLoop s wantParent leafmax fuel q cur
        else if name = dotdot then
          resolveLoop s wantParent leafmax fuel q ((s.node cur).parent.getD cur)
        else if (s.node cur).kind ≠ .dir then none
        else
          match s.findChild (some cur) name with
          | none => none
          | some c => resolveLoop s wantParent leafmax fuel q c

def resolveWalk (s : Vfs) (path : List UInt8) (wantParent : Bool) (leafmax : ℕ) :
    Option (NodeRef × List UInt8) :=
  let cur := if path.head? = some slash then .gRoot else s.vfsCwd
  s.resolveLoop wantParent leafmax (path.length + 1) path cur

def vfsResolve (s : Vfs) (path : List UInt8) : Option NodeRef :=
  if path = [] then some s.vfsCwd else (s.resolveWalk path false 0).map Prod.fst

def vfsResolveParent (s : Vfs) (path : List UInt8) (leafmax : ℕ) :
    Option (NodeRef × List UInt8) :=
  if leafmax < 1 then none else s.resolveWalk path true leafmax

/-- `while (*pp && *pp != node) pp = &(*pp)->next;` with `pp` given by the sibling
whose link it is, none for the parent's. The answer is `pp` if it found the node. -/
def detachLoop (s : Vfs) (node : NodeRef) :
    ℕ → Option NodeRef → Option NodeRef → Option (Option NodeRef)
  | 0, _, _ => none
  | _ + 1, _, none => none
  | fuel + 1, pp, some c =>
    if c = node then some pp else detachLoop s node fuel (some c) (s.node c).next

def detachChild (s : Vfs) (node : NodeRef) : ℤ × Vfs :=
  match (s.node node).parent with
  | none => (-1, s)
  | some p =>
    match s.detachLoop node walkFuel none (s.node p).children with
    | none => (-1, s)
    | some none => (0, s.setNode p { s.node p with children := (s.node node).next })
    | some (some b) => (0, s.setNode b { s.node b with next := (s.node node).next })

/-- `kfree(node)`, and the count. -/
def freeNode (s : Vfs) (n : NodeRef) : Vfs :=
  match n with
  | .gRoot => { s with gNodeCount := s.gNodeCount - 1 }
  | .block a => { s.kfree a with gNodeCount := s.gNodeCount - 1 }

def vfsUnlink (s : Vfs) (file : Option NodeRef) : ℤ × Vfs :=
  match file with
  | none => (-1, s)
  | some f =>
    if (s.node f).kind ≠ .file then (-1, s)
    else
      match s.detachChild f with
      | (0, s) =>
        let s := s.kfreeData (s.node f).data
        let s := s.freeNode f
        (0, { s with touched := f :: s.touched })
      | (_, s) => (-1, s)

def vfsRmdir (s : Vfs) (dir : Option NodeRef) : ℤ × Vfs :=
  match dir with
  | none => (-1, s)
  | some d =>
    if (s.node d).kind ≠ .dir then (-1, s)
    else if d = .gRoot then (-1, s)
    else if (s.node d).children.isSome then (-1, s)
    else
      match s.detachChild d with
      | (0, s) => (0, s.freeNode d)
      | (_, s) => (-1, s)

end Vfs

end XinuRpi4.Files
