import XinuRpi4.Files.DirectoryWalk

/-!
# The mount over the sectors of a card

`sd_visit` and `vfs_mount_sd` over the reader of `fs/fat32.c`. What they build is what
the mount builds over the entries listed along each chain.
-/

namespace XinuRpi4.Files

section Renamed

variable {σ τ : Type} {card : Card} {fs : Fat32} {depth : ℤ} {visit : Visitor σ}
  {visit' : Visitor τ} {f : World σ → World τ}

/-- A map of worlds that goes along with the visits and the reads of the FAT. -/
structure Forgets (visit : Visitor σ) (visit' : Visitor τ) (f : World σ → World τ) : Prop where
  visit : ∀ v w, f (visit v w) = visit' v (f w)
  scratch : ∀ w s, f { w with scratch := s } = { f w with scratch := s }

theorem walkEntries_forgets (h : Forgets visit visit' f) (es : List DirBytes) (w : World σ) :
    walkEntries depth visit' es (f w) =
      Prod.map id f (walkEntries depth visit es w) := by
  induction es generalizing w with
  | nil => rfl
  | cons e es ih =>
    by_cases hend : e 0 = 0
    · simp [walkEntries, hend]
    · rw [walkEntries_cons es hend, walkEntries_cons es hend, ← ih]
      split_ifs
      · rw [h.visit]
      · rfl

theorem walkSectors_forgets (h : Forgets visit visit' f) (base : UInt64) (ss : List ℕ)
    (w : World σ) :
    walkSectors card depth visit' base ss (f w) =
      Prod.map id f (walkSectors card depth visit base ss w) := by
  induction ss generalizing w with
  | nil => rfl
  | cons s ss ih =>
    rw [walkSectors, walkSectors]
    cases card (base + UInt64.ofNat s) with
    | none => rfl
    | some dirsec =>
      simp only [walkEntries_forgets h]
      cases walkEntries depth visit dirsec.entries w with
      | mk r w' => cases r with
        | none => exact ih w'
        | some i => rfl

theorem fat32NextCluster_forgets (h : Forgets visit visit' f) (cur : UInt32) (w : World σ) :
    fat32NextCluster card fs cur (f w) = Prod.map id f (fat32NextCluster card fs cur w) := by
  rw [fat32NextCluster, fat32NextCluster]
  cases card (fs.fatSector cur) with
  | none => rfl
  | some s => exact Prod.ext rfl (h.scratch w s).symm

/-- Forgetting may come before the walk or after it. -/
theorem walkDir_forgets (h : Forgets visit visit' f) (cluster : UInt32) (w : World σ) :
    fat32WalkDir card fs depth visit' cluster (f w) =
      Prod.map id f (fat32WalkDir card fs depth visit cluster w) := by
  have hchain : ∀ safety cur w, walkChain card fs depth visit' safety cur (f w) =
      Prod.map id f (walkChain card fs depth visit safety cur w) := by
    intro safety
    induction safety with
    | zero => exact fun _ _ => rfl
    | succ safety ih =>
      intro cur w
      rw [walkChain, walkChain]
      split_ifs
      · simp only [walkSectors_forgets h]
        cases walkSectors card depth visit (fs.clusterToLba cur)
            (List.range fs.sectorsPerCluster.toNat) w with
        | mk r w' => cases r with
          | none => simpa [fat32NextCluster_forgets h] using ih _ _
          | some i => rfl
      · rfl
  exact hchain 1024 cluster w

/-- The visitor that notes its calls makes the walk of the visitor that does not. -/
theorem recorded_walk (cluster : UInt32) (w : World (σ × List Visit)) :
    fat32WalkDir card fs depth visit cluster ⟨w.scratch, w.ctx.1⟩ =
      Prod.map id (fun w => ⟨w.scratch, w.ctx.1⟩)
        (fat32WalkDir card fs depth (recorded visit) cluster w) :=
  walkDir_forgets (f := fun w : World (σ × List Visit) => (⟨w.scratch, w.ctx.1⟩ : World σ))
    ⟨fun _ _ => rfl, fun _ _ => rfl⟩ cluster w

end Renamed

namespace SdWalk

variable (c : SdWalk) (depth : ℕ)

def mkdir (name : Text) : Option NodeRef × SdWalk :=
  let (node, fs) := c.fs.vfsMkdir (c.parent depth) name
  (node, { c with fs := fs })

/-- The real size is recorded, without the contents. -/
def createFile (name : Text) (size : UInt32) : SdWalk :=
  let (node, fs) := c.fs.vfsCreateFile (c.parent depth) name
  match node with
  | none => { c with fs := fs }
  | some n => { c with fs := fs.setNode n { fs.node n with size := size.toNat } }

end SdWalk

/-- `sd_visit` and the walks it starts; `levels` bounds their nesting, which the depth
test ends. -/
def sdVisitCard (card : Card) (fs : Fat32) : ℕ → Visitor SdWalk
  | levels, v, w =>
    let depth := v.depth.toNat
    if v.depth < 0 ∨ 8 ≤ v.depth ∨ w.ctx.parent depth = none ∨ w.ctx.remaining depth = 0 then w
    else if v.isDir then
      match (w.ctx.spend depth).mkdir depth v.name with
      | (none, c) => { w with ctx := c }
      | (some n, c) =>
        if depth + 1 < sdMaxDepth ∧ depth + 1 < 8 then
          match levels with
          | 0 => { w with ctx := c }
          | levels + 1 =>
            let w := (fat32WalkDir card fs (v.depth + 1) (sdVisitCard card fs levels)
              v.firstCluster { w with ctx := c.enter depth n }).2
            { w with ctx := w.ctx.leave depth }
        else { w with ctx := c }
    else { w with ctx := (w.ctx.spend depth).createFile depth v.name v.size }

/-- `vfs_mount_sd`; no card where `sd_init` fails. -/
def Vfs.mountSdCard (s : Vfs) (card : Option Card) (scratch : Sector) : Vfs :=
  match s.vfsMkdir (some .gRoot) [115, 100] with
  | (none, s) => s
  | (some sd, s) =>
    match card with
    | none => s
    | some card =>
      match fat32Mount card with
      | none => s
      | some fs =>
        let c : SdWalk :=
          { fs := s, parent := Function.update (fun _ => none) 0 (some sd),
            remaining := Function.update (fun _ => 0) 0 sdMaxDirEntries }
        (fat32WalkDir card fs 0 (sdVisitCard card fs sdMaxDepth) fs.rootCluster ⟨scratch, c⟩).2.ctx.fs

def DirBytes.raw (e : DirBytes) : RawDirEntry where
  name i := e ⟨i.1, by omega⟩
  attr := e 11
  size := le32 (e 28) (e 29) (e 30) (e 31)
  firstCluster := (le16 (e 20) (e 21) <<< 16) ||| le16 (e 26) (e 27)

/-- What a mounted card lists along each chain. -/
def SdCard.ofCard (card : Card) (fs : Fat32) : SdCard where
  rootCluster := fs.rootCluster
  chain c := (live (fs.stream card (fs.clusters card 1024 c))).map DirBytes.raw

theorem DirBytes.raw_name (e : DirBytes) : format83 e.raw.name = e.name := by
  have hbase : ((List.finRange 11).take 8).map e.raw.name = e.base := rfl
  have hext : ((List.finRange 11).drop 8).map e.raw.name = e.ext := rfl
  rw [format83, hbase, hext, DirBytes.name, name83, cString]
  congr 2
  by_cases h : e.ext.all (· = 32) = true
  · have hany : ¬ e.ext.any (· ≠ 32) = true := by simpa using h
    rw [if_pos h, if_neg hany]
  · have hany : e.ext.any (· ≠ 32) = true := by simpa using h
    rw [if_neg h, if_pos hany]

theorem DirBytes.visit_raw (depth : ℤ) (e : DirBytes) : e.visit depth e.name =
    ⟨format83 e.raw.name, e.raw.isDir, e.raw.size, e.raw.firstCluster, depth⟩ := by
  rw [DirBytes.raw_name, ← visit_fields]
  rfl

/-- A fold over the visits of a directory is one over the entries that are visited. -/
theorem foldl_directoryVisits {α : Type} (depth : ℤ) {act : α → Visit → α}
    {act' : α → RawDirEntry → α} (h : ∀ a e, act a (DirBytes.visit depth e.name e) = act' a e.raw)
    {es : List DirBytes} (hes : ∀ e ∈ es, e 0 ≠ 0) (a : α) :
    (directoryVisits DirBytes.name depth es).foldl act a =
      (fat32Visited (es.map DirBytes.raw)).foldl act' a := by
  induction es generalizing a with
  | nil => rfl
  | cons e es ih =>
    have hend : e.raw.name 0 ≠ 0 := hes e List.mem_cons_self
    have ih' := ih fun e he => hes e (List.mem_cons_of_mem _ he)
    have hlisted : (e.raw.name 0 = 0xE5 ∨ e.raw.attr &&& 0x0F = 0x0F ∨ e.raw.attr &&& 0x08 ≠ 0 ∨
        format83 e.raw.name = Vfs.dot ∨ format83 e.raw.name = Vfs.dotdot) ↔
        ¬ (e.Listed ∧ e.name ≠ Vfs.dot ∧ e.name ≠ Vfs.dotdot) := by
      have hname : e.raw.name 0 = e 0 := rfl
      have hattr : e.raw.attr = e 11 := rfl
      rw [e.raw_name, hname, hattr, DirBytes.Listed]
      tauto
    rw [List.map_cons, fat32Visited, if_neg hend, directoryVisits, List.filter_cons]
    by_cases hvisited : e.Listed ∧ e.name ≠ Vfs.dot ∧ e.name ≠ Vfs.dotdot
    · rw [if_pos (decide_eq_true hvisited), if_neg fun hskip => hlisted.mp hskip hvisited,
        List.map_cons, List.foldl_cons, List.foldl_cons, h]
      exact ih' (act' a e.raw)
    · rw [if_neg (by simpa using hvisited), if_pos (hlisted.mpr hvisited)]
      exact ih' a

theorem live_ne_zero {l : List (Option DirBytes)} : ∀ e ∈ live l, e 0 ≠ 0 := by
  intro e he
  rw [live, List.reduceOption_mem_iff] at he
  exact goesOn_some.mp (List.mem_takeWhile_imp he)

/-- What a visit does to the context, with what a new directory is given to. -/
def sdVisitBy (nested : NodeRef → SdWalk → SdWalk) (v : Visit) (c : SdWalk) : SdWalk :=
  let depth := v.depth.toNat
  if v.depth < 0 ∨ 8 ≤ v.depth ∨ c.parent depth = none ∨ c.remaining depth = 0 then c
  else if v.isDir then
    match (c.spend depth).mkdir depth v.name with
    | (none, c) => c
    | (some n, c) => if depth + 1 < sdMaxDepth ∧ depth + 1 < 8 then nested n c else c
  else (c.spend depth).createFile depth v.name v.size

section Mount

variable {card : Card} {fs : Fat32}

theorem sdVisitCard_zero (v : Visit) (w : World SdWalk) :
    (sdVisitCard card fs 0 v w).ctx = sdVisitBy (fun _ c => c) v w.ctx := by
  rw [sdVisitCard, sdVisitBy]
  split_ifs with hguard hdir hdepth
  · rfl
  · cases (w.ctx.spend v.depth.toNat).mkdir v.depth.toNat v.name with
    | mk node c => cases node <;> rfl
  · cases (w.ctx.spend v.depth.toNat).mkdir v.depth.toNat v.name with
    | mk node c => cases node <;> rfl
  · rfl

theorem sdVisitCard_succ (levels : ℕ) (v : Visit) (w : World SdWalk) :
    (sdVisitCard card fs (levels + 1) v w).ctx =
      sdVisitBy (fun n c => (fat32WalkDir card fs (v.depth + 1) (sdVisitCard card fs levels)
        v.firstCluster ⟨w.scratch, c.enter v.depth.toNat n⟩).2.ctx.leave v.depth.toNat) v w.ctx := by
  rw [sdVisitCard, sdVisitBy]
  split_ifs with hguard hdir hdepth
  · rfl
  · cases (w.ctx.spend v.depth.toNat).mkdir v.depth.toNat v.name with
    | mk node c => cases node <;> rfl
  · cases (w.ctx.spend v.depth.toNat).mkdir v.depth.toNat v.name with
    | mk node c => cases node <;> rfl
  · rfl

/-- The visitor builds the same whatever is in the shared sector. -/
theorem sdVisitCard_view (levels : ℕ) (scratch : Sector) :
    View (sdVisitCard card fs levels) World.ctx fun c v =>
      (sdVisitCard card fs levels v ⟨scratch, c⟩).ctx := by
  induction levels with
  | zero =>
    constructor
    · intro v w
      rw [sdVisitCard_zero, sdVisitCard_zero]
    · exact fun _ _ => rfl
  | succ levels ih =>
    constructor
    · intro v w
      rw [sdVisitCard_succ, sdVisitCard_succ]
      congr 1
      funext n c
      rw [walkDir_view ih, walkDir_view ih]
    · exact fun _ _ => rfl

/-- The visit of a listed entry, whatever is done in a new directory. -/
theorem sdVisitBy_entry (nested : NodeRef → SdWalk → SdWalk) (depth : ℕ) (e : DirBytes)
    (c : SdWalk) :
    sdVisitBy nested (e.visit depth e.name) c =
      if 8 ≤ depth ∨ c.parent depth = none ∨ c.remaining depth = 0 then c
      else if e.raw.isDir then
        match (c.spend depth).addDir depth e.raw with
        | (none, c) => c
        | (some n, c) => if depth + 1 < sdMaxDepth ∧ depth + 1 < 8 then nested n c else c
      else (c.spend depth).addFile depth e.raw := by
  have hdepth : (8 : ℤ) ≤ (depth : ℤ) ↔ 8 ≤ depth := by omega
  have hsign : ¬ (depth : ℤ) < 0 := by omega
  rw [sdVisitBy, e.visit_raw]
  simp only [Int.toNat_natCast, hdepth, hsign, false_or]
  rfl

/-- A visit builds what a visit of the entry as listed builds. -/
theorem sdVisitCard_ctx (levels depth : ℕ) (e : DirBytes) (w : World SdWalk) :
    (sdVisitCard card fs levels (e.visit depth e.name) w).ctx =
      sdVisit (SdCard.ofCard card fs) levels depth w.ctx e.raw := by
  induction levels generalizing depth e w with
  | zero =>
    rw [sdVisitCard_zero]
    refine (sdVisitBy_entry _ depth e w.ctx).trans ?_
    unfold sdVisit
    rfl
  | succ levels ih =>
    have hnested : ∀ n (c : SdWalk),
        ((fat32WalkDir card fs ((depth : ℤ) + 1) (sdVisitCard card fs levels)
          (e.visit depth e.name).firstCluster ⟨w.scratch, c.enter depth n⟩).2.ctx.leave depth) =
        ((fat32Visited ((SdCard.ofCard card fs).chain e.raw.firstCluster)).foldl
          (sdVisit (SdCard.ofCard card fs) levels (depth + 1)) (c.enter depth n)).leave depth := by
      intro n c
      rw [walkDir_view (sdVisitCard_view levels w.scratch), e.visit_raw]
      congr 1
      exact foldl_directoryVisits _ (fun c e => ih (depth + 1) e ⟨w.scratch, c⟩) live_ne_zero _
    calc _ = sdVisitBy (fun n c => ((fat32Visited
            ((SdCard.ofCard card fs).chain e.raw.firstCluster)).foldl
            (sdVisit (SdCard.ofCard card fs) levels (depth + 1)) (c.enter depth n)).leave depth)
          (e.visit depth e.name) w.ctx := by
          rw [sdVisitCard_succ]
          congr 1
          funext n c
          exact hnested n c
      _ = _ := by
          refine (sdVisitBy_entry _ depth e w.ctx).trans ?_
          unfold sdVisit
          rfl

/-- The mount over the sectors of a card is the mount over the entries it lists. -/
theorem mountSdCard_eq (s : Vfs) (card : Option Card) (scratch : Sector) :
    s.mountSdCard card scratch =
      s.mountSd (card.bind fun card => (fat32Mount card).map (SdCard.ofCard card)) := by
  rw [Vfs.mountSdCard, Vfs.mountSd]
  cases s.vfsMkdir (some .gRoot) [115, 100] with
  | mk sd s => cases sd with
    | none => rfl
    | some sd => cases card with
      | none => rfl
      | some card =>
        simp only [Option.bind_some]
        cases fat32Mount card with
        | none => rfl
        | some fs =>
          simp only [Option.map_some]
          rw [walkDir_view (sdVisitCard_view sdMaxDepth scratch)]
          exact congrArg SdWalk.fs (foldl_directoryVisits 0
            (fun c e => sdVisitCard_ctx sdMaxDepth 0 e ⟨scratch, c⟩) live_ne_zero _)

end Mount

end XinuRpi4.Files
