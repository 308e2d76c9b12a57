import XinuRpi4.Files.CommandRuns

/-!
# The mount keeps the tree

The visitor makes a node for an entry of the card and records the size of a
file. Its budget bounds the entries of a directory that it looks at.
-/

namespace XinuRpi4.Files

open XinuRpi4.Foundation Vfs

variable {names buffers : Prop} {card : SdCard}

/-- An entry whose name is well formed, and which is empty if it is a file. -/
def RawDirEntry.Ok (names buffers : Prop) (e : RawDirEntry) : Prop :=
  (names → NameOk (format83 e.name)) ∧ (buffers → e.isDir = true ∨ e.size = 0)

instance [Decidable names] [Decidable buffers] (e : RawDirEntry) :
    Decidable (e.Ok names buffers) := inferInstanceAs (Decidable (_ ∧ _))

/-- An entry, and for a directory those below it down to the given level, as far
as the budget lets the visitor see them. -/
def SdCard.EntryOk (names buffers : Prop) (card : SdCard) : ℕ → RawDirEntry → Prop
  | 0, e => e.Ok names buffers
  | levels + 1, e =>
    e.Ok names buffers ∧ (e.isDir = true →
      ∀ e' ∈ (fat32Visited (card.chain e.firstCluster)).take sdMaxDirEntries,
        card.EntryOk names buffers levels e')

theorem SdCard.EntryOk.entry {levels : ℕ} {e : RawDirEntry}
    (h : card.EntryOk names buffers levels e) : e.Ok names buffers := by
  cases levels with
  | zero => exact h
  | succ levels => exact h.1

/-- The entries that the mount looks at. -/
def SdCard.Ok (names buffers : Prop) (card : SdCard) : Prop :=
  ∀ e ∈ (fat32Visited (card.chain card.rootCluster)).take sdMaxDirEntries,
    card.EntryOk names buffers (sdMaxDepth - 1) e

instance SdCard.EntryOk.decidable [Decidable names] [Decidable buffers] (card : SdCard) :
    ∀ levels e, Decidable (card.EntryOk names buffers levels e)
  | 0, e => inferInstanceAs (Decidable (e.Ok names buffers))
  | levels + 1, e => by
    have := SdCard.EntryOk.decidable card levels
    unfold SdCard.EntryOk
    infer_instance

instance [Decidable names] [Decidable buffers] (card : SdCard) :
    Decidable (card.Ok names buffers) := by
  unfold SdCard.Ok
  infer_instance

variable {c : SdWalk} {t : VfsTree} {p n : NodeRef}

/-- A file just made gets its size on the card. -/
theorem Vfs.setSize_good {s : Vfs} (h : s.Good names buffers t) (hn : n ∈ t.nodes)
    (hdata : (s.node n).data = none) {size : ℕ} (hsize : buffers → size = 0) :
    (s.setNode n { s.node n with size := size }).Good names buffers t := by
  have hrest : ∀ m, m ≠ n → (s.setNode n { s.node n with size := size }).node m = s.node m :=
    fun m hm => node_setNode_of_ne hm
  have hname : ∀ m, ((s.setNode n { s.node n with size := size }).node m).name =
      (s.node m).name := by
    intro m
    by_cases hm : m = n
    · subst hm
      rw [node_setNode_self]
    · rw [hrest m hm]
  refine ⟨?_, fun hnames => (h.named hnames).of_name hname, ?_⟩
  · refine h.holds.of_file hn hrest node_setNode_self ?_ (h.holds.bare n hn)
      (fun _ _ _ => rfl) rfl rfl
    intro a ha
    rw [hdata] at ha
    cases ha
  · intro hb g hg hkind
    by_cases hgn : g = n
    · subst hgn
      rw [node_setNode_self]
      exact (hsize hb).le.trans (Nat.zero_le _)
    · rw [hrest g hgn] at hkind ⊢
      exact h.backed hb g hg hkind

/-- What a visit, or a walk of visits, at one depth keeps. -/
structure Visited (names buffers : Prop) (c c' : SdWalk) (t : VfsTree) (depth : ℕ) : Prop where
  good : ∃ t', c'.fs.Good names buffers t' ∧ Grown c.fs c'.fs t t'
  parent : ∀ j ≤ depth, c'.parent j = c.parent j
  remaining : ∀ j < depth, c'.remaining j = c.remaining j

/-- The walk of a directory, from its visits. -/
theorem walk_visited (visit : SdWalk → RawDirEntry → SdWalk) (depth : ℕ)
    (ok : RawDirEntry → Prop)
    (hvisit : ∀ c e t, c.fs.Good names buffers t → c.parent depth = some p → p ∈ t.nodes →
      (0 < c.remaining depth → ok e) →
      Visited names buffers c (visit c e) t depth ∧
        (visit c e).remaining depth = c.remaining depth - 1)
    {l : List RawDirEntry} (h : c.fs.Good names buffers t) (hparent : c.parent depth = some p)
    (hp : p ∈ t.nodes) (hok : ∀ e ∈ l.take (c.remaining depth), ok e) :
    Visited names buffers c (l.foldl visit c) t depth := by
  induction l generalizing c t with
  | nil => exact ⟨⟨t, h, Grown.refl _ t⟩, fun _ _ => rfl, fun _ _ => rfl⟩
  | cons e l ih =>
    have hhead : 0 < c.remaining depth → ok e := by
      intro hpos
      obtain ⟨r, hr⟩ : ∃ r, c.remaining depth = r + 1 := ⟨c.remaining depth - 1, by omega⟩
      exact hok e (by simp [hr])
    obtain ⟨⟨⟨t₁, hgood, hgrown⟩, hparents, hremaining⟩, hbudget⟩ := hvisit c e t h hparent hp hhead
    have htail : ∀ e' ∈ l.take ((visit c e).remaining depth), ok e' := by
      intro e' he'
      rw [hbudget] at he'
      cases hr : c.remaining depth with
      | zero => simp [hr] at he'
      | succ r =>
        rw [hr, Nat.add_sub_cancel] at he'
        exact hok e' (by simp [hr, he'])
    obtain ⟨⟨t₂, hgood', hgrown'⟩, hparents', hremaining'⟩ :=
      ih hgood ((hparents depth le_rfl).trans hparent) (hgrown.nodes hp) htail
    exact ⟨⟨t₂, hgood', hgrown.trans hgrown'⟩, fun j hj => (hparents' j hj).trans (hparents j hj),
      fun j hj => (hremaining' j hj).trans (hremaining j hj)⟩

theorem Visited.of_fs {c' : SdWalk} {depth : ℕ} {t' : VfsTree}
    (hgood : c'.fs.Good names buffers t') (hgrown : Grown c.fs c'.fs t t')
    (hparent : c'.parent = c.parent) (hremaining : ∀ j < depth, c'.remaining j = c.remaining j) :
    Visited names buffers c c' t depth :=
  ⟨⟨t', hgood, hgrown⟩, fun j _ => congrFun hparent j, hremaining⟩

theorem spend_remaining {depth j : ℕ} (h : j < depth) :
    (c.spend depth).remaining j = c.remaining j := Function.update_of_ne h.ne ..

theorem addFile_visited {depth : ℕ} {e : RawDirEntry} (h : c.fs.Good names buffers t)
    (hparent : c.parent depth = some p) (hp : p ∈ t.nodes) (hok : e.Ok names buffers)
    (hfile : e.isDir = false) :
    Visited names buffers c ((c.spend depth).addFile depth e) t depth ∧
      ((c.spend depth).addFile depth e).remaining depth = c.remaining depth - 1 := by
  have hmem : ∀ q, c.parent depth = some q → q ∈ t.nodes := by
    rw [hparent]
    exact mem_of_some hp
  obtain ⟨t', hgood, hgrown, hnew⟩ :=
    makeChild_good h .file hmem (format83 e.name) fun hn _ => hok.1 hn
  have hspent : (c.spend depth).remaining depth = c.remaining depth - 1 := Function.update_self ..
  unfold SdWalk.addFile
  generalize hr : (c.spend depth).fs.vfsCreateFile ((c.spend depth).parent depth) (format83 e.name) = r
  obtain ⟨node, fs⟩ := r
  have hr' : makeChild .file c.fs (c.parent depth) (format83 e.name) = (node, fs) := hr
  rw [hr'] at hgood hgrown hnew
  cases node with
  | none => exact ⟨Visited.of_fs hgood hgrown rfl fun j hj => spend_remaining hj, hspent⟩
  | some n =>
    obtain ⟨hn, hnot, _, hdata⟩ := hnew n rfl
    have hsize : buffers → e.size.toNat = 0 := by
      intro hb
      rw [(hok.2 hb).resolve_left (by simp [hfile])]
      rfl
    refine ⟨Visited.of_fs (setSize_good hgood hn hdata hsize) ⟨hgrown.nodes, ?_, hgrown.touched⟩ rfl
      fun j hj => spend_remaining hj, hspent⟩
    intro f hf
    have hfn : f ≠ n := fun he => hnot (he ▸ hf)
    rw [← hgrown.view f hf]
    exact view_eq (by rw [node_setNode_of_ne hfn]) rfl

theorem addDir_good {depth : ℕ} {e : RawDirEntry} (h : c.fs.Good names buffers t)
    (hparent : c.parent depth = some p) (hp : p ∈ t.nodes) (hok : e.Ok names buffers) :
    ∃ t', ((c.spend depth).addDir depth e).2.fs.Good names buffers t' ∧
      Grown c.fs ((c.spend depth).addDir depth e).2.fs t t' ∧
      ∀ n, ((c.spend depth).addDir depth e).1 = some n → n ∈ t'.nodes := by
  have hmem : ∀ q, c.parent depth = some q → q ∈ t.nodes := by
    rw [hparent]
    exact mem_of_some hp
  obtain ⟨t', hgood, hgrown, hnew⟩ :=
    makeChild_good h .dir hmem (format83 e.name) fun hn _ => hok.1 hn
  exact ⟨t', hgood, hgrown, fun n hn => (hnew n hn).1⟩

/-- One visit, from what it keeps in the walk it may start. -/
theorem sdVisit_of_walk {levels depth : ℕ} {e : RawDirEntry} (h : c.fs.Good names buffers t)
    (hparent : c.parent depth = some p) (hp : p ∈ t.nodes) (hbound : depth < 8)
    (hok : 0 < c.remaining depth → e.Ok names buffers)
    (hwalk : ∀ levels' c' t' n, levels = levels' + 1 → e.isDir = true → depth + 1 < sdMaxDepth →
      depth + 1 < 8 → 0 < c.remaining depth → c'.fs.Good names buffers t' →
      c'.parent (depth + 1) = some n → n ∈ t'.nodes → c'.remaining (depth + 1) = sdMaxDirEntries →
      Visited names buffers c' ((fat32Visited (card.chain e.firstCluster)).foldl
        (sdVisit card levels' (depth + 1)) c') t' (depth + 1)) :
    Visited names buffers c (sdVisit card levels depth c e) t depth ∧
      (sdVisit card levels depth c e).remaining depth = c.remaining depth - 1 := by
  by_cases hrem : c.remaining depth = 0
  · have heq : sdVisit card levels depth c e = c := by
      cases levels <;> simp [sdVisit, hrem]
    rw [heq]
    exact ⟨Visited.of_fs h (Grown.refl _ t) rfl fun _ _ => rfl, by omega⟩
  · have hpos := Nat.pos_of_ne_zero hrem
    have hgo : ¬ (8 ≤ depth ∨ c.parent depth = none ∨ c.remaining depth = 0) := by
      simp [hbound, hparent, hrem]
    by_cases hdir : e.isDir = true
    · obtain ⟨t', hgood, hgrown, hnew⟩ := addDir_good h hparent hp (hok hpos)
      have hspent : ((c.spend depth).addDir depth e).2.remaining depth = c.remaining depth - 1 :=
        Function.update_self ..
      have hkept : Visited names buffers c ((c.spend depth).addDir depth e).2 t depth :=
        Visited.of_fs hgood hgrown rfl fun j hj => spend_remaining hj
      generalize hr : (c.spend depth).addDir depth e = r at *
      obtain ⟨node, c₁⟩ := r
      cases node with
      | none =>
        have heq : sdVisit card levels depth c e = c₁ := by
          cases levels <;> simp only [sdVisit, if_neg hgo, if_pos hdir, hr]
        rw [heq]
        exact ⟨hkept, hspent⟩
      | some n =>
        by_cases hdeep : depth + 1 < sdMaxDepth ∧ depth + 1 < 8
        · cases levels with
          | zero =>
            have heq : sdVisit card 0 depth c e = c₁ := by
              simp only [sdVisit, if_neg hgo, if_pos hdir, hr, if_pos hdeep]
            rw [heq]
            exact ⟨hkept, hspent⟩
          | succ levels =>
            have heq : sdVisit card (levels + 1) depth c e =
                ((fat32Visited (card.chain e.firstCluster)).foldl
                  (sdVisit card levels (depth + 1)) (c₁.enter depth n)).leave depth := by
              simp only [sdVisit, if_neg hgo, if_pos hdir, hr, if_pos hdeep]
            have hnested := hwalk levels (c₁.enter depth n) t' n rfl hdir hdeep.1 hdeep.2 hpos hgood
              (Function.update_self ..) (hnew n rfl) (Function.update_self ..)
            obtain ⟨⟨t'', hgood', hgrown'⟩, hparents, hremaining⟩ := hnested
            have hp' : ∀ j ≤ depth, (sdVisit card (levels + 1) depth c e).parent j = c.parent j := by
              intro j hj
              have hne : j ≠ depth + 1 := by omega
              rw [heq]
              refine (Function.update_of_ne hne ..).trans ?_
              rw [hparents j (hj.trans (Nat.le_succ _))]
              exact (Function.update_of_ne hne ..).trans (hkept.parent j hj)
            have hr' : ∀ j ≤ depth,
                (sdVisit card (levels + 1) depth c e).remaining j = c₁.remaining j := by
              intro j hj
              have hne : j ≠ depth + 1 := by omega
              rw [heq]
              exact (hremaining j (by omega)).trans (Function.update_of_ne hne ..)
            refine ⟨⟨⟨t'', ?_, ?_⟩, hp', ?_⟩, ?_⟩
            · rwa [heq]
            · rw [heq]
              exact hgrown.trans hgrown'
            · intro j hj
              rw [hr' j hj.le, hkept.remaining j hj]
            · rw [hr' depth le_rfl, hspent]
        · have heq : sdVisit card levels depth c e = c₁ := by
            cases levels <;> simp only [sdVisit, if_neg hgo, if_pos hdir, hr, if_neg hdeep]
          rw [heq]
          exact ⟨hkept, hspent⟩
    · have heq : sdVisit card levels depth c e = (c.spend depth).addFile depth e := by
        cases levels <;> simp only [sdVisit, if_neg hgo, if_neg hdir]
      rw [heq]
      exact addFile_visited h hparent hp (hok hpos) (by simpa using hdir)

theorem sdVisit_visited (levels k : ℕ) {depth : ℕ} {e : RawDirEntry}
    (hdepth : sdMaxDepth ≤ depth + 1 + k) (h : c.fs.Good names buffers t)
    (hparent : c.parent depth = some p) (hp : p ∈ t.nodes) (hbound : depth < 8)
    (hok : 0 < c.remaining depth → card.EntryOk names buffers k e) :
    Visited names buffers c (sdVisit card levels depth c e) t depth ∧
      (sdVisit card levels depth c e).remaining depth = c.remaining depth - 1 := by
  induction levels generalizing depth c e t p k with
  | zero =>
    exact sdVisit_of_walk h hparent hp hbound (fun hpos => (hok hpos).entry)
      fun _ _ _ _ hlevels => by omega
  | succ levels ih =>
    refine sdVisit_of_walk h hparent hp hbound (fun hpos => (hok hpos).entry) ?_
    intro levels' c' t' n hlevels hdir hdeep hbound' hpos hgood hparent' hn hbudget
    obtain rfl : levels = levels' := by omega
    obtain ⟨k, rfl⟩ : ∃ k', k = k' + 1 := ⟨k - 1, by omega⟩
    have hsub := (hok hpos).2 hdir
    rw [← hbudget] at hsub
    exact walk_visited (sdVisit card levels (depth + 1)) (depth + 1)
      (card.EntryOk names buffers k) (fun c e t h hpar hpn hoke =>
        ih k (by omega) h hpar hpn hbound' hoke) hgood hparent' hn hsub

theorem mountSd_kept {s : Vfs} (h : s.Good names buffers t) {card : Option SdCard}
    (hok : ∀ c, card = some c → c.Ok names buffers) :
    Kept names buffers s (s.mountSd card) t := by
  obtain ⟨t', hgood, hgrown, hnew⟩ :=
    makeChild_good h .dir (mem_of_some h.holds.root) [115, 100] fun _ _ => by decide
  have hmkdir : Kept names buffers s (s.vfsMkdir (some .gRoot) [115, 100]).2 t :=
    Kept.of_grown hgood hgrown
  unfold Vfs.mountSd
  split
  · rename_i s' heq
    rwa [heq] at hmkdir
  · rename_i sd s' heq
    have heq' : makeChild .dir s (some .gRoot) [115, 100] = (some sd, s') := heq
    rw [heq'] at hgood hgrown hnew
    split
    · exact Kept.of_grown hgood hgrown
    · rename_i card
      let c : SdWalk :=
        { fs := s', parent := Function.update (fun _ => none) 0 (some sd),
          remaining := Function.update (fun _ => 0) 0 sdMaxDirEntries }
      have hparent : c.parent 0 = some sd := by simp [c]
      have hbudget : c.remaining 0 = sdMaxDirEntries := by simp [c]
      have hentries := hok card rfl
      rw [SdCard.Ok, ← hbudget] at hentries
      have hwalk := walk_visited (sdVisit card sdMaxDepth 0) 0
        (card.EntryOk names buffers (sdMaxDepth - 1))
        (fun c e t h hpar hpn hoke =>
          sdVisit_visited sdMaxDepth (sdMaxDepth - 1) (by decide) h hpar hpn (by decide) hoke)
        (c := c) hgood hparent (hnew sd rfl).1 hentries
      obtain ⟨t'', hgood', hgrown'⟩ := hwalk.good
      exact Kept.of_grown hgood' (hgrown.trans hgrown')

end XinuRpi4.Files
