import Kairax.Ext2.AllocHistory
import Kairax.Ext2.Grow

/-!
# The writer against the reader

Where `ext2_inode_add_block` can follow the path of an index, it extends the tree and sets the last entry, or it runs
out of blocks. `addBlock_agrees_iff` says for which indices the reader and the writer agree.
-/

namespace Kairax.Ext2

open Lib List Option Prod

/-- The indices for which the writer follows the path. -/
def Reached (inst : Inst) (ino : Buf) (i : Nat) : Prop :=
  i < 12 + inst.blockSize / 4 + inst.blockSize / 4 * (inst.blockSize / 4) ∨
    (i < 12 + inst.blockSize / 4 + inst.blockSize / 4 * (inst.blockSize / 4) + inst.blockSize / 4 ∧
      Inode.block ino 14 ≠ 0 ∧ words inst.disk (Inode.block ino 14) 0 ≠ 0)

theorem pathOf_triple {L i : Nat} (hent : Entries L) (hlow : 12 + L + L * L ≤ i) (hhigh : i < 12 + L + L * L + L) :
    pathOf L i = [14, 0, 0, i - 12 - L - L * L] := by
  have hle := hent.le_square
  have hc : i - 12 - L - L * L < L := by omega
  rw [pathOf, if_neg (by omega), if_neg (by omega), if_neg (by omega)]
  dsimp only
  rw [Nat.div_eq_of_lt (by omega), Nat.mod_eq_of_lt (by omega), Nat.div_eq_of_lt hc, Nat.mod_eq_of_lt hc]

theorem numberAt_of_zero {ino : Buf} {disk : Nat → Buf} {s a b c : Nat} (hzero : numberAt ino disk [s, a] = 0) :
    numberAt ino disk [s, a, b, c] = 0 := by
  have hchild : numberAt ino disk [s, a, b] = 0 :=
    (numberAt_concat (p := [s, a]) (cons_ne_nil s _) b).trans (if_pos hzero)
  exact (numberAt_concat (p := [s, a, b]) (cons_ne_nil s _) c).trans (if_pos hchild)

variable {G : Geo} {S : Nat → Prop} {s : Stage} {n : Nat} {i : BitVec 32}

theorem Stage.Consistent.blockSize (himage : s.Consistent G S) : s.inst.blockSize = G.blockSize :=
  congrArg Geo.blockSize himage.counted.geo

theorem blockAt_root {ino : Buf} {disk : Nat → Buf} {slot : Nat} (hroot : Inode.block ino slot ≠ 0) :
    blockAt ino disk [slot] = some (Inode.block ino slot) := by
  rw [blockAt_singleton, child_of_ne hroot]

variable {abs : Nat}

/-- A call extends the tree, and then it has run out of blocks or sets the last entry of the path. -/
def Adds (G : Geo) (S : Nat → Prop) (n : Nat) (s : Stage) (abs i : Nat) (r : Option (Int × Inst × Buf)) : Prop :=
  ∃ rc s₁ inst' ino', r = some (rc, inst', ino') ∧ Grown G S n s s₁ (s.leaf n) ∧
    ((rc = -2 ∧ inst' = s₁.inst ∧ ino' = s₁.inodes n ∧ s₁.inst.Spent ∧ 12 ≤ i) ∨
      (rc = 1 ∧ SetsEntry s₁ n abs (pathOf (G.blockSize / 4) i) inst' ino'))

section Adds

variable {s₁ : Stage} {i j k t : Nat} {p : List Nat} (hgrown : Grown G S n s s₁ (s.leaf n))
include hgrown

theorem Adds.spent (hspent : s₁.inst.Spent) (hlow : 12 ≤ i) : Adds G S n s abs i (some (-2, s₁.inst, s₁.inodes n)) :=
  ⟨-2, s₁, _, _, rfl, hgrown, .inl ⟨rfl, rfl, rfl, hspent, hlow⟩⟩

theorem Adds.entry (ht : blockAt (s₁.inodes n) s₁.inst.disk p = some t) (hj : j < G.blockSize / 4)
    (hi : pathOf (G.blockSize / 4) i = p ++ [j]) :
    Adds G S n s abs i ((setEntry s₁.inst t j abs).map fun inst => (1, inst, s₁.inodes n)) := by
  rw [setEntry_eq (by rwa [hgrown.image.blockSize])]
  refine ⟨1, s₁, _, _, rfl, hgrown, .inr ⟨rfl, ?_⟩⟩
  rw [hi]
  exact .indirect ht

theorem Adds.child (hreg : G.Regular) (hn : S n) (hpath : IsPath (G.blockSize / 4) (p ++ [k]))
    (hinner : ¬ IsLeaf (p ++ [k])) (ht : blockAt (s₁.inodes n) s₁.inst.disk p = some t) (hlow : 12 ≤ i)
    (hj : j < G.blockSize / 4) (hi : pathOf (G.blockSize / 4) i = p ++ [k] ++ [j]) :
    Adds G S n s abs i ((ensureChild s₁.inst (s₁.inodes n) t k t).bind fun
      | (none, inst, ino) => some (-2, inst, ino)
      | (some saved, inst, ino) => (setEntry inst saved j abs).map fun inst => (1, inst, ino)) := by
  obtain ⟨found, s₂, hchild, hgrown₂, hfound, hnone⟩ := ensureChild_spec hreg hgrown.image hn hpath hinner ht
  have hboth := hgrown.trans (hgrown₂.congr hgrown.leaves)
  rw [hchild]
  cases found with
  | none => exact .spent hboth (hnone rfl) hlow
  | some saved => exact .entry hboth (hfound saved rfl) hj hi

end Adds

theorem inodeAddBlock_spec (hreg : G.Regular) (himage : s.Consistent G S) (hn : S n) (hin : G.HasInode n) (abs : Nat)
    (hreach : Reached s.inst (s.inodes n) i.toNat) :
    Adds G S n s abs i.toNat (inodeAddBlock s.inst (s.inodes n) n abs i) := by
  have hsize := himage.blockSize
  have hL : s.inst.blockSize / 4 = G.blockSize / 4 := by rw [hsize]
  have hent := hreg.entries
  have hpos : 0 < G.blockSize / 4 := by
    have := hent.ge
    omega
  rw [Reached, hsize] at hreach
  by_cases hdirect : i.toNat < 12
  · refine ⟨1, s, _, _, inodeAddBlock_direct hdirect, .refl himage, .inr ⟨rfl, ?_⟩⟩
    rw [pathOf, if_pos hdirect]
    exact .direct hdirect
  have hlow := not_lt.mp hdirect
  by_cases hsingle : i.toNat < 12 + G.blockSize / 4
  · obtain ⟨ok, s₁, hroot, hgrown, hok, hfail⟩ :=
      ensureRoot_spec hreg himage hn hin 12 32 (by decide) (by decide) (by decide)
    rw [inodeAddBlock_single hL hent hlow hsingle, hroot]
    cases ok with
    | false => exact .spent hgrown (hfail rfl) hlow
    | true =>
      refine .entry hgrown (blockAt_root (hok rfl).1) (by omega) ?_
      rw [pathOf, if_neg hdirect, if_pos hsingle]
      rfl
  by_cases hdouble : i.toNat < 12 + G.blockSize / 4 + G.blockSize / 4 * (G.blockSize / 4)
  · have hpath := hent.isPath_pathOf (i := i.toNat) (by omega)
    rw [pathOf, if_neg hdirect, if_neg hsingle, if_pos hdouble] at hpath
    obtain ⟨ok, s₁, hroot, hgrown, hok, hfail⟩ :=
      ensureRoot_spec hreg himage hn hin 13 64 (by decide) (by decide) (by decide)
    rw [inodeAddBlock_double hL hent (by omega) hdouble, hroot]
    cases ok with
    | false => exact .spent hgrown (hfail rfl) hlow
    | true =>
      refine .child hgrown hreg hn (IsPath.parent hpath (cons_ne_nil 13 _))
        (fun hleaf => by simp [IsLeaf] at hleaf) (blockAt_root (hok rfl).1) hlow (Nat.mod_lt _ hpos) ?_
      rw [pathOf, if_neg hdirect, if_neg hsingle, if_pos hdouble]
      rfl
  · -- both indirect blocks above exist, so nothing is written where it does not belong
    obtain ⟨hhigh, hroot, hword⟩ := hreach.resolve_left hdouble
    have hpath : IsPath (G.blockSize / 4) [14, 0, 0] :=
      ⟨by decide, by decide, fun j hj => by simp at hj; omega⟩
    have hfirst : ensureRoot s.inst (s.inodes n) n 14 64 = some (true, s.inst, s.inodes n) := if_pos hroot
    have hsecond : ensureChild s.inst (s.inodes n) (Inode.block (s.inodes n) 14) 0 (Inode.block (s.inodes n) 13) =
        some (some (words s.inst.disk (Inode.block (s.inodes n) 14) 0), s.inst, s.inodes n) := by
      rw [ensureChild, Inst.word, hsize, if_pos hpos, bind_some, if_pos hword]
    have ht : blockAt (s.inodes n) s.inst.disk [14, 0] = some (words s.inst.disk (Inode.block (s.inodes n) 14) 0) :=
      (blockAt_concat (blockAt_root hroot) 0).trans (child_of_ne hword)
    rw [inodeAddBlock_triple hL hent (by omega) hhigh, hfirst, bind_some]
    dsimp only
    rw [hsecond]
    exact .child (.refl himage) hreg hn hpath (fun hleaf => by simp [IsLeaf] at hleaf) ht hlow (by omega)
      (pathOf_triple hent (not_lt.mp hdouble) hhigh)

/-- What a call that found the blocks it needs is to do: it succeeds on exactly the indices that the reader resolves,
and the reader then finds the new block and all else as before. -/
def Agrees (inst inst' : Inst) (ino ino' : Buf) (abs : Nat) (i : BitVec 32) (rc : Int) : Prop :=
  (rc = 1 ↔ i.toNat < readable (inst.blockSize / 4)) ∧
    (i.toNat < readable (inst.blockSize / 4) →
      inodeBlockAbsolute inst' ino' i = some abs ∧
        ∀ j : BitVec 32, j ≠ i → j.toNat < 2 ^ 31 →
          inodeBlockAbsolute inst' ino' j = inodeBlockAbsolute inst ino j)

theorem agrees_of_setsEntry (hreg : G.Regular) (himage : s.Consistent G S) (hn : S n) {s₁ : Stage} {inst' : Inst}
    {ino' : Buf} (hgrown : Grown G S n s s₁ (s.leaf n))
    (hset : SetsEntry s₁ n abs (pathOf (G.blockSize / 4) i.toNat) inst' ino') (habs : abs < 2 ^ 32)
    (hi : i.toNat < readable (G.blockSize / 4)) : Agrees s.inst inst' (s.inodes n) ino' abs i 1 := by
  have hent := hreg.entries
  have hsize := himage.blockSize
  have hsize' : inst'.blockSize = G.blockSize :=
    congrArg Geo.blockSize (hset.geo.trans hgrown.image.counted.geo)
  have hread {j : BitVec 32} (hj : j.toNat < readable (G.blockSize / 4)) :
      inodeBlockAbsolute inst' ino' j = some (numberAt ino' inst'.disk (pathOf (G.blockSize / 4) j.toNat)) := by
    rw [inodeBlockAbsolute_eq (by rwa [hsize']) (by rwa [hsize']), hsize']
  have hnumber {j : Nat} (hj : j < readable (G.blockSize / 4)) :
      numberAt ino' inst'.disk (pathOf (G.blockSize / 4) j) =
        if pathOf (G.blockSize / 4) j = pathOf (G.blockSize / 4) i.toNat then abs
        else numberAt (s.inodes n) s.inst.disk (pathOf (G.blockSize / 4) j) := by
    have hpath := hent.isPath_of_readable hj
    rw [numberAt, hset.blockAt hgrown.image hn (hent.isPath_of_readable hi) (isLeaf_pathOf _ _) habs hpath]
    split_ifs
    · exact getD_child abs
    · exact congrArg (Option.getD · 0) (hgrown.leaves _ hpath (isLeaf_pathOf _ _))
  refine ⟨⟨fun _ => by rwa [hsize], fun _ => rfl⟩, fun _ => ⟨?_, fun j hne hj => ?_⟩⟩
  · rw [hread hi, hnumber hi, if_pos rfl]
  · by_cases hbound : j.toNat < readable (G.blockSize / 4)
    · rw [hread hbound, hnumber hbound, if_neg, inodeBlockAbsolute_eq (by rwa [hsize]) (by rwa [hsize]), hsize]
      intro heq
      exact hne (BitVec.eq_of_toNat_eq (pathOf_injective heq))
    · rw [inodeBlockAbsolute_beyond (by rwa [hsize']) (by rw [hsize']; omega) hj,
        inodeBlockAbsolute_beyond (by rwa [hsize]) (by rw [hsize]; omega) hj]

/-- A block that is neither metadata nor free, on a volume whose counters are right. -/
structure Guarded (G : Geo) (inst : Inst) (t : Nat) : Prop where
  counted : Counted G inst
  header : ¬ G.Header t
  bitmap : ∀ r g, g < G.totalGroups → t ≠ G.bitmap r g
  used : t < G.totalGroups * G.blocksPerGroup → G.inUse inst.disk .block t = true

variable {inst' : Inst}

section Guarded

variable {inodes : Nat → Buf} {own : Nat → Option Owner} {inst : Inst} {t : Nat}

theorem Image.guarded (himage : Image G S inodes own inst) {m : Nat} {q : List Nat} (ho : own t = some (.node m q)) :
    Guarded G inst t := by
  refine ⟨himage.counted, fun hheader => ?_, fun r g hg heq => ?_, himage.used t _ ho⟩
  · rw [himage.header t hheader] at ho
    cases ho
  · rw [heq, himage.bitmap r g hg] at ho
    cases ho

theorem Guarded.taken (hguard : Guarded G inst t) (hvalid : G.Valid) {b : Nat} (htaken : Taken G inst b inst') :
    Guarded G inst' t ∧ t ≠ b ∧ inst'.disk t = inst.disk t := by
  have hne : t ≠ b := by
    intro heq
    have hused := hguard.used (heq ▸ htaken.lt)
    rw [heq, htaken.fresh] at hused
    cases hused
  refine ⟨⟨htaken.counted hvalid hguard.counted, hguard.header, hguard.bitmap, fun hlt => ?_⟩, hne,
    htaken.frame t hne hguard.header (hguard.bitmap .block _ (Geo.div_lt (r := .block) htaken.lt))⟩
  rw [htaken.inUse hvalid hlt, hguard.used hlt, ite_self]

theorem Guarded.writeBlock (hguard : Guarded G inst t) (hvalid : G.Valid) {c : Nat} (buf : Buf)
    (hc : ∀ r g, g < G.totalGroups → G.bitmap r g ≠ c) : Guarded G (inst.writeBlock c buf) t := by
  have hbitmaps (r : Resource) (g : Nat) (hg : g < G.totalGroups) :
      (inst.writeBlock c buf).disk (G.bitmap r g) = inst.disk (G.bitmap r g) :=
    disk_writeBlock_of_ne _ _ (hc r g hg)
  refine ⟨hguard.counted.of_bitmaps rfl (fun _ _ => rfl) (fun _ => rfl) hvalid hbitmaps, hguard.header, hguard.bitmap,
    fun hlt => ?_⟩
  rw [inUse_of_bitmaps hbitmaps hlt, hguard.used hlt]

theorem ensureChild_of_zero (hvalid : G.Valid) (hguard : Guarded G inst t) (ino : Buf) {c j dest : Nat}
    (hj : j < inst.blockSize / 4) (hzero : words inst.disk c j = 0) (hdest : t ≠ dest)
    (hbitmap : ∀ r g, g < G.totalGroups → G.bitmap r g ≠ dest) (hblocks : G.totalGroups * G.blocksPerGroup ≤ 2 ^ 32) :
    ∃ found inst' ino', ensureChild inst ino c j dest = some (found, inst', ino') ∧
      ∀ b, found = some b → Guarded G inst' t ∧ inst'.disk t = inst.disk t ∧ t ≠ b ∧
        (∀ k, Inode.block ino' k = Inode.block ino k) ∧ (b ≠ dest → inst'.disk b = fun _ => 0) ∧
        (∀ r g, g < G.totalGroups → G.bitmap r g ≠ b) ∧ b ≠ 0 ∧ inst'.blockSize = inst.blockSize ∧
        ∀ x, Guarded G inst x → b ≠ x := by
  obtain ⟨b, inst₁, halloc, hcase⟩ := allocBlock_spec hvalid hguard.counted
  rw [ensureChild, Inst.word, if_pos hj, bind_some, if_neg (not_not.mpr hzero), halloc, map_some]
  cases hcase with
  | inl hnone =>
    obtain ⟨rfl, rfl⟩ := hnone
    exact ⟨none, _, _, congrArg some (if_pos rfl), fun b h => by cases h⟩
  | inr htaken =>
    have hb : b < 2 ^ 32 := htaken.lt.trans_le hblocks
    obtain ⟨hguard₁, htb, hdisk⟩ := hguard.taken hvalid htaken
    dsimp only
    rw [if_neg htaken.ne_zero, words_writeLE _ _ _ _ _ hb, if_pos rfl]
    refine ⟨some b, _, _, rfl, fun b' hb' => ?_⟩
    cases hb'
    refine ⟨hguard₁.writeBlock hvalid _ hbitmap, (disk_writeBlock_of_ne _ _ hdest).trans hdisk, htb,
      block_addNumBlocks _ _, fun hne => (disk_writeBlock_of_ne _ _ hne).trans htaken.zeroed, fun r g hg heq => ?_,
      htaken.ne_zero,
      congrArg Geo.blockSize (htaken.toggled.geo.trans hguard.counted.geo.symm), fun x hx => ?_⟩
    · have hkept := hguard.counted.kept r g hg
      rw [heq, htaken.fresh] at hkept
      cases hkept
    · exact (hx.taken hvalid htaken).2.1.symm

end Guarded

section Lost

variable {rc : Int} {ino' : Buf}

theorem inodeAddBlock_lost (hreg : G.Regular) (himage : s.Consistent G S) (hn : S n) (hin : G.HasInode n)
    (hlow : 12 + G.blockSize / 4 + G.blockSize / 4 * (G.blockSize / 4) ≤ i.toNat)
    (hhigh : i.toNat < 12 + G.blockSize / 4 + G.blockSize / 4 * (G.blockSize / 4) + G.blockSize / 4)
    (hmissing : blockAt (s.inodes n) s.inst.disk [14, 0] = none)
    (hcall : inodeAddBlock s.inst (s.inodes n) n abs i = some (rc, inst', ino')) (hrc : rc ≠ -2) :
    rc = 1 ∧ inst'.blockSize = G.blockSize ∧ numberAt ino' inst'.disk [14, 0] = 0 := by
  have hsize := himage.blockSize
  have hent := hreg.entries
  have hvalid := hreg.toValid
  have hpos : 0 < G.blockSize / 4 := by
    omega
  have hpath : IsPath (G.blockSize / 4) [14, 0] := ⟨by decide, by decide, fun j hj => by simp at hj; omega⟩
  obtain ⟨ok, s₁, hroot, hgrown, hok, -⟩ :=
    ensureRoot_spec hreg himage hn hin 14 64 (by decide) (by decide) (by decide)
  rw [inodeAddBlock_triple (congrArg (· / 4) hsize) hent hlow hhigh, hroot, bind_some] at hcall
  cases ok with
  | false =>
    injection hcall with hcall
    exact absurd (congrArg fst hcall).symm hrc
  | true =>
    obtain ⟨htop, htree⟩ := hok rfl
    have himage₁ : Image G S s₁.inodes s₁.own s₁.inst := hgrown.image
    have hsize₁ := hgrown.image.blockSize
    have ht : s₁.own (Inode.block (s₁.inodes n) 14) = some (.node n [14]) :=
      himage₁.node n hn [14] _ (isPath_singleton.mpr (by decide)) (blockAt_root htop)
    have hguard := himage₁.guarded ht
    have hzero : words s₁.inst.disk (Inode.block (s₁.inodes n) 14) 0 = 0 := by
      have hnone := htree [14, 0] hpath (by decide)
      rw [hmissing] at hnone
      have hword := (blockAt_concat (blockAt_root htop) 0).symm.trans hnone
      by_contra hne
      rw [child_of_ne hne] at hword
      cases hword
    -- the buffer goes to the double indirect root, or to block 0 where there is none
    have hdest : Inode.block (s₁.inodes n) 13 = 0 ∨
        s₁.own (Inode.block (s₁.inodes n) 13) = some (.node n [13]) := by
      by_cases hroot₁ : Inode.block (s₁.inodes n) 13 = 0
      · exact .inl hroot₁
      · exact .inr (himage₁.node n hn [13] _ (isPath_singleton.mpr (by decide)) (blockAt_root hroot₁))
    have hapart : Inode.block (s₁.inodes n) 14 ≠ Inode.block (s₁.inodes n) 13 := by
      intro heq
      cases hdest with
      | inl hdest => exact htop (heq.trans hdest)
      | inr hdest =>
        rw [heq, hdest] at ht
        cases ht
    have hbitmap (r : Resource) (g : Nat) (hg : g < G.totalGroups) :
        G.bitmap r g ≠ Inode.block (s₁.inodes n) 13 := by
      intro heq
      cases hdest with
      | inl hdest => exact hreg.bitmap_ne_zero hg (heq.trans hdest)
      | inr hdest =>
        rw [← heq, himage₁.bitmap r g hg] at hdest
        cases hdest
    obtain ⟨found, inst₂, ino₂, hchild, hfound⟩ :=
      ensureChild_of_zero hvalid hguard (s₁.inodes n) (by rwa [hsize₁]) hzero
      hapart hbitmap hreg.blocks_le
    dsimp only at hcall
    rw [hchild, bind_some] at hcall
    cases found with
    | none =>
      injection hcall with hcall
      exact absurd (congrArg fst hcall).symm hrc
    | some b =>
      obtain ⟨hguard₂, hdisk₂, htb, hblock₂, hempty, hbitmap₂, hb, hsize₂, hfresh⟩ := hfound b rfl
      have hbd : b ≠ Inode.block (s₁.inodes n) 13 := by
        cases hdest with
        | inl hdest => exact hdest ▸ hb
        | inr hdest => exact hfresh _ (himage₁.guarded hdest)
      obtain ⟨found, inst₃, ino₃, hchild, hfound⟩ := ensureChild_of_zero hvalid hguard₂ ino₂ (by rwa [hsize₂, hsize₁])
        (words_zero (hempty hbd) 0) htb hbitmap₂ hreg.blocks_le
      dsimp only at hcall
      rw [hchild, bind_some] at hcall
      cases found with
      | none =>
        injection hcall with hcall
        exact absurd (congrArg fst hcall).symm hrc
      | some c =>
        obtain ⟨-, hdisk₃, htc, hblock₃, -, -, -, hsize₃, -⟩ := hfound c rfl
        dsimp only at hcall
        rw [setEntry, hsize₃, hsize₂, if_pos (by omega)] at hcall
        cases hcall
        refine ⟨rfl, hsize₃.trans (hsize₂.trans hsize₁), ?_⟩
        rw [show [14, 0] = [14] ++ [0] from rfl, numberAt_concat (cons_ne_nil 14 []), numberAt_singleton, hblock₃,
          hblock₂, if_neg htop, words_of_disk (disk_writeBlock_of_ne _ _ htc), words_of_disk hdisk₃,
          words_of_disk hdisk₂, hzero]

end Lost

/-- The indices for which the reader and the writer agree. -/
def Agreed (inst : Inst) (ino : Buf) (i : Nat) : Prop :=
  (Reached inst ino i ∧ i < readable (inst.blockSize / 4)) ∨
    (12 + inst.blockSize / 4 + inst.blockSize / 4 * (inst.blockSize / 4) + inst.blockSize / 4 ≤ i ∧
      readable (inst.blockSize / 4) ≤ i)

section Agreed

variable {inst inst' : Inst} {ino ino' : Buf} {n abs : Nat} {i : BitVec 32} {rc : Int}

theorem inodeAddBlock_reached (hreg : inst.geo.Regular) (hin : inst.geo.HasInode n)
    {own : Nat → Option Owner} (himage : Image inst.geo (· = n) (fun _ => ino) own inst) (habs : abs < 2 ^ 32)
    (hreach : Reached inst ino i.toNat) (hcall : inodeAddBlock inst ino n abs i = some (rc, inst', ino'))
    (hrc : rc ≠ -2) : rc = 1 ∧ (i.toNat < readable (inst.blockSize / 4) → Agrees inst inst' ino ino' abs i 1) := by
  let s : Stage := ⟨inst, fun _ => ino, own⟩
  have himage : s.Consistent inst.geo (· = n) := himage
  obtain ⟨rc', s₁, inst₁, ino₁, hcall', hgrown, hcase⟩ := inodeAddBlock_spec hreg himage rfl hin abs hreach
  rw [hcall] at hcall'
  cases hcall'
  cases hcase with
  | inl hfail => exact absurd hfail.1 hrc
  | inr hdone => exact ⟨hdone.1, fun hi => agrees_of_setsEntry hreg himage rfl hgrown hdone.2 habs hi⟩

/-- For which indices the writer agrees with the reader, when it does not run out of blocks. -/
theorem addBlock_agrees_iff (hreg : inst.geo.Regular) (hin : inst.geo.HasInode n)
    (himage : ∃ own, Image inst.geo (· = n) (fun _ => ino) own inst) (hpos : 0 < abs) (habs : abs < 2 ^ 32)
    (hcall : inodeAddBlock inst ino n abs i = some (rc, inst', ino')) (hrc : rc ≠ -2) :
    Agrees inst inst' ino ino' abs i rc ↔ Agreed inst ino i.toNat := by
  obtain ⟨own, himage⟩ := himage
  have hent : Entries (inst.blockSize / 4) := hreg.entries
  by_cases hreach : Reached inst ino i.toNat
  · obtain ⟨rfl, hagrees⟩ := inodeAddBlock_reached hreg hin himage habs hreach hcall hrc
    constructor
    · intro h
      exact .inl ⟨hreach, h.1.mp rfl⟩
    · intro h
      cases h with
      | inl h => exact hagrees h.2
      | inr h =>
        rw [Reached] at hreach
        omega
  have hlow := fun h => hreach (.inl h)
  by_cases hhigh : 12 + inst.blockSize / 4 + inst.blockSize / 4 * (inst.blockSize / 4) + inst.blockSize / 4 ≤ i.toNat
  · rw [inodeAddBlock_beyond rfl hent hhigh] at hcall
    cases hcall
    constructor
    · intro h
      exact .inr ⟨hhigh, not_lt.mp fun hi => absurd (h.1.mpr hi) (by decide)⟩
    · intro h
      have hbeyond : ¬ i.toNat < readable (inst.blockSize / 4) := by
        cases h with
        | inl h => exact absurd h.1 hreach
        | inr h => exact not_lt.mpr h.2
      exact ⟨⟨fun h => absurd h (by decide), fun h => absurd h hbeyond⟩, fun h => absurd h hbeyond⟩
  · -- the indirect block is lost, so the reader finds nothing
    have hmissing : blockAt ino inst.disk [14, 0] = none := by
      by_cases hroot : Inode.block ino 14 = 0
      · exact blockAt_concat_none (cons_ne_nil 14 []) (by rw [blockAt_singleton, hroot, child_zero]) 0
      · by_cases hword : words inst.disk (Inode.block ino 14) 0 = 0
        · rw [show [14, 0] = [14] ++ [0] from rfl, blockAt_concat (blockAt_root hroot), hword, child_zero]
        · exact absurd (.inr ⟨not_le.mp hhigh, hroot, hword⟩) hreach
    obtain ⟨rfl, hsize, hlost⟩ := inodeAddBlock_lost (s := ⟨inst, fun _ => ino, own⟩) hreg himage rfl hin
      (not_lt.mp hlow) (not_le.mp hhigh) hmissing hcall hrc
    have hsize : inst'.blockSize = inst.blockSize := hsize
    constructor
    · intro h
      have hi := h.1.mp rfl
      have hread := (h.2 hi).1
      rw [inodeBlockAbsolute_eq (by rwa [hsize]) (by rwa [hsize]), hsize, pathOf_triple hent (not_lt.mp hlow)
        (not_le.mp hhigh), numberAt_of_zero hlost] at hread
      exact absurd (some.inj hread) hpos.ne
    · intro h
      cases h with
      | inl h => exact absurd h.1 hreach
      | inr h => exact absurd h.1 hhigh

end Agreed

def freshVolume : Inst := smallVolume 0xff 24 0x7ff 5

def freshOwn : Nat → Option Owner
  | 1 => some .header
  | 2 => some .header
  | 3 => some (.bitmap .block 0)
  | 4 => some (.bitmap .inode 0)
  | 5 => some (.table 0 0)
  | 6 => some (.table 0 1)
  | _ => none

theorem blockAt_empty (disk : Nat → Buf) (q : List Nat) : blockAt (fun _ => 0) disk q = none := by
  cases q with
  | nil => rfl
  | cons s path =>
    have hzero : Inode.block (fun _ => 0) s = 0 := readLE_zero _ _
    rw [blockAt, hzero, child_zero, bind_none]

theorem freshVolume_regular : freshVolume.geo.Regular := by
  refine ⟨smallVolume_valid _ _ _ _, ⟨0, by decide, rfl⟩, by decide, by decide, by decide, fun {r g} hg => ?_⟩
  obtain rfl := Nat.lt_one_iff.mp hg
  cases r <;> decide

theorem freshVolume_image (S : Nat → Prop) : Image freshVolume.geo S (fun _ _ => 0) freshOwn freshVolume := by
  refine ⟨(tallied_iff rfl).mp ⟨by decide, by decide⟩, fun b hb => ?_, fun r g hg => ?_,
    fun n hn => ?_, fun n _ q b _ hb => ?_, fun b o ho hlt => ?_⟩
  · have hb : b = 1 ∨ 2 ≤ b ∧ b < 2 + 1 := hb
    obtain rfl | rfl : b = 1 ∨ b = 2 := by omega
    · rfl
    · rfl
  · obtain rfl := Nat.lt_one_iff.mp hg
    cases r <;> rfl
  · have hall : ∀ n < 17, 1 ≤ n → freshOwn (freshVolume.geo.inodeBlock n) =
        some (.table (freshVolume.geo.inodeGroup n) (freshVolume.geo.inodeBlockOffset n)) := by
      decide
    have hle : n ≤ 16 := hn.2
    exact hall n (by omega) hn.1
  · rw [blockAt_empty] at hb
    cases hb
  · have hall : ∀ b < 32, freshOwn b ≠ none → freshVolume.geo.inUse freshVolume.disk .block b = true := by
      decide
    exact hall b hlt (by rw [ho]; exact some_ne_none o)

/-- The first block behind the direct ones. -/
theorem addBlock_agrees_single :
    ∃ inst' ino', inodeAddBlock freshVolume (fun _ => 0) 12 20 12#32 = some (1, inst', ino') ∧
      Agrees freshVolume inst' (fun _ => 0) ino' 20 12#32 1 := by
  have hcall : (inodeAddBlock freshVolume (fun _ => 0) 12 20 12#32).map (·.1) = some 1 := by decide
  obtain ⟨⟨rc, inst', ino'⟩, hcall, rfl⟩ := map_eq_some_iff.mp hcall
  refine ⟨inst', ino', hcall, ?_⟩
  exact (addBlock_agrees_iff freshVolume_regular ⟨by decide, by decide⟩ ⟨_, freshVolume_image _⟩ (by decide)
    (by decide) hcall (by decide)).mpr (.inl ⟨.inl (by decide), by decide⟩)

/-- The first block of the triple indirect range is not found again, and a block in the double indirect range is lost. A
later block of the triple indirect range is refused. -/
theorem addBlock_disagrees :
    (∃ own, Image freshVolume.geo (· = 12) (fun _ _ => 0) own freshVolume) ∧
      ((inodeAddBlock freshVolume (fun _ => 0) 12 20 268#32).bind fun (rc₁, inst₁, ino₁) =>
        (inodeAddBlock inst₁ ino₁ 12 21 65804#32).map fun (rc₂, inst₂, ino₂) =>
          (rc₁, inodeBlockAbsolute inst₁ ino₁ 268#32, rc₂, inodeBlockAbsolute inst₂ ino₂ 65804#32,
            inodeBlockAbsolute inst₂ ino₂ 268#32)) =
        some (1, some 20, 1, some 0, some 12) ∧
      (inodeAddBlock freshVolume (fun _ => 0) 12 20 66060#32).map (·.1) = some (-1) ∧
      66060 < readable (freshVolume.blockSize / 4) :=
  ⟨⟨_, freshVolume_image _⟩, by decide +kernel, by decide, by decide⟩

end Kairax.Ext2
