import Kairax.Errors
import Kairax.Ext2.Format

/-!
# Releasing the blocks of an inode

`ext2_purge_inode` and `ext2_truncate` give all blocks of an inode back. The calls of `ext2_free_block` are noted
down, to be compared with the blocks that the inode reaches.
-/

namespace Kairax.Ext2

open Lib List Option Prod

def Inst.HasBit (inst : Inst) (b : Nat) : Prop :=
  0 < inst.blocksPerGroup ∧ b / inst.blocksPerGroup < inst.totalGroups ∧ b % inst.blocksPerGroup / 8 < inst.blockSize

instance (inst : Inst) (b : Nat) : Decidable (inst.HasBit b) := inferInstanceAs (Decidable (_ ∧ _))

/-- A call of `ext2_free_block`, noted down. -/
def release (b : Nat) (s : List Nat × Inst) : Option (List Nat × Inst) :=
  if s.2.HasBit b then (freeBlock s.2 b).map (s.1 ++ [b], ·) else none

/-- `block_list`, as it is read from an indirect block. -/
def Inst.entries (inst : Inst) (b : Nat) : List Nat := (range (inst.blockSize / 4)).map (words inst.disk b)

/-- The body of `ext2_free_block_tree` for a way to release the blocks below. -/
def freeNode (free : Nat → List Nat × Inst → Option (List Nat × Inst)) (root : Nat) (s : List Nat × Inst) :
    Option (List Nat × Inst) :=
  if root = 0 then some s
  else ((s.2.entries root).foldlM (fun s e => if e = 0 then some s else free e s) s).bind fun s =>
    release root (s.1, s.2.writeBlock root fun _ => 0)

/-- `ext2_free_block_tree` -/
def freeBlockTree : Nat → Nat → List Nat × Inst → Option (List Nat × Inst)
  | 0 => freeNode release
  | level + 1 => freeNode (freeBlockTree level)

/-- The release of the blocks in `ext2_purge_inode` and `ext2_truncate`. -/
def releaseBlocks (inst : Inst) (ino : Buf) : Option (List Nat × Inst) :=
  ((range 12).foldlM (fun s k => if Inode.block ino k = 0 then some s else release (Inode.block ino k) s)
      ([], inst)).bind fun s =>
    (freeBlockTree 0 (Inode.block ino 12) s).bind fun s =>
      (freeBlockTree 1 (Inode.block ino 13) s).bind fun s => freeBlockTree 2 (Inode.block ino 14) s

def clearBlocks (ino : Buf) : Buf :=
  Inode.setNumBlocks (Inode.setSize ((range 15).foldl (fun ino k => Inode.setBlock ino k 0) ino) 0) 0

/-- `ext2_purge_inode`, with the mode and size of the VFS inode and the time. The path of a short link is in place of
the block numbers. -/
def purgeInode (inst : Inst) (n mode size now : Nat) : Option (List Nat × Inst) :=
  let ino := Inode.setMode (Inode.setHardLinks (inst.inode n) 0) 0
  let released := if mode &&& 0xF000 = 0xA000 ∧ size ≤ 60
    then some (Inode.setNumBlocks (Inode.setSize ino 0) 0, [], inst)
    else (releaseBlocks inst ino).map fun s => (clearBlocks ino, s)
  released.bind fun (ino, log, inst) =>
    (releaseInode (inst.writeInodeMetadata (writeLE ino 20 4 now) n) n).map (log, ·)

/-- `inode_truncate` and `ext2_truncate`: the return value, the size in the VFS inode, and the calls of
`ext2_free_block`. -/
def inodeTruncate (inst : Inst) (n mode size _len : Nat) : Option (Int × Nat × List Nat × Inst) :=
  if mode &&& 0xF000 = 0x4000 then some (-errorIsDirectory, size, [], inst)
  else (releaseBlocks inst (inst.inode n)).map fun s =>
    (0, 0, s.1, s.2.writeInodeMetadata (clearBlocks (inst.inode n)) n)

/-- The blocks of a tree in the order of their release, each with whether it is an indirect block. Depth 0 is data. -/
def blockTree (inst : Inst) : Nat → Nat → List (Nat × Bool)
  | 0, e => if e = 0 then [] else [(e, false)]
  | depth + 1, e => if e = 0 then [] else (inst.entries e).flatMap (blockTree inst depth) ++ [(e, true)]

def inodeTree (inst : Inst) (ino : Buf) : List (Nat × Bool) :=
  (range 15).flatMap fun k => blockTree inst (k - 11) (Inode.block ino k)

/-- The blocks are distinct and have a bit each, and the bitmaps that hold the bits are not among the indirect
blocks. -/
structure Inst.Releasable (inst : Inst) (tree : List (Nat × Bool)) : Prop where
  distinct : (tree.map fst).Nodup
  hasBit : ∀ x ∈ tree, inst.HasBit x.1
  bitmap : ∀ x ∈ tree, x.2 = true → ∀ y ∈ tree, x.1 ≠ inst.blockBitmap (y.1 / inst.blocksPerGroup)

/-- What the release of these blocks does to a volume. -/
structure Released (inst inst' : Inst) (bs : List Nat) : Prop where
  geo : inst'.geo = inst.geo
  disk : ∀ c, c ∉ bs → (∀ b ∈ bs, c ≠ inst.blockBitmap (b / inst.blocksPerGroup)) → inst'.disk c = inst.disk c
  group : ∀ g, inst'.groupFree .block g =
    (inst.groupFree .block g + bs.countP fun b => b / inst.blocksPerGroup = g) % 2 ^ 16
  super : inst'.superFree .block = (inst.superFree .block + bs.length) % 2 ^ 32

def Frees (free : List Nat × Inst → Option (List Nat × Inst)) (tree : Inst → List (Nat × Bool)) : Prop :=
  ∀ log inst, inst.Releasable (tree inst) →
    ∃ inst', free (log, inst) = some (log ++ (tree inst).map fst, inst') ∧
      Released inst inst' ((tree inst).map fst)

def Local (tree : Inst → List (Nat × Bool)) : Prop :=
  ∀ inst inst', inst'.geo = inst.geo → (∀ x ∈ tree inst, x.2 = true → inst'.disk x.1 = inst.disk x.1) →
    tree inst' = tree inst

section Calls

variable {inst inst' inst'' : Inst} {bs bs' : List Nat} {free free' : List Nat × Inst → Option (List Nat × Inst)}
  {tree tree' : Inst → List (Nat × Bool)} {b root : Nat}

theorem Released.nil (inst : Inst) : Released inst inst [] :=
  ⟨rfl, fun _ _ _ => rfl, fun _ => (Nat.mod_eq_of_lt (readLE_lt _ _ 2)).symm, (Nat.mod_eq_of_lt (readLE_lt _ _ 4)).symm⟩

theorem Released.perGroup (hreleased : Released inst inst' bs) : inst'.blocksPerGroup = inst.blocksPerGroup :=
  congrArg Geo.blocksPerGroup hreleased.geo

theorem Released.bitmap (hreleased : Released inst inst' bs) : inst'.blockBitmap = inst.blockBitmap :=
  congrArg Geo.blockBitmap hreleased.geo

theorem Released.append (hfirst : Released inst inst' bs) (hsecond : Released inst' inst'' bs') :
    Released inst inst'' (bs ++ bs') := by
  refine ⟨hsecond.geo.trans hfirst.geo, fun c hc hbitmap => ?_, fun g => ?_, ?_⟩
  · have hlater := hsecond.disk c (fun h => hc (mem_append_right _ h)) fun b hb => by
      rw [hfirst.perGroup, hfirst.bitmap]
      exact hbitmap b (mem_append_right _ hb)
    exact hlater.trans (hfirst.disk c (fun h => hc (mem_append_left _ h))
      fun b hb => hbitmap b (mem_append_left _ hb))
  · rw [hsecond.group, hfirst.group, hfirst.perGroup, Nat.mod_add_mod, countP_append, add_assoc]
  · rw [hsecond.super, hfirst.super, Nat.mod_add_mod, length_append, add_assoc]

theorem Local.append (htree : Local tree) (htree' : Local tree') : Local fun inst => tree inst ++ tree' inst := by
  intro inst inst' hgeo hdisk
  show tree inst' ++ tree' inst' = _
  rw [htree inst inst' hgeo fun x hx => hdisk x (mem_append_left _ hx),
    htree' inst inst' hgeo fun x hx => hdisk x (mem_append_right _ hx)]

theorem Local.flatMap {κ : Type} {trees : κ → Inst → List (Nat × Bool)} (htrees : ∀ k, Local (trees k)) (ks : List κ) :
    Local fun inst => ks.flatMap (trees · inst) := by
  induction ks with
  | nil => exact fun _ _ _ _ => rfl
  | cons k ks ih => exact (htrees k).append ih

theorem Inst.Releasable.of_released {T T' : List (Nat × Bool)} (hrel : inst.Releasable (T ++ T'))
    (hreleased : Released inst inst' (T.map fst)) : inst'.Releasable T' := by
  have hright {x : Nat × Bool} (hx : x ∈ T') : x ∈ T ++ T' := mem_append_right _ hx
  refine ⟨?_, fun x hx => ?_, fun x hx hnode y hy => ?_⟩
  · have hdistinct := hrel.distinct
    rw [map_append] at hdistinct
    exact hdistinct.of_append_right
  · obtain ⟨hpos, hgroup, hbyte⟩ := hrel.hasBit x (hright hx)
    rw [Inst.HasBit, hreleased.perGroup, show inst'.totalGroups = inst.totalGroups from
      congrArg Geo.totalGroups hreleased.geo, show inst'.blockSize = inst.blockSize from
      congrArg Geo.blockSize hreleased.geo]
    exact ⟨hpos, hgroup, hbyte⟩
  · rw [hreleased.perGroup, hreleased.bitmap]
    exact hrel.bitmap x (hright hx) hnode y (hright hy)

theorem Frees.seq (hfrees : Frees free tree) (hfrees' : Frees free' tree') (hlocal : Local tree') :
    Frees (fun s => (free s).bind free') fun inst => tree inst ++ tree' inst := by
  intro log inst hrel
  have hdistinct := hrel.distinct
  rw [map_append] at hdistinct
  have hfirst : inst.Releasable (tree inst) :=
    ⟨hdistinct.of_append_left, fun x hx => hrel.hasBit x (mem_append_left _ hx),
      fun x hx hnode y hy => hrel.bitmap x (mem_append_left _ hx) hnode y (mem_append_left _ hy)⟩
  obtain ⟨inst₁, hcall, hreleased⟩ := hfrees log inst hfirst
  -- The blocks that the second tree is read from are neither released by the first call nor written as bitmaps.
  have hsame : tree' inst₁ = tree' inst := by
    refine hlocal inst inst₁ hreleased.geo fun x hx hnode => hreleased.disk x.1 (fun hmem => ?_) fun b hb => ?_
    · exact (disjoint_of_nodup_append hdistinct) hmem (mem_map_of_mem hx)
    · obtain ⟨y, hy, rfl⟩ := mem_map.mp hb
      exact hrel.bitmap x (mem_append_right _ hx) hnode y (mem_append_left _ hy)
  obtain ⟨inst₂, hcall', hreleased'⟩ := hfrees' (log ++ (tree inst).map fst) inst₁
    (by rw [hsame]; exact hrel.of_released hreleased)
  rw [hsame] at hcall' hreleased'
  refine ⟨inst₂, ?_, ?_⟩
  · show (free (log, inst)).bind free' = _
    rw [hcall, bind_some, hcall', map_append, append_assoc]
  · rw [map_append]
    exact hreleased.append hreleased'

theorem Frees.nil : Frees some fun _ => [] :=
  fun log inst _ => ⟨inst, by rw [map_nil, append_nil], Released.nil inst⟩

theorem Frees.loop {κ : Type} {frees : κ → List Nat × Inst → Option (List Nat × Inst)}
    {trees : κ → Inst → List (Nat × Bool)} (hfrees : ∀ k, Frees (frees k) (trees k)) (htrees : ∀ k, Local (trees k))
    (ks : List κ) : Frees (fun s => ks.foldlM (fun s k => frees k s) s) fun inst => ks.flatMap (trees · inst) := by
  induction ks with
  | nil => exact Frees.nil
  | cons k ks ih => exact (hfrees k).seq ih (Local.flatMap htrees ks)

theorem released_freeBlock {buf : Buf} (hbit : inst.HasBit b) (hat : inst' = inst ∨ inst' = inst.writeBlock b buf) :
    ∃ inst'', freeBlock inst' b = some inst'' ∧ Released inst inst'' [b] := by
  have hgeo : inst'.geo = inst.geo := by
    obtain rfl | rfl := hat <;> rfl
  have hper : inst'.blocksPerGroup = inst.blocksPerGroup := congrArg Geo.blocksPerGroup hgeo
  have hbitmap : inst'.blockBitmap = inst.blockBitmap := congrArg Geo.blockBitmap hgeo
  have hcounters : (∀ g, inst'.groupFree .block g = inst.groupFree .block g) ∧
      inst'.superFree .block = inst.superFree .block := by
    obtain rfl | rfl := hat
    · exact ⟨fun _ => rfl, rfl⟩
    · exact ⟨fun _ => rfl, rfl⟩
  have hbyte : b % inst'.blocksPerGroup / 8 < inst'.blockSize := by
    rw [hper, show inst'.blockSize = inst.blockSize from congrArg Geo.blockSize hgeo]
    exact hbit.2.2
  refine ⟨_, if_pos hbyte, by simp [hgeo], fun c hc hbitmaps => ?_, fun g => ?_, ?_⟩
  · have hne := hbitmaps b mem_cons_self
    rw [← hper, ← hbitmap] at hne
    rw [disk_addSuperFree, disk_addGroupFree, disk_writeBlock_of_ne _ _ hne]
    obtain rfl | rfl := hat
    · rfl
    · exact disk_writeBlock_of_ne _ _ (fun heq => hc (heq ▸ mem_cons_self))
  · rw [groupFree_addSuperFree, groupFree_addGroupFree, groupFree_writeBlock, groupFree_writeBlock, hcounters.1,
      hcounters.1, hper, countP_singleton]
    by_cases hg : b / inst.blocksPerGroup = g
    · rw [if_pos ⟨rfl, hg.symm⟩, if_pos (decide_eq_true hg), hg]
    · rw [if_neg fun h => hg h.2.symm, if_neg (by simpa using hg)]
      exact (Nat.mod_eq_of_lt (readLE_lt _ _ 2)).symm
  · rw [superFree_addSuperFree, superFree_addGroupFree, superFree_writeBlock, hcounters.2]
    rfl

theorem frees_release (b : Nat) (node : Bool) : Frees (release b) fun _ => [(b, node)] := by
  intro log inst hrel
  have hbit := hrel.hasBit (b, node) mem_cons_self
  obtain ⟨inst', hfree, hreleased⟩ := @released_freeBlock inst inst b (fun _ => 0) hbit (.inl rfl)
  refine ⟨inst', ?_, hreleased⟩
  rw [release, if_pos hbit, hfree]
  rfl

theorem frees_root (root : Nat) :
    Frees (fun s => release root (s.1, s.2.writeBlock root fun _ => 0)) fun _ => [(root, true)] := by
  intro log inst hrel
  have hbit := hrel.hasBit (root, true) mem_cons_self
  obtain ⟨inst', hfree, hreleased⟩ := released_freeBlock hbit (.inr rfl)
  refine ⟨inst', ?_, hreleased⟩
  show release root (log, inst.writeBlock root fun _ => 0) = _
  rw [release, if_pos (show (inst.writeBlock root fun _ => 0).HasBit root from hbit), hfree]
  rfl

theorem frees_entry {free : Nat → List Nat × Inst → Option (List Nat × Inst)} {depth : Nat}
    (hfrees : ∀ e, e ≠ 0 → Frees (free e) fun inst => blockTree inst depth e) (e : Nat) :
    Frees (fun s => if e = 0 then some s else free e s) fun inst => blockTree inst depth e := by
  by_cases he : e = 0
  · subst he
    cases depth with
    | zero | succ depth => exact Frees.nil
  · simp only [if_neg he]
    exact hfrees e he

theorem local_blockTree (depth e : Nat) : Local fun inst => blockTree inst depth e := by
  induction depth generalizing e with
  | zero => exact fun _ _ _ _ => rfl
  | succ depth ih =>
    intro inst inst' hgeo hdisk
    dsimp only at hdisk ⊢
    by_cases he : e = 0
    · rw [blockTree, blockTree, if_pos he, if_pos he]
    · rw [blockTree, if_neg he] at hdisk
      have hsize : inst'.blockSize = inst.blockSize := congrArg Geo.blockSize hgeo
      have hentries : inst'.entries e = inst.entries e := by
        have hroot := hdisk (e, true) (mem_append_right _ mem_cons_self) rfl
        rw [Inst.entries, hsize]
        refine map_congr_left fun j _ => ?_
        rw [words, words, hroot]
      have hbelow := Local.flatMap ih (inst.entries e) inst inst' hgeo
        fun x hx => hdisk x (mem_append_left _ hx)
      dsimp only at hbelow
      rw [blockTree, blockTree, if_neg he, if_neg he, hentries, hbelow]

theorem frees_node {free : Nat → List Nat × Inst → Option (List Nat × Inst)} {depth : Nat}
    (hfrees : ∀ e, e ≠ 0 → Frees (free e) fun inst => blockTree inst depth e) (root : Nat) :
    Frees (freeNode free root) fun inst => blockTree inst (depth + 1) root := by
  by_cases hroot : root = 0
  · subst hroot
    exact Frees.nil
  · intro log inst hrel
    have hseq := (Frees.loop (frees_entry hfrees) (local_blockTree depth) (inst.entries root)).seq (frees_root root)
      fun _ _ _ _ => rfl
    dsimp only at hrel ⊢
    rw [blockTree, if_neg hroot] at hrel ⊢
    rw [freeNode, if_neg hroot]
    exact hseq log inst hrel

theorem frees_freeBlockTree (level root : Nat) :
    Frees (freeBlockTree level root) fun inst => blockTree inst (level + 1) root := by
  induction level generalizing root with
  | zero =>
    refine @frees_node release 0 (fun e he => ?_) root
    simp only [blockTree, if_neg he]
    exact frees_release e false
  | succ level ih => exact frees_node (fun e _ => ih e) root

theorem frees_releaseBlocks (inst : Inst) (ino : Buf) (hrel : inst.Releasable (inodeTree inst ino)) :
    ∃ inst', releaseBlocks inst ino = some ((inodeTree inst ino).map fst, inst') ∧
      Released inst inst' ((inodeTree inst ino).map fst) := by
  have hdirect (k : Nat) : Frees (fun s => if Inode.block ino k = 0 then some s else release (Inode.block ino k) s)
      fun inst => blockTree inst 0 (Inode.block ino k) :=
    frees_entry (fun e he => by
      simp only [blockTree, if_neg he]
      exact frees_release e false) _
  have hlocal (depth k : Nat) : Local fun inst => blockTree inst depth (Inode.block ino k) := local_blockTree depth _
  have hall := (Frees.loop hdirect (hlocal 0) (range 12)).seq
    ((frees_freeBlockTree 0 (Inode.block ino 12)).seq ((frees_freeBlockTree 1 (Inode.block ino 13)).seq
      (frees_freeBlockTree 2 (Inode.block ino 14)) (hlocal 3 14)) ((hlocal 2 13).append (hlocal 3 14)))
    ((hlocal 1 12).append ((hlocal 2 13).append (hlocal 3 14)))
  have htree : (range 12).flatMap (fun k => blockTree inst 0 (Inode.block ino k)) ++
      (blockTree inst 1 (Inode.block ino 12) ++ (blockTree inst 2 (Inode.block ino 13) ++
        blockTree inst 3 (Inode.block ino 14))) = inodeTree inst ino := by
    simp [inodeTree, range_succ]
  rw [← htree] at hrel ⊢
  exact hall [] inst hrel

end Calls

theorem inodeTree_congr {inst : Inst} {ino ino' : Buf} (hsame : ∀ k, Inode.block ino' k = Inode.block ino k) :
    inodeTree inst ino' = inodeTree inst ino := by
  simp only [inodeTree, hsame]

theorem releaseInode_counters (inst : Inst) {n : Nat} (hn : inodeIndex n % inst.inodesPerGroup / 8 < inst.blockSize) :
    ∃ inst', releaseInode inst n = some inst' ∧
      (∀ g, inst'.groupFree .block g = inst.groupFree .block g) ∧ inst'.superFree .block = inst.superFree .block := by
  refine ⟨_, if_pos hn, fun g => ?_, ?_⟩
  · rw [groupFree_rewriteSuperblock, groupFree_writeBgds, groupFree_addSuperFree, groupFree_addGroupFree,
      if_neg fun h => Resource.noConfusion h.1, groupFree_writeBlock]
  · rw [superFree_rewriteSuperblock, superFree_writeBgds, superFree_addSuperFree, if_neg (by decide),
      superFree_addGroupFree, superFree_writeBlock]

/-- Every block that the inode reaches is released once, and the counters grow by their number. -/
theorem purge_releases {inst : Inst} {n mode size : Nat} (now : Nat) (hlink : ¬ (mode &&& 0xF000 = 0xA000 ∧ size ≤ 60))
    (hn : inodeIndex n % inst.inodesPerGroup / 8 < inst.blockSize)
    (hrel : inst.Releasable (inodeTree inst (inst.inode n))) :
    ∃ inst', purgeInode inst n mode size now = some ((inodeTree inst (inst.inode n)).map fst, inst') ∧
      (∀ g, inst'.groupFree .block g = (inst.groupFree .block g +
        ((inodeTree inst (inst.inode n)).map fst).countP fun b => b / inst.blocksPerGroup = g) % 2 ^ 16) ∧
      inst'.superFree .block = (inst.superFree .block + (inodeTree inst (inst.inode n)).length) % 2 ^ 32 := by
  have hblocks (k : Nat) : Inode.block (Inode.setMode (Inode.setHardLinks (inst.inode n) 0) 0) k =
      Inode.block (inst.inode n) k := by
    rw [Inode.block, Inode.setMode, readLE_writeLE_of_disjoint (by omega), Inode.setHardLinks,
      readLE_writeLE_of_disjoint (by omega)]
    rfl
  obtain ⟨inst₁, hcall, hreleased⟩ := frees_releaseBlocks inst (Inode.setMode (Inode.setHardLinks (inst.inode n) 0) 0)
    (by rwa [inodeTree_congr hblocks])
  rw [inodeTree_congr hblocks] at hcall hreleased
  have hn' : inodeIndex n % inst₁.inodesPerGroup / 8 < inst₁.blockSize := by
    rw [show inst₁.inodesPerGroup = inst.inodesPerGroup from congrArg Geo.inodesPerGroup hreleased.geo,
      show inst₁.blockSize = inst.blockSize from congrArg Geo.blockSize hreleased.geo]
    exact hn
  obtain ⟨inst', hnumber, hgroup, hsuper⟩ := releaseInode_counters (inst₁.writeInodeMetadata
    (writeLE (clearBlocks (Inode.setMode (Inode.setHardLinks (inst.inode n) 0) 0)) 20 4 now) n) hn'
  refine ⟨inst', ?_, fun g => (hgroup g).trans (hreleased.group g), ?_⟩
  · rw [purgeInode]
    rw [if_neg hlink, hcall, map_some, bind_some]
    dsimp only
    rw [hnumber, map_some]
  · rw [hsuper, ← length_map fst]
    exact hreleased.super

/-- A volume with a file of two blocks, one of them behind an indirect block. -/
def fileVolume : Inst :=
  (freshVolume.writeInodeMetadata (packed [(0, 2, 0x81ff), (4, 4, 13000), (28, 4, 6), (40, 4, 8), (88, 4, 9)])
    12).writeBlock
    9 (packed [(0, 4, 10)])

theorem fileVolume_tree :
    inodeTree fileVolume (fileVolume.inode 12) = [(8, false), (10, false), (9, true)] := by decide +kernel

theorem fileVolume_releasable : fileVolume.Releasable (inodeTree fileVolume (fileVolume.inode 12)) := by
  rw [fileVolume_tree]
  exact ⟨by decide, by decide +kernel, by decide +kernel⟩

theorem purge_releases_three : ∃ inst', purgeInode fileVolume 12 0x81ff 13000 0 = some ([8, 10, 9], inst') := by
  obtain ⟨inst', hcall, -⟩ := @purge_releases fileVolume 12 0x81ff 13000 0 (by decide) (by decide +kernel)
    fileVolume_releasable
  rw [fileVolume_tree] at hcall
  exact ⟨inst', hcall⟩

/-- The bitmap of the group stands as the indirect block of this inode. -/
def bitmapVolume : Inst :=
  (smallVolume 0x15 24 0x7ff 5).writeInodeMetadata (packed [(0, 2, 0x81ff), (4, 4, 13000), (40, 4, 4), (88, 4, 3)]) 12

/-- The release of block 4 changes the bitmap from 21 to 5, which is then released in place of 21. -/
theorem other_block_freed :
    inodeTree bitmapVolume (bitmapVolume.inode 12) = [(4, false), (21, false), (3, true)] ∧
      (purgeInode bitmapVolume 12 0x81ff 13000 0).map fst = some [4, 5, 3] := by
  decide +kernel

def Inst.recordedSize (inst : Inst) (n : Nat) : Nat :=
  if inst.fileSize64bitFlag then storedSize (inst.inode n) else Inode.size (inst.inode n)

/-- What a truncation to `len` should have done, with the size in the VFS inode and the blocks that were released. -/
structure Truncated (inst : Inst) (n len size : Nat) (log : List Nat) (inst' : Inst) : Prop where
  stored : inst'.recordedSize n = len
  cached : size = len
  kept : ∀ p < len, p < inst.recordedSize n → fileBytes inst' (inst'.inode n) p = fileBytes inst (inst.inode n) p
  grown : ∀ p < len, inst.recordedSize n ≤ p → fileBytes inst' (inst'.inode n) p = 0
  freed : ∀ b ∈ (inodeTree inst (inst.inode n)).map fst, b ∉ (inodeTree inst' (inst'.inode n)).map fst →
    log.count b = 1

section ClearBlocks

variable {ino : Buf}

theorem size_clearBlocks : Inode.size (clearBlocks ino) = 0 := by
  rw [Inode.size, clearBlocks, Inode.setNumBlocks, readLE_writeLE_of_disjoint (by omega)]
  exact readLE_writeLE _ _ 4 _

theorem sizeHigh_clearBlocks : Inode.sizeHigh (clearBlocks ino) = Inode.sizeHigh ino := by
  rfl

theorem fits_clearBlocks (hfits : Inode.Fits ino) : Inode.Fits (clearBlocks ino) := by
  have hblocks : Inode.Fits ((range 15).foldl (fun ino k => Inode.setBlock ino k 0) ino) :=
    foldlRecOn (range 15) _ hfits fun _ hfits k hk => hfits.setBlock _ (mem_range.mp hk)
  exact Inode.Fits.setNumBlocks _ (hblocks.writeLE 0 (show 4 + 4 ≤ 128 by decide))

end ClearBlocks

/-- A truncation does what it should, if and only if the length is zero and nothing is in `size_high`. -/
theorem truncate_iff {inst : Inst} {n mode : Nat} (size len : Nat) (hreg : inst.geo.Regular)
    (hmode : mode &&& 0xF000 = 0x8000) (hrel : inst.Releasable (inodeTree inst (inst.inode n))) :
    ∃ size' log inst', inodeTruncate inst n mode size len = some (0, size', log, inst') ∧
      (Truncated inst n len size' log inst' ↔
        len = 0 ∧ (inst.fileSize64bitFlag = true → Inode.sizeHigh (inst.inode n) = 0)) := by
  obtain ⟨inst₁, hcall, hreleased⟩ := frees_releaseBlocks inst (inst.inode n) hrel
  have hinode : (inst₁.writeInodeMetadata (clearBlocks (inst.inode n)) n).inode n = clearBlocks (inst.inode n) :=
    inode_writeInodeMetadata_same (by rw [hreleased.geo]; exact hreg) (fits_clearBlocks (clip_clip 128 _))
  have hflag : inst₁.fileSize64bitFlag = inst.fileSize64bitFlag := congrArg Geo.fileSize64bitFlag hreleased.geo
  have hstored : (inst₁.writeInodeMetadata (clearBlocks (inst.inode n)) n).recordedSize n =
      if inst.fileSize64bitFlag then Inode.sizeHigh (inst.inode n) * 2 ^ 32 else 0 := by
    rw [Inst.recordedSize, hinode, storedSize, size_clearBlocks, sizeHigh_clearBlocks, add_zero]
    exact congrArg (fun flag : Bool => if flag then Inode.sizeHigh (inst.inode n) * 2 ^ 32 else 0) hflag
  refine ⟨0, (inodeTree inst (inst.inode n)).map fst, inst₁.writeInodeMetadata (clearBlocks (inst.inode n)) n, ?_,
    fun htruncated => ?_, fun hempty => ?_⟩
  · rw [inodeTruncate, if_neg (by rw [hmode]; decide), hcall, map_some]
  · have hlen : len = 0 := htruncated.cached.symm
    refine ⟨hlen, fun hset => ?_⟩
    have hsize := htruncated.stored
    rw [hstored, if_pos hset] at hsize
    omega
  · obtain ⟨rfl, hhigh⟩ := hempty
    refine ⟨?_, rfl, fun p hp => absurd hp (Nat.not_lt_zero p), fun p hp => absurd hp (Nat.not_lt_zero p),
      fun b hb _ => count_eq_one_of_mem hrel.distinct hb⟩
    rw [hstored]
    split_ifs with hset
    · rw [hhigh hset, zero_mul]
    · rfl

theorem truncate_empties : ∃ log inst', inodeTruncate fileVolume 12 0x81ff 13000 0 = some (0, 0, log, inst') ∧
    Truncated fileVolume 12 0 0 log inst' := by
  obtain ⟨size, log, inst', hcall, hiff⟩ := @truncate_iff fileVolume 12 0x81ff 13000 0 freshVolume_regular (by decide)
    fileVolume_releasable
  have htruncated := hiff.mpr ⟨rfl, by decide +kernel⟩
  obtain rfl := htruncated.cached
  exact ⟨log, inst', hcall, htruncated⟩

/-- A truncation of 13000 bytes to 10 leaves nothing. -/
theorem truncate_loses_bytes : (inodeTruncate fileVolume 12 0x81ff 13000 10).map (fun (rc, size, log, inst) =>
    (rc, size, log, Inode.size (inst.inode 12))) = some (0, 0, [8, 10, 9], 0) := by
  decide +kernel

end Kairax.Ext2
