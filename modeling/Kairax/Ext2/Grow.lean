import Kairax.Ext2.BlockMap

/-!
# Extending the tree of an inode

`ext2_inode_add_block` allocates the indirect blocks that are missing on the way and then sets one entry. `Grown` is
what such a stretch of the driver keeps.
-/

namespace Kairax.Ext2

open Lib List Option BitVec Function

/-- A volume, the inodes in use and the owners of the blocks. -/
structure Stage where
  inst : Inst
  inodes : Nat → Buf
  own : Nat → Option Owner

/-- The owners whose blocks are not part of the structure of an inode's tree. -/
def Owner.Apart (n : Nat) : Owner → Prop
  | node m q => m ≠ n ∨ IsLeaf q
  | kept => True
  | _ => False

/-- The stage after inode `n` was changed and the block `b` has got an owner. -/
def Stage.link (s : Stage) (inst : Inst) (n : Nat) (ino : Buf) (b : Nat) (o : Owner) : Stage :=
  ⟨inst, update s.inodes n ino, update s.own b (some o)⟩

theorem Stage.inodes_link (s : Stage) (inst : Inst) (n : Nat) (ino : Buf) (b : Nat) (o : Owner) :
    (s.link inst n ino b o).inodes n = ino :=
  update_self ..

def Stage.Consistent (G : Geo) (S : Nat → Prop) (s : Stage) : Prop := Image G S s.inodes s.own s.inst

/-- The tree of inode `n` was extended, and its data blocks are now those of `leaf`. -/
structure Grown (G : Geo) (S : Nat → Prop) (n : Nat) (s s' : Stage) (leaf : List Nat → Option Nat) : Prop where
  image : s'.Consistent G S
  own_le : ∀ b o, s.own b = some o → s'.own b = some o
  leaves : ∀ q, IsPath (G.blockSize / 4) q → IsLeaf q → blockAt (s'.inodes n) s'.inst.disk q = leaf q
  keeps : ∀ b o, s.own b = some o → o.Apart n → s'.inst.disk b = s.inst.disk b
  rest : ∀ p, p < 28 ∨ (32 ≤ p ∧ p < 40) ∨ 100 ≤ p → s'.inodes n p = s.inodes n p
  others : ∀ m, m ≠ n → s'.inodes m = s.inodes m
  tables : ∀ m, G.HasInode m → m ≠ n → s'.inst.inode m = s.inst.inode m
  inodeUse : ∀ x < G.totalGroups * G.inodesPerGroup,
    G.inUse s'.inst.disk .inode x = G.inUse s.inst.disk .inode x
  exhausted : s.inst.exhausted = true → s'.inst.exhausted = true

def Stage.leaf (s : Stage) (n : Nat) (q : List Nat) : Option Nat := blockAt (s.inodes n) s.inst.disk q

variable {G : Geo} {S : Nat → Prop} {n : Nat} {s s₁ : Stage}

section Grown

variable {s₂ : Stage} {leaf : List Nat → Option Nat}

theorem Grown.refl (himage : s.Consistent G S) : Grown G S n s s (s.leaf n) :=
  ⟨himage, fun _ _ h => h, fun _ _ _ => rfl, fun _ _ _ _ => rfl, fun _ _ => rfl, fun _ _ => rfl, fun _ _ _ => rfl,
    fun _ _ => rfl, id⟩

theorem Grown.trans {leaf₁ : List Nat → Option Nat} (h₁ : Grown G S n s s₁ leaf₁) (h₂ : Grown G S n s₁ s₂ leaf) :
    Grown G S n s s₂ leaf where
  image := h₂.image
  own_le b o ho := h₂.own_le b o (h₁.own_le b o ho)
  leaves := h₂.leaves
  keeps b o ho hapart := (h₂.keeps b o (h₁.own_le b o ho) hapart).trans (h₁.keeps b o ho hapart)
  rest p hp := (h₂.rest p hp).trans (h₁.rest p hp)
  others m hm := (h₂.others m hm).trans (h₁.others m hm)
  tables m hm hne := (h₂.tables m hm hne).trans (h₁.tables m hm hne)
  inodeUse x hx := (h₂.inodeUse x hx).trans (h₁.inodeUse x hx)
  exhausted h := h₂.exhausted (h₁.exhausted h)

theorem Grown.congr {leaf' : List Nat → Option Nat} (h : Grown G S n s s₁ leaf)
    (hsame : ∀ q, IsPath (G.blockSize / 4) q → IsLeaf q → leaf q = leaf' q) : Grown G S n s s₁ leaf' :=
  { h with leaves := fun q hq hleaf => (h.leaves q hq hleaf).trans (hsame q hq hleaf) }

theorem Image.exhaust {inodes : Nat → Buf} {own : Nat → Option Owner} {inst : Inst}
    (himage : Image G S inodes own inst) :
    Image G S inodes own inst.exhaust :=
  ⟨⟨himage.counted.geo, himage.counted.group, himage.counted.super, himage.counted.kept⟩, himage.header, himage.bitmap,
    himage.table, himage.node, himage.used⟩

theorem Grown.exhaust (himage : s.Consistent G S) : Grown G S n s ⟨s.inst.exhaust, s.inodes, s.own⟩ (s.leaf n) :=
  ⟨himage.exhaust, fun _ _ h => h, fun _ _ _ => rfl, fun _ _ _ _ => rfl, fun _ _ => rfl, fun _ _ => rfl,
    fun _ _ _ => rfl, fun _ _ => rfl, fun _ => rfl⟩

end Grown

variable {b c j m slot t v : Nat} {p q : List Nat} {disk : Nat → Buf} {o : Owner}

variable {inst inst' : Inst}

section Tables

variable {inodes : Nat → Buf} {own : Nat → Option Owner}

theorem inode_of_disk (hgeo : inst'.geo = inst.geo)
    (hdisk : inst'.disk (inst.geo.inodeBlock m) = inst.disk (inst.geo.inodeBlock m)) :
    inst'.inode m = inst.inode m := by
  rw [Inst.inode, hgeo, hdisk, Inst.inode]

section

variable (himage : Image G S inodes own inst)
include himage

theorem Image.inode_writeBlock (buf : Buf) (hc : ∀ g k, own c ≠ some (.table g k))
    (hm : G.HasInode m) : (inst.writeBlock c buf).inode m = inst.inode m := by
  apply inode_of_disk (geo_writeBlock inst c buf)
  apply disk_writeBlock_of_ne
  intro heq
  have htable := himage.table m hm
  rw [← himage.counted.geo, heq] at htable
  exact hc _ _ htable

theorem Image.inode_taken (htaken : Taken G inst b inst') (hm : G.HasInode m) : inst'.inode m = inst.inode m := by
  have hgeo := himage.counted.geo
  apply inode_of_disk (htaken.toggled.geo.trans hgeo.symm)
  rw [hgeo]
  exact himage.disk_taken htaken (himage.table m hm) trivial

theorem Image.inode_writeInodeMetadata (hreg : G.Regular) {n : Nat}
    (hn : G.HasInode n) (hm : G.HasInode m) (hne : m ≠ n) (ino : Buf) :
    (inst.writeInodeMetadata ino n).inode m = inst.inode m := by
  have hgeo := himage.counted.geo
  subst hgeo
  apply inode_writeInodeMetadata_of_ne hreg hn hm hne
  intro heq
  have htable := himage.table m hm
  rw [heq, himage.table n hn] at htable
  injection htable with htable
  injection htable with hgroup hblock
  exact ⟨hgroup.symm, hblock.symm⟩

theorem Image.disk_writeInodeMetadata {n : Nat} (hn : G.HasInode n) (ino : Buf)
    (hc : ∀ g k, own c ≠ some (.table g k)) : (inst.writeInodeMetadata ino n).disk c = inst.disk c := by
  apply Ext2.disk_writeInodeMetadata
  intro heq
  have htable := himage.table n hn
  rw [← himage.counted.geo, ← heq] at htable
  exact hc _ _ htable

end

end Tables

theorem Owner.Apart.stable (hapart : o.Apart n) : o.Stable := by
  cases o with
  | header | bitmap r g => exact hapart
  | table g k => exact hapart.elim
  | node m q | kept => trivial

theorem Owner.Apart.ne_table (hapart : o.Apart n) (g k : Nat) : o ≠ .table g k := by
  intro heq
  rw [heq] at hapart
  exact hapart

theorem Grown.taken (himage : s.Consistent G S) (hvalid : G.Valid) (hn : S n) (htaken : Taken G s.inst b inst') :
    Grown G S n s ⟨inst', s.inodes, s.own⟩ (s.leaf n) where
  image := Image.taken himage hvalid htaken
  own_le _ _ ho := ho
  leaves q hq _ := himage.blockAt_frame hn (fun c q' ho _ => himage.disk_taken htaken ho trivial) hq
  keeps _ _ ho hapart := himage.disk_taken htaken ho hapart.stable
  rest _ _ := rfl
  others _ _ := rfl
  tables m hm _ := himage.inode_taken htaken hm
  inodeUse x hx := by rw [htaken.inUse hvalid (r := .inode) hx, if_neg fun h => by cases h.1]
  exhausted h := htaken.exhausted.trans h

theorem Grown.link (himage : s.Consistent G S) (hn : S n) {ino' : Buf} {q₀ : List Nat} (hcount : Counted G inst')
    (hbitmaps : ∀ r g, g < G.totalGroups → inst'.disk (G.bitmap r g) = s.inst.disk (G.bitmap r g))
    (htree : ∀ q, IsPath (G.blockSize / 4) q →
      blockAt ino' inst'.disk q = if q = q₀ then child v else blockAt (s.inodes n) s.inst.disk q)
    (hkeeps : ∀ c o, s.own c = some o → o.Apart n → inst'.disk c = s.inst.disk c)
    (hrest : ∀ p, p < 28 ∨ (32 ≤ p ∧ p < 40) ∨ 100 ≤ p → ino' p = s.inodes n p)
    (htables : ∀ m, G.HasInode m → m ≠ n → inst'.inode m = s.inst.inode m) (hfree : s.own v = none)
    (hused : v < G.totalGroups * G.blocksPerGroup → G.inUse s.inst.disk .block v = true)
    (hexhausted : inst'.exhausted = s.inst.exhausted) :
    Grown G S n s (s.link inst' n ino' v (.node n q₀)) fun q => if q = q₀ then child v else s.leaf n q := by
  have hino := s.inodes_link inst' n ino' v (.node n q₀)
  refine ⟨?_, fun c o ho => ?_, fun q hq _ => ?_, hkeeps, fun p hp => ?_, fun m hm => update_of_ne hm .., htables,
    fun x hx => inUse_of_bitmaps hbitmaps hx, fun h => hexhausted.trans h⟩
  · exact Image.link himage hcount (fun c hc => inUse_of_bitmaps hbitmaps hc) htree
      (fun c m q hm ho => hkeeps c _ ho (.inl hm)) hn hfree hused
  · apply (update_of_ne _ _ _).trans ho
    intro heq
    rw [heq, hfree] at ho
    cases ho
  · rw [hino]
    exact htree q hq
  · rw [hino]
    exact hrest p hp

variable {ino' : Buf}

theorem words_of_disk {disk' : Nat → Buf} (hdisk : disk' b = disk b) (j : Nat) : words disk' b j = words disk b j := by
  rw [words, hdisk, words]

theorem words_zero (hzero : disk b = fun _ => 0) (j : Nat) : words disk b j = 0 := by
  rw [words, hzero, readLE_zero]

theorem ne_nil_of_blockAt {ino : Buf} (ht : blockAt ino disk p = some t) : p ≠ [] := by
  intro hnil
  rw [hnil] at ht
  cases ht

theorem concat_ne_singleton (hne : p ≠ []) (j k : Nat) : p ++ [j] ≠ [k] := by
  intro heq
  have hlen := congrArg length heq
  exact hne (length_eq_zero_iff.mp (by simpa using hlen))

theorem addNumBlocks_apply (inst : Inst) (ino : Buf) {p : Nat} (hp : p < 28 ∨ 32 ≤ p) :
    addNumBlocks inst ino p = ino p :=
  writeLE_of_outside (by omega)

theorem block_addNumBlocks (inst : Inst) (ino : Buf) (k : Nat) :
    Inode.block (addNumBlocks inst ino) k = Inode.block ino k :=
  Inode.block_setNumBlocks ..

theorem Image.disk_writeInodeMetadata_of_own (himage : s.Consistent G S) (hin : G.HasInode n) (ino : Buf)
    (ho : s.own c = some o) (hne : ∀ g k, o ≠ .table g k) : (s.inst.writeInodeMetadata ino n).disk c = s.inst.disk c :=
  Image.disk_writeInodeMetadata himage hin ino fun g k h => hne g k (some.inj (ho.symm.trans h))

theorem Image.blockAt_setRoot (himage : s.Consistent G S) (hn : S n) (hin : G.HasInode n)
    (hblock : ∀ k, Inode.block ino' k = if k = slot then v else Inode.block (s.inodes n) k)
    (hbelow : IsLeaf [slot] ∨ Inode.block (s.inodes n) slot = 0 ∧ s.own v = none ∧ s.inst.disk v = fun _ => 0)
    (hq : IsPath (G.blockSize / 4) q) :
    blockAt ino' (s.inst.writeInodeMetadata ino' n).disk q =
      if q = [slot] then child v else blockAt (s.inodes n) s.inst.disk q := by
  apply blockAt_setSlot _ _ _ _ hq
  · intro k _
    rw [hblock]
    by_cases hk : k = slot
    · rw [if_pos hk, if_pos (by rw [hk])]
    · rw [if_neg hk, if_neg (by simpa using hk)]
  · intro p t j hpath ht
    have hne := ne_nil_of_blockAt ht
    rw [words_of_disk (Image.disk_writeInodeMetadata_of_own himage hin ino'
      (himage.node n hn p t (hpath.parent hne) ht) fun _ _ h => by cases h), if_neg (concat_ne_singleton hne j slot)]
  · intro p j hne heq
    exact absurd heq.symm (concat_ne_singleton hne j slot)
  · refine fun _ => hbelow.imp_right ?_
    intro ⟨hroot, hfree, hzero⟩
    refine ⟨by rw [blockAt_singleton, hroot, child_zero], fun j _ => words_zero ?_ j⟩
    rw [Image.disk_writeInodeMetadata himage hin ino', hzero]
    intro g k h
    rw [hfree] at h
    cases h

variable (hreg : G.Regular) (himage : s.Consistent G S) (hn : S n)

include hreg himage hn in
theorem Grown.setRoot (hin : G.HasInode n)
    (hblock : ∀ k, Inode.block ino' k = if k = slot then b else Inode.block (s.inodes n) k)
    (hrest : ∀ p, p < 28 ∨ (32 ≤ p ∧ p < 40) ∨ 100 ≤ p → ino' p = s.inodes n p)
    (hbelow : IsLeaf [slot] ∨ Inode.block (s.inodes n) slot = 0 ∧ s.own b = none ∧ s.inst.disk b = fun _ => 0)
    (hfree : s.own b = none) (hused : b < G.totalGroups * G.blocksPerGroup → G.inUse s.inst.disk .block b = true) :
    Grown G S n s (s.link (s.inst.writeInodeMetadata ino' n) n ino' b (.node n [slot]))
      fun q => if q = [slot] then child b else s.leaf n q := by
  apply Grown.link himage hn (Image.writeInodeMetadata himage hreg.toValid hin ino').counted _ _
    (fun c o ho hapart => Image.disk_writeInodeMetadata_of_own himage hin ino' ho hapart.ne_table) hrest
    (fun m hm hne => himage.inode_writeInodeMetadata hreg hin hm hne ino') hfree hused rfl
  · intro r g hg
    exact Image.disk_writeInodeMetadata_of_own himage hin ino' (himage.bitmap r g hg) fun _ _ h => by cases h
  · intro q hq
    exact Image.blockAt_setRoot himage hn hin hblock hbelow hq

theorem block_newRoot (inst : Inst) (ino : Buf) (slot : Nat) (hb : b < 2 ^ 32) (k : Nat) :
    Inode.block (addNumBlocks inst (Inode.setBlock ino slot b)) k = if k = slot then b else Inode.block ino k := by
  rw [block_addNumBlocks]
  by_cases hk : k = slot
  · rw [hk, if_pos rfl, Inode.block_setBlock_same, Nat.mod_eq_of_lt hb]
  · rw [if_neg hk, Inode.block_setBlock_of_ne _ _ _ hk]

include hreg himage hn in
theorem ensureRoot_spec (hin : G.HasInode n) (slot bits : Nat)
    (hslot : 12 ≤ slot) (hslot' : slot < 15) (hbits : 32 ≤ bits) :
    ∃ ok s', ensureRoot s.inst (s.inodes n) n slot bits = some (ok, s'.inst, s'.inodes n) ∧
      Grown G S n s s' (s.leaf n) ∧
      (ok = true → Inode.block (s'.inodes n) slot ≠ 0 ∧ ∀ q, IsPath (G.blockSize / 4) q → q ≠ [slot] →
        blockAt (s'.inodes n) s'.inst.disk q = blockAt (s.inodes n) s.inst.disk q) ∧
      (ok = false → s'.inst.Spent) := by
  by_cases hroot : Inode.block (s.inodes n) slot ≠ 0
  · exact ⟨true, s, if_pos hroot, .refl himage, fun _ => ⟨hroot, fun _ _ _ => rfl⟩, fun h => by cases h⟩
  obtain ⟨b, inst₁, halloc, hcase⟩ := allocBlock_spec hreg.toValid himage.counted
  rw [ensureRoot, if_neg hroot, halloc, map_some]
  cases hcase with
  | inl hnone =>
    obtain ⟨rfl, rfl⟩ := hnone
    exact ⟨false, _, congrArg some (if_pos (Nat.zero_mod _)), .exhaust himage, fun h => by simp at h,
      fun _ => .exhaust halloc⟩
  | inr htaken =>
    have hb : b < 2 ^ 32 := htaken.lt.trans_le hreg.blocks_le
    have hmod : b % 2 ^ bits = b :=
      Nat.mod_eq_of_lt (hb.trans_le (Nat.pow_le_pow_right (by decide) hbits))
    have htake := Grown.taken himage hreg.toValid hn htaken
    have hframe (q : List Nat) (hq : IsPath (G.blockSize / 4) q) :
        blockAt (s.inodes n) inst₁.disk q = blockAt (s.inodes n) s.inst.disk q :=
      himage.blockAt_frame hn (fun c q' ho _ => himage.disk_taken htaken ho trivial) hq
    have hblock := block_newRoot inst₁ (s.inodes n) slot hb
    have hbelow := Or.inr (a := IsLeaf [slot])
      (And.intro (not_not.mp hroot) (And.intro (himage.own_taken htaken) htaken.zeroed))
    have hset := Grown.setRoot hreg htake.image hn hin hblock
      (fun p hp => (addNumBlocks_apply _ _ (by omega)).trans (writeLE_of_outside (by omega)))
      hbelow (himage.own_taken htaken)
      fun hlt => by rw [htaken.inUse hreg.toValid hlt, if_pos ⟨rfl, rfl⟩]
    have htree (q : List Nat) (hq : IsPath (G.blockSize / 4) q) :=
      Image.blockAt_setRoot htake.image hn hin hblock hbelow hq
    dsimp only at hset htree ⊢
    rw [hmod, if_neg htaken.ne_zero]
    refine ⟨true, _, ?_, htake.trans (hset.congr fun q hq hleaf => ?_), fun _ => ⟨?_, fun q hq hne => ?_⟩,
      fun h => by simp at h⟩
    · rw [Stage.inodes_link]
      rfl
    · rw [if_neg]
      · exact htake.leaves q hq hleaf
      · intro heq
        rw [heq, IsLeaf, length_nil] at hleaf
        omega
    · rw [Stage.inodes_link, hblock, if_pos rfl]
      exact htaken.ne_zero
    · rw [Stage.inodes_link]
      exact (htree q hq).trans ((if_neg hne).trans (hframe q hq))

theorem words_writeLE (disk : Nat → Buf) (t j v k : Nat) (hv : v < 2 ^ 32) :
    readLE (writeLE (disk t) (4 * j) 4 v) (4 * k) 4 = if k = j then v else words disk t k := by
  split_ifs with hk
  · rw [hk, readLE_writeLE]
    exact Nat.mod_eq_of_lt hv
  · exact readLE_writeLE_of_disjoint (by omega)

theorem Image.blockAt_setWord (himage : s.Consistent G S) (hn : S n)
    (hpath : IsPath (G.blockSize / 4) (p ++ [j])) (ht : blockAt (s.inodes n) s.inst.disk p = some t) (hv : v < 2 ^ 32)
    (hblock : ∀ k, Inode.block ino' k = Inode.block (s.inodes n) k)
    (hbelow : IsLeaf (p ++ [j]) ∨ words s.inst.disk t j = 0 ∧ v ≠ t ∧ s.inst.disk v = fun _ => 0)
    (hq : IsPath (G.blockSize / 4) q) :
    blockAt ino' (s.inst.writeBlock t (writeLE (s.inst.disk t) (4 * j) 4 v)).disk q =
      if q = p ++ [j] then child v else blockAt (s.inodes n) s.inst.disk q := by
  have hne := ne_nil_of_blockAt ht
  have howner := himage.node n hn p t (hpath.parent hne) ht
  have hsize : s.inst.geo.blockSize = G.blockSize := congrArg Geo.blockSize himage.counted.geo
  apply blockAt_setSlot _ _ _ _ hq
  · intro k _
    rw [hblock, if_neg (concat_ne_singleton hne j k).symm]
  · intro p' t' j' hpath' ht'
    have hne' := ne_nil_of_blockAt ht'
    have howner' := himage.node n hn p' t' (hpath'.parent hne') ht'
    have hj' := hpath'.lt hne'
    by_cases hsame : t' = t
    · have hp : p' = p := by
        rw [hsame, howner] at howner'
        injection howner' with howner'
        injection howner' with _ hp
        exact hp.symm
      rw [hsame, words, disk_writeBlock_same, readLE_clip (by omega), words_writeLE _ _ _ _ _ hv, hp]
      by_cases hj : j' = j
      · rw [if_pos hj, if_pos (by rw [hj])]
      · rw [if_neg hj, if_neg (by simpa using hj)]
    · rw [words_of_disk (disk_writeBlock_of_ne _ _ hsame), if_neg]
      intro heq
      obtain ⟨rfl, -⟩ := append_inj' heq rfl
      exact hsame (some.inj (ht'.symm.trans ht))
  · intro p' j' hne' heq
    obtain ⟨rfl, -⟩ := append_inj' heq rfl
    exact ⟨t, ht⟩
  · refine fun _ => hbelow.imp_right ?_
    rintro ⟨hslot, hvt, hzero⟩
    refine ⟨by rw [blockAt_concat ht, hslot, child_zero], fun k _ => words_zero ?_ k⟩
    rw [disk_writeBlock_of_ne _ _ hvt, hzero]

include hreg himage hn

theorem Grown.setWord (ino' : Buf)
    (hpath : IsPath (G.blockSize / 4) (p ++ [j])) (ht : blockAt (s.inodes n) s.inst.disk p = some t) (hv : v < 2 ^ 32)
    (hblock : ∀ k, Inode.block ino' k = Inode.block (s.inodes n) k)
    (hrest : ∀ p, p < 28 ∨ (32 ≤ p ∧ p < 40) ∨ 100 ≤ p → ino' p = s.inodes n p)
    (hbelow : IsLeaf (p ++ [j]) ∨ words s.inst.disk t j = 0 ∧ s.inst.disk v = fun _ => 0) (hfree : s.own v = none)
    (hused : v < G.totalGroups * G.blocksPerGroup → G.inUse s.inst.disk .block v = true) :
    Grown G S n s (s.link (s.inst.writeBlock t (writeLE (s.inst.disk t) (4 * j) 4 v)) n ino' v (.node n (p ++ [j])))
      fun q => if q = p ++ [j] then child v else s.leaf n q := by
  have hne := ne_nil_of_blockAt ht
  have howner := himage.node n hn p t (hpath.parent hne) ht
  have hother (r : Resource) (g : Nat) : s.own t ≠ some (.bitmap r g) := by
    rw [howner]
    exact fun h => by cases h
  have hvt : v ≠ t := by
    intro heq
    rw [← heq, hfree] at howner
    cases howner
  apply Grown.link himage hn (himage.counted_writeBlock hreg.toValid _ hother)
    (fun r g hg => himage.bitmaps_writeBlock _ hother hg) _ _ hrest _ hfree hused rfl
  · intro q hq
    exact Image.blockAt_setWord himage hn hpath ht hv hblock (hbelow.imp_right fun h => ⟨h.1, hvt, h.2⟩) hq
  · intro c o ho hapart
    apply disk_writeBlock_of_ne
    intro heq
    rw [heq, howner] at ho
    cases ho
    exact hapart.elim (fun h => h rfl) hpath.not_leaf
  · intro m hm _
    apply himage.inode_writeBlock _ _ hm
    intro g k
    rw [howner]
    exact fun h => by cases h

theorem ensureChild_spec
    (hpath : IsPath (G.blockSize / 4) (p ++ [j])) (hinner : ¬ IsLeaf (p ++ [j]))
    (ht : blockAt (s.inodes n) s.inst.disk p = some t) :
    ∃ found s', ensureChild s.inst (s.inodes n) t j t = some (found, s'.inst, s'.inodes n) ∧
      Grown G S n s s' (s.leaf n) ∧
      (∀ x, found = some x → blockAt (s'.inodes n) s'.inst.disk (p ++ [j]) = some x) ∧
      (found = none → s'.inst.Spent) := by
  have hne := ne_nil_of_blockAt ht
  have hsize : s.inst.blockSize = G.blockSize := congrArg Geo.blockSize himage.counted.geo
  rw [ensureChild, Inst.word, hsize, if_pos (hpath.lt hne), bind_some]
  by_cases hword : words s.inst.disk t j ≠ 0
  · refine ⟨some _, s, if_pos hword, .refl himage, fun x hx => ?_, fun h => by cases h⟩
    rw [blockAt_concat ht, child_of_ne hword, hx]
  obtain ⟨b, inst₁, halloc, hcase⟩ := allocBlock_spec hreg.toValid himage.counted
  rw [if_neg hword, halloc, map_some]
  cases hcase with
  | inl hnone =>
    obtain ⟨rfl, rfl⟩ := hnone
    exact ⟨none, _, congrArg some (if_pos rfl), .exhaust himage, fun x h => by simp at h, fun _ => .exhaust halloc⟩
  | inr htaken =>
    have hb : b < 2 ^ 32 := htaken.lt.trans_le hreg.blocks_le
    have htake := Grown.taken himage hreg.toValid hn htaken
    have hdisk : inst₁.disk t = s.inst.disk t :=
      himage.disk_taken htaken (himage.node n hn p t (hpath.parent hne) ht) trivial
    have ht₁ : blockAt (s.inodes n) inst₁.disk p = some t := by
      rw [himage.blockAt_frame hn (fun c q ho _ => himage.disk_taken htaken ho trivial) (hpath.parent hne), ht]
    have hset := Grown.setWord hreg htake.image hn (addNumBlocks inst₁ (s.inodes n)) hpath ht₁ hb
      (block_addNumBlocks inst₁ (s.inodes n)) (fun p hp => addNumBlocks_apply inst₁ _ (by omega))
      (.inr ⟨(words_of_disk hdisk j).trans (not_not.mp hword), htaken.zeroed⟩) (himage.own_taken htaken)
      fun hlt => by rw [htaken.inUse hreg.toValid hlt, if_pos ⟨rfl, rfl⟩]
    have htree := Image.blockAt_setWord htake.image hn hpath ht₁ hb
      (block_addNumBlocks inst₁ (s.inodes n)) (.inr ⟨(words_of_disk hdisk j).trans (not_not.mp hword), ?_,
        htaken.zeroed⟩) hpath
    · dsimp only at hset htree ⊢
      rw [hdisk] at hset htree
      rw [if_neg htaken.ne_zero, words_writeLE _ _ _ _ _ hb, if_pos rfl]
      refine ⟨some b, _, ?_, htake.trans (hset.congr fun q hq hleaf => ?_), fun x hx => ?_, fun h => by cases h⟩
      · rw [Stage.inodes_link]
        rfl
      · rw [if_neg]
        · exact htake.leaves q hq hleaf
        · intro heq
          exact hinner (heq ▸ hleaf)
      · cases hx
        rw [Stage.inodes_link]
        exact htree.trans ((if_pos rfl).trans (child_of_ne htaken.ne_zero))
    · intro heq
      have howner := himage.node n hn p t (hpath.parent hne) ht
      rw [← heq, himage.own_taken htaken] at howner
      cases howner

omit hreg himage hn

variable {abs : Nat}

section Branches

variable {ino : Buf} {L : Nat} {i : BitVec 32}

theorem lt_direct : i < 12#32 ↔ i.toNat < 12 := lt_def

theorem lt_level (hent : Entries L) : i < 12#32 + BitVec.ofNat 32 L ↔ i.toNat < 12 + L := by
  have := hent.square_le
  have := hent.le_square
  rw [lt_def, toNat_add, hent.toNat_level, Nat.mod_eq_of_lt (by simp; omega)]
  rfl

theorem lt_square (hent : Entries L) :
    i < 12#32 + BitVec.ofNat 32 L + BitVec.ofNat 32 L * BitVec.ofNat 32 L ↔ i.toNat < 12 + L + L * L := by
  have := hent.square_le
  have := hent.le_square
  rw [lt_def, toNat_add, toNat_add, hent.toNat_level, hent.toNat_square,
    show (12#32).toNat = 12 from rfl, Nat.mod_eq_of_lt (by omega), Nat.mod_eq_of_lt (by omega)]

theorem lt_triple (hent : Entries L) :
    i < 12#32 + BitVec.ofNat 32 L + BitVec.ofNat 32 L * BitVec.ofNat 32 L + BitVec.ofNat 32 L ↔
      i.toNat < 12 + L + L * L + L := by
  have := hent.square_le
  have := hent.le_square
  rw [lt_def, toNat_add, toNat_add, toNat_add, hent.toNat_level, hent.toNat_square,
    show (12#32).toNat = 12 from rfl, Nat.mod_eq_of_lt (a := 12 + L) (by omega),
    Nat.mod_eq_of_lt (by omega), Nat.mod_eq_of_lt (by omega)]

theorem inodeAddBlock_direct (hi : i.toNat < 12) :
    inodeAddBlock inst ino n abs i = some (1, inst, Inode.setBlock ino i.toNat abs) := by
  rw [inodeAddBlock, if_pos (lt_direct.mpr hi)]

section

variable (hL : inst.blockSize / 4 = L)
include hL

variable (hent : Entries L)

include hent

theorem inodeAddBlock_single (hlow : 12 ≤ i.toNat) (hhigh : i.toNat < 12 + L) :
    inodeAddBlock inst ino n abs i =
      (ensureRoot inst ino n 12 32).bind fun
        | (false, inst, ino) => some (-2, inst, ino)
        | (true, inst, ino) =>
          (setEntry inst (Inode.block ino 12) (i.toNat - 12) abs).map fun inst => (1, inst, ino) := by
  rewrite [inodeAddBlock, hL, if_neg (by rw [lt_direct]; omega), if_pos ((lt_level hent).mpr hhigh), toNat_single hlow]
  rfl

theorem inodeAddBlock_double (hlow : 12 + L ≤ i.toNat) (hhigh : i.toNat < 12 + L + L * L) :
    inodeAddBlock inst ino n abs i =
      (ensureRoot inst ino n 13 64).bind fun
        | (false, inst, ino) => some (-2, inst, ino)
        | (true, inst, ino) =>
          (ensureChild inst ino (Inode.block ino 13) ((i.toNat - 12 - L) / L) (Inode.block ino 13)).bind fun
            | (none, inst, ino) => some (-2, inst, ino)
            | (some saved, inst, ino) =>
              (setEntry inst saved ((i.toNat - 12 - L) % L) abs).map fun inst => (1, inst, ino) := by
  rewrite [inodeAddBlock, hL, if_neg (by rw [lt_direct]; omega), if_neg (by rw [lt_level hent]; omega),
    if_pos ((lt_square hent).mpr hhigh), toNat_sub_div_mul, BitVec.toNat_udiv, hent.toNat_double hlow,
    hent.toNat_level]
  rfl

theorem inodeAddBlock_triple (hlow : 12 + L + L * L ≤ i.toNat) (hhigh : i.toNat < 12 + L + L * L + L) :
    inodeAddBlock inst ino n abs i =
      (ensureRoot inst ino n 14 64).bind fun
        | (false, inst, ino) => some (-2, inst, ino)
        | (true, inst, ino) =>
          (ensureChild inst ino (Inode.block ino 14) 0 (Inode.block ino 13)).bind fun
            | (none, inst, ino) => some (-2, inst, ino)
            | (some saved, inst, ino) =>
              (ensureChild inst ino saved 0 saved).bind fun
                | (none, inst, ino) => some (-2, inst, ino)
                | (some saved, inst, ino) =>
                  (setEntry inst saved (i.toNat - 12 - L - L * L) abs).map fun inst => (1, inst, ino) := by
  have hle := hent.le_square
  have hc := hent.toNat_triple hlow
  have hlevel : i.toNat - 12 - L - L * L < L := by omega
  have hsquare : i.toNat - 12 - L - L * L < L * L := by omega
  rw [inodeAddBlock, hL, if_neg (by rw [lt_direct]; omega), if_neg (by rw [lt_level hent]; omega),
    if_neg (by rw [lt_square hent]; omega), if_pos ((lt_triple hent).mpr hhigh)]
  dsimp only
  generalize i - 12#32 - BitVec.ofNat 32 L - BitVec.ofNat 32 L * BitVec.ofNat 32 L = c at hc ⊢
  rewrite [BitVec.mul_assoc (c / _), toNat_sub_div_mul, BitVec.toNat_udiv, BitVec.toNat_udiv, toNat_sub_div_mul, hc,
    hent.toNat_level, hent.toNat_square, Nat.div_eq_of_lt hsquare, Nat.mod_eq_of_lt hsquare, Nat.div_eq_of_lt hlevel,
    Nat.mod_eq_of_lt hlevel]
  rfl

theorem inodeAddBlock_beyond (hlow : 12 + L + L * L + L ≤ i.toNat) :
    inodeAddBlock inst ino n abs i = some (-1, inst, ino) := by
  rw [inodeAddBlock, hL, if_neg (by rw [lt_direct]; omega), if_neg (by rw [lt_level hent]; omega),
    if_neg (by rw [lt_square hent]; omega), if_neg (by rw [lt_triple hent]; omega)]

end

end Branches

inductive SetsEntry (s : Stage) (n abs : Nat) : List Nat → Inst → Buf → Prop
  | direct {k : Nat} (hk : k < 12) : SetsEntry s n abs [k] s.inst (Inode.setBlock (s.inodes n) k abs)
  | indirect {p : List Nat} {t j : Nat} (ht : blockAt (s.inodes n) s.inst.disk p = some t) :
      SetsEntry s n abs (p ++ [j]) (s.inst.writeBlock t (writeLE (s.inst.disk t) (4 * j) 4 abs)) (s.inodes n)

section SetsEntry

variable {q₀ : List Nat}

section

variable (hset : SetsEntry s n abs q₀ inst' ino')
include hset

variable (himage : s.Consistent G S) (hn : S n) (hpath : IsPath (G.blockSize / 4) q₀) (hleaf : IsLeaf q₀)
  (habs : abs < 2 ^ 32)

include himage hn hpath hleaf habs

theorem SetsEntry.blockAt (hq : IsPath (G.blockSize / 4) q) :
    Ext2.blockAt ino' inst'.disk q = if q = q₀ then child abs else s.leaf n q := by
  cases hset with
  | @direct k hk =>
    apply blockAt_setSlot _ _ _ (fun _ => .inl hleaf) hq
    · intro k' _
      by_cases hk' : k' = k
      · rw [hk', if_pos rfl, Inode.block_setBlock_same, Nat.mod_eq_of_lt habs]
      · rw [if_neg (by simpa using hk'), Inode.block_setBlock_of_ne _ _ _ hk']
    · intro p t j _ ht
      rw [if_neg (concat_ne_singleton (ne_nil_of_blockAt ht) j _)]
    · intro p j hne heq
      exact absurd heq.symm (concat_ne_singleton hne j _)
  | indirect ht => exact Image.blockAt_setWord himage hn hpath ht habs (fun _ => rfl) (.inl hleaf) hq

theorem SetsEntry.grown (hreg : G.Regular) (hfree : s.own abs = none)
    (hused : abs < G.totalGroups * G.blocksPerGroup → G.inUse s.inst.disk .block abs = true) :
    Grown G S n s (s.link inst' n ino' abs (.node n q₀)) fun q => if q = q₀ then child abs else s.leaf n q := by
  cases hset with
  | direct hk =>
    apply Grown.link himage hn himage.counted (fun _ _ _ => rfl) _ (fun _ _ _ _ => rfl) _ (fun _ _ _ => rfl) hfree
      hused rfl
    · intro q hq
      exact (SetsEntry.direct hk).blockAt himage hn hpath hleaf habs hq
    · intro p hp
      exact writeLE_of_outside (by omega)
  | indirect ht =>
    exact Grown.setWord hreg himage hn _ hpath ht habs (fun _ => rfl) (fun _ _ => rfl) (.inl hleaf) hfree hused

omit himage hn hpath hleaf habs

theorem SetsEntry.geo : inst'.geo = s.inst.geo := by
  cases hset <;> rfl

end

theorem setEntry_eq (hj : j < s.inst.blockSize / 4) :
    setEntry s.inst t j abs = some (s.inst.writeBlock t (writeLE (s.inst.disk t) (4 * j) 4 abs)) :=
  if_pos hj

end SetsEntry

end Kairax.Ext2
