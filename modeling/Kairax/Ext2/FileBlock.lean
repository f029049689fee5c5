import Kairax.Errors
import Kairax.Ext2.AddBlock

/-!
# The blocks of a file

A missing block reads as zeros and is allocated when it is written. `writeInodeBlock_spec` says what a write does: the
block has the new contents, and everything else stays.
-/

namespace Kairax.Ext2

open Lib Option Function

/-- `ext2_read_inode_block_virt` -/
def readInodeBlock (inst : Inst) (ino : Buf) (i : BitVec 32) : Option Buf :=
  (inodeBlockAbsolute inst ino i).map fun b => if b = 0 then fun _ => 0 else inst.disk b

/-- `ext2_alloc_inode_block`, with the number of the new block. The result of `ext2_inode_add_block` is not
looked at. -/
def allocInodeBlock (inst : Inst) (ino : Buf) (n : Nat) (i : BitVec 32) : Option (Int × Nat × Inst × Buf) :=
  (allocBlock inst).bind fun (b, inst) =>
    if b = 0 then some (-enospc, 0, inst, ino)
    else (inodeAddBlock inst ino n (b % 2 ^ 32) i).map fun (_, inst, ino) =>
      let ino := addNumBlocks inst ino
      (0, b % 2 ^ 32, inst.writeInodeMetadata ino n, ino)

/-- `ext2_write_inode_block_virt` -/
def writeInodeBlock (inst : Inst) (ino : Buf) (n : Nat) (i : BitVec 32) (buf : Buf) : Option (Int × Inst × Buf) :=
  (inodeBlockAbsolute inst ino i).bind fun b =>
    if b ≠ 0 then some (0, inst.writeBlock b buf, ino)
    else (allocInodeBlock inst ino n i).map fun (rc, b, inst, ino) =>
      if rc ≠ 0 then (rc, inst, ino) else (0, inst.writeBlock b buf, ino)

/-- The geometry and the count of free inodes stay. A volume that ran out of blocks is marked for good. -/
structure Inst.Steady (inst inst' : Inst) : Prop where
  geo : inst'.geo = inst.geo
  freeInodes : inst'.superFree .inode = inst.superFree .inode
  exhausted : inst.exhausted = true → inst'.exhausted = true

/-- The volume as before, and of the inode only `num_blocks` and the entries change. -/
def Inst.SteadyWith (x y : Inst × Buf) : Prop := x.1.Steady y.1 ∧ ∀ p, p < 28 ∨ 100 ≤ p → y.2 p = x.2 p

/-- A call keeps to a relation, if it is defined. Its result holds the new state at `out`. -/
def Along {σ α : Type} (R : σ → σ → Prop) (out : α → σ) (s : σ) (call : Option α) : Prop := ∀ x ∈ call, R s (out x)

abbrev Steadily {α : Type} (vol : α → Inst) (inst : Inst) (call : Option α) : Prop := Along Inst.Steady vol inst call

section Steady

variable {inst inst₁ inst₂ : Inst} {ino : Buf}

theorem Inst.Steady.refl (inst : Inst) : inst.Steady inst := ⟨rfl, rfl, id⟩

theorem Inst.Steady.trans (h₁ : inst.Steady inst₁) (h₂ : inst₁.Steady inst₂) : inst.Steady inst₂ :=
  ⟨h₂.geo.trans h₁.geo, h₂.freeInodes.trans h₁.freeInodes, fun h => h₂.exhausted (h₁.exhausted h)⟩

instance : IsTrans Inst Inst.Steady := ⟨fun _ _ _ => .trans⟩

instance : IsTrans (Inst × Buf) Inst.SteadyWith :=
  ⟨fun _ _ _ h₁ h₂ => ⟨h₁.1.trans h₂.1, fun p hp => (h₂.2 p hp).trans (h₁.2 p hp)⟩⟩

theorem Inst.Steady.writeBlock (inst : Inst) (b : Nat) (buf : Buf) : inst.Steady (inst.writeBlock b buf) :=
  ⟨rfl, rfl, id⟩

theorem Inst.Steady.writeInodeMetadata (inst : Inst) (ino : Buf) (n : Nat) :
    inst.Steady (inst.writeInodeMetadata ino n) := ⟨rfl, rfl, id⟩

theorem Inst.Steady.with (h : inst.Steady inst₁) : Inst.SteadyWith (inst, ino) (inst₁, ino) := ⟨h, fun _ _ => rfl⟩

theorem setBlock_apply {k x p : Nat} (hk : k < 15) (hp : p < 28 ∨ 100 ≤ p) : Inode.setBlock ino k x p = ino p :=
  writeLE_of_outside (by omega)

section Along

variable {σ τ α β : Type} {R : σ → σ → Prop} {s : σ} {out : α → σ} {out' : β → σ} {call : Option α}

theorem Along.none : Along R out s none := fun _ hx => by cases hx

theorem Along.some {x : α} (hx : R s (out x)) : Along R out s (some x) := by
  intro y hy
  cases hy
  exact hx

theorem Along.bind [IsTrans σ R] {f : α → Option β} (hcall : Along R out s call)
    (hf : ∀ x, Along R out' (out x) (f x)) : Along R out' s (call.bind f) := by
  intro y hy
  obtain ⟨x, hx, hy⟩ := bind_eq_some_iff.mp hy
  exact IsTrans.trans _ _ _ (hcall x hx) (hf x y hy)

theorem Along.map [IsTrans σ R] {f : α → β} (hcall : Along R out s call) (hf : ∀ x, R (out x) (out' (f x))) :
    Along R out' s (call.map f) := by
  intro y hy
  obtain ⟨x, hx, rfl⟩ := map_eq_some_iff.mp hy
  exact IsTrans.trans _ _ _ (hcall x hx) (hf x)

theorem Along.read {call : Option β} {f : β → Option α} (hf : ∀ x, Along R out s (f x)) :
    Along R out s (call.bind f) := by
  intro y hy
  obtain ⟨x, -, hy⟩ := bind_eq_some_iff.mp hy
  exact hf x y hy

end Along

theorem allocBlock_steady (inst : Inst) : Steadily (·.2) inst (allocBlock inst) := by
  intro x hx
  obtain ⟨found, -, rfl⟩ := map_eq_some_iff.mp hx
  cases found with
  | none => exact ⟨rfl, rfl, fun _ => rfl⟩
  | some p =>
    dsimp only
    split_ifs with hzero
    · exact ⟨rfl, rfl, fun _ => rfl⟩
    · refine ⟨?_, ?_, id⟩
      · simp [takeBlock]
      · simp [takeBlock, superFree_addSuperFree]

section

variable (inst : Inst) (ino : Buf)

theorem allocBlock_with : Along Inst.SteadyWith (fun r => (r.2, ino)) (inst, ino) (allocBlock inst) :=
  fun x hx => (allocBlock_steady inst x hx).with

theorem ensureRoot_steady (n bits : Nat) {slot : Nat} (hslot : slot < 15) :
    Along Inst.SteadyWith (·.2) (inst, ino) (ensureRoot inst ino n slot bits) := by
  rw [ensureRoot]
  split_ifs
  · exact .some (Inst.Steady.refl inst).with
  · refine (allocBlock_with inst ino).map fun r => ?_
    obtain ⟨b, inst'⟩ := r
    dsimp only
    split_ifs
    · exact (Inst.Steady.refl inst').with
    · exact ⟨.writeInodeMetadata inst' _ n, fun p hp =>
        (addNumBlocks_apply _ _ (by omega)).trans (setBlock_apply hslot hp)⟩

theorem ensureChild_steady (t j dest : Nat) :
    Along Inst.SteadyWith (·.2) (inst, ino) (ensureChild inst ino t j dest) := by
  refine .read fun x => ?_
  split_ifs
  · exact .some (Inst.Steady.refl inst).with
  · refine (allocBlock_with inst ino).map fun r => ?_
    obtain ⟨b, inst'⟩ := r
    dsimp only
    split_ifs
    · exact (Inst.Steady.refl inst').with
    · exact ⟨.writeBlock inst' _ _, fun p hp => addNumBlocks_apply _ _ (by omega)⟩

theorem setEntry_steady (t j abs : Nat) :
    Along Inst.SteadyWith (·.2) (inst, ino) ((setEntry inst t j abs).map fun inst => ((1 : Int), inst, ino)) := by
  rw [setEntry]
  split_ifs
  · exact .some (Inst.Steady.writeBlock inst _ _).with
  · exact .none

theorem inodeAddBlock_steady (n abs : Nat) (i : BitVec 32) :
    Along Inst.SteadyWith (·.2) (inst, ino) (inodeAddBlock inst ino n abs i) := by
  have hsame (inst : Inst) (ino : Buf) (rc : Int) :
      Along Inst.SteadyWith (·.2) (inst, ino) (some (rc, inst, ino)) := .some (Inst.Steady.refl inst).with
  rw [inodeAddBlock]
  split_ifs with hdirect
  · have hi : i.toNat < 15 := (BitVec.lt_def.mp hdirect).trans (by decide)
    exact .some ⟨.refl inst, fun p hp => setBlock_apply hi hp⟩
  · refine (ensureRoot_steady inst ino n 32 (by decide)).bind fun r => ?_
    obtain ⟨_ | _, inst, ino⟩ := r
    · exact hsame inst ino _
    · exact setEntry_steady inst ino _ _ abs
  · refine (ensureRoot_steady inst ino n 64 (by decide)).bind fun r => ?_
    obtain ⟨_ | _, inst, ino⟩ := r
    · exact hsame inst ino _
    refine (ensureChild_steady inst ino _ _ _).bind fun r => ?_
    obtain ⟨_ | saved, inst, ino⟩ := r
    · exact hsame inst ino _
    · exact setEntry_steady inst ino _ _ abs
  · refine (ensureRoot_steady inst ino n 64 (by decide)).bind fun r => ?_
    obtain ⟨_ | _, inst, ino⟩ := r
    · exact hsame inst ino _
    refine (ensureChild_steady inst ino _ _ _).bind fun r => ?_
    obtain ⟨_ | saved, inst, ino⟩ := r
    · exact hsame inst ino _
    refine (ensureChild_steady inst ino _ _ _).bind fun r => ?_
    obtain ⟨_ | saved, inst, ino⟩ := r
    · exact hsame inst ino _
    · exact setEntry_steady inst ino _ _ abs
  · exact hsame inst ino _

theorem allocInodeBlock_steady (n : Nat) (i : BitVec 32) :
    Along Inst.SteadyWith (·.2.2) (inst, ino) (allocInodeBlock inst ino n i) := by
  refine (allocBlock_with inst ino).bind fun (b, inst) => ?_
  dsimp only
  split_ifs
  · exact .some (Inst.Steady.refl inst).with
  · exact (inodeAddBlock_steady inst ino n _ i).map fun (_, inst, ino) =>
      ⟨.writeInodeMetadata inst _ n, fun p hp => addNumBlocks_apply _ _ (by omega)⟩

theorem writeInodeBlock_steady (n : Nat) (i : BitVec 32) (buf : Buf) :
    Along Inst.SteadyWith (·.2) (inst, ino) (writeInodeBlock inst ino n i buf) := by
  refine .read fun b => ?_
  split_ifs
  · exact .some (Inst.Steady.writeBlock inst b buf).with
  · refine (allocInodeBlock_steady inst ino n i).map fun (rc, b, inst, ino) => ?_
    dsimp only
    split_ifs
    · exact (Inst.Steady.refl inst).with
    · exact (Inst.Steady.writeBlock inst b buf).with

end

end Steady

/-- The contents of a file block, zeros where the reader finds no block. -/
def fileBlock (inst : Inst) (ino : Buf) (j : Nat) : Buf :=
  if j < readable (inst.blockSize / 4) then
    (blockAt ino inst.disk (pathOf (inst.blockSize / 4) j)).elim (fun _ => 0) inst.disk
  else fun _ => 0

variable {inst : Inst} {b : Nat}

section Contents

variable {inst' : Inst} {ino ino' : Buf} {j : Nat}

theorem readInodeBlock_eq (ino : Buf) (hent : Entries (inst.blockSize / 4)) {i : BitVec 32} (hi : i.toNat < 2 ^ 31) :
    readInodeBlock inst ino i = some (fileBlock inst ino i.toNat) := by
  rw [readInodeBlock, fileBlock]
  by_cases hread : i.toNat < readable (inst.blockSize / 4)
  · rw [inodeBlockAbsolute_eq hent hread, if_pos hread, map_some, numberAt]
    cases hb : blockAt ino inst.disk (pathOf (inst.blockSize / 4) i.toNat) with
    | none => rfl
    | some b => rw [getD_some, if_neg (blockAt_ne_zero hb), elim_some]
  · rw [inodeBlockAbsolute_beyond hent (not_lt.mp hread) hi, if_neg hread]
    rfl

theorem blockAt_of_fileBlock {p : Nat} (hne : fileBlock inst ino j p ≠ 0) :
    j < readable (inst.blockSize / 4) ∧ ∃ b, blockAt ino inst.disk (pathOf (inst.blockSize / 4) j) = some b := by
  rw [fileBlock] at hne
  split_ifs at hne with hj
  · refine ⟨hj, ?_⟩
    cases hb : blockAt ino inst.disk (pathOf (inst.blockSize / 4) j) with
    | none =>
      rw [hb] at hne
      exact absurd rfl hne
    | some b => exact ⟨b, rfl⟩
  · exact absurd rfl hne

theorem fileBlock_of_blockAt (hj : j < readable (inst.blockSize / 4))
    (hb : blockAt ino inst.disk (pathOf (inst.blockSize / 4) j) = some b) : fileBlock inst ino j = inst.disk b := by
  rw [fileBlock, if_pos hj, hb, elim_some]

end Contents

/-- The owners whose blocks the writing of inode `n` leaves alone. -/
def Owner.Foreign (n : Nat) : Owner → Prop
  | node m _ => m ≠ n
  | kept => True
  | _ => False

theorem Owner.Foreign.apart {n : Nat} {o : Owner} (hforeign : o.Foreign n) : o.Apart n := by
  cases o with
  | node m q => exact .inl hforeign
  | _ => exact hforeign

def Stage.Synced (n : Nat) (s : Stage) : Prop := s.inst.inode n = s.inodes n

structure Wrote (G : Geo) (S : Nat → Prop) (n : Nat) (s s' : Stage) : Prop where
  image : s'.Consistent G S
  own_le : ∀ b o, s.own b = some o → s'.own b = some o
  keeps : ∀ b o, s.own b = some o → o.Foreign n → s'.inst.disk b = s.inst.disk b
  others : ∀ m, m ≠ n → s'.inodes m = s.inodes m
  tables : ∀ m, G.HasInode m → m ≠ n → s'.inst.inode m = s.inst.inode m
  inodeUse : ∀ x < G.totalGroups * G.inodesPerGroup,
    G.inUse s'.inst.disk .inode x = G.inUse s.inst.disk .inode x
  exhausted : s.inst.exhausted = true → s'.inst.exhausted = true
  synced : s.Synced n → s'.Synced n

/-- Of the inode only `num_blocks` and the entries change. -/
def Stage.SameRest (n : Nat) (s s' : Stage) : Prop :=
  ∀ p, p < 28 ∨ (32 ≤ p ∧ p < 40) ∨ 100 ≤ p → s'.inodes n p = s.inodes n p

variable {G : Geo} {S : Nat → Prop} {n : Nat} {s : Stage}

section Wrote

variable {s₁ s₂ : Stage} {leaf : List Nat → Option Nat}

theorem Wrote.refl (himage : s.Consistent G S) : Wrote G S n s s :=
  ⟨himage, fun _ _ h => h, fun _ _ _ _ => rfl, fun _ _ => rfl, fun _ _ _ => rfl, fun _ _ => rfl, id, id⟩

theorem Wrote.trans (h₁ : Wrote G S n s s₁) (h₂ : Wrote G S n s₁ s₂) : Wrote G S n s s₂ where
  image := h₂.image
  own_le b o ho := h₂.own_le b o (h₁.own_le b o ho)
  keeps b o ho hforeign := (h₂.keeps b o (h₁.own_le b o ho) hforeign).trans (h₁.keeps b o ho hforeign)
  others m hm := (h₂.others m hm).trans (h₁.others m hm)
  tables m hm hne := (h₂.tables m hm hne).trans (h₁.tables m hm hne)
  inodeUse x hx := (h₂.inodeUse x hx).trans (h₁.inodeUse x hx)
  exhausted h := h₂.exhausted (h₁.exhausted h)
  synced h := h₂.synced (h₁.synced h)

theorem Stage.SameRest.trans (h₁ : s.SameRest n s₁) (h₂ : s₁.SameRest n s₂) : s.SameRest n s₂ :=
  fun p hp => (h₂ p hp).trans (h₁ p hp)

theorem Grown.wrote (hgrown : Grown G S n s s₁ leaf) (hsynced : s.Synced n → s₁.Synced n) : Wrote G S n s s₁ :=
  { hgrown with keeps := fun b o ho hforeign => hgrown.keeps b o ho hforeign.apart, synced := hsynced }

theorem Wrote.writeBlock (himage : s.Consistent G S) (hvalid : G.Valid) (hin : G.HasInode n)
    (hown : ∀ o, s.own b = some o → ∃ q, IsLeaf q ∧ o = .node n q) (buf : Buf) :
    Wrote G S n s ⟨s.inst.writeBlock b buf, s.inodes, s.own⟩ := by
  have hbitmap (r : Resource) (g : Nat) : s.own b ≠ some (.bitmap r g) := by
    intro ho
    obtain ⟨q, -, heq⟩ := hown _ ho
    cases heq
  have htable (g k : Nat) : s.own b ≠ some (.table g k) := by
    intro ho
    obtain ⟨q, -, heq⟩ := hown _ ho
    cases heq
  refine ⟨?_, fun _ _ h => h, fun c o ho hforeign => ?_, fun _ _ => rfl, fun m hm _ => ?_, fun x hx => ?_, id,
    fun hsynced => ?_⟩
  · apply Image.writeBlock himage hvalid buf hbitmap
    intro m q ho
    obtain ⟨q', hleaf, heq⟩ := hown _ ho
    cases heq
    exact hleaf
  · apply disk_writeBlock_of_ne
    intro heq
    rw [heq] at ho
    obtain ⟨q, -, rfl⟩ := hown o ho
    exact hforeign rfl
  · exact Image.inode_writeBlock himage buf htable hm
  · exact Image.inUse_writeBlock himage buf hbitmap hx
  · exact (Image.inode_writeBlock himage buf htable hin).trans hsynced

end Wrote

section Claim

variable {inodes : Nat → Buf} {own : Nat → Option Owner}

theorem Image.reown {own' : Nat → Option Owner} (himage : Image G S inodes own inst)
    (hkeep : ∀ c o, own c = some o → o ≠ .kept → own' c = some o)
    (hused : ∀ c o, own' c = some o → c < G.totalGroups * G.blocksPerGroup → G.inUse inst.disk .block c = true) :
    Image G S inodes own' inst where
  counted := himage.counted
  header c hc := hkeep _ _ (himage.header c hc) (by simp)
  bitmap r g hg := hkeep _ _ (himage.bitmap r g hg) (by simp)
  table m hm := hkeep _ _ (himage.table m hm) (by simp)
  node m hm q c hq hc := hkeep _ _ (himage.node m hm q c hq hc) (by simp)
  used := hused

theorem Image.claim (himage : Image G S inodes own inst) (hfree : own b = none)
    (hused : b < G.totalGroups * G.blocksPerGroup → G.inUse inst.disk .block b = true) :
    Image G S inodes (update own b (some .kept)) inst := by
  refine himage.reown (fun c o ho _ => ?_) fun c o ho hlt => ?_
  · apply (update_of_ne _ _ _).trans ho
    rintro rfl
    rw [hfree] at ho
    cases ho
  · by_cases hcb : c = b
    · exact hcb ▸ hused (hcb ▸ hlt)
    · rw [update_of_ne hcb] at ho
      exact himage.used c o ho hlt

theorem Image.forget (himage : Image G S inodes own inst) (hkept : own b = some .kept) :
    Image G S inodes (update own b none) inst := by
  refine himage.reown (fun c o ho hne => ?_) fun c o ho hlt => ?_
  · apply (update_of_ne _ _ _).trans ho
    rintro rfl
    rw [hkept] at ho
    exact hne (some.inj ho).symm
  · by_cases hcb : c = b
    · rw [hcb, update_self] at ho
      cases ho
    · rw [update_of_ne hcb] at ho
      exact himage.used c o ho hlt

end Claim

variable {i : BitVec 32}

theorem inodeAddBlock_fresh (hreg : G.Regular) (himage : s.Consistent G S) (hn : S n) (hin : G.HasInode n)
    (hi : i.toNat < 12 + G.blockSize / 4 + G.blockSize / 4 * (G.blockSize / 4)) (hb : b < 2 ^ 32)
    (hfree : s.own b = none) (hused : b < G.totalGroups * G.blocksPerGroup → G.inUse s.inst.disk .block b = true) :
    ∃ rc s', inodeAddBlock s.inst (s.inodes n) n b i = some (rc, s'.inst, s'.inodes n) ∧
      s'.inst.disk b = s.inst.disk b ∧
      ((s'.inst.Spent ∧ (s'.own b = none ∧ 12 ≤ i.toNat) ∧ Grown G S n s s' (s.leaf n)) ∨
        (s'.own b = some (.node n (pathOf (G.blockSize / 4) i.toNat)) ∧
          Grown G S n s s' fun q => if q = pathOf (G.blockSize / 4) i.toNat then child b else s.leaf n q)) := by
  have hleaf := isLeaf_pathOf (G.blockSize / 4) i.toNat
  have hpath := hreg.entries.isPath_pathOf (hi.trans_le (Nat.le_add_right _ _))
  let s₀ : Stage := ⟨s.inst, s.inodes, update s.own b (some .kept)⟩
  have himage₀ : s₀.Consistent G S := Image.claim himage hfree hused
  have hclaim {c : Nat} {o : Owner} (ho : s.own c = some o) : c ≠ b ∧ s₀.own c = some o := by
    have hne : c ≠ b := by
      intro heq
      rw [heq, hfree] at ho
      cases ho
    exact ⟨hne, (update_of_ne hne ..).trans ho⟩
  have hreach : Reached s₀.inst (s₀.inodes n) i.toNat := .inl (by rwa [himage₀.blockSize])
  obtain ⟨rc, s₁, inst', ino', hcall, hgrown, hcase⟩ := inodeAddBlock_spec hreg himage₀ hn hin b hreach
  have hkept : s₁.own b = some .kept := hgrown.own_le b _ (update_self ..)
  have hdisk : s₁.inst.disk b = s.inst.disk b := hgrown.keeps b .kept (update_self ..) trivial
  let s₂ : Stage := ⟨s₁.inst, s₁.inodes, update s₁.own b none⟩
  have hgrown₂ : Grown G S n s s₂ (s.leaf n) :=
    { hgrown with
      image := Image.forget hgrown.image hkept
      own_le := fun c o ho =>
        (update_of_ne (hclaim ho).1 ..).trans (hgrown.own_le c o (hclaim ho).2)
      keeps := fun c o ho hapart => hgrown.keeps c o (hclaim ho).2 hapart }
  refine ⟨rc, ?_⟩
  cases hcase with
  | inl hfail =>
    obtain ⟨rfl, rfl, rfl, hspent, hindirect⟩ := hfail
    exact ⟨s₂, hcall, hdisk, .inl ⟨hspent, ⟨update_self .., hindirect⟩, hgrown₂⟩⟩
  | inr hdone =>
    obtain ⟨rfl, hset⟩ := hdone
    have hset₂ : SetsEntry s₂ n b (pathOf (G.blockSize / 4) i.toNat) inst' ino' := by
      generalize pathOf (G.blockSize / 4) i.toNat = q at hset
      cases hset with
      | direct hk => exact .direct hk
      | indirect ht => exact .indirect ht
    have hlink := hset₂.grown hgrown₂.image hn hpath hleaf hb hreg (update_self ..)
      fun hlt => hgrown.image.used b .kept hkept hlt
    refine ⟨_, ?_, ?_, .inr ⟨update_self .., (hgrown₂.trans hlink).congr fun q hq hq' => ?_⟩⟩
    · rw [Stage.inodes_link]
      exact hcall
    · refine Eq.trans ?_ hdisk
      generalize pathOf (G.blockSize / 4) i.toNat = q at hset hpath
      cases hset with
      | direct hk => rfl
      | indirect ht =>
        apply disk_writeBlock_of_ne
        intro heq
        have hnode := hgrown.image.node n hn _ _ (hpath.parent (ne_nil_of_blockAt ht)) ht
        rw [← heq, hkept] at hnode
        cases hnode
    · split_ifs
      · rfl
      · exact hgrown₂.leaves q hq hq'

theorem Image.fileBlock_congr (hreg : G.Regular) (himage : s.Consistent G S) (hn : S n) {inst' : Inst} {ino' : Buf}
    {j : Nat} (hsize' : inst'.blockSize = s.inst.blockSize)
    (htree : IsPath (G.blockSize / 4) (pathOf (G.blockSize / 4) j) →
      blockAt ino' inst'.disk (pathOf (G.blockSize / 4) j) = s.leaf n (pathOf (G.blockSize / 4) j))
    (hdisk : ∀ b, s.own b = some (.node n (pathOf (G.blockSize / 4) j)) → inst'.disk b = s.inst.disk b) :
    fileBlock inst' ino' j = fileBlock s.inst (s.inodes n) j := by
  rw [fileBlock, fileBlock, hsize', himage.blockSize]
  split_ifs with hj
  · have hpath := hreg.entries.isPath_of_readable hj
    rw [htree hpath, Stage.leaf]
    cases hb : blockAt (s.inodes n) s.inst.disk (pathOf (G.blockSize / 4) j) with
    | none => rfl
    | some b => exact hdisk b (himage.node n hn _ b hpath hb)
  · rfl

section WriteInode

variable {G : Geo} {S : Nat → Prop} {s : Stage} {n : Nat} {ino' : Buf}

def Stage.writeInode (s : Stage) (n : Nat) (ino' : Buf) : Stage :=
  ⟨s.inst.writeInodeMetadata ino' n, Function.update s.inodes n ino', s.own⟩

theorem Stage.inodes_writeInode (s : Stage) (n : Nat) (ino' : Buf) : (s.writeInode n ino').inodes n = ino' :=
  update_self ..

theorem blockAt_of_block {ino : Buf} (hblock : ∀ k < 15, Inode.block ino' k = Inode.block ino k) (disk : Nat → Buf)
    {L : Nat} {q : List Nat} (hq : IsPath L q) : blockAt ino' disk q = blockAt ino disk q :=
  blockAt_congr hblock (fun _ _ _ _ _ => rfl) hq

section

variable (himage : s.Consistent G S)
include himage

theorem Image.blockAt_writeInode (hin : G.HasInode n)
    (hblock : ∀ k < 15, Inode.block ino' k = Inode.block (s.inodes n) k) (hn : S n) {q : List Nat}
    (hq : IsPath (G.blockSize / 4) q) :
    blockAt ino' (s.inst.writeInodeMetadata ino' n).disk q = blockAt (s.inodes n) s.inst.disk q := by
  rw [blockAt_of_block hblock _ hq]
  apply himage.blockAt_frame hn _ hq
  intro c q' ho _
  exact Image.disk_writeInodeMetadata_of_own himage hin ino' ho fun _ _ h => by cases h

theorem Image.writeInode (hvalid : G.Valid) (hin : G.HasInode n)
    (hblock : ∀ k < 15, Inode.block ino' k = Inode.block (s.inodes n) k) : (s.writeInode n ino').Consistent G S := by
  have htable := Image.writeInodeMetadata himage hvalid hin ino'
  refine { htable with node := fun m hm q b hq hb => ?_ }
  by_cases hmn : m = n
  · subst hmn
    rw [Stage.inodes_writeInode, blockAt_of_block hblock _ hq] at hb
    exact htable.node m hm q b hq hb
  · have hother : (s.writeInode n ino').inodes m = s.inodes m := update_of_ne hmn ..
    rw [hother] at hb
    exact htable.node m hm q b hq hb

theorem Image.inUse_writeInodeMetadata (hin : G.HasInode n) (ino' : Buf) {r : Resource}
    {x : Nat} (hx : x < G.totalGroups * G.perGroup r) :
    G.inUse (s.inst.writeInodeMetadata ino' n).disk r x = G.inUse s.inst.disk r x := by
  apply inUse_of_bitmaps _ hx
  intro r g hg
  exact Image.disk_writeInodeMetadata_of_own himage hin ino' (himage.bitmap r g hg) fun _ _ h => by cases h

theorem Image.spent_writeInode (hin : G.HasInode n) (hspent : s.inst.Spent) (ino' : Buf) :
    (s.writeInode n ino').inst.Spent := by
  have hgeo := himage.counted.geo
  refine Inst.Spent.congr (show (s.writeInode n ino').inst.geo = s.inst.geo from rfl) (fun _ => rfl) ?_ hspent rfl
  intro g hg
  have hown : s.own (s.inst.blockBitmap g) = some (.bitmap .block g) := by
    subst hgeo
    exact himage.bitmap .block g hg
  exact Image.disk_writeInodeMetadata_of_own himage hin ino' hown fun _ _ h => by cases h

end

section

variable (hreg : G.Regular) (himage : s.Consistent G S)
include hreg himage

theorem Stage.synced_writeInode (hfits : Inode.Fits ino') : (s.writeInode n ino').Synced n := by
  have hgeo : s.inst.geo = G := himage.counted.geo
  rw [Stage.Synced, Stage.inodes_writeInode]
  exact inode_writeInodeMetadata_same (by rwa [hgeo]) hfits

theorem Wrote.writeInode (hin : G.HasInode n)
    (hblock : ∀ k < 15, Inode.block ino' k = Inode.block (s.inodes n) k) (hfits : s.Synced n → Inode.Fits ino') :
    Wrote G S n s (s.writeInode n ino') where
  image := Image.writeInode himage hreg.toValid hin hblock
  own_le _ _ ho := ho
  keeps _ _ ho hforeign := Image.disk_writeInodeMetadata_of_own himage hin ino' ho hforeign.apart.ne_table
  others _ hm := update_of_ne hm ..
  tables _ hm hne := Image.inode_writeInodeMetadata himage hreg hin hm hne ino'
  inodeUse _ hx := Image.inUse_writeInodeMetadata himage hin ino' (r := .inode) hx
  exhausted := id
  synced h := Stage.synced_writeInode hreg himage (hfits h)

variable (hn : S n) (hin : G.HasInode n) (hblock : ∀ k < 15, Inode.block ino' k = Inode.block (s.inodes n) k)

include hn hin hblock

theorem Grown.writeInode
    (hrest : ∀ p, p < 28 ∨ (32 ≤ p ∧ p < 40) ∨ 100 ≤ p → ino' p = s.inodes n p) :
    Grown G S n s (s.writeInode n ino') (s.leaf n) where
  image := Image.writeInode himage hreg.toValid hin hblock
  own_le _ _ ho := ho
  leaves q hq _ := by
    rw [Stage.inodes_writeInode]
    exact Image.blockAt_writeInode himage hin hblock hn hq
  keeps _ _ ho hapart := Image.disk_writeInodeMetadata_of_own himage hin ino' ho hapart.ne_table
  rest p hp := by rw [Stage.inodes_writeInode, hrest p hp]
  others _ hm := update_of_ne hm ..
  tables _ hm hne := Image.inode_writeInodeMetadata himage hreg hin hm hne ino'
  inodeUse _ hx := Image.inUse_writeInodeMetadata himage hin ino' hx
  exhausted := id

theorem fileBlock_writeInode (j : Nat) :
    fileBlock (s.writeInode n ino').inst ino' j = fileBlock s.inst (s.inodes n) j :=
  Image.fileBlock_congr hreg himage hn rfl (Image.blockAt_writeInode himage hin hblock hn) fun _ ho =>
    Image.disk_writeInodeMetadata_of_own himage hin ino' ho fun _ _ h => by cases h

end

end WriteInode

section WriteBgds

variable {G : Geo} {S : Nat → Prop} {s : Stage} {n : Nat}

def Stage.writeBgds (s : Stage) : Stage := ⟨s.inst.writeBgds, s.inodes, s.own⟩

theorem Image.disk_writeBgds (himage : s.Consistent G S) {o : Owner} (ho : s.own b = some o) (hne : o ≠ .header) :
    s.inst.writeBgds.disk b = s.inst.disk b := by
  apply Ext2.disk_writeBgds
  intro hheader
  rw [himage.counted.geo] at hheader
  rw [himage.header b hheader] at ho
  exact hne (some.inj ho).symm

theorem Wrote.writeBgds (hvalid : G.Valid) (himage : s.Consistent G S) (hin : G.HasInode n) :
    Wrote G S n s s.writeBgds := by
  have hbitmaps (r : Resource) (g : Nat) (hg : g < G.totalGroups) :
      s.inst.writeBgds.disk (G.bitmap r g) = s.inst.disk (G.bitmap r g) :=
    Image.disk_writeBgds himage (himage.bitmap r g hg) (by simp)
  have hinode {m : Nat} (hm : G.HasInode m) : s.inst.writeBgds.inode m = s.inst.inode m := by
    apply inode_of_disk (geo_writeBgds s.inst)
    rw [himage.counted.geo]
    exact Image.disk_writeBgds himage (himage.table m hm) (by simp)
  refine ⟨?_, fun _ _ h => h, fun b o ho hforeign => ?_, fun _ _ => rfl, fun m hm _ => hinode hm, fun x hx => ?_, id,
    fun hsynced => (hinode hin).trans hsynced⟩
  · apply himage.of_frame
    · exact himage.counted.of_bitmaps rfl (fun _ _ => rfl) (fun _ => rfl) hvalid hbitmaps
    · intro b hb hused
      exact (inUse_of_bitmaps hbitmaps hb).trans hused
    · intro c m q ho _
      exact Image.disk_writeBgds himage ho (by simp)
  · apply Image.disk_writeBgds himage ho
    intro heq
    rw [heq] at hforeign
    exact hforeign
  · exact inUse_of_bitmaps hbitmaps hx

theorem fileBlock_writeBgds (hreg : G.Regular) (himage : s.Consistent G S) (hn : S n) (j : Nat) :
    fileBlock s.writeBgds.inst (s.inodes n) j = fileBlock s.inst (s.inodes n) j := by
  refine Image.fileBlock_congr hreg himage hn rfl (fun hpath => ?_) fun _ ho => Image.disk_writeBgds himage ho (by simp)
  apply himage.blockAt_frame hn _ hpath
  intro c q ho _
  exact Image.disk_writeBgds himage ho (by simp)

end WriteBgds

theorem fits_iff {ino : Buf} : Inode.Fits ino ↔ ∀ p, 128 ≤ p → ino p = 0 := by
  constructor
  · intro hfits p hp
    rw [← hfits, clip, if_neg (by omega)]
  · intro hzero
    funext p
    rw [clip]
    split_ifs with hp
    · rfl
    · exact (hzero p (by omega)).symm

theorem Stage.Synced.fits (hsynced : s.Synced n) : Inode.Fits (s.inodes n) := by
  rw [← hsynced]
  exact clip_clip 128 _

theorem allocInodeBlock_spec (hreg : G.Regular) (himage : s.Consistent G S) (hn : S n) (hin : G.HasInode n)
    (hi : i.toNat < 12 + G.blockSize / 4 + G.blockSize / 4 * (G.blockSize / 4)) :
    ∃ rc b s', allocInodeBlock s.inst (s.inodes n) n i = some (rc, b, s'.inst, s'.inodes n) ∧
      (s.Synced n → s'.Synced n) ∧
      ((s'.inst.Spent ∧ (rc = 0 → s'.own b = none ∧ 12 ≤ i.toNat) ∧ Grown G S n s s' (s.leaf n)) ∨
        (rc = 0 ∧ s'.own b = some (.node n (pathOf (G.blockSize / 4) i.toNat)) ∧ s'.inst.disk b = (fun _ => 0) ∧
          Grown G S n s s' fun q => if q = pathOf (G.blockSize / 4) i.toNat then some b else s.leaf n q)) := by
  obtain ⟨b, inst₁, halloc, hcase⟩ := allocBlock_spec hreg.toValid himage.counted
  rw [allocInodeBlock, halloc, bind_some]
  cases hcase with
  | inl hnone =>
    obtain ⟨rfl, rfl⟩ := hnone
    exact ⟨-enospc, 0, ⟨s.inst.exhaust, s.inodes, s.own⟩, if_pos rfl, id,
      .inl ⟨.exhaust halloc, fun h => absurd h (by decide), .exhaust himage⟩⟩
  | inr htaken =>
    have hb : b < 2 ^ 32 := htaken.lt.trans_le hreg.blocks_le
    have htake := Grown.taken himage hreg.toValid hn htaken
    obtain ⟨rc, s₂, hcall, hdisk, hadded⟩ := inodeAddBlock_fresh hreg htake.image hn hin hi hb
      (himage.own_taken htaken)
      fun hlt => by rw [htaken.inUse hreg.toValid hlt, if_pos ⟨rfl, rfl⟩]
    dsimp only at hcall ⊢
    rw [if_neg htaken.ne_zero, Nat.mod_eq_of_lt hb, hcall]
    have hwrite {leaf : List Nat → Option Nat} (hgrown : Grown G S n s s₂ leaf) :
        Grown G S n s (s₂.writeInode n (addNumBlocks s₂.inst (s₂.inodes n))) leaf ∧
          (s.Synced n → (s₂.writeInode n (addNumBlocks s₂.inst (s₂.inodes n))).Synced n) := by
      have hmeta := Grown.writeInode hreg hgrown.image hn hin
        (fun k _ => block_addNumBlocks s₂.inst (s₂.inodes n) k)
        (fun p hp => addNumBlocks_apply s₂.inst _ (by omega))
      refine ⟨(hgrown.trans hmeta).congr hgrown.leaves,
        fun hsynced => Stage.synced_writeInode hreg hgrown.image (fits_iff.mpr fun p hp => ?_)⟩
      rw [addNumBlocks_apply _ _ (by omega), hgrown.rest p (by omega)]
      exact fits_iff.mp hsynced.fits p hp
    refine ⟨0, b, s₂.writeInode n (addNumBlocks s₂.inst (s₂.inodes n)), ?_, ?_⟩
    · rw [Stage.inodes_writeInode]
      rfl
    cases hadded with
    | inl hfail =>
      obtain ⟨hspent, hfree, hgrown⟩ := hfail
      have hspent' := Image.spent_writeInode hgrown.image hin hspent (addNumBlocks s₂.inst (s₂.inodes n))
      obtain ⟨hgrown, hsynced⟩ := hwrite (htake.trans (hgrown.congr htake.leaves))
      exact ⟨hsynced, .inl ⟨hspent', fun _ => hfree, hgrown⟩⟩
    | inr hdone =>
      obtain ⟨hown, hadd⟩ := hdone
      obtain ⟨hgrown, hsynced⟩ := hwrite (htake.trans hadd)
      refine ⟨hsynced, .inr ⟨rfl, hown, ?_, hgrown.congr fun q hq hleaf => ?_⟩⟩
      · have hmeta := Image.disk_writeInodeMetadata_of_own hadd.image hin (addNumBlocks s₂.inst (s₂.inodes n)) hown
          fun _ _ h => by cases h
        exact hmeta.trans (hdisk.trans htaken.zeroed)
      · split_ifs
        · exact child_of_ne htaken.ne_zero
        · exact htake.leaves q hq hleaf

section WriteBlock

variable {s' : Stage}

section

variable (hreg : G.Regular) (himage : s.Consistent G S) (hn : S n)
include hreg himage hn

theorem Grown.fileBlock_eq {leaf : List Nat → Option Nat} (hgrown : Grown G S n s s' leaf) {j : Nat}
    (hleaf : leaf (pathOf (G.blockSize / 4) j) = s.leaf n (pathOf (G.blockSize / 4) j)) :
    fileBlock s'.inst (s'.inodes n) j = fileBlock s.inst (s.inodes n) j := by
  refine Image.fileBlock_congr hreg himage hn (hgrown.image.blockSize.trans himage.blockSize.symm) (fun hpath => ?_)
    fun b ho => hgrown.keeps b _ ho (.inr (isLeaf_pathOf _ _))
  rw [hgrown.leaves _ hpath (isLeaf_pathOf _ _), hleaf]

theorem fileBlock_writeBlock
    (hi : i.toNat < readable (G.blockSize / 4)) (hb : s.leaf n (pathOf (G.blockSize / 4) i.toNat) = some b) (buf : Buf)
    (j : Nat) :
    fileBlock (s.inst.writeBlock b buf) (s.inodes n) j =
      if j = i.toNat then clip G.blockSize buf else fileBlock s.inst (s.inodes n) j := by
  have hsize := himage.blockSize
  have hpath {j : Nat} (hj : j < readable (G.blockSize / 4)) := hreg.entries.isPath_of_readable hj
  have hown : s.own b = some (.node n (pathOf (G.blockSize / 4) i.toNat)) := himage.node n hn _ b (hpath hi) hb
  have htree {q : List Nat} (hq : IsPath (G.blockSize / 4) q) :
      blockAt (s.inodes n) (s.inst.writeBlock b buf).disk q = blockAt (s.inodes n) s.inst.disk q := by
    apply himage.blockAt_frame hn _ hq
    intro c q' ho hinner
    apply disk_writeBlock_of_ne
    intro heq
    rw [heq, hown] at ho
    cases ho
    exact hinner (isLeaf_pathOf _ _)
  split_ifs with hj
  · have hsize' : (s.inst.writeBlock b buf).blockSize = G.blockSize := hsize
    rw [hj, fileBlock_of_blockAt (by rwa [hsize']) (by rw [hsize', htree (hpath hi)]; exact hb), disk_writeBlock_same,
      himage.counted.geo]
  · refine Image.fileBlock_congr hreg himage hn rfl htree fun c ho => disk_writeBlock_of_ne _ _ fun heq => ?_
    rw [heq, hown] at ho
    injection ho with ho
    injection ho with _ hsame
    exact hj (pathOf_injective hsame.symm)

theorem writeInodeBlock_present (hin : G.HasInode n)
    (hi : i.toNat < readable (G.blockSize / 4)) (hb : s.leaf n (pathOf (G.blockSize / 4) i.toNat) = some b)
    (buf : Buf) :
    ∃ inst', writeInodeBlock s.inst (s.inodes n) n i buf = some (0, inst', s.inodes n) ∧
      Wrote G S n s ⟨inst', s.inodes, s.own⟩ ∧ inst'.exhausted = s.inst.exhausted ∧
      ∀ j, fileBlock inst' (s.inodes n) j =
        if j = i.toNat then clip G.blockSize buf else fileBlock s.inst (s.inodes n) j := by
  have hsize := himage.blockSize
  have hent := hreg.entries
  have hblock : blockAt (s.inodes n) s.inst.disk (pathOf (G.blockSize / 4) i.toNat) = some b := hb
  rw [writeInodeBlock, inodeBlockAbsolute_eq (by rwa [hsize]) (by rwa [hsize]), hsize, bind_some, numberAt,
    hblock, getD_some, if_pos (blockAt_ne_zero hblock)]
  refine ⟨_, rfl, Wrote.writeBlock himage hreg.toValid hin ?_ buf, rfl, fileBlock_writeBlock hreg himage hn hi hb buf⟩
  intro o ho
  rw [himage.node n hn _ b (hent.isPath_of_readable hi) hb] at ho
  exact ⟨_, isLeaf_pathOf _ _, (some.inj ho).symm⟩

theorem writeInodeBlock_spec (hin : G.HasInode n)
    (hi : i.toNat < 12 + G.blockSize / 4 + G.blockSize / 4 * (G.blockSize / 4)) (buf : Buf) :
    ∃ rc s', writeInodeBlock s.inst (s.inodes n) n i buf = some (rc, s'.inst, s'.inodes n) ∧
      Wrote G S n s s' ∧ s.SameRest n s' ∧
      (s'.inst.exhausted = true ∨ (rc = 0 ∧ ∀ j, fileBlock s'.inst (s'.inodes n) j =
        if j = i.toNat then clip G.blockSize buf else fileBlock s.inst (s.inodes n) j)) := by
  have hsize := himage.blockSize
  have hread : i.toNat < readable (G.blockSize / 4) := hi.trans_le (Nat.le_add_right _ _)
  have hent := hreg.entries
  have hleaf := isLeaf_pathOf (G.blockSize / 4) i.toNat
  have hpath := hent.isPath_of_readable hread
  cases hb : s.leaf n (pathOf (G.blockSize / 4) i.toNat) with
  | some b =>
    obtain ⟨inst', hcall, hwrote, -, hput⟩ := writeInodeBlock_present hreg himage hn hin hread hb buf
    exact ⟨0, ⟨inst', s.inodes, s.own⟩, hcall, hwrote, fun _ _ => rfl, .inr ⟨rfl, hput⟩⟩
  | none =>
    have hb : blockAt (s.inodes n) s.inst.disk (pathOf (G.blockSize / 4) i.toNat) = none := hb
    obtain ⟨rc, b, s₁, hcall, hsynced, hcase⟩ := allocInodeBlock_spec hreg himage hn hin hi
    rw [writeInodeBlock, inodeBlockAbsolute_eq (by rwa [hsize]) (by rwa [hsize]), hsize, bind_some, numberAt, hb,
      getD_none, hcall]
    cases hcase with
    | inl hfail =>
      obtain ⟨⟨hexhausted, -⟩, hfree, hgrown⟩ := hfail
      by_cases hrc : rc = 0
      · refine ⟨0, ⟨s₁.inst.writeBlock b buf, s₁.inodes, s₁.own⟩, congrArg some (if_neg (not_not.mpr hrc)),
          (hgrown.wrote hsynced).trans (Wrote.writeBlock hgrown.image hreg.toValid hin ?_ buf), hgrown.rest,
          .inl hexhausted⟩
        intro o ho
        rw [(hfree hrc).1] at ho
        cases ho
      · exact ⟨rc, s₁, congrArg some (if_pos hrc), hgrown.wrote hsynced, hgrown.rest, .inl hexhausted⟩
    | inr hdone =>
      obtain ⟨rfl, hown, -, hgrown⟩ := hdone
      have hleaf' : s₁.leaf n (pathOf (G.blockSize / 4) i.toNat) = some b :=
        (hgrown.leaves _ hpath hleaf).trans (if_pos rfl)
      refine ⟨0, ⟨s₁.inst.writeBlock b buf, s₁.inodes, s₁.own⟩, rfl,
        (hgrown.wrote hsynced).trans (Wrote.writeBlock hgrown.image hreg.toValid hin ?_ buf), hgrown.rest,
        .inr ⟨rfl, fun j => ?_⟩⟩
      · intro o ho
        rw [hown] at ho
        exact ⟨_, hleaf, (some.inj ho).symm⟩
      · refine (fileBlock_writeBlock hreg hgrown.image hn hread hleaf' buf j).trans ?_
        split_ifs with hj
        · rfl
        · exact hgrown.fileBlock_eq hreg himage hn (if_neg fun heq => hj (pathOf_injective heq))

end

end WriteBlock

end Kairax.Ext2
