import Kairax.Errors
import Kairax.Lib.Run
import Mathlib.Data.BitVec
import Mathlib.Data.List.TakeWhile

/-!
# Inodes and directories of tmpfs

A new inode goes to the first free place behind number 1, and the array grows when fewer than four places follow. A
directory is an array of entries in which a removal leaves a hole. Enumeration stops at the first hole, and copies
each name into a `struct dirent`. The link counts, which none of the modelled functions reads, are left out.
-/

namespace Kairax.Tmpfs

open Lib List Option Function

def inodeTypeMask : Nat := 0xF000

def inodeTypeDirectory : Nat := 0x4000

/-- `MAX_DIRENT_NAME_LEN` -/
def maxDirentNameLen : Nat := 260

/-- `struct tmpfs_dentry` -/
structure Dentry where
  inode : Nat
  type : Nat
  name : String
  deriving DecidableEq

abbrev Dentries := List (Option Dentry)

/-- `struct tmpfs_inode` of a directory. -/
structure Node where
  mode : Nat
  dentries : Dentries
  deriving DecidableEq

/-- `struct tmpfs_instance`, with the inodes at their addresses and the next address that `kmalloc` returns. -/
structure Instance where
  inodes : List (Option Nat)
  inodesAllocated : Nat
  inodesNum : Nat
  node : Nat → Node
  next : Nat

namespace Instance

variable (inst : Instance)

/-- The loop of `tmpfs_instance_add_inode` over the places from `i` on. -/
def findFree : Nat → Nat → Option (Option Nat)
  | 0, _ => some none
  | n + 1, i => inst.inodes[i]?.bind fun slot => if slot = none then some (some i) else findFree n (i + 1)

/-- The array with room for so many inodes. Places that are not in the old array are NULL. -/
def extend (newSize : Nat) : Option Instance :=
  if newSize ≤ inst.inodesAllocated then some inst
  else if inst.inodes.length < inst.inodesAllocated then none
  else some { inst with
    inodes := inst.inodes.take inst.inodesAllocated ++ replicate (newSize - inst.inodesAllocated) none
    inodesAllocated := newSize }

/-- `inodes[index] = inode` -/
def put (index : Nat) (inode : Option Nat) (num : Nat) : Option Instance :=
  if index < inst.inodes.length then
    some { inst with inodes := inst.inodes.set index inode, inodesNum := num }
  else none

/-- `tmpfs_instance_add_inode` -/
def addInode (inode index : Nat) : Option (Nat × Instance) :=
  (if index = 0 then (inst.findFree (inst.inodesAllocated - 2) 2).map (·.getD inst.inodesAllocated)
    else some index).bind
    fun index => (inst.extend (index + 1 + 3)).bind fun inst =>
      (inst.put index (some inode) (inst.inodesNum + 1)).map fun inst => (index, inst)

/-- `tmpfs_instance_remove_inode` -/
def removeInode (index : Nat) : Option (Int × Instance) :=
  if inst.inodesAllocated ≤ index then some (-enoent, inst)
  else inst.inodes[index]?.bind fun slot =>
    if slot = none then some (0, inst) else (inst.put index none (inst.inodesNum - 1)).map fun inst => (0, inst)

/-- `tmpfs_get_inode`: the address of an inode or NULL. -/
def getInode (index : Nat) : Option (Option Nat) :=
  if inst.inodesAllocated ≤ index then some none else inst.inodes[index]?

def setNode (p : Nat) (node : Node) : Instance := { inst with node := update inst.node p node }

/-- `kmalloc` of an inode -/
def alloc (node : Node) : Instance := { inst.setNode inst.next node with next := inst.next + 1 }

/-- The instance that `tmpfs_mount` makes. The root is number 2. -/
def mount : Option Instance :=
  ((⟨[], 0, 0, fun _ => ⟨0, []⟩, 0⟩ : Instance).alloc ⟨inodeTypeDirectory ||| 0x1FF, []⟩).addInode 0 2 |>.map (·.2)

end Instance

inductive TableOp where
  | add (inode : Nat)
  | remove (index : Nat)
  deriving DecidableEq

def tableStep (inst : Instance) : TableOp → Option Instance
  | .add inode => (inst.addInode inode 0).map (·.2)
  | .remove index => (inst.removeInode index).map (·.2)

/-- The table is as long as the instance says and its inodes are counted. -/
structure Instance.Sound (inst : Instance) : Prop where
  length : inst.inodes.length = inst.inodesAllocated
  num : inst.inodesNum = inst.inodes.countP isSome
  root : 3 ≤ inst.inodesAllocated

section Table

variable {inst inst' : Instance} {inode index i : Nat}

theorem Instance.findFree_spec (hlength : inst.inodes.length = inst.inodesAllocated) {n : Nat} (hlow : 2 ≤ i)
    (hend : i + n = inst.inodesAllocated) :
    ∃ found, inst.findFree n i = some found ∧ 2 ≤ found.getD inst.inodesAllocated ∧
      found.getD inst.inodesAllocated ≤ inst.inodesAllocated ∧
      (∀ k ∈ found, inst.inodes[k]? = some none) := by
  induction n generalizing i with
  | zero => exact ⟨none, rfl, by simp; omega, le_rfl, by simp⟩
  | succ n ih =>
    have hi : i < inst.inodes.length := by omega
    rw [findFree, getElem?_eq_getElem hi, bind_some]
    split_ifs with hnone
    · refine ⟨some i, rfl, hlow, by simp; omega, fun k hk => ?_⟩
      obtain rfl : i = k := some.inj hk
      rw [getElem?_eq_getElem hi, hnone]
    · exact ih (by omega) (by omega)

def Instance.grown (inst : Instance) (n : Nat) : Instance :=
  { inst with
    inodes := inst.inodes ++ replicate (n - inst.inodesAllocated) none
    inodesAllocated := max inst.inodesAllocated n }

theorem join_append_replicate (l : List (Option Nat)) (n j : Nat) : (l ++ replicate n none)[j]?.join = l[j]?.join := by
  rw [getElem?_append]
  split_ifs with hj
  · rfl
  · rw [getElem?_eq_none (not_lt.mp hj), getElem?_replicate]
    split_ifs <;> rfl

namespace Instance.Sound

section

variable (hsound : inst.Sound)
include hsound

theorem getInode_eq (j : Nat) : inst.getInode j = some inst.inodes[j]?.join := by
  rw [getInode]
  split_ifs with hj
  · rw [getElem?_eq_none (by rw [hsound.length]; exact hj)]
    rfl
  · have hin : j < inst.inodes.length := by rw [hsound.length]; omega
    rw [getElem?_eq_getElem hin]
    rfl

theorem extend_eq (n : Nat) : inst.extend n = some (inst.grown n) := by
  rw [extend, grown]
  split_ifs with hle hlt
  · rw [Nat.sub_eq_zero_of_le hle, replicate_zero, append_nil, max_eq_left hle]
  · exact absurd hlt (by rw [hsound.length]; omega)
  · rw [take_of_length_le (hsound.length.le), Nat.max_eq_right (by omega)]

theorem grown (n : Nat) : (inst.grown n).Sound where
  length := by
    rw [Instance.grown, length_append, length_replicate, hsound.length]
    dsimp only
    omega
  num := by
    rw [Instance.grown, countP_append, countP_replicate, ← hsound.num]
    rfl
  root := hsound.root.trans (le_max_left ..)

theorem put_spec (index : Nat) (slot : Option Nat) (num : Nat) (hin : index < inst.inodesAllocated)
    (hnum : num + inst.inodes[index]?.join.toList.length = inst.inodesNum + slot.toList.length) :
    ∃ inst', inst.put index slot num = some inst' ∧ inst'.Sound ∧ inst'.node = inst.node ∧
      ∀ j, inst'.getInode j = if j = index then some slot else inst.getInode j := by
  have hindex : index < inst.inodes.length := by rw [hsound.length]; exact hin
  have hsound' : Sound { inst with inodes := inst.inodes.set index slot, inodesNum := num } := by
    refine ⟨length_set.trans hsound.length, ?_, hsound.root⟩
    have hpos : inst.inodes[index].isSome = true → 0 < inst.inodes.countP isSome := fun hsome =>
      countP_pos_iff.mpr ⟨_, getElem_mem hindex, hsome⟩
    rw [getElem?_eq_getElem hindex, hsound.num] at hnum
    rw [countP_set hindex]
    cases hold : inst.inodes[index] <;> cases slot <;> simp_all
    all_goals omega
  refine ⟨_, if_pos hindex, hsound', rfl, fun j => ?_⟩
  rw [hsound'.getInode_eq, hsound.getInode_eq, getElem?_set]
  by_cases hj : j = index
  · rw [if_pos hj, if_pos hj.symm, if_pos hindex, join_some]
  · rw [if_neg hj, if_neg (Ne.symm hj)]

theorem addInode_spec (inode : Nat) :
    ∃ k inst', inst.addInode inode 0 = some (k, inst') ∧ inst'.Sound ∧ inst'.node = inst.node ∧ 2 ≤ k ∧
      inst.getInode k = some none ∧
      ∀ j, inst'.getInode j = if j = k then some (some inode) else inst.getInode j := by
  have hroot := hsound.root
  obtain ⟨found, hfind, hlow, hhigh, hfree⟩ := findFree_spec hsound.length (n := inst.inodesAllocated - 2)
    le_rfl (by omega)
  generalize hk : found.getD inst.inodesAllocated = k at hlow hhigh
  have hnull : inst.inodes[k]?.join = none := by
    cases found with
    | none => rw [getElem?_eq_none (by rw [hsound.length]; exact hk.le), join_none]
    | some m =>
      obtain rfl : m = k := hk
      rw [hfree m rfl, join_some]
  have hgrown := hsound.grown (k + 1 + 3)
  obtain ⟨inst', hput, hsound', hnode, hget⟩ := hgrown.put_spec k (some inode) (inst.inodesNum + 1)
    (lt_of_lt_of_le (by omega) (le_max_right ..)) (by rw [Instance.grown, join_append_replicate, hnull]; rfl)
  refine ⟨k, inst', ?_, hsound', hnode, hlow, by rw [hsound.getInode_eq, hnull], fun j => ?_⟩
  · rw [addInode, if_pos rfl, hfind, map_some, bind_some, hk, hsound.extend_eq]
    exact congrArg (Option.map _) hput
  · rw [hget, hgrown.getInode_eq, Instance.grown, join_append_replicate, hsound.getInode_eq]

theorem removeInode_spec (index : Nat) :
    ∃ rc inst', inst.removeInode index = some (rc, inst') ∧ inst'.Sound ∧
      ∀ j, inst'.getInode j = if j = index then some none else inst.getInode j := by
  have hsame (hnull : inst.inodes[index]?.join = none) (j : Nat) :
      inst.getInode j = if j = index then some none else inst.getInode j := by
    split_ifs with hj
    · rw [hj, hsound.getInode_eq, hnull]
    · rfl
  rw [removeInode]
  split_ifs with hout
  · refine ⟨_, inst, rfl, hsound, hsame ?_⟩
    rw [getElem?_eq_none (by rw [hsound.length]; exact hout), join_none]
  have hin : index < inst.inodes.length := by rw [hsound.length]; omega
  rw [getElem?_eq_getElem hin, bind_some]
  split_ifs with hnull
  · refine ⟨_, inst, rfl, hsound, hsame ?_⟩
    rw [getElem?_eq_getElem hin, hnull, join_some]
  · obtain ⟨node, hnode⟩ := ne_none_iff_exists'.mp hnull
    have hpos : 0 < inst.inodesNum := by
      rw [hsound.num]
      exact countP_pos_iff.mpr ⟨_, getElem_mem hin, by rw [hnode]; rfl⟩
    obtain ⟨inst', hput, hsound', -, hget⟩ := hsound.put_spec index none (inst.inodesNum - 1) (by omega)
      (by rw [getElem?_eq_getElem hin, hnode]; exact Nat.sub_add_cancel hpos)
    exact ⟨0, inst', by rw [hput]; rfl, hsound', hget⟩

end

end Instance.Sound

theorem sound_mount (hmount : Instance.mount = some inst) :
    inst.Sound ∧ inst.getInode 2 = some (some 0) ∧ ∀ p, (inst.node p).dentries = [] := by
  cases hmount
  refine ⟨⟨rfl, rfl, by decide⟩, rfl, fun p => ?_⟩
  show (update (fun _ => Node.mk 0 []) 0 _ p).dentries = []
  rw [update_apply]
  split_ifs <;> rfl

theorem Instance.Sound.tableStep (hsound : inst.Sound) {op : TableOp} (hstep : tableStep inst op = some inst') :
    inst'.Sound ∧ (op ≠ .remove 2 → inst.getInode 2 = some (some 0) → inst'.getInode 2 = some (some 0)) := by
  cases op with
  | add inode =>
    obtain ⟨k, t, hadd, hsound', -, -, hfree, hget⟩ := hsound.addInode_spec inode
    rw [Tmpfs.tableStep, hadd] at hstep
    cases hstep
    refine ⟨hsound', fun _ hroot => ?_⟩
    rw [hget, if_neg (by rintro rfl; cases hroot.symm.trans hfree), hroot]
  | remove index =>
    obtain ⟨rc, t, hremove, hsound', hget⟩ := hsound.removeInode_spec index
    rw [Tmpfs.tableStep, hremove] at hstep
    cases hstep
    refine ⟨hsound', fun hne hroot => ?_⟩
    rw [hget, if_neg (by rintro rfl; exact hne rfl), hroot]

theorem Instance.Sound.run (hsound : inst.Sound) {ops : List TableOp}
    (hrun : Run Tmpfs.tableStep (fun _ _ => True) inst ops inst') :
    inst'.Sound ∧ (.remove 2 ∉ ops → inst.getInode 2 = some (some 0) → inst'.getInode 2 = some (some 0)) := by
  induction hrun with
  | nil s => exact ⟨hsound, fun _ hroot => hroot⟩
  | cons _ hstep _ ih =>
    obtain ⟨hsound', hkept⟩ := hsound.tableStep hstep
    obtain ⟨hend, hrest⟩ := ih hsound'
    refine ⟨hend, fun hnot hroot => hrest (fun hmem => hnot (mem_cons_of_mem _ hmem)) (hkept ?_ hroot)⟩
    rintro rfl
    exact hnot mem_cons_self

/-- The array is as long as `inodes_allocated` and its inodes are counted, a new inode gets a free number, and every
other number stands for what it stood for. -/
theorem inode_table {m s : Instance} {ops : List TableOp} (hmount : Instance.mount = some m)
    (hrun : Run tableStep (fun _ _ => True) m ops s) :
    s.inodesAllocated ≤ s.inodes.length ∧ s.inodesNum = s.inodes.countP isSome ∧
      (∀ inode, ∃ k t, s.addInode inode 0 = some (k, t) ∧ s.getInode k = some none ∧
        (.remove 2 ∉ ops → 3 ≤ k) ∧ ∀ j, t.getInode j = if j = k then some (some inode) else s.getInode j) ∧
      ∀ index, ∃ rc t, s.removeInode index = some (rc, t) ∧ ∀ j ≠ index, t.getInode j = s.getInode j := by
  obtain ⟨hsound, hroot, -⟩ := sound_mount hmount
  obtain ⟨hend, hkept⟩ := hsound.run hrun
  refine ⟨hend.length.symm.le, hend.num, fun inode => ?_, fun index => ?_⟩
  · obtain ⟨k, t, hadd, -, -, hlow, hfree, hget⟩ := hend.addInode_spec inode
    refine ⟨k, t, hadd, hfree, fun hnot => ?_, hget⟩
    have hne : k ≠ 2 := by
      rintro rfl
      cases (hkept hnot hroot).symm.trans hfree
    omega
  · obtain ⟨rc, t, hremove, -, hget⟩ := hend.removeInode_spec index
    exact ⟨rc, t, hremove, fun j hj => by rw [hget, if_neg hj]⟩

theorem inode_table_hole : ∃ m s, Instance.mount = some m ∧
    Run tableStep (fun _ _ => True) m [.add 7, .add 8, .remove 3] s ∧
    ∃ k t, s.addInode 9 0 = some (k, t) ∧ s.getInode k = some none ∧ 3 ≤ k := by
  have hrun : ∃ m s, Instance.mount = some m ∧ Run tableStep (fun _ _ => True) m [.add 7, .add 8, .remove 3] s :=
    ⟨_, _, rfl, .cons trivial rfl (.cons trivial rfl (.cons trivial rfl (.nil _)))⟩
  obtain ⟨m, s, hmount, hrun⟩ := hrun
  obtain ⟨k, t, hadd, hfree, hge, -⟩ := (inode_table hmount hrun).2.2.1 9
  exact ⟨m, s, hmount, hrun, k, t, hadd, hfree, hge (by decide)⟩

/-- The number of the root is handed out again once the root has been removed. -/
theorem root_number_reused : ∃ m s, Instance.mount = some m ∧ Run tableStep (fun _ _ => True) m [.remove 2] s ∧
    (s.addInode 7 0).map (·.1) = some 2 :=
  ⟨_, _, rfl, .cons trivial rfl (.nil _), rfl⟩

end Table

namespace Instance

variable (inst : Instance)

/-- `tmpfs_get_dentry`: the place of the entry with a name. -/
def getDentry (dentries : Dentries) (name : String) : Option Nat :=
  dentries.findIdx? (·.any (·.name = name))

/-- `tmpfs_inode_add_dentry` -/
def addDentry (dentries : Dentries) (dentry : Dentry) : Dentries :=
  match dentries.findIdx? (·.isNone) with
  | some i => dentries.set i (some dentry)
  | none => dentries ++ [some dentry, none, none]

def setDentries (p : Nat) (dentries : Dentries) : Instance := inst.setNode p { inst.node p with dentries }

/-- `tmpfs_mkfile`, `tmpfs_mkdir` and `tmpfs_mknod` after they have chosen mode and type. -/
def makeNode (parent : Nat) (name : String) (mode type : Nat) : Option (Int × Instance) :=
  (inst.getInode parent).bind fun
    | none => some (-enoent, inst)
    | some p =>
      if (getDentry (inst.node p).dentries name).isSome then some (-eexist, inst)
      else ((inst.alloc ⟨mode, []⟩).addInode inst.next 0).map fun (ino, inst) =>
        (0, inst.setDentries p (addDentry (inst.node p).dentries ⟨ino, type, name⟩))

/-- `tmpfs_mkfile` -/
def mkfile (parent : Nat) (name : String) (mode : Nat) : Option (Int × Instance) :=
  inst.makeNode parent name (0x8000 ||| (0xFFF &&& mode)) 8

/-- `tmpfs_mkdir` -/
def mkdir (parent : Nat) (name : String) (mode : Nat) : Option (Int × Instance) :=
  inst.makeNode parent name (inodeTypeDirectory ||| (0xFFF &&& mode)) 4

/-- The type of the entry that `tmpfs_mknod` makes for a type of inode. -/
def dentryType (mode : Nat) : Option Nat :=
  [(0x8000, 8), (0xA000, 10), (0x4000, 4), (0x2000, 2), (0x1000, 1), (0x6000, 6), (0xC000, 12)].lookup
    (mode &&& inodeTypeMask)

/-- `tmpfs_mknod` -/
def mknod (parent : Nat) (name : String) (mode : Nat) : Option (Int × Instance) :=
  match dentryType mode with
  | none => some (-einval, inst)
  | some type => inst.makeNode parent name (mode % 2 ^ 16) type

/-- What `tmpfs_unlink` and `tmpfs_rmdir` look up: the directory, the place of the entry and the inode. They read
through NULL where there is no such entry, or no such inode. -/
def locate (parent : Nat) (name : String) : Option (Option (Nat × Nat × Nat)) :=
  (inst.getInode parent).bind fun
    | none => some none
    | some p => (getDentry (inst.node p).dentries name).bind fun i => (inst.node p).dentries[i]?.join.bind fun dentry =>
      (inst.getInode dentry.inode).join.map fun q => some (p, i, q)

/-- `tmpfs_inode_remove_dentry` -/
def removeDentry (p i : Nat) : Instance := inst.setDentries p ((inst.node p).dentries.set i none)

/-- `tmpfs_unlink` -/
def unlink (parent : Nat) (name : String) : Option (Int × Instance) :=
  (inst.locate parent name).map fun
    | none => (-enoent, inst)
    | some (p, i, _) => (0, inst.removeDentry p i)

/-- `tmpfs_rmdir`, with the number of links in the VFS inode of the directory. It returns 0 in any case. -/
def rmdir (parent : Nat) (name : String) (vfsLinks : Nat) : Option (Int × Instance) :=
  if 2 < vfsLinks then some (0, inst)
  else (inst.locate parent name).map fun
    | none => (0, inst)
    | some (p, i, q) =>
      if (inst.node q).dentries.any (·.isSome) then (0, inst) else (0, inst.removeDentry p i)

/-- `tmpfs_file_readdir` on the inode at an address. The name is copied with `strcpy`, undefined where it does not fit
into `name` of `struct dirent` with its NUL. -/
def readdir (p index : Nat) : Option (Option Dentry) :=
  match (inst.node p).dentries[index]?.join with
  | none => some none
  | some dentry => if dentry.name.utf8ByteSize < maxDirentNameLen then some (some dentry) else none

/-- `file_readdir` on a file that is open on an inode: the entry at the position, which is an index of 32 bits. -/
def fileReaddir (ino pos : Nat) : Option (Int × Option Dentry) :=
  (inst.getInode ino).join.bind fun p =>
    if (inst.node p).mode &&& inodeTypeMask ≠ inodeTypeDirectory then some (-errorNotADirectory, none)
    else (inst.readdir p (pos % 2 ^ 32)).map fun
      | none => (0, none)
      | some dentry => (1, some dentry)

/-- Calls of `file_readdir` from a position on until it returns 0, and the names that they give. -/
def enumerate (ino : Nat) : Nat → Nat → Option (List String)
  | 0, _ => none
  | calls + 1, pos => (inst.fileReaddir ino pos).bind fun
      | (0, _) => some []
      | (_, dentry) => (enumerate ino calls (pos + 1)).map (dentry.toList.map (·.name) ++ ·)

end Instance

inductive DirOp where
  | mkfile (parent : Nat) (name : String) (mode : Nat)
  | mkdir (parent : Nat) (name : String) (mode : Nat)
  | mknod (parent : Nat) (name : String) (mode : Nat)
  | unlink (parent : Nat) (name : String)
  | rmdir (parent : Nat) (name : String) (vfsLinks : Nat)

def dirStep (inst : Instance) : DirOp → Option Instance
  | .mkfile parent name mode => (inst.mkfile parent name mode).map (·.2)
  | .mkdir parent name mode => (inst.mkdir parent name mode).map (·.2)
  | .mknod parent name mode => (inst.mknod parent name mode).map (·.2)
  | .unlink parent name => (inst.unlink parent name).map (·.2)
  | .rmdir parent name vfsLinks => (inst.rmdir parent name vfsLinks).map (·.2)

def names (dentries : Dentries) : List String := dentries.filterMap (·.map (·.name))

section Names

variable {ds : Dentries} {i : Nat}

theorem names_append (ds ds' : Dentries) : names (ds ++ ds') = names ds ++ names ds' := filterMap_append

theorem names_split (hi : i < ds.length) (slot : Option Dentry) :
    names (ds.set i slot) = names (ds.take i) ++ (names [slot] ++ names (ds.drop (i + 1))) := by
  rw [set_eq_take_append_cons_drop, if_pos hi, names_append, ← singleton_append, names_append]

theorem names_set_none (ds : Dentries) (i : Nat) : (names (ds.set i none)).Sublist (names ds) := by
  by_cases hi : i < ds.length
  · have hself := names_split hi ds[i]
    rw [set_getElem_self] at hself
    rw [names_split hi, hself]
    exact (nil_sublist _).append_right _ |>.append_left _
  · rw [set_eq_of_length_le (not_lt.mp hi)]

theorem names_addDentry (ds : Dentries) (d : Dentry) : (names (Instance.addDentry ds d)).Perm (d.name :: names ds) := by
  rw [Instance.addDentry]
  cases hfree : ds.findIdx? (·.isNone) with
  | none =>
    rw [names_append]
    exact perm_append_singleton d.name (names ds)
  | some i =>
    obtain ⟨hi, hnone, -⟩ := findIdx?_eq_some_iff_getElem.mp hfree
    have hself := names_split hi ds[i]
    rw [set_getElem_self, isNone_iff_eq_none.mp hnone] at hself
    rw [hself, names_split hi]
    exact perm_middle

theorem not_mem_names {name : String} (hnone : (Instance.getDentry ds name).isSome = false) : name ∉ names ds := by
  rw [isSome_eq_false_iff, isNone_iff_eq_none] at hnone
  intro hmem
  obtain ⟨slot, hslot, hname⟩ := mem_filterMap.mp hmem
  have hall := findIdx?_eq_none_iff.mp hnone slot hslot
  cases slot with
  | none => cases hname
  | some d => simp_all

theorem names_eq_nil_iff (ds : Dentries) : names ds = [] ↔ ∀ j : Nat, ds[j]?.join = none := by
  rw [names, filterMap_eq_nil_iff]
  constructor
  · intro hall j
    cases hj : ds[j]? with
    | none => rfl
    | some slot => exact map_eq_none_iff.mp (hall slot (mem_of_getElem? hj))
  · intro hall slot hslot
    obtain ⟨j, hj⟩ := mem_iff_getElem?.mp hslot
    rw [show slot = none from by simpa [hj] using hall j, map_none]

def Short (names : List String) : Prop := ∀ name ∈ names, name.utf8ByteSize < maxDirentNameLen

instance (names : List String) : Decidable (Short names) := by
  unfold Short
  infer_instance

theorem short_cons (name : String) (ns : List String) :
    Short (name :: ns) ↔ name.utf8ByteSize < maxDirentNameLen ∧ Short ns := forall_mem_cons

def Together (ds : Dentries) : Prop := ∀ i j : Nat, i < j → ds[i]? = some none → ds[j]?.join = none

theorem together_iff (ds : Dentries) : Together ds ↔ names (ds.dropWhile (·.isSome)) = [] := by
  induction ds with
  | nil => simp [Together, names]
  | cons slot ds ih =>
    cases slot with
    | none =>
      rw [names_eq_nil_iff]
      refine ⟨fun htogether j => ?_, fun hall i j _ _ => hall j⟩
      cases j with
      | zero => rfl
      | succ j => exact htogether 0 (j + 1) (Nat.succ_pos j) rfl
    | some d =>
      rw [dropWhile_cons_of_pos rfl, ← ih]
      refine ⟨fun htogether i j hij => htogether (i + 1) (j + 1) (Nat.succ_lt_succ hij), fun htogether i j hij => ?_⟩
      cases i with
      | zero => exact fun hslot => by cases hslot
      | succ i =>
        obtain ⟨j, rfl⟩ : ∃ j', j = j' + 1 := ⟨j - 1, by omega⟩
        exact htogether i j (Nat.lt_of_succ_lt_succ hij)

end Names

/-- The table is in order, and no directory has two entries with one name. -/
structure Instance.Distinct (inst : Instance) : Prop extends inst.Sound where
  nodup : ∀ p, (names (inst.node p).dentries).Nodup

section Calls

variable {inst inst' : Instance} {p : Nat}

namespace Instance.Distinct

section

variable (hdist : inst.Distinct)
include hdist

theorem setNode {node : Node} (hnodup : (names node.dentries).Nodup) : (inst.setNode p node).Distinct := by
  refine ⟨{ hdist with }, fun q => ?_⟩
  show (names (update inst.node p node q).dentries).Nodup
  rw [update_apply]
  split_ifs
  · exact hnodup
  · exact hdist.nodup q

theorem removeDentry (i : Nat) : (inst.removeDentry p i).Distinct :=
  hdist.setNode ((names_set_none _ i).nodup (hdist.nodup p))

theorem alloc {node : Node} (hempty : node.dentries = []) : (inst.alloc node).Distinct :=
  have hset : (inst.setNode inst.next node).Distinct := hdist.setNode (by rw [hempty]; exact nodup_nil)
  ⟨{ hset with }, hset.nodup⟩

theorem makeNode (parent mode type : Nat) (name : String) :
    ∀ r ∈ inst.makeNode parent name mode type, r.2.Distinct := by
  intro r hr
  obtain ⟨slot, -, hr⟩ := bind_eq_some_iff.mp hr
  cases slot with
  | none =>
    cases hr
    exact hdist
  | some p =>
    dsimp only at hr
    split_ifs at hr with hfound
    · cases hr
      exact hdist
    · have halloc : (inst.alloc ⟨mode, []⟩).Distinct := hdist.alloc rfl
      obtain ⟨k, t, hadd, hsound, hnode, -⟩ := halloc.addInode_spec inst.next
      rw [hadd] at hr
      cases hr
      have hdist' : t.Distinct := ⟨hsound, fun q => by rw [hnode]; exact halloc.nodup q⟩
      refine hdist'.setNode ((names_addDentry _ _).nodup_iff.mpr (nodup_cons.mpr ⟨?_, hdist'.nodup p⟩))
      have hfree := not_mem_names (Bool.eq_false_iff.mpr hfound)
      rw [hnode]
      show name ∉ names (update inst.node inst.next _ p).dentries
      rw [update_apply]
      split_ifs
      · exact not_mem_nil
      · exact hfree

theorem unlink (parent : Nat) (name : String) : ∀ r ∈ inst.unlink parent name, r.2.Distinct := by
  intro r hr
  obtain ⟨found, -, rfl⟩ := map_eq_some_iff.mp hr
  cases found with
  | none => exact hdist
  | some found => exact hdist.removeDentry _

theorem rmdir (parent vfsLinks : Nat) (name : String) : ∀ r ∈ inst.rmdir parent name vfsLinks, r.2.Distinct := by
  intro r hr
  rw [Instance.rmdir] at hr
  split_ifs at hr
  · cases hr
    exact hdist
  obtain ⟨found, -, rfl⟩ := map_eq_some_iff.mp hr
  cases found with
  | none => exact hdist
  | some found =>
    dsimp only
    split_ifs
    · exact hdist
    · exact hdist.removeDentry _

theorem dirStep {op : DirOp} (hstep : dirStep inst op = some inst') : inst'.Distinct := by
  cases op with
  | mkfile parent name mode | mkdir parent name mode =>
    obtain ⟨r, hr, rfl⟩ := map_eq_some_iff.mp hstep
    exact hdist.makeNode _ _ _ _ r hr
  | mknod parent name mode =>
    obtain ⟨r, hr, rfl⟩ := map_eq_some_iff.mp hstep
    rw [Instance.mknod] at hr
    cases htype : Instance.dentryType mode with
    | none =>
      rw [htype] at hr
      cases hr
      exact hdist
    | some type =>
      rw [htype] at hr
      exact hdist.makeNode _ _ _ _ r hr
  | unlink parent name =>
    obtain ⟨r, hr, rfl⟩ := map_eq_some_iff.mp hstep
    exact hdist.unlink _ _ r hr
  | rmdir parent name vfsLinks =>
    obtain ⟨r, hr, rfl⟩ := map_eq_some_iff.mp hstep
    exact hdist.rmdir _ _ _ r hr

end

end Instance.Distinct

variable {ino : Nat}

section

variable (hget : inst.getInode ino = some (some p)) (hdir : (inst.node p).mode &&& inodeTypeMask = inodeTypeDirectory)
include hget hdir

theorem fileReaddir_eq (pos : Nat) :
    inst.fileReaddir ino pos = (inst.readdir p (pos % 2 ^ 32)).map fun
      | none => (0, none)
      | some dentry => (1, some dentry) := by
  rw [Instance.fileReaddir, hget, join_some, bind_some, if_neg (not_not_intro hdir)]

theorem enumerate_eq (calls pos : Nat) (rest : Dentries) (hrest : (inst.node p).dentries.drop pos = rest)
    (hlt : pos + (rest.takeWhile (·.isSome)).length < 2 ^ 32) :
    inst.enumerate ino calls pos =
      if (rest.takeWhile (·.isSome)).length < calls ∧ Short (names (rest.takeWhile (·.isSome))) then
        some (names (rest.takeWhile (·.isSome))) else none := by
  induction calls generalizing pos rest with
  | zero => simp [Instance.enumerate]
  | succ calls ih =>
    have hslot : (inst.node p).dentries[pos]? = rest.head? := by rw [← hrest, head?_drop]
    rw [Instance.enumerate, fileReaddir_eq hget hdir, Instance.readdir, Nat.mod_eq_of_lt (by omega), hslot]
    cases rest with
    | nil => simp [names, Short]
    | cons slot rest =>
      cases slot with
      | none => simp [names, Short]
      | some d =>
        have hnext : (inst.node p).dentries.drop (pos + 1) = rest := by
          rw [← tail_drop, hrest, tail_cons]
        rw [takeWhile_cons_of_pos rfl, length_cons] at hlt ⊢
        have hcalls := ih (pos + 1) rest hnext (by omega)
        have hnames : names (some d :: rest.takeWhile (·.isSome)) = d.name :: names (rest.takeWhile (·.isSome)) := rfl
        simp only [head?_cons, join_some, hnames, short_cons, Nat.add_lt_add_iff_right]
        by_cases hshort : d.name.utf8ByteSize < maxDirentNameLen
        · simp only [hshort, if_true, true_and, hcalls]
          split_ifs
          · rfl
          · rfl
        · simp [hshort]

theorem enumerate_endless (hfull : 2 ^ 32 ≤ ((inst.node p).dentries.takeWhile (·.isSome)).length) (calls pos : Nat) :
    inst.enumerate ino calls pos = none := by
  induction calls generalizing pos with
  | zero => rfl
  | succ calls ih =>
    have hin : pos % 2 ^ 32 < ((inst.node p).dentries.takeWhile (·.isSome)).length := by omega
    obtain ⟨d, hd⟩ := isSome_iff_exists.mp (mem_takeWhile_imp (getElem_mem hin))
    obtain ⟨rest, hrest⟩ := takeWhile_prefix (·.isSome) (l := (inst.node p).dentries)
    have hslot := congrArg (·[pos % 2 ^ 32]?) hrest
    simp only [getElem?_append_left hin, getElem?_eq_getElem hin, hd] at hslot
    rw [Instance.enumerate, fileReaddir_eq hget hdir, Instance.readdir, ← hslot]
    simp only [join_some]
    split_ifs
    · rw [map_some, ih]
      rfl
    · rfl

end

end Calls

theorem length_names_takeWhile (ds : Dentries) :
    (names (ds.takeWhile (·.isSome))).length = (ds.takeWhile (·.isSome)).length := by
  induction ds with
  | nil => rfl
  | cons slot ds ih =>
    cases slot with
    | none => rfl
    | some d =>
      rw [takeWhile_cons_of_pos rfl, length_cons, ← ih]
      rfl

/-- The calls of `file_readdir` give every name once if and only if no entry stands behind a hole, there are fewer
entries than numbers of 32 bits, and every name fits into a `struct dirent`. -/
theorem directory_enumeration {m s : Instance} {ops : List DirOp} (hmount : Instance.mount = some m)
    (hrun : Run dirStep (fun _ _ => True) m ops s) {ino p : Nat} (hget : s.getInode ino = some (some p))
    (hdir : (s.node p).mode &&& inodeTypeMask = inodeTypeDirectory) :
    (∃ calls found, s.enumerate ino calls 0 = some found ∧
        ∀ name, found.count name = if name ∈ names (s.node p).dentries then 1 else 0) ↔
      Together (s.node p).dentries ∧ (names (s.node p).dentries).length < 2 ^ 32 ∧
        Short (names (s.node p).dentries) := by
  obtain ⟨hsound, -, hempty⟩ := sound_mount hmount
  have hdist : s.Distinct := hrun.invariant Instance.Distinct (fun _ _ _ hdist _ hstep => hdist.dirStep hstep)
    ⟨hsound, fun p => by rw [hempty]; exact nodup_nil⟩
  have hnodup := hdist.nodup p
  generalize hds : (s.node p).dentries = ds at hnodup
  have hsplit : names ds = names (ds.takeWhile (·.isSome)) ++ names (ds.dropWhile (·.isSome)) := by
    rw [← names_append, takeWhile_append_dropWhile]
  have hlength := length_names_takeWhile ds
  rw [together_iff]
  constructor
  · rintro ⟨calls, found, hcalls, hcount⟩
    have hlt : (ds.takeWhile (·.isSome)).length < 2 ^ 32 := by
      by_contra hfull
      rw [enumerate_endless hget hdir (by rw [hds]; omega)] at hcalls
      cases hcalls
    rw [enumerate_eq hget hdir calls 0 ds hds (by omega)] at hcalls
    split_ifs at hcalls with hall
    cases hcalls
    have hrest : names (ds.dropWhile (·.isSome)) = [] := by
      refine eq_nil_iff_forall_not_mem.mpr fun name hname => ?_
      have hone := hcount name
      rw [if_pos (by rw [hsplit]; exact mem_append_right _ hname)] at hone
      rw [hsplit] at hnodup
      exact (nodup_append.mp hnodup).2.2 name (count_pos_iff.mp (by omega)) name hname rfl
    rw [hrest, append_nil] at hsplit
    exact ⟨hrest, by rw [hsplit, hlength]; exact hlt, by rw [hsplit]; exact hall.2⟩
  · rintro ⟨hrest, hlt, hshort⟩
    rw [hrest, append_nil] at hsplit
    rw [hsplit] at hlt
    rw [hsplit] at hshort
    refine ⟨(ds.takeWhile (·.isSome)).length + 1, _, (enumerate_eq hget hdir _ 0 ds hds
      (by omega)).trans (if_pos ⟨Nat.lt_succ_self _, hshort⟩), fun name => ?_⟩
    rw [← hsplit]
    exact hnodup.count

theorem directory_enumeration_two : ∃ m s, Instance.mount = some m ∧
    Run dirStep (fun _ _ => True) m [.mkfile 2 "a" 0, .mkdir 2 "b" 0] s ∧
    ∃ calls found, s.enumerate 2 calls 0 = some found ∧
      ∀ name, found.count name = if name ∈ names (s.node 0).dentries then 1 else 0 := by
  obtain ⟨m, s, hmount, hrun, hget, hdir, hholds⟩ : ∃ m s, Instance.mount = some m ∧
      Run dirStep (fun _ _ => True) m [.mkfile 2 "a" 0, .mkdir 2 "b" 0] s ∧ s.getInode 2 = some (some 0) ∧
      (s.node 0).mode &&& inodeTypeMask = inodeTypeDirectory ∧ Together (s.node 0).dentries ∧
      (names (s.node 0).dentries).length < 2 ^ 32 ∧ Short (names (s.node 0).dentries) :=
    ⟨_, _, rfl, .cons trivial rfl (.cons trivial rfl (.nil _)), rfl, rfl, (together_iff _).mpr rfl, by decide,
      by decide⟩
  exact ⟨m, s, hmount, hrun, (directory_enumeration hmount hrun hget hdir).mpr hholds⟩

/-- Of two files, the second is not found after the first has been removed. -/
theorem second_not_enumerated : ∃ m s, Instance.mount = some m ∧
    Run dirStep (fun _ _ => True) m [.mkfile 2 "a" 0, .mkfile 2 "b" 0, .unlink 2 "a"] s ∧
    s.enumerate 2 1 0 = some [] ∧ names (s.node 0).dentries = ["b"] :=
  ⟨_, _, rfl, .cons trivial rfl (.cons trivial rfl (.cons trivial rfl (.nil _))), rfl, rfl⟩

end Kairax.Tmpfs
