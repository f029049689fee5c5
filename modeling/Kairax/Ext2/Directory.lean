import Kairax.Ext2.Dirent

/-!
# Directories

`ext2_find_dentry`, `ext2_file_readdir`, `ext2_remove_dentry` and `ext2_create_dentry`. A record is removed by
clearing its inode number. A new record goes behind the last one or into a new block. Where there is no room behind
the last record, it is written past the buffer.
-/

namespace Kairax.Ext2

open Lib List Option
open BitVec (ofNat)

/-- `strncmp(a, b, len) == 0` as the kernel has it. -/
def strncmpZero (a b : List Byte) (len : Nat) : Bool := (range len).all fun k => a.getD k 0 == b.getD k 0

/-- The test for a name in `ext2_find_dentry` and `ext2_remove_dentry`. -/
def Rec.hasName (r : Rec) (name : List Byte) : Bool :=
  r.inode != 0 && strncmpZero r.name name r.name.length && name.length == r.name.length

/-- `ext2_dt_to_vfs_dt` -/
def dtToVfs : Nat → Nat
  | 1 => 8
  | 7 => 10
  | 2 => 4
  | 3 => 2
  | 5 => 1
  | 4 => 6
  | 6 => 12
  | _ => 0

def atName (name : List Byte) (_ : Unit) (c : Cursor) : Cursor ⊕ Unit :=
  if c.record.hasName name then .inl c else .inr ()

/-- `ext2_find_dentry`: the inode number and the type, or `WRONG_INODE_INDEX`. -/
def findDentry (inst : Inst) (n : Nat) (name : List Byte) : Option (Option (Nat × Nat)) :=
  (scanDir false inst (inst.inode n) (atName name) fun _ => ()).map fun
    | .inl c => some (c.record.inode, dtToVfs c.record.type)
    | .inr () => none

/-- `ext2_remove_dentry`, with the type of the record. -/
def removeDentry (inst : Inst) (n : Nat) (name : List Byte) : Option (Int × Nat × Inst) :=
  (scanDir false inst (inst.inode n) (atName name) fun _ => ()).bind fun
    | .inl c =>
      (writeInodeBlock inst (inst.inode n) n (ofNat 32 c.block) (writeLE c.buffer c.inBlock 4 0)).map
        fun (rc, inst, _) => (rc, c.record.type, inst)
    | .inr () => some (-enoent, 0, inst)

def atIndex (index passed : Nat) (c : Cursor) : Cursor ⊕ Nat :=
  if c.record.inode ≠ 0 then if passed = index then .inl c else .inr (passed + 1) else .inr passed

/-- `ext2_file_readdir`: the inode number, the name and the type. The name is copied up to a zero byte. -/
def fileReaddir (inst : Inst) (n index : Nat) : Option (Option (Nat × List Byte × Nat)) :=
  (scanDir false inst (inst.inode n) (atIndex index) fun _ => 0).map fun
    | .inl c => some (c.record.inode, c.record.name.takeWhile (· ≠ 0), dtToVfs c.record.type)
    | .inr _ => none

/-- The walk of `ext2_create_dentry`: it stops at the last record, if that is longer than it needs to be. -/
def atSlack (size : Nat) (_ : Cursor) (c : Cursor) : Cursor ⊕ Cursor :=
  if c.record.size ≠ alignedLen c.record.name.length ∧ c.offset + c.record.size = size then .inl c else .inr c.advance

/-- The end of `ext2_create_dentry`. What is put past the end of the buffer is lost. -/
def putDentry (inst : Inst) (ino : Buf) (n block o : Nat) (buf : Buf) (name : List Byte) (inode type : Nat) :
    Option (Int × Inst) :=
  (writeInodeBlock inst ino n (ofNat 32 block)
    (putRec buf o inode (2 ^ 64 + inst.blockSize - o) type name)).map fun (rc, inst, _) => (rc, inst)

/-- `ext2_create_dentry` -/
def createDentry (inst : Inst) (n : Nat) (name : List Byte) (inode type : Nat) : Option (Int × Inst) :=
  let ino := inst.inode n
  -- the mode is tested with `EXT2_DT_CHR`
  if Inode.mode ino % 4 = 0 then some (-1, inst)
  else (scanDir true inst ino (atSlack (Inode.size ino)) id).bind fun
    | .inl c =>
      let o := c.inBlock + alignedLen c.record.name.length
      if inst.blockSize ≤ o + alignedLen name.length then
        -- the result of the allocation is not looked at
        (allocInodeBlock inst ino n (ofNat 32 (c.block + 1))).bind fun (_, _, inst, ino) =>
          let ino := Inode.setSize ino (Inode.size ino + inst.blockSize)
          putDentry (inst.writeInodeMetadata ino n) ino n (c.block + 1) 0 (fun _ => 0) name inode type
      else
        putDentry inst ino n c.block o (writeLE c.buffer (c.inBlock + 4) 2 (alignedLen c.record.name.length)) name inode
          type
    | .inr c => putDentry inst ino n c.block c.inBlock c.buffer name inode type

theorem removeDentry_steady (inst : Inst) (n : Nat) (name : List Byte) :
    Steadily (·.2.2) inst (removeDentry inst n name) := by
  rw [removeDentry]
  cases scanDir false inst (inst.inode n) (atName name) fun _ => () with
  | none => exact .none
  | some found =>
    cases found with
    | inl c => exact Along.map (fun x hx => (writeInodeBlock_steady inst _ n _ _ x hx).1) fun (_, inst, _) => .refl inst
    | inr _ => exact .some (.refl inst)

theorem putDentry_steady (inst : Inst) (ino : Buf) (n block o : Nat) (buf : Buf) (name : List Byte) (inode type : Nat) :
    Steadily (·.2) inst (putDentry inst ino n block o buf name inode type) :=
  Along.map (fun x hx => (writeInodeBlock_steady inst ino n _ _ x hx).1) fun (_, inst, _) => .refl inst

theorem createDentry_steady (inst : Inst) (n : Nat) (name : List Byte) (inode type : Nat) :
    Steadily (·.2) inst (createDentry inst n name inode type) := by
  rw [createDentry]
  split_ifs with hmode
  · exact .some (.refl inst)
  cases scanDir true inst (inst.inode n) (atSlack (Inode.size (inst.inode n))) id with
  | none => exact .none
  | some found =>
    rw [bind_some]
    cases found with
    | inl c =>
      dsimp only
      split_ifs
      · refine Along.bind (fun x hx => (allocInodeBlock_steady inst _ n _ x hx).1) fun (_, _, inst, ino) => ?_
        intro x hx
        exact (Inst.Steady.writeInodeMetadata inst _ n).trans (putDentry_steady _ _ _ _ _ _ _ _ _ x hx)
      · exact putDentry_steady _ _ _ _ _ _ _ _ _
    | inr c => exact putDentry_steady _ _ _ _ _ _ _ _ _

theorem strncmpZero_iff {a b : List Byte} (hlen : b.length = a.length) : strncmpZero a b a.length = true ↔ a = b := by
  rw [strncmpZero, List.all_eq_true]
  constructor
  · intro hall
    apply List.ext_getElem hlen.symm
    intro k hk hk'
    have := hall k (List.mem_range.mpr hk)
    rw [beq_iff_eq, List.getD_eq_getElem?_getD, List.getD_eq_getElem?_getD, List.getElem?_eq_getElem hk,
      List.getElem?_eq_getElem hk'] at this
    exact this
  · intro heq k _
    rw [heq]
    exact beq_self_eq_true _

variable {name : List Byte} {r : Rec}

theorem Rec.hasName_iff : r.hasName name = true ↔ r.inode ≠ 0 ∧ r.name = name := by
  rw [Rec.hasName, Bool.and_eq_true, Bool.and_eq_true, bne_iff_ne, beq_iff_eq]
  constructor
  · intro ⟨⟨hlive, hcmp⟩, hlen⟩
    exact ⟨hlive, (strncmpZero_iff hlen).mp hcmp⟩
  · intro ⟨hlive, heq⟩
    exact ⟨⟨hlive, (strncmpZero_iff (by rw [heq])).mpr heq⟩, by rw [heq]⟩

theorem walk_atName (name : List Byte) (cs : List Cursor) :
    walk (atName name) () cs =
      match cs.find? (·.record.hasName name) with
      | some c => .inl c
      | none => .inr () := by
  induction cs with
  | nil => rfl
  | cons c cs ih =>
    rw [walk, atName, find?_cons]
    cases c.record.hasName name with
    | true => rfl
    | false => exact ih

theorem walk_atIndex (index : Nat) (cs : List Cursor) :
    ∀ passed, passed ≤ index →
      match (cs.filter (·.record.inode ≠ 0))[index - passed]? with
      | some c => walk (atIndex index) passed cs = .inl c
      | none => ∃ count, walk (atIndex index) passed cs = .inr count := by
  induction cs with
  | nil => exact fun passed _ => ⟨passed, rfl⟩
  | cons c cs ih =>
    intro passed hle
    rw [walk, atIndex, filter_cons]
    by_cases hlive : c.record.inode ≠ 0
    · rw [if_pos (decide_eq_true hlive)]
      split_ifs with hindex
      · rw [hindex, Nat.sub_self]
        rfl
      · rw [show index - passed = index - (passed + 1) + 1 by omega]
        exact ih (passed + 1) (by omega)
    · rw [if_neg hlive, if_neg (by simpa using hlive)]
      exact ih passed hle

structure Entry where
  name : List Byte
  inode : Nat
  type : Nat
  deriving DecidableEq

def Rec.entry (r : Rec) : Entry := ⟨r.name, r.inode, r.type⟩

def live (recs : List Rec) : List Rec := recs.filter (·.inode ≠ 0)

def entries (recs : List Rec) : List Entry := (live recs).map Rec.entry

def lookup (es : List Entry) (name : List Byte) : Option Entry := es.find? (·.name = name)

def Entry.target (e : Entry) : Nat × Nat := (e.inode, dtToVfs e.type)

theorem entries_append (recs recs' : List Rec) : entries (recs ++ recs') = entries recs ++ entries recs' := by
  rw [entries, live, filter_append, map_append]
  rfl

theorem entries_of_dead (hdead : r.inode = 0) : entries [r] = [] := by
  rw [entries, live, filter_singleton, decide_eq_false (not_not.mpr hdead)]
  rfl

theorem entries_of_live (hlive : r.inode ≠ 0) : entries [r] = [r.entry] := by
  rw [entries, live, filter_singleton, decide_eq_true hlive]
  rfl

theorem lookup_entries (recs : List Rec) (name : List Byte) :
    lookup (entries recs) name = (recs.find? (·.hasName name)).map Rec.entry := by
  rw [lookup, entries, live, find?_map, find?_filter]
  congr 2
  funext r
  rw [Bool.eq_iff_iff, Rec.hasName_iff, decide_eq_true_iff, decide_eq_true_iff]
  exact and_congr_right fun _ => decide_eq_true_iff

variable {inst : Inst} {n : Nat} {blocks : List (List Rec)}

theorem findDentry_eq (hent : Entries (inst.blockSize / 4)) (hdir : IsDir inst (inst.inode n) blocks)
    (name : List Byte) : findDentry inst n name = some ((lookup (entries blocks.flatten) name).map Entry.target) := by
  rw [findDentry, scanDir_eq false _ hent hdir, walk_atName, lookup_entries, ← hdir.records, find?_map,
    Function.comp_def]
  cases (dirCursors inst.blockSize (fileBlock inst (inst.inode n)) 0 blocks).find? (·.record.hasName name) with
  | none | some c => rfl

theorem fileReaddir_eq (hent : Entries (inst.blockSize / 4)) (hdir : IsDir inst (inst.inode n) blocks) (index : Nat) :
    fileReaddir inst n index = some ((entries blocks.flatten)[index]?.map fun e =>
      (e.inode, e.name.takeWhile (· ≠ 0), dtToVfs e.type)) := by
  have hwalk := walk_atIndex index (dirCursors inst.blockSize (fileBlock inst (inst.inode n)) 0 blocks) 0
    (Nat.zero_le _)
  rw [fileReaddir, scanDir_eq false _ hent hdir, entries, live, ← hdir.records, List.filter_map,
    List.getElem?_map, List.getElem?_map, Function.comp_def]
  rw [Nat.sub_zero] at hwalk
  cases hc :
      ((dirCursors inst.blockSize (fileBlock inst (inst.inode n)) 0 blocks).filter (·.record.inode ≠ 0))[index]? with
  | none =>
    rw [hc] at hwalk
    obtain ⟨count, hwalk⟩ := hwalk
    rw [hwalk]
    rfl
  | some c =>
    rw [hc] at hwalk
    rw [hwalk]
    rfl

variable {rs rs' : List Rec}

section Change

variable {inst' : Inst} {ino ino' : Buf} {pre post : List (List Rec)}

theorem IsDir.tile (hdir : IsDir inst ino (pre ++ rs :: post)) :
    Tiles (fileBlock inst ino pre.length) inst.blockSize 0 rs := by
  apply hdir.tiles
  rw [getElem?_append_right (le_refl _), Nat.sub_self]
  rfl

theorem IsDir.replace (hdir : IsDir inst ino (pre ++ rs :: post)) (hbs : inst'.blockSize = inst.blockSize)
    (hsize : Inode.size ino' = Inode.size ino)
    (hothers : ∀ j, j ≠ pre.length → fileBlock inst' ino' j = fileBlock inst ino j)
    (htiles : Tiles (fileBlock inst' ino' pre.length) inst.blockSize 0 rs') :
    IsDir inst' ino' (pre ++ rs' :: post) := by
  constructor
  · rw [hsize, hdir.size, hbs, length_append, length_append, length_cons, length_cons]
  · intro j recs hj
    rw [hbs]
    by_cases heq : j = pre.length
    · subst heq
      rw [getElem?_append_right (le_refl _), Nat.sub_self] at hj
      obtain rfl : rs' = recs := some.inj hj
      exact htiles
    · rw [hothers j heq]
      apply hdir.tiles
      by_cases hlt : j < pre.length
      · rwa [getElem?_append_left hlt] at hj ⊢
      · obtain ⟨k, rfl⟩ := Nat.exists_eq_add_of_lt (show pre.length < j by omega)
        rw [getElem?_append_right (by omega), show pre.length + k + 1 - pre.length = k + 1 by omega] at hj ⊢
        exact hj

theorem IsDir.extend (hdir : IsDir inst ino blocks) (hbs : inst'.blockSize = inst.blockSize)
    (hsize : Inode.size ino' = Inode.size ino + inst.blockSize)
    (hothers : ∀ j, j ≠ blocks.length → fileBlock inst' ino' j = fileBlock inst ino j)
    (htiles : Tiles (fileBlock inst' ino' blocks.length) inst.blockSize 0 rs) : IsDir inst' ino' (blocks ++ [rs]) := by
  constructor
  · rw [hsize, hdir.size, hbs, List.length_append, List.length_singleton, add_mul, one_mul]
  · intro j recs hj
    rw [hbs]
    by_cases hlt : j < blocks.length
    · rw [hothers j hlt.ne]
      rw [List.getElem?_append_left hlt] at hj
      exact hdir.tiles j recs hj
    · rw [List.getElem?_append_right (not_lt.mp hlt)] at hj
      obtain ⟨hlen, heq⟩ := List.getElem?_eq_some_iff.mp hj
      rw [List.getElem_singleton] at heq
      rw [List.length_singleton] at hlen
      rwa [← heq, show j = blocks.length by omega]

end Change

section Tiles

variable {buf : Buf} {e o m m' : Nat}

theorem Tiles.end_unique (htiles : Tiles buf m o rs) (htiles' : Tiles buf m' o rs) : m = m' := by
  induction rs generalizing o with
  | nil => exact (Eq.symm htiles).trans htiles'
  | cons r rs ih => exact ih htiles.2.2 htiles'.2.2

theorem Tiles.clip (htiles : Tiles buf e o rs) : Tiles (clip e buf) e o rs :=
  htiles.congr fun _ _ hp => (clip_apply hp).symm

theorem Tiles.at_append (htiles : Tiles buf e o (rs ++ r :: rs')) (hrs : Tiles buf m o rs) :
    recAt buf m = r ∧ alignedLen r.name.length ≤ r.size ∧ Tiles buf e (m + r.size) rs' := by
  obtain ⟨m', hrs', hrest⟩ := tiles_append.mp htiles
  rw [hrs.end_unique hrs']
  exact hrest

theorem Tiles.clear (htiles : Tiles buf e o (rs ++ r :: rs')) (hrs : Tiles buf m o rs) :
    Tiles (writeLE buf m 4 0) e o (rs ++ { r with inode := 0 } :: rs') := by
  obtain ⟨hr, hneed, hrest⟩ := htiles.at_append hrs
  have hlen := le_alignedLen r.name.length
  refine tiles_append.mpr ⟨m, hrs.congr fun p _ hp => (writeLE_of_outside (.inl hp)).symm, ?_, hneed, ?_⟩
  · rw [recAt_setInode, hr]
    rfl
  · exact hrest.congr fun p hp _ => (writeLE_of_outside (by omega)).symm

theorem Tiles.split (htiles : Tiles buf e o (rs ++ [r])) (hrs : Tiles buf m o rs) (he : e ≤ 2 ^ 16)
    (hname : name.length < 256) {inode type : Nat} (hinode : inode < 2 ^ 32) (htype : type < 2 ^ 8) (size : Nat)
    (hsize : size % 2 ^ 16 = (e - (m + alignedLen r.name.length)) % 2 ^ 16)
    (hfits : m + alignedLen r.name.length + alignedLen name.length < e) :
    Tiles (putRec (writeLE buf (m + 4) 2 (alignedLen r.name.length)) (m + alignedLen r.name.length) inode size
      type name)
      e o (rs ++ [{ r with size := alignedLen r.name.length },
        ⟨inode, e - (m + alignedLen r.name.length), type, name⟩]) := by
  obtain ⟨hr, -, -⟩ := htiles.at_append hrs
  have hlen := le_alignedLen r.name.length
  have hput (p : Nat) (hp : p < m + alignedLen r.name.length) :
      putRec (writeLE buf (m + 4) 2 (alignedLen r.name.length)) (m + alignedLen r.name.length) inode size type name p =
        writeLE buf (m + 4) 2 (alignedLen r.name.length) p := putRec_of_outside (.inl hp)
  have hcut : recAt (writeLE buf (m + 4) 2 (alignedLen r.name.length)) m =
      { r with size := alignedLen r.name.length } := by
    rw [recAt_setSize, hr, Nat.mod_eq_of_lt (by omega)]
  refine tiles_append.mpr ⟨m, hrs.congr fun p _ hp => ?_, ?_, le_rfl, ?_, ?_, ?_⟩
  · rw [hput p (by omega), writeLE_of_outside (by omega)]
  · rw [← hcut]
    apply recAt_congr
    intro p _ hp
    rw [hcut] at hp
    dsimp only at hp
    exact (hput p (by omega)).symm
  · rw [recAt_putRec inode size type hname, Nat.mod_eq_of_lt hinode, Nat.mod_eq_of_lt htype, hsize,
      Nat.mod_eq_of_lt (by omega)]
  · dsimp only
    omega
  · show m + alignedLen r.name.length + (e - (m + alignedLen r.name.length)) = e
    omega

theorem Tiles.alone (hname : name.length < 256) {inode type : Nat} (hinode : inode < 2 ^ 32) (htype : type < 2 ^ 8)
    {size : Nat} (hsize : size % 2 ^ 16 = e) (he : 266 ≤ e) :
    Tiles (putRec buf 0 inode size type name) e 0 [⟨inode, e, type, name⟩] := by
  have hlen := alignedLen_le name.length
  refine ⟨?_, ?_, zero_add e⟩
  · rw [recAt_putRec inode size type hname, Nat.mod_eq_of_lt hinode, Nat.mod_eq_of_lt htype, hsize]
  · dsimp only
    omega

end Tiles

def HasRoom (G : Geo) (blocks : List (List Rec)) (name : List Byte) : Prop :=
  ∃ r, blocks.getLast?.bind getLast? = some r ∧ r.size ≠ alignedLen r.name.length ∧
    (alignedLen r.name.length + alignedLen name.length < r.size ∨
      (blocks.length < doubleEnd G ∧ G.blockSize < 2 ^ 16 ∧ (blocks.length + 1) * G.blockSize < 2 ^ 32))

def Rec.shape (r : Rec) : Nat × Nat := (r.size, r.name.length)

theorem HasRoom.congr {G : Geo} {blocks' : List (List Rec)}
    (hshape : blocks'.map (map Rec.shape) = blocks.map (map Rec.shape)) (hroom : HasRoom G blocks name) :
    HasRoom G blocks' name := by
  have hlength : blocks'.length = blocks.length := by
    rw [← length_map (map Rec.shape), hshape, length_map]
  have hlast (bs : List (List Rec)) : (bs.getLast?.bind getLast?).map Rec.shape =
      (bs.map (map Rec.shape)).getLast?.bind getLast? := by
    rw [getLast?_map]
    cases bs.getLast? with
    | none => rfl
    | some rs => exact getLast?_map.symm
  obtain ⟨r, hr, hslack, hplace⟩ := hroom
  have hsame := hlast blocks'
  rw [hshape, ← hlast blocks, hr] at hsame
  obtain ⟨r', hr', hshaped⟩ := map_eq_some_iff.mp hsame
  obtain ⟨hsize, hname⟩ := Prod.mk.inj hshaped
  refine ⟨r', hr', ?_⟩
  rw [hsize, hname, hlength]
  exact ⟨hslack, hplace⟩

section Remove

variable {G : Geo} {S : Nat → Prop} {s : Stage}

theorem flatten_split (pre post : List (List Rec)) (rs rs' : List Rec) (r : Rec) :
    (pre ++ (rs ++ r :: rs') :: post).flatten = (pre.flatten ++ rs) ++ r :: (rs' ++ post.flatten) := by
  rw [flatten_append, flatten_cons, append_assoc, append_assoc, cons_append]

theorem entries_clear {recs recs' : List Rec} (hr : r.hasName name = true)
    (hfirst : ∀ a ∈ recs, a.hasName name = false) :
    entries (recs ++ { r with inode := 0 } :: recs') =
      (entries (recs ++ r :: recs')).eraseP (·.name = name) := by
  obtain ⟨hlive, hname⟩ := Rec.hasName_iff.mp hr
  have hcons (r : Rec) : entries (recs ++ r :: recs') = entries recs ++ (entries [r] ++ entries recs') := by
    rw [← entries_append, ← entries_append, singleton_append]
  have herase : (r.entry :: entries recs').eraseP (·.name = name) = entries recs' :=
    eraseP_cons_of_pos (decide_eq_true hname)
  rw [hcons, hcons, entries_of_dead rfl, entries_of_live hlive, nil_append, singleton_append,
    eraseP_append_right, herase]
  intro e he hsame
  obtain ⟨a, ha, rfl⟩ := mem_map.mp he
  obtain ⟨hmem, halive⟩ := mem_filter.mp ha
  have hhas := Rec.hasName_iff.mpr ⟨of_decide_eq_true halive, of_decide_eq_true hsame⟩
  rw [hfirst a hmem] at hhas
  cases hhas

variable (hreg : G.Regular) (himage : s.Consistent G S) (hn : S n) (hin : G.HasInode n)

include hreg himage hn hin

theorem IsDir.writeInodeBlock
    (hdir : IsDir s.inst (s.inodes n) blocks) {i : Nat} (hi : i < blocks.length) (buf : Buf) :
    ∃ inst', Ext2.writeInodeBlock s.inst (s.inodes n) n (ofNat 32 i) buf = some (0, inst', s.inodes n) ∧
      Wrote G S n s ⟨inst', s.inodes, s.own⟩ ∧ inst'.exhausted = s.inst.exhausted ∧
      ∀ j, fileBlock inst' (s.inodes n) j =
        if j = i then clip G.blockSize buf else fileBlock s.inst (s.inodes n) j := by
  have hsize := himage.blockSize
  have hpresent := hdir.present (by rw [hsize]; exact hreg.blockSize_pos) hi
  rw [hsize] at hpresent
  obtain ⟨hread, b, hb⟩ := hpresent
  have hindex : (ofNat 32 i).toNat = i := toNat_ofNat_lt (hread.trans hreg.entries.readable_lt)
  have hwrite := writeInodeBlock_present hreg himage hn hin (by rwa [hindex])
    (by rwa [hindex]) buf
  rwa [hindex] at hwrite

theorem removeDentry_spec
    (hsynced : s.Synced n) (hdir : IsDir s.inst (s.inodes n) blocks) (name : List Byte) :
    (lookup (entries blocks.flatten) name = none ∧ removeDentry s.inst n name = some (-enoent, 0, s.inst)) ∨
      ∃ e inst' blocks', lookup (entries blocks.flatten) name = some e ∧
        removeDentry s.inst n name = some (0, e.type, inst') ∧ Wrote G S n s ⟨inst', s.inodes, s.own⟩ ∧
        inst'.exhausted = s.inst.exhausted ∧ IsDir inst' (s.inodes n) blocks' ∧
        entries blocks'.flatten = (entries blocks.flatten).eraseP (·.name = name) ∧
        blocks'.map (map Rec.shape) = blocks.map (map Rec.shape) := by
  have hsize := himage.blockSize
  have hent := hreg.entries
  rw [lookup_entries, ← hdir.records, find?_map, Function.comp_def, removeDentry,
    show s.inst.inode n = s.inodes n from hsynced, scanDir_eq false _ (by rwa [hsize]) hdir, walk_atName,
    Option.bind_some]
  cases hfind : (dirCursors s.inst.blockSize (fileBlock s.inst (s.inodes n)) 0 blocks).find?
    (·.record.hasName name) with
  | none => exact .inl ⟨rfl, rfl⟩
  | some c =>
    right
    obtain ⟨hhas, before, after, hcursors, hfirst⟩ := find?_eq_some_iff_append.mp hfind
    obtain ⟨pre, rs₁, rs₂, post, hblocks, htiles, hcursor, hbefore⟩ := hdir.cursors_split hcursors
    have hlt : pre.length < blocks.length := by
      rw [hblocks, length_append, length_cons]
      omega
    have htile := (hblocks ▸ hdir).tile
    obtain ⟨inst', hcall, hwrote, hexhausted, hput⟩ := hdir.writeInodeBlock hreg himage hn hin hlt
      (writeLE c.buffer c.inBlock 4 0)
    have hbuffer : c.buffer = fileBlock s.inst (s.inodes n) pre.length := congrArg Cursor.buffer hcursor
    have hblock : c.block = pre.length := congrArg Cursor.block hcursor
    refine ⟨c.record.entry, inst', pre ++ (rs₁ ++ { c.record with inode := 0 } :: rs₂) :: post, rfl, ?_, hwrote,
      hexhausted, ?_, ?_, ?_⟩
    · dsimp only
      rw [hblock, hcall]
      rfl
    · rw [hblocks] at hdir
      apply hdir.replace (hwrote.image.blockSize.trans hsize.symm) rfl
      · intro j hj
        rw [hput, if_neg hj]
      · rw [hput, if_pos rfl, hbuffer, ← hsize]
        exact (htile.clear htiles).clip
    · rw [hdir.records, hblocks, flatten_split, flatten_split]
      apply entries_clear hhas
      intro a ha
      rw [← hbefore] at ha
      obtain ⟨d, hd, rfl⟩ := mem_map.mp ha
      simpa using hfirst d hd
    · rw [hblocks, map_append, map_append, map_cons, map_cons, map_append, map_append]
      rfl

end Remove

section Last

variable {inst : Inst} {ino : Buf} {pre : List (List Rec)} {rs : List Rec} {r : Rec} {m : Nat}

theorem walk_passes {α β : Type} {visit : α → Cursor → β ⊕ α} {cs : List Cursor}
    (hpass : ∀ c ∈ cs, ∀ acc, ∃ acc', visit acc c = .inr acc') (acc : α) : ∃ acc', walk visit acc cs = .inr acc' := by
  induction cs generalizing acc with
  | nil => exact ⟨acc, rfl⟩
  | cons c cs ih =>
    obtain ⟨acc', hvisit⟩ := hpass c mem_cons_self acc
    rw [walk, hvisit]
    exact ih (fun d hd => hpass d (mem_cons_of_mem c hd)) acc'

def lastCursor (inst : Inst) (ino : Buf) (i m : Nat) : Cursor := ⟨i * inst.blockSize + m, m, i, fileBlock inst ino i⟩

theorem IsDir.cursors_last (hdir : IsDir inst ino (pre ++ [rs ++ [r]]))
    (hrs : Tiles (fileBlock inst ino pre.length) m 0 rs) :
    ∃ cs, dirCursors inst.blockSize (fileBlock inst ino) 0 (pre ++ [rs ++ [r]]) =
        cs ++ [lastCursor inst ino pre.length m] ∧
      ∀ c ∈ cs, c.offset + c.record.size ≤ pre.length * inst.blockSize + m := by
  refine ⟨dirCursors inst.blockSize (fileBlock inst ino) 0 pre ++
    blockCursors inst.blockSize (fileBlock inst ino pre.length) pre.length 0 rs, ?_, ?_⟩
  · rw [dirCursors_append, zero_add, dirCursors, dirCursors, append_nil, blockCursors_append hrs, append_assoc]
    rfl
  intro c hc
  rw [mem_append] at hc
  obtain hc | hc := hc
  · obtain ⟨before, after, hsplit⟩ := append_of_mem hc
    have htiles (k : Nat) (rs' : List Rec) (hk : pre[k]? = some rs') :
        Tiles (fileBlock inst ino (0 + k)) inst.blockSize 0 rs' := by
      apply hdir.tiles_zero_add
      rw [List.getElem?_append_left (List.getElem?_eq_some_iff.mp hk).1]
      exact hk
    obtain ⟨pre', rs₁, rs₂, post, hpre, htiles₁, hcursor, -⟩ := dirCursors_split htiles hsplit
    have htile := htiles pre'.length (rs₁ ++ c.record :: rs₂) (by
      rw [hpre, getElem?_append_right (le_refl _), Nat.sub_self]
      rfl)
    have hle := (htile.at_append htiles₁).2.2.le
    have hmul : (pre'.length + 1) * inst.blockSize ≤ pre.length * inst.blockSize := by
      apply Nat.mul_le_mul_right
      rw [hpre, length_append, length_cons]
      omega
    have hoffset : c.offset = (0 + pre'.length) * inst.blockSize + c.inBlock := congrArg Cursor.offset hcursor
    rw [add_mul] at hmul
    rw [hoffset, zero_add]
    omega
  · obtain ⟨before, after, hsplit⟩ := append_of_mem hc
    obtain ⟨rs₁, rs₂, heq, htiles₁, hcursor, -⟩ := blockCursors_split hrs hsplit
    rw [heq] at hrs
    have hle := (hrs.at_append htiles₁).2.2.le
    have hoffset : c.offset = pre.length * inst.blockSize + c.inBlock := congrArg Cursor.offset hcursor
    omega

theorem IsDir.scan_slack (hent : Entries (inst.blockSize / 4)) (hdir : IsDir inst ino (pre ++ [rs ++ [r]]))
    (hrs : Tiles (fileBlock inst ino pre.length) m 0 rs) (hslack : r.size ≠ alignedLen r.name.length) :
    scanDir true inst ino (atSlack (Inode.size ino)) id = some (.inl (lastCursor inst ino pre.length m)) := by
  obtain ⟨cs, hcursors, hbefore⟩ := hdir.cursors_last hrs
  obtain ⟨hr, hneed, hend⟩ := hdir.tile.at_append hrs
  have hend : m + r.size = inst.blockSize := hend
  have hsize : Inode.size ino = pre.length * inst.blockSize + inst.blockSize := by
    rw [hdir.size, length_append, length_singleton, add_mul, one_mul]
  have hpass (c : Cursor) (hc : c ∈ cs) (acc : Cursor) : ∃ acc', atSlack (Inode.size ino) acc c = .inr acc' := by
    have hle := hbefore c hc
    exact ⟨c.advance, if_neg (by omega)⟩
  obtain ⟨acc, hwalk⟩ := walk_passes hpass ⟨0, 0, 0, fileBlock inst ino 0⟩
  have hrecord : (lastCursor inst ino pre.length m).record = r := hr
  have hlast : (lastCursor inst ino pre.length m).offset + r.size = Inode.size ino := by
    rw [lastCursor]
    dsimp only
    omega
  rw [scanDir_eq true _ hent hdir, hcursors, walk_append, id, hwalk]
  dsimp only
  rw [walk, atSlack, hrecord, if_pos ⟨hslack, hlast⟩]

end Last

section Create

variable {G : Geo} {S : Nat → Prop} {s : Stage} {n : Nat} {pre blocks : List (List Rec)} {rs : List Rec} {r : Rec}
  {name : List Byte} {inode type : Nat}

/-- Of the inode only `size`, `num_blocks` and the entries change. -/
def Stage.SameHeader (n : Nat) (s s' : Stage) : Prop :=
  ∀ p, p < 4 ∨ (8 ≤ p ∧ p < 28) ∨ (32 ≤ p ∧ p < 40) ∨ 100 ≤ p → s'.inodes n p = s.inodes n p

structure NewName (name : List Byte) (inode type : Nat) : Prop where
  length_lt : name.length < 256
  inode_ne : inode ≠ 0
  inode_lt : inode < 2 ^ 32
  type_lt : type < 2 ^ 8

theorem Geo.Regular.blockSize_le (hreg : G.Regular) : G.blockSize ≤ 2 ^ 16 := by
  obtain ⟨k, hk, hsize⟩ := hreg.sized
  rw [hsize]
  interval_cases k <;> decide

theorem IsDir.ends (hdir : IsDir s.inst (s.inodes n) (pre ++ [rs ++ [r]])) :
    ∃ m, Tiles (fileBlock s.inst (s.inodes n) pre.length) m 0 rs ∧
      recAt (fileBlock s.inst (s.inodes n) pre.length) m = r ∧
      alignedLen r.name.length ≤ r.size ∧ m + r.size = s.inst.blockSize := by
  obtain ⟨m, hrs, hr, hneed, hend⟩ := tiles_append.mp hdir.tile
  exact ⟨m, hrs, hr, hneed, hend⟩

section

variable (hreg : G.Regular) (himage : s.Consistent G S)
include hreg himage

theorem createDentry_eq (hsynced : s.Synced n)
    (hdir : IsDir s.inst (s.inodes n) (pre ++ [rs ++ [r]])) (hmode : Inode.mode (s.inodes n) % 4 ≠ 0)
    (hslack : r.size ≠ alignedLen r.name.length) {m : Nat}
    (hrs : Tiles (fileBlock s.inst (s.inodes n) pre.length) m 0 rs) :
    createDentry s.inst n name inode type =
      if s.inst.blockSize ≤ m + alignedLen r.name.length + alignedLen name.length then
        (allocInodeBlock s.inst (s.inodes n) n (ofNat 32 (pre.length + 1))).bind fun (_, _, inst, ino) =>
          let ino := Inode.setSize ino (Inode.size ino + inst.blockSize)
          putDentry (inst.writeInodeMetadata ino n) ino n (pre.length + 1) 0 (fun _ => 0) name inode type
      else
        putDentry s.inst (s.inodes n) n pre.length (m + alignedLen r.name.length)
          (writeLE (fileBlock s.inst (s.inodes n) pre.length) (m + 4) 2 (alignedLen r.name.length))
          name inode type := by
  have hscan := hdir.scan_slack (by rw [himage.blockSize]; exact hreg.entries) hrs hslack
  have hrecord : (lastCursor s.inst (s.inodes n) pre.length m).record = r := (hdir.tile.at_append hrs).1
  rw [createDentry, show s.inst.inode n = s.inodes n from hsynced, if_neg hmode, hscan, bind_some]
  dsimp only
  rw [hrecord]
  rfl

variable (hn : S n) (hin : G.HasInode n) (hsynced : s.Synced n)
  (hdir : IsDir s.inst (s.inodes n) (pre ++ [rs ++ [r]])) (hmode : Inode.mode (s.inodes n) % 4 ≠ 0)

include hn hin hsynced hdir hmode in
theorem createDentry_behind (hnew : NewName name inode type)
    (hfits : alignedLen r.name.length + alignedLen name.length < r.size) :
    ∃ inst', createDentry s.inst n name inode type = some (0, inst') ∧ Wrote G S n s ⟨inst', s.inodes, s.own⟩ ∧
      inst'.exhausted = s.inst.exhausted ∧
      IsDir inst' (s.inodes n) (pre ++ [rs ++ [{ r with size := alignedLen r.name.length },
        ⟨inode, r.size - alignedLen r.name.length, type, name⟩]]) := by
  have hsize := himage.blockSize
  obtain ⟨m, hrs, -, -, hend⟩ := hdir.ends
  have hbs := hreg.blockSize_le
  obtain ⟨inst', hcall, hwrote, hexhausted, hput⟩ := hdir.writeInodeBlock hreg himage hn hin
    (by rw [length_append]; exact Nat.lt_succ_self _)
    (putRec (writeLE (fileBlock s.inst (s.inodes n) pre.length) (m + 4) 2 (alignedLen r.name.length))
      (m + alignedLen r.name.length) inode (2 ^ 64 + s.inst.blockSize - (m + alignedLen r.name.length)) type name)
  refine ⟨inst', ?_, hwrote, hexhausted, ?_⟩
  · rw [createDentry_eq hreg himage hsynced hdir hmode (by omega) hrs, if_neg (by omega), putDentry, hcall]
    rfl
  · apply hdir.replace (hwrote.image.blockSize.trans hsize.symm) rfl
    · intro j hj
      rw [hput, if_neg hj]
    · have hcut := hdir.tile.split hrs (by rwa [hsize]) hnew.length_lt hnew.inode_lt hnew.type_lt
        (2 ^ 64 + s.inst.blockSize - (m + alignedLen r.name.length)) (by omega) (by omega)
      rw [show s.inst.blockSize - (m + alignedLen r.name.length) = r.size - alignedLen r.name.length by omega] at hcut
      rw [hput, if_pos rfl, ← hsize]
      exact hcut.clip

theorem writeInodeBlock_spent {i : BitVec 32}
    (hi : i.toNat < readable (G.blockSize / 4)) (hleaf : s.leaf n (pathOf (G.blockSize / 4) i.toNat) = none)
    (hspent : s.inst.Spent) (buf : Buf) :
    writeInodeBlock s.inst (s.inodes n) n i buf = some (-enospc, s.inst.exhaust, s.inodes n) := by
  have hsize := himage.blockSize
  have hblock : blockAt (s.inodes n) s.inst.disk (pathOf (G.blockSize / 4) i.toNat) = none := hleaf
  rw [writeInodeBlock, inodeBlockAbsolute_eq (by rw [hsize]; exact hreg.entries) (by rwa [hsize]), hsize, bind_some,
    numberAt, hblock, getD_none, allocInodeBlock, hspent.fails]
  rfl

include hn hin hsynced hdir hmode in
theorem createDentry_extend (hslack : r.size ≠ alignedLen r.name.length)
    (hnew : NewName name inode type) (hfull : r.size ≤ alignedLen r.name.length + alignedLen name.length)
    (hindex : pre.length + 1 < doubleEnd G) (hbs : G.blockSize < 2 ^ 16)
    (hlimit : (pre.length + 2) * G.blockSize < 2 ^ 32) :
    ∃ rc s', createDentry s.inst n name inode type = some (rc, s'.inst) ∧ Wrote G S n s s' ∧ s.SameHeader n s' ∧
      ((rc ≠ 0 ∧ s'.inst.exhausted = true) ∨
        (rc = 0 ∧ IsDir s'.inst (s'.inodes n) ((pre ++ [rs ++ [r]]) ++ [[⟨inode, G.blockSize, type, name⟩]]))) := by
  have hsize := himage.blockSize
  obtain ⟨m, hrs, -, -, hend⟩ := hdir.ends
  have hnat : (ofNat 32 (pre.length + 1)).toNat = pre.length + 1 :=
    toNat_ofNat_lt (hindex.trans hreg.doubleEnd_lt)
  have hrange : (ofNat 32 (pre.length + 1)).toNat <
      12 + G.blockSize / 4 + G.blockSize / 4 * (G.blockSize / 4) := by
    rw [hnat]
    exact hindex
  have hread : pre.length + 1 < readable (G.blockSize / 4) := hindex.trans_le (Nat.le_add_right _ _)
  have hpath := hreg.entries.isPath_of_readable hread
  obtain ⟨rc₁, b, s₁, halloc, hsynced₁, hcase₁⟩ := allocInodeBlock_spec hreg himage hn hin hrange
  have hgrown₁ : ∃ leaf, Grown G S n s s₁ leaf ∧
      (∀ q, q ≠ pathOf (G.blockSize / 4) (pre.length + 1) → leaf q = s.leaf n q) ∧
      (leaf (pathOf (G.blockSize / 4) (pre.length + 1)) = none → s₁.inst.Spent) := by
    rw [hnat] at hcase₁
    cases hcase₁ with
    | inl hfail => exact ⟨_, hfail.2.2, fun _ _ => rfl, fun _ => hfail.1⟩
    | inr hdone =>
      refine ⟨_, hdone.2.2.2, fun q hq => if_neg hq, fun hnone => ?_⟩
      rw [if_pos rfl] at hnone
      cases hnone
  obtain ⟨leaf, hgrown₁, hleaf, hspent₁⟩ := hgrown₁
  have hwrote₁ : Wrote G S n s s₁ := hgrown₁.wrote hsynced₁
  have hrest₁ : s.SameRest n s₁ := hgrown₁.rest
  have hsize₁ := hwrote₁.image.blockSize
  -- the inode with its new size
  generalize hino₂ : Inode.setSize (s₁.inodes n) (Inode.size (s₁.inodes n) + s₁.inst.blockSize) = ino₂
  have hblock₂ (k : Nat) (_ : k < 15) : Inode.block ino₂ k = Inode.block (s₁.inodes n) k := by
    rw [← hino₂, Inode.block_setSize]
  have hwrote₂ : Wrote G S n s₁ (s₁.writeInode n ino₂) := by
    apply Wrote.writeInode hreg hwrote₁.image hin hblock₂
    intro hsync
    rw [← hino₂]
    exact hsync.fits.writeLE _ (by decide)
  have hino : (s₁.writeInode n ino₂).inodes n = ino₂ := Stage.inodes_writeInode ..
  have hleaf₂ : (s₁.writeInode n ino₂).leaf n (pathOf (G.blockSize / 4) (pre.length + 1)) =
      leaf (pathOf (G.blockSize / 4) (pre.length + 1)) := by
    refine Eq.trans ?_ (hgrown₁.leaves _ hpath (isLeaf_pathOf _ _))
    rw [Stage.leaf, hino]
    exact Image.blockAt_writeInode hwrote₁.image hin hblock₂ hn hpath
  have hheader : s.SameHeader n (s₁.writeInode n ino₂) := by
    intro p hp
    rw [hino, ← hino₂, Inode.setSize, writeLE_of_outside (by omega)]
    exact hrest₁ p (by omega)
  have hcreate : createDentry s.inst n name inode type =
      (writeInodeBlock (s₁.writeInode n ino₂).inst ino₂ n (ofNat 32 (pre.length + 1))
        (putRec (fun _ => 0) 0 inode (2 ^ 64 + (s₁.writeInode n ino₂).inst.blockSize - 0) type name)).map
          fun (rc, inst, _) => (rc, inst) := by
    rw [createDentry_eq hreg himage hsynced hdir hmode hslack hrs, if_pos (by omega), halloc, Option.bind_some]
    dsimp only
    rw [hino₂]
    rfl
  cases hb : leaf (pathOf (G.blockSize / 4) (pre.length + 1)) with
  | none =>
    have hspent := Image.spent_writeInode hwrote₁.image hin (hspent₁ hb) ino₂
    have hcall := writeInodeBlock_spent hreg hwrote₂.image
      (by rwa [hnat]) (by rw [hnat, hleaf₂, hb]) hspent
      (putRec (fun _ => 0) 0 inode (2 ^ 64 + (s₁.writeInode n ino₂).inst.blockSize - 0) type name)
    rw [hino] at hcall
    refine ⟨-enospc, ⟨(s₁.writeInode n ino₂).inst.exhaust, (s₁.writeInode n ino₂).inodes, s₁.own⟩, ?_,
      (hwrote₁.trans hwrote₂).trans ((Grown.exhaust hwrote₂.image).wrote id), hheader,
      .inl ⟨by decide, rfl⟩⟩
    rw [hcreate, hcall]
    rfl
  | some b =>
    obtain ⟨inst', hcall, hwrote₃, -, hput⟩ := writeInodeBlock_present hreg hwrote₂.image hn hin
      (by rwa [hnat]) (by rw [hnat, hleaf₂, hb])
      (putRec (fun _ => 0) 0 inode (2 ^ 64 + (s₁.writeInode n ino₂).inst.blockSize - 0) type name)
    refine ⟨0, ⟨inst', (s₁.writeInode n ino₂).inodes, s₁.own⟩, ?_, (hwrote₁.trans hwrote₂).trans hwrote₃, hheader,
      .inr ⟨rfl, ?_⟩⟩
    · rw [hino] at hcall
      rw [hcreate, hcall]
      rfl
    rw [hino] at hput
    apply hdir.extend (hwrote₃.image.blockSize.trans hsize.symm)
    · rw [hino, ← hino₂, Stage.SameRest.size hrest₁, hsize₁, hdir.size, hsize, length_append, length_singleton]
      apply (readLE_writeLE _ _ 4 _).trans
      apply Nat.mod_eq_of_lt
      rw [show pre.length + 2 = pre.length + 1 + 1 from rfl, add_mul, one_mul] at hlimit
      exact hlimit
    · intro j hj
      rw [length_append, length_singleton] at hj
      rw [hino, hput, hnat, if_neg hj, fileBlock_writeInode hreg hwrote₁.image hn hin hblock₂]
      exact hgrown₁.fileBlock_eq hreg himage hn (hleaf _ fun heq => hj (pathOf_injective heq))
    · have hge := hreg.entries.ge
      rw [length_append, length_singleton, hino, hput, hnat, if_pos rfl, hsize, hwrote₂.image.blockSize]
      apply Tiles.clip
      apply Tiles.alone hnew.length_lt hnew.inode_lt hnew.type_lt
      · omega
      · omega

end

theorem exists_last (hlast : blocks.getLast?.bind getLast? = some r) : ∃ pre rs, blocks = pre ++ [rs ++ [r]] := by
  obtain ⟨block, hblock, hr⟩ := bind_eq_some_iff.mp hlast
  obtain ⟨pre, rfl⟩ := getLast?_eq_some_iff.mp hblock
  obtain ⟨rs, rfl⟩ := getLast?_eq_some_iff.mp hr
  exact ⟨pre, rs, rfl⟩

theorem entries_last (pre : List (List Rec)) (rs rs' : List Rec) :
    entries (pre ++ [rs ++ rs']).flatten = entries (pre.flatten ++ rs) ++ entries rs' := by
  rw [flatten_append, flatten_singleton, ← append_assoc, entries_append]

theorem entries_resized (r : Rec) (size : Nat) : entries [{ r with size := size }] = entries [r] := by
  by_cases hdead : r.inode = 0
  · rw [entries_of_dead hdead, entries_of_dead (r := { r with size := size }) hdead]
  · rw [entries_of_live hdead, entries_of_live (r := { r with size := size }) hdead]
    rfl

theorem createDentry_spec (hreg : G.Regular) (himage : s.Consistent G S) (hn : S n) (hin : G.HasInode n)
    (hsynced : s.Synced n) (hdir : IsDir s.inst (s.inodes n) blocks) (hmode : Inode.mode (s.inodes n) % 4 ≠ 0)
    (hnew : NewName name inode type) (hroom : HasRoom G blocks name) :
    ∃ rc s', createDentry s.inst n name inode type = some (rc, s'.inst) ∧ Wrote G S n s s' ∧ s.SameHeader n s' ∧
      ((rc ≠ 0 ∧ s'.inst.exhausted = true) ∨
        (rc = 0 ∧ ∃ blocks', IsDir s'.inst (s'.inodes n) blocks' ∧
          entries blocks'.flatten = entries blocks.flatten ++ [⟨name, inode, type⟩])) := by
  obtain ⟨r, hlast, hslack, hplace⟩ := hroom
  obtain ⟨pre, rs, rfl⟩ := exists_last hlast
  have hentry (size : Nat) : entries [⟨inode, size, type, name⟩] = [⟨name, inode, type⟩] :=
    entries_of_live hnew.inode_ne
  by_cases hfits : alignedLen r.name.length + alignedLen name.length < r.size
  · obtain ⟨inst', hcall, hwrote, -, hdir'⟩ := createDentry_behind hreg himage hn hin hsynced hdir hmode hnew hfits
    refine ⟨0, ⟨inst', s.inodes, s.own⟩, hcall, hwrote, fun _ _ => rfl, .inr ⟨rfl, _, hdir', ?_⟩⟩
    have hpair : entries [{ r with size := alignedLen r.name.length },
        ⟨inode, r.size - alignedLen r.name.length, type, name⟩] = entries [r] ++ [⟨name, inode, type⟩] := by
      rw [← entries_resized r (alignedLen r.name.length), ← hentry (r.size - alignedLen r.name.length),
        ← entries_append]
      rfl
    rw [entries_last, entries_last, hpair, append_assoc]
  · obtain ⟨hindex, hbs, hlimit⟩ := hplace.resolve_left hfits
    rw [length_append] at hindex hlimit
    obtain ⟨rc, s', hcall, hwrote, hheader, hcase⟩ :=
      createDentry_extend hreg himage hn hin hsynced hdir hmode hslack hnew
      (not_lt.mp hfits) hindex hbs hlimit
    refine ⟨rc, s', hcall, hwrote, hheader, hcase.imp_right fun ⟨hrc, hdir'⟩ => ⟨hrc, _, hdir', ?_⟩⟩
    rw [flatten_append, flatten_singleton, entries_append, hentry]

end Create

end Kairax.Ext2
