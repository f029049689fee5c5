import Kairax.Ext2.Directory
import Mathlib.Data.List.TakeWhile

/-!
# Directories as finite maps

As long as every name that is created finds room, a directory stays well formed over any sequence of
`ext2_create_dentry` and `ext2_remove_dentry` and stands for a list of entries with different names.
-/

namespace Kairax.Ext2

open Lib List Option Function

section Entries

variable {es : List Entry} {name name' : List Byte} {e : Entry}

/-- Different names without zero bytes, as C strings are. -/
structure Names (es : List Entry) : Prop where
  nodup : (es.map Entry.name).Nodup
  string : ∀ e ∈ es, (0 : Byte) ∉ e.name

theorem lookup_eq_none : lookup es name = none ↔ name ∉ es.map Entry.name := by
  rw [lookup, List.find?_eq_none, List.mem_map, not_exists]
  constructor
  · intro hall e he
    exact hall e he.1 (decide_eq_true he.2)
  · intro hnone e he hname
    exact hnone e ⟨he, of_decide_eq_true hname⟩

theorem lookup_append : lookup (es ++ [e]) name = (lookup es name).or (if e.name = name then some e else none) := by
  rw [lookup, find?_append, find?_singleton]
  congr 1
  by_cases hname : e.name = name
  · rw [if_pos hname, if_pos (decide_eq_true hname)]
  · rw [if_neg hname, if_neg (by simpa using hname)]

theorem lookup_erase_of_ne (hne : name' ≠ name) : lookup (es.eraseP (·.name = name)) name' = lookup es name' := by
  induction es with
  | nil => rfl
  | cons e es ih =>
    by_cases hname : e.name = name
    · rw [eraseP_cons_of_pos (by simpa using hname), lookup, lookup,
        find?_cons_of_neg (by simpa [hname] using hne.symm)]
    · rw [eraseP_cons_of_neg (by simpa using hname)]
      rw [lookup, find?_cons, lookup, find?_cons]
      cases decide (e.name = name') with
      | true => rfl
      | false => exact ih

theorem Names.lookup_erase (hnames : Names es) : lookup (es.eraseP (·.name = name)) name = none := by
  rw [lookup_eq_none]
  obtain ⟨hnodup, -⟩ := hnames
  induction es with
  | nil => exact not_mem_nil
  | cons e es ih =>
    rw [map_cons, nodup_cons] at hnodup
    by_cases hname : e.name = name
    · rw [eraseP_cons_of_pos (by simpa using hname), ← hname]
      exact hnodup.1
    · rw [eraseP_cons_of_neg (by simpa using hname), map_cons, mem_cons, not_or]
      exact ⟨Ne.symm hname, ih hnodup.2⟩

theorem Names.append (hnames : Names es) (hnew : lookup es e.name = none) (hstring : (0 : Byte) ∉ e.name) :
    Names (es ++ [e]) := by
  constructor
  · rw [map_append, map_singleton, nodup_append]
    refine ⟨hnames.nodup, nodup_singleton _, fun a ha b hb heq => ?_⟩
    rw [mem_singleton] at hb
    rw [heq, hb] at ha
    exact lookup_eq_none.mp hnew ha
  · intro e' he'
    rw [mem_append, mem_singleton] at he'
    obtain he' | rfl := he'
    · exact hnames.string e' he'
    · exact hstring

theorem Names.erase (hnames : Names es) : Names (es.eraseP (·.name = name)) :=
  ⟨hnames.nodup.sublist (eraseP_sublist.map _), fun e he => hnames.string e (mem_of_mem_eraseP he)⟩

end Entries

/-- Inode `n` is a directory with these entries. -/
structure Stage.DirAt (G : Geo) (S : Nat → Prop) (n : Nat) (s : Stage) (es : List Entry) : Prop where
  image : s.Consistent G S
  synced : s.Synced n
  dir : ∃ blocks, IsDir s.inst (s.inodes n) blocks ∧ entries blocks.flatten = es

inductive DirOp where
  | create (name : List Byte) (inode type : Nat)
  | remove (name : List Byte)

def dirStep (n : Nat) (inst : Inst) : DirOp → Option Inst
  | .create name inode type => (createDentry inst n name inode type).map (·.2)
  | .remove name => (removeDentry inst n name).map (·.2.2)

def Room (inst : Inst) (n : Nat) (name : List Byte) : Prop :=
  Inode.mode (inst.inode n) % 4 = 0 ∨ ∃ blocks, IsDir inst (inst.inode n) blocks ∧ HasRoom inst.geo blocks name

def DirOp.Legal (n : Nat) (inst : Inst) : DirOp → Prop
  | .create name inode type =>
    NewName name inode type ∧ (0 : Byte) ∉ name ∧ findDentry inst n name = some none ∧ Room inst n name
  | .remove _ => True

section History

variable {G : Geo} {S : Nat → Prop} {n : Nat} {s : Stage} {es : List Entry} {name : List Byte} {inode type : Nat}

variable (hreg : G.Regular)

include hreg

theorem Stage.DirAt.find (hat : s.DirAt G S n es) (name : List Byte) :
    findDentry s.inst n name = some ((lookup es name).map Entry.target) := by
  obtain ⟨blocks, hdir, rfl⟩ := hat.dir
  apply findDentry_eq
  · rw [hat.image.blockSize]
    exact hreg.entries
  · rwa [hat.synced]

theorem Stage.DirAt.find_none (hat : s.DirAt G S n es) :
    findDentry s.inst n name = some none ↔ lookup es name = none := by
  rw [hat.find hreg, some.injEq, map_eq_none_iff]

theorem Stage.DirAt.readdir (hat : s.DirAt G S n es) (hnames : Names es) (index : Nat) :
    fileReaddir s.inst n index = some (es[index]?.map fun e => (e.inode, e.name, dtToVfs e.type)) := by
  obtain ⟨blocks, hdir, rfl⟩ := hat.dir
  rw [fileReaddir_eq (by rw [hat.image.blockSize]; exact hreg.entries) (by rwa [hat.synced])]
  congr 1
  apply Option.map_congr
  intro e he
  have hstring := hnames.string e (mem_of_getElem? he)
  have hwhole : e.name.takeWhile (· ≠ 0) = e.name := by
    rw [takeWhile_eq_self_iff]
    intro b hb
    rw [decide_eq_true_eq]
    rintro rfl
    exact hstring hb
  rw [hwhole]

theorem Stage.DirAt.remove (hn : S n) (hin : G.HasInode n) (hat : s.DirAt G S n es) (name : List Byte) :
    (lookup es name = none ∧ removeDentry s.inst n name = some (-enoent, 0, s.inst)) ∨
      ∃ e s', lookup es name = some e ∧ removeDentry s.inst n name = some (0, e.type, s'.inst) ∧ Wrote G S n s s' ∧
        s'.inodes = s.inodes ∧ s'.own = s.own ∧ s'.DirAt G S n (es.eraseP (·.name = name)) ∧
        ∀ name', Room s.inst n name' → Room s'.inst n name' := by
  obtain ⟨blocks, hdir, rfl⟩ := hat.dir
  obtain hnone | ⟨e, inst', blocks', hsome, hcall, hwrote, -, hdir', hentries, hshape⟩ :=
    removeDentry_spec hreg hat.image hn hin hat.synced hdir name
  · exact .inl hnone
  have hsynced : inst'.inode n = s.inodes n := hwrote.synced hat.synced
  refine .inr ⟨e, ⟨inst', s.inodes, s.own⟩, hsome, hcall, hwrote, rfl, rfl,
    ⟨hwrote.image, hsynced, blocks', hdir', hentries⟩, fun name' hroom => ?_⟩
  have hpos : 0 < s.inst.blockSize := by
    rw [hat.image.blockSize]
    exact hreg.blockSize_pos
  rw [Room, show s.inst.inode n = s.inodes n from hat.synced, hat.image.counted.geo] at hroom
  rw [Room, hsynced, show inst'.geo = G from hwrote.image.counted.geo]
  refine hroom.imp_right fun ⟨blocks₀, hdir₀, hhas⟩ => ⟨blocks', hdir', ?_⟩
  obtain rfl := hdir.unique hpos hdir₀
  exact hhas.congr hshape

theorem Stage.DirAt.create (hn : S n) (hin : G.HasInode n) (hat : s.DirAt G S n es)
    (hlegal : DirOp.Legal n s.inst (.create name inode type)) :
    ∃ rc s', createDentry s.inst n name inode type = some (rc, s'.inst) ∧ Wrote G S n s s' ∧ s.SameHeader n s' ∧
      ((rc = -1 ∧ s' = s) ∨ (rc ≠ 0 ∧ s'.inst.exhausted = true) ∨
        (rc = 0 ∧ s'.DirAt G S n (es ++ [⟨name, inode, type⟩]))) := by
  obtain ⟨blocks, hdir, rfl⟩ := hat.dir
  obtain ⟨hnew, -, -, hplace⟩ := hlegal
  rw [Room, show s.inst.inode n = s.inodes n from hat.synced, hat.image.counted.geo] at hplace
  by_cases hmode : Inode.mode (s.inodes n) % 4 = 0
  · refine ⟨-1, s, ?_, .refl hat.image, fun _ _ => rfl, .inl ⟨rfl, rfl⟩⟩
    rw [createDentry, show s.inst.inode n = s.inodes n from hat.synced, if_pos hmode]
  · obtain ⟨blocks', hdir', hroom⟩ := hplace.resolve_left hmode
    have hpos : 0 < s.inst.blockSize := by
      rw [hat.image.blockSize]
      exact hreg.blockSize_pos
    obtain rfl := hdir.unique hpos hdir'
    obtain ⟨rc, s', hcall, hwrote, hheader, hcase⟩ :=
      createDentry_spec hreg hat.image hn hin hat.synced hdir hmode hnew hroom
    refine ⟨rc, s', hcall, hwrote, hheader, .inr (hcase.imp_right ?_)⟩
    rintro ⟨hrc, blocks', hdir', hentries⟩
    exact ⟨hrc, hwrote.image, hwrote.synced hat.synced, blocks', hdir', hentries⟩

omit hreg

def Stage.Mapped (G : Geo) (S : Nat → Prop) (n : Nat) (s : Stage) : Prop := ∃ es, s.DirAt G S n es ∧ Names es

include hreg in
theorem Stage.Mapped.step (hn : S n) (hin : G.HasInode n) (hmapped : s.Mapped G S n) {op : DirOp}
    (hlegal : op.Legal n s.inst) {inst' : Inst} (hstep : dirStep n s.inst op = some inst')
    (hroom : inst'.exhausted = false) : ∃ s' : Stage, s'.inst = inst' ∧ s'.Mapped G S n := by
  obtain ⟨es, hat, hnames⟩ := hmapped
  cases op with
  | create name inode type =>
    obtain ⟨rc, s', hcall, -, -, hcase⟩ := hat.create hreg hn hin hlegal
    rw [dirStep, hcall] at hstep
    obtain rfl : s'.inst = inst' := some.inj hstep
    obtain ⟨-, rfl⟩ | ⟨-, hexhausted⟩ | ⟨-, hat'⟩ := hcase
    · exact ⟨s', rfl, es, hat, hnames⟩
    · rw [hroom] at hexhausted
      cases hexhausted
    · exact ⟨s', rfl, _, hat', hnames.append ((hat.find_none hreg).mp hlegal.2.2.1) hlegal.2.1⟩
  | remove name =>
    obtain ⟨-, hcall⟩ | ⟨e, s', -, hcall, -, -, -, hat', -⟩ := hat.remove hreg hn hin name
    · rw [dirStep, hcall] at hstep
      exact ⟨s, some.inj hstep, es, hat, hnames⟩
    · rw [dirStep, hcall] at hstep
      exact ⟨s', some.inj hstep, _, hat', hnames.erase⟩

theorem dirStep_steady (inst : Inst) (op : DirOp) : Steadily id inst (dirStep n inst op) := by
  cases op with
  | create name inode type => exact (createDentry_steady inst n name inode type).map fun _ => .refl _
  | remove name => exact (removeDentry_steady inst n name).map fun _ => .refl _

include hreg in
theorem Stage.Mapped.run (hn : S n) (hin : G.HasInode n) {ops : List DirOp} {inst t : Inst}
    (hrun : Run (dirStep n) (fun inst op => op.Legal n inst) inst ops t) (hroom : t.exhausted = false)
    (hinit : ∃ s : Stage, s.inst = inst ∧ s.Mapped G S n) : ∃ s : Stage, s.inst = t ∧ s.Mapped G S n := by
  -- a volume that ran out of blocks stays marked, so the end of the run tells about every state of it
  have hend : ∃ s : Stage, s.inst = t ∧ (t.exhausted = true ∨ s.Mapped G S n) := by
    refine hrun.invariant (fun t => ∃ s : Stage, s.inst = t ∧ (t.exhausted = true ∨ s.Mapped G S n)) ?_
      (hinit.imp fun s hs => ⟨hs.1, .inr hs.2⟩)
    rintro inst op inst' ⟨s, rfl, hcase⟩ hlegal hstep
    by_cases hexhausted : inst'.exhausted = true
    · exact ⟨⟨inst', s.inodes, s.own⟩, rfl, .inl hexhausted⟩
    obtain hbefore | hmapped := hcase
    · exact absurd ((dirStep_steady s.inst op inst' hstep).exhausted hbefore) hexhausted
    · obtain ⟨s', hs', hmapped'⟩ := hmapped.step hreg hn hin hlegal hstep (Bool.eq_false_iff.mpr hexhausted)
      exact ⟨s', hs', .inr hmapped'⟩
  obtain ⟨s, hs, hcase⟩ := hend
  refine ⟨s, hs, hcase.resolve_left ?_⟩
  rw [hroom]
  exact Bool.false_ne_true

end History

/-- In every state a directory is well formed, names resolve and are enumerated as a list of entries with different
names says, and the next call changes exactly its own name. -/
theorem directory_map {S : Nat → Prop} {own : Nat → Option Owner} {inst t : Inst} {n : Nat} {blocks : List (List Rec)}
    {ops : List DirOp} (hreg : inst.geo.Regular) (himage : Image inst.geo S inst.inode own inst) (hn : S n)
    (hin : inst.geo.HasInode n) (hdir : IsDir inst (inst.inode n) blocks) (hnames : Names (entries blocks.flatten))
    (hrun : Run (dirStep n) (fun inst op => op.Legal n inst) inst ops t) (hroom : t.exhausted = false) :
    (∃ blocks, IsDir t (t.inode n) blocks) ∧
      (∃ es : List Entry, (es.map Entry.name).Nodup ∧
        (∀ name, findDentry t n name = some ((lookup es name).map Entry.target)) ∧
        ∀ index, fileReaddir t n index = some (es[index]?.map fun e => (e.inode, e.name, dtToVfs e.type))) ∧
      (∀ name inode type, DirOp.Legal n t (.create name inode type) →
        ∃ rc u, createDentry t n name inode type = some (rc, u) ∧
          (rc = 0 → findDentry u n name = some (some (inode, dtToVfs type)) ∧
            (∀ name', name' ≠ name → findDentry u n name' = findDentry t n name') ∧
            ∃ blocks, IsDir u (u.inode n) blocks)) ∧
      ∀ name, ∃ rc type u, removeDentry t n name = some (rc, type, u) ∧
        (rc = 0 ↔ findDentry t n name ≠ some none) ∧
        (rc = 0 → findDentry u n name = some none ∧
          (∀ name', name' ≠ name → findDentry u n name' = findDentry t n name') ∧
          ∃ blocks, IsDir u (u.inode n) blocks) := by
  have hinit : ∃ s : Stage, s.inst = inst ∧ s.Mapped inst.geo S n :=
    ⟨⟨inst, inst.inode, own⟩, rfl, _, ⟨himage, rfl, blocks, hdir, rfl⟩, hnames⟩
  obtain ⟨s, rfl, es, hat, hnames'⟩ := Stage.Mapped.run hreg hn hin hrun hroom hinit
  have hformed {s : Stage} {es : List Entry} (hat : s.DirAt inst.geo S n es) :
      ∃ blocks, IsDir s.inst (s.inst.inode n) blocks := by
    obtain ⟨blocks, hdir, -⟩ := hat.dir
    exact ⟨blocks, by rwa [hat.synced]⟩
  refine ⟨hformed hat, ⟨es, hnames'.nodup, hat.find hreg, hat.readdir hreg hnames'⟩, fun name inode type hlegal => ?_,
    fun name => ?_⟩
  · obtain ⟨rc, s', hcall, -, -, hcase⟩ := hat.create hreg hn hin hlegal
    refine ⟨rc, s'.inst, hcall, fun hrc => ?_⟩
    obtain ⟨hfail, -⟩ | ⟨hfail, -⟩ | ⟨-, hat'⟩ := hcase
    · rw [hrc] at hfail
      cases hfail
    · exact absurd hrc hfail
    have hnone := (hat.find_none hreg).mp hlegal.2.2.1
    refine ⟨?_, fun name' hne => ?_, hformed hat'⟩
    · rw [hat'.find hreg, lookup_append, hnone, if_pos rfl]
      rfl
    · rw [hat'.find hreg, hat.find hreg, lookup_append, if_neg (Ne.symm hne), or_none]
  · obtain ⟨hnone, hcall⟩ | ⟨e, s', hsome, hcall, -, -, -, hat', -⟩ := hat.remove hreg hn hin name
    · refine ⟨-enoent, 0, s.inst, hcall, ?_, fun hrc => by cases hrc⟩
      rw [hat.find hreg, hnone]
      exact iff_of_false (by decide) fun h => h rfl
    · refine ⟨0, e.type, s'.inst, hcall, ?_, fun _ => ⟨?_, fun name' hne => ?_, hformed hat'⟩⟩
      · rw [hat.find hreg, hsome]
        exact iff_of_true rfl fun h => by cases h
      · rw [hat'.find hreg, hnames'.lookup_erase]
        rfl
      · rw [hat'.find hreg, hat.find hreg, lookup_erase_of_ne hne]

def rootInode : Buf := packed [(0, 2, 0x41ff), (4, 4, 1024), (26, 2, 2), (28, 4, 2), (40, 4, 7)]

def dirVolume (records : Buf) : Inst := (freshVolume.writeInodeMetadata rootInode 2).writeBlock 7 records

def dirOwn : Nat → Option Owner := update freshOwn 7 (some (.node 2 [0]))

theorem Image.congr_inodes {G : Geo} {S : Nat → Prop} {inodes inodes' : Nat → Buf} {own : Nat → Option Owner}
    {inst : Inst}
    (himage : Image G S inodes own inst) (hsame : ∀ m, S m → inodes' m = inodes m) : Image G S inodes' own inst :=
  { himage with node := fun m hm q b hq hb => himage.node m hm q b hq (by rwa [hsame m hm] at hb) }

theorem rootInode_blockAt {disk : Nat → Buf} {q : List Nat} {b : Nat} (hq : IsPath 256 q)
    (hb : blockAt rootInode disk q = some b) : q = [0] ∧ b = 7 := by
  have hzero : ∀ k < 15, k ≠ 0 → Inode.block rootInode k = 0 := by decide
  have hroot : Inode.block rootInode 0 = 7 := by decide
  cases q with
  | nil => exact hq.elim
  | cons k path =>
    obtain ⟨hk, hlen, -⟩ := hq
    by_cases hfirst : k = 0
    · subst hfirst
      obtain rfl : path = [] := eq_nil_of_length_eq_zero (Nat.le_zero.mp hlen)
      exact ⟨rfl, (some.inj hb).symm⟩
    · rw [blockAt, hzero k hk hfirst, child_zero] at hb
      cases hb

theorem dirVolume_regular (records : Buf) : (dirVolume records).geo.Regular := freshVolume_regular

theorem fits_rootInode : Inode.Fits rootInode := by
  have hzero : Inode.Fits fun _ => 0 := fits_iff.mpr fun _ _ => rfl
  exact ((((hzero.writeLE 7 (by decide)).writeLE 2 (by decide)).writeLE 2 (by decide)).writeLE 1024 (by decide)).writeLE
    0x41ff (by decide)

theorem dirVolume_inode (records : Buf) : (dirVolume records).inode 2 = rootInode := by
  have hbase : (freshVolume.writeInodeMetadata rootInode 2).inode 2 = rootInode :=
    inode_writeInodeMetadata_same freshVolume_regular fits_rootInode
  refine Eq.trans ?_ hbase
  exact inode_of_disk (show (dirVolume records).geo = (freshVolume.writeInodeMetadata rootInode 2).geo from rfl)
    (disk_writeBlock_of_ne _ _ (by decide))

theorem dirVolume_image (records : Buf) :
    Image (dirVolume records).geo (· = 2) (dirVolume records).inode dirOwn (dirVolume records) := by
  have hin : freshVolume.geo.HasInode 2 := ⟨by decide, by decide⟩
  have hfresh := (freshVolume_image (· = 2)).writeInodeMetadata freshVolume_regular.toValid hin rootInode
  have hkeep {b : Nat} {o : Owner} (ho : freshOwn b = some o) : dirOwn b = some o := by
    refine (update_of_ne ?_ ..).trans ho
    rintro rfl
    cases ho
  have hbase : Image freshVolume.geo (· = 2) (fun _ => rootInode) dirOwn
      (freshVolume.writeInodeMetadata rootInode 2) := by
    refine ⟨hfresh.counted, fun b hb => hkeep (hfresh.header b hb), fun r g hg => hkeep (hfresh.bitmap r g hg),
      fun m hm => hkeep (hfresh.table m hm), fun m hm q b hq hb => ?_, fun b o ho hlt => ?_⟩
    · obtain ⟨rfl, rfl⟩ := rootInode_blockAt hq hb
      rw [hm]
      exact update_self ..
    · by_cases hb : b = 7
      · rw [hb]
        decide
      · exact hfresh.used b o (by rwa [dirOwn, update_of_ne hb] at ho) hlt
  have hleaf (n : Nat) (q : List Nat) (ho : dirOwn 7 = some (.node n q)) : IsLeaf q := by
    cases ho
    exact rfl
  refine Image.congr_inodes (hbase.writeBlock freshVolume_regular.toValid records ?_ hleaf) ?_
  · intro r g ho
    cases ho
  · rintro m rfl
    exact dirVolume_inode records

def twoRecords : Buf := putRec (putRec (fun _ => 0) 0 2 12 2 [46]) 12 2 1012 2 [46, 46]

theorem isDir_dirVolume {records : Buf} {rs : List Rec}
    (htiles : Tiles (fileBlock (dirVolume records) rootInode 0) 1024 0 rs) :
    IsDir (dirVolume records) ((dirVolume records).inode 2) [rs] := by
  rw [dirVolume_inode]
  refine ⟨show Inode.size rootInode = 1 * 1024 by rfl, fun i rs' hi => ?_⟩
  obtain ⟨hlt, rfl⟩ := List.getElem?_eq_some_iff.mp hi
  obtain rfl : i = 0 := Nat.lt_one_iff.mp hlt
  exact htiles

/-- A file is created in the directory. -/
theorem directory_map_create :
    ∃ t, Run (dirStep 2) (fun inst op => op.Legal 2 inst) (dirVolume twoRecords) [.create [97] 12 1, .remove [46]] t ∧
      t.exhausted = false ∧ ∃ blocks, IsDir t (t.inode 2) blocks := by
  have hdir : IsDir (dirVolume twoRecords) ((dirVolume twoRecords).inode 2)
      [[⟨2, 12, 2, [46]⟩, ⟨2, 1012, 2, [46, 46]⟩]] := isDir_dirVolume (by decide +kernel)
  have hlegal : DirOp.Legal 2 (dirVolume twoRecords) (.create [97] 12 1) := by
    refine ⟨⟨by decide, by decide, by decide, by decide⟩, by decide, by decide, .inr ⟨_, hdir, ?_⟩⟩
    exact ⟨⟨2, 1012, 2, [46, 46]⟩, rfl, by decide, .inl (by decide)⟩
  have hsteps : ((dirStep 2 (dirVolume twoRecords) (.create [97] 12 1)).bind fun inst =>
      dirStep 2 inst (.remove [46])).any (fun t => t.exhausted = false) = true := by decide +kernel
  obtain ⟨t, hboth, hroom⟩ := (any_eq_true _ _).mp hsteps
  obtain ⟨inst, hcreate, hremove⟩ := bind_eq_some_iff.mp hboth
  have hrun : Run (dirStep 2) (fun inst op => op.Legal 2 inst) (dirVolume twoRecords)
      [.create [97] 12 1, .remove [46]] t :=
    .cons hlegal hcreate (.cons trivial hremove (.nil t))
  have hroom : t.exhausted = false := of_decide_eq_true hroom
  exact ⟨t, hrun, hroom, (directory_map (dirVolume_regular _) (dirVolume_image _) rfl ⟨by decide, by decide⟩ hdir
    ⟨by decide, by decide⟩ hrun hroom).1⟩

/-- The last record of this directory takes no more than its name needs. -/
def fullRecords : Buf :=
  putRec (putRec (putRec (fun _ => 0) 0 2 12 2 [46]) 12 2 1000 2 [46, 46]) 1012 11 12 1 [120]

/-- The record of a new name is written past the buffer, and the call returns 0. -/
theorem directory_loses_name :
    IsDir (dirVolume fullRecords) ((dirVolume fullRecords).inode 2)
        [[⟨2, 12, 2, [46]⟩, ⟨2, 1000, 2, [46, 46]⟩, ⟨11, 12, 1, [120]⟩]] ∧
      findDentry (dirVolume fullRecords) 2 [121] = some none ∧
      (createDentry (dirVolume fullRecords) 2 [121] 12 1).map (fun (rc, inst) => (rc, findDentry inst 2 [121])) =
        some (0, some none) :=
  ⟨isDir_dirVolume (by decide), by decide, by decide +kernel⟩

end Kairax.Ext2
