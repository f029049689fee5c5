import Kairax.Proc.ElfLoader

/-!
# The segments of a program in memory

The loader keeps what the process has, so its loop over the entries loads the segments one after the other into a memory
of pages. From that the contents and the rights of each segment follow.
-/

namespace Kairax.Proc

open Paging Lib Elf List Option
open BitVec (ofNat)

variable {image : Buf} {offset root : Word} {m : Machine}

theorem foldlM_loadEntry (image : Buf) (offset root : Word) (l : List ProgramEntry) (s : Process × Machine) :
    l.foldlM (loadEntry image offset root) s =
      if ∃ e ∈ l, e.alignment = 0 then none
      else some ((l.filter fun e => e.type = elfSegmentTypeLoad).foldl (loadSegment image offset root) s) := by
  induction l generalizing s with
  | nil =>
    rw [if_neg]
    · rfl
    · rintro ⟨e, he, -⟩
      cases he
  | cons e l ih =>
    rw [foldlM_cons, loadEntry]
    by_cases hzero : e.alignment = 0
    · rw [if_pos hzero, if_pos ⟨e, mem_cons_self, hzero⟩]
      rfl
    · rw [if_neg hzero, filter_cons]
      have hexists : (∃ e' ∈ e :: l, e'.alignment = 0) ↔ ∃ e' ∈ l, e'.alignment = 0 := by
        rw [exists_mem_cons_iff, or_iff_right hzero]
      rw [if_congr hexists rfl rfl]
      by_cases hload : e.type = elfSegmentTypeLoad
      · rw [if_pos hload, decide_eq_true hload, if_pos rfl]
        exact ih _
      · rw [if_neg hload, decide_eq_false hload]
        exact ih _

abbrev loaded (image : Buf) (offset root : Word) (p : Process) (m : Machine) : Machine :=
  ((loads image).foldl (loadSegment image offset root) (p, m)).2

theorem elfLoadProcess_eq (hsignature : checkSignature image) (offset root : Word) (p : Process) (m : Machine) :
    elfLoadProcess image offset root p m =
      if ∃ e ∈ programEntries image, e.alignment = 0 then none
      else
        some ⟨0, some (progEntryPos image + offset), ((loads image).foldl (loadSegment image offset root) (p, m)).1,
          loaded image offset root p m⟩ := by
  rw [elfLoadProcess, foldlM_loadEntry]
  split_ifs
  · rfl
  · rfl

theorem elfLoadProcess_some (hsignature : checkSignature image)
    (hdivides : ¬ ∃ e ∈ programEntries image, e.alignment = 0) (offset root : Word) (p : Process) (m : Machine) :
    ∃ r, elfLoadProcess image offset root p m = some r ∧ r.machine = loaded image offset root p m := by
  rw [elfLoadProcess_eq hsignature, if_neg hdivides]
  exact ⟨_, rfl, rfl⟩

structure Placed (own : Nat → Prop) (e : ProgramEntry) (t : Segment Word) : Prop where
  alignment : e.alignment = pageSize
  sizes : t.filesz ≤ t.memsz
  userspace : (t.start + t.memsz + 4095) / 4096 * 4096 ≤ userspaceMaxAddr.toNat
  own : ∀ k < t.memsz, own ((t.start + k) / 4096)

section One

variable {own : Nat → Prop} {e : ProgramEntry} {t : Segment Word} (ht : segmentOf image offset e = t)
  (hplaced : Placed own e t)

include ht hplaced

theorem Placed.room : t.memsz ≤ t.room ∧ 4096 ≤ t.room ∧ t.start + t.room + 4095 < 2 ^ 47 + 4096 := by
  have huser := hplaced.userspace
  rw [toNat_userspaceMaxAddr] at huser
  have hmemsz : t.memsz = e.pMemsz.toNat := by rw [← ht, segmentOf]
  obtain ⟨hle, hpage, hupper, hmod⟩ := align_spec e.pMemsz pageSize (by decide) (by rw [toNat_pageSize]; omega)
  rw [toNat_pageSize] at hpage hupper hmod
  have hroom : t.room = (align e.pMemsz pageSize).toNat := by rw [← ht, segmentOf, hplaced.alignment]
  rw [hmemsz] at huser ⊢
  rw [hroom]
  exact ⟨hle, hpage, by omega⟩

theorem Placed.fits : t.Fits := ⟨hplaced.sizes, (hplaced.room ht).1⟩

theorem Placed.pageAddrs :
    ∃ start : Word, start.toNat = t.start / 4096 * 4096 ∧
      pageAddrs (alignDown (e.vAddr + offset) pageSize)
        (align (e.vAddr + offset + align e.pMemsz e.alignment) pageSize) =
        (range (pageCount t)).map fun k => start + ofNat 64 (4096 * k) := by
  obtain ⟨-, hpage, hlt⟩ := hplaced.room ht
  have hstart : t.start = (e.vAddr + offset).toNat := by rw [← ht, segmentOf]
  have hroom : t.room = (align e.pMemsz e.alignment).toNat := by rw [← ht, segmentOf]
  have hdown := toNat_alignDown (e.vAddr + offset) pageSize
  rw [toNat_pageSize] at hdown
  have hsum : (e.vAddr + offset + align e.pMemsz e.alignment).toNat = t.start + t.room := by
    rw [BitVec.toNat_add]
    omega
  have hend : (align (e.vAddr + offset + align e.pMemsz e.alignment) pageSize).toNat = _ :=
    toNat_align_of_le (by decide) (by rw [toNat_pageSize]; omega) (by rw [toNat_pageSize]; omega)
  rw [toNat_pageSize] at hend
  refine ⟨alignDown (e.vAddr + offset) pageSize, by omega, ?_⟩
  rw [Proc.pageAddrs, hend, pageCount]
  congr 2
  split_ifs <;> omega

theorem Holds.loadSegment {s : Paged Word} (hholds : Holds m root own s) (p : Process)
    (hsupplied : Supplied m.pool (4 * pageCount t)) :
    Holds (loadSegment image offset root (p, m) e).2 root own (s.load 4096 t) ∧
      ∃ k ≤ 4 * pageCount t, (Proc.loadSegment image offset root (p, m) e).2.pool = m.pool.drop k := by
  obtain ⟨hmemsz, hpage, hlt⟩ := hplaced.room ht
  obtain ⟨start, hstart, haddrs⟩ := hplaced.pageAddrs ht
  have hsizes := hplaced.sizes
  have hcount : pageCount t = (t.start + t.room + 4095) / 4096 - t.start / 4096 := rfl
  have hlo : start.toNat / 4096 = t.start / 4096 := by omega
  have hhi : t.start / 4096 + pageCount t = (t.start + t.room + 4096 - 1) / 4096 := by omega
  obtain ⟨hmapped, k, hk, hpool⟩ := hholds.allocPages (a := start) (by omega) (segmentProtection e.flags)
    (pageCount t) (by omega) hsupplied
  rw [← haddrs] at hmapped hpool
  rw [hlo, hhi] at hmapped
  have hend : t.start + t.room ≤ 2 ^ 47 := by omega
  have hcover {i : Nat} (hi : i < t.filesz) : t.Covers 4096 ((t.start + i) / 4096) :=
    Paged.covers_of_room (by decide) t (Nat.le_add_right _ i) (Nat.add_lt_add_left (by omega) _)
  have hown {i : Nat} (hi : i < t.filesz) := hplaced.own i (by omega)
  have hfile : t.start + t.filesz ≤ 2 ^ 47 := by omega
  subst ht
  have hcleared := hmapped.memset (e.vAddr + offset) (align e.pMemsz e.alignment) 0 hend
  refine ⟨hcleared.memcpy (e.vAddr + offset) (fun k => image (e.pOffset.toNat + k)) hfile ?_, k, hk, ?_⟩
  · intro i hi
    refine ⟨hown hi, ?_⟩
    exact congrArg Option.isSome (if_pos (hcover hi))
  · exact (vmMemcpyFrom_pool _ _ _ _ _ _).trans ((archVmMemset_pool _ _ _ _ _).trans hpool)

end One

theorem Holds.loadSegments {own : Nat → Prop} {l : List ProgramEntry}
    (hplaced : ∀ e ∈ l, Placed own e (segmentOf image offset e)) {s : Paged Word} (hholds : Holds m root own s)
    (p : Process) (hsupplied : Supplied m.pool (4 * ((l.map (segmentOf image offset)).map pageCount).sum)) :
    Holds (l.foldl (Proc.loadSegment image offset root) (p, m)).2 root own
      ((l.map (segmentOf image offset)).foldl (Paged.load 4096) s) := by
  induction l generalizing p m s with
  | nil => exact hholds
  | cons e l ih =>
    obtain ⟨he, hl⟩ := forall_mem_cons.mp hplaced
    rw [map_cons, map_cons, sum_cons] at hsupplied
    obtain ⟨hfirst, k, hk, hpool⟩ := hholds.loadSegment rfl he p (hsupplied.mono (by omega))
    refine ih hl hfirst _ ?_
    rw [hpool]
    exact Supplied.drop (hsupplied.mono (by omega))

def pagesOf (m : Machine) (root : Word) : Paged Word where
  flags n := (m.leaf root (pageNumber (ofNat 64 (4096 * n)))).map getPageFlags
  byte _ := 0

theorem flags_pagesOf (m : Machine) (root : Word) {a : Word} (ha : a.toNat < 2 ^ 47) :
    (pagesOf m root).flags (a.toNat / 4096) = (m.leaf root (pageNumber a)).map getPageFlags := by
  have hnat : (ofNat 64 (4096 * (a.toNat / 4096))).toNat = 4096 * (a.toNat / 4096) := by
    rw [BitVec.toNat_ofNat]
    omega
  have hsame : pageNumber (ofNat 64 (4096 * (a.toNat / 4096))) = pageNumber a :=
    (pageNumber_eq_iff (by omega) ha).mpr (by omega)
  rw [← hsame, pagesOf]

theorem Ready.holds (hready : Ready image offset root m) :
    Holds m root (fun n => (pagesOf m root).flags n = none) (pagesOf m root) := by
  have hnone {a entry : Word} (ha : a.toNat < 2 ^ 47) (hown : (pagesOf m root).flags (a.toNat / 4096) = none)
      (hleaf : m.leaf root (pageNumber a) = some entry) : False := by
    rw [flags_pagesOf m root ha, hleaf] at hown
    cases hown
  refine ⟨hready.tree, hready.flat, fun a ha => (flags_pagesOf m root ha).symm, hready.kept, ?_, ?_⟩
  · intro a ha hown entry hleaf
    exact (hnone ha hown hleaf).elim
  · intro a a' ha ha' hown hne entry entry' hleaf hleaf'
    exact (hnone ha hown hleaf).elim

variable (hexec : Executable image offset) (hready : Ready image offset root m)

include hexec hready in
theorem Executable.placed {e : ProgramEntry}
    (he : e ∈ loads image) {t : Segment Word} (ht : segmentOf image offset e = t) :
    Placed (fun n => (pagesOf m root).flags n = none) e t := by
  have hmem : t ∈ segments image offset := ht ▸ mem_map_of_mem he
  have huser := hexec.userspace t hmem
  refine ⟨hexec.alignment e he, ht ▸ hexec.sizes e he, huser, fun k hk => ?_⟩
  rw [toNat_userspaceMaxAddr] at huser
  have hnat : (ofNat 64 (t.start + k)).toNat = t.start + k := by
    rw [BitVec.toNat_ofNat]
    omega
  have hmissing := hready.unmapped t hmem (ofNat 64 (t.start + k)) (by omega) (by omega)
  have hflags := flags_pagesOf m root (a := ofNat 64 (t.start + k)) (by omega)
  rw [hnat, hmissing] at hflags
  exact hflags

abbrev loadedPages (image : Buf) (offset root : Word) (m : Machine) : Paged Word :=
  (segments image offset).foldl (Paged.load 4096) (pagesOf m root)

include hexec hready in
theorem loadSegments_holds (p : Process) :
    Holds (loaded image offset root p m) root (fun n => (pagesOf m root).flags n = none)
      (loadedPages image offset root m) :=
  hready.holds.loadSegments (fun _ he => hexec.placed hready he rfl) p hready.memory

theorem and_flag {entry flag : Word} (hflag : flagMask &&& flag = flag) :
    entry &&& flag = getPageFlags entry &&& flag := by
  rw [getPageFlags, BitVec.and_assoc, hflag]

theorem flags_segmentProtection (flags : BitVec 32) :
    x86_64Prot2Flags (segmentProtection flags) &&& pageUserAccessible ≠ 0 ∧
      (x86_64Prot2Flags (segmentProtection flags) &&& pageWritable ≠ 0 ↔ flags &&& elfSegmentFlagWrite ≠ 0) ∧
      (x86_64Prot2Flags (segmentProtection flags) &&& pageExecDisable = 0 ↔ flags &&& elfSegmentFlagExec ≠ 0) := by
  rw [segmentProtection]
  by_cases hexec : flags &&& elfSegmentFlagExec = 0
  · by_cases hwrite : flags &&& elfSegmentFlagWrite = 0
    · simp only [hexec, hwrite]
      decide
    · simp only [hexec, hwrite, ne_eq]
      decide
  · by_cases hwrite : flags &&& elfSegmentFlagWrite = 0
    · simp only [hexec, hwrite, ne_eq]
      decide
    · simp only [hexec, hwrite, ne_eq]
      decide

section Result

variable (hexec : Executable image offset) (hready : Ready image offset root m) (p : Process) {e : ProgramEntry}
  (he : e ∈ loads image) {t : Segment Word} (ht : segmentOf image offset e = t)

section Byte

variable {k : Nat} (hk : k < t.memsz)

include hexec he ht hk

theorem toNat_segment : (e.vAddr + offset + ofNat 64 k).toNat = t.start + k ∧ t.start + k < 2 ^ 47 := by
  have huser := hexec.userspace t (ht ▸ mem_map_of_mem he)
  rw [toNat_userspaceMaxAddr] at huser
  have hstart : t.start = (e.vAddr + offset).toNat := by rw [← ht, segmentOf]
  have hlt : t.start + k < 2 ^ 47 := by omega
  rw [hstart] at hlt ⊢
  exact ⟨toNat_add_ofNat (by omega), hlt⟩

include hready

theorem segment_flags : ∃ e', firstCovering image offset ((t.start + k) / 4096) = some e' ∧
    (loadedPages image offset root m).flags ((t.start + k) / 4096) =
      some (x86_64Prot2Flags (segmentProtection e'.flags)) := by
  have hplaced := hexec.placed hready he ht
  have hcovers : t.Covers 4096 ((t.start + k) / 4096) :=
    Paged.covers_of_room (by decide) t (Nat.le_add_right _ k)
      (Nat.add_lt_add_left (hk.trans_le (hplaced.room ht).1) _)
  obtain ⟨e', hfirst⟩ : ∃ e', firstCovering image offset ((t.start + k) / 4096) = some e' := by
    rw [← Option.isSome_iff_exists, firstCovering, List.find?_isSome]
    exact ⟨e, he, decide_eq_true (ht ▸ hcovers)⟩
  refine ⟨e', hfirst, ?_⟩
  have hnone := hplaced.own k hk
  rw [Paged.flags_loadAll, hnone, Option.none_or, segments, List.find?_map, Option.map_map]
  exact congrArg (Option.map _) hfirst

theorem segment_leaf : ∃ entry e', firstCovering image offset ((t.start + k) / 4096) = some e' ∧
    (loaded image offset root p m).leaf root (pageNumber (e.vAddr + offset + ofNat 64 k)) = some entry ∧
    getPageFlags entry = x86_64Prot2Flags (segmentProtection e'.flags) ∧
    readByte (loaded image offset root p m) root (e.vAddr + offset + ofNat 64 k) =
      some ((loadedPages image offset root m).byte (t.start + k)) := by
  obtain ⟨hnat, hlt⟩ := toNat_segment hexec he ht hk
  obtain ⟨e', hfirst, hflags⟩ := segment_flags hexec hready he ht hk
  have hholds := loadSegments_holds hexec hready p
  have hpage := hholds.flags (e.vAddr + offset + ofNat 64 k) (by omega)
  rw [hnat, hflags] at hpage
  obtain ⟨entry, hleaf, hentry⟩ := map_eq_some_iff.mp hpage
  have hown := (hexec.placed hready he ht).own k hk
  rw [← hnat] at hown
  obtain ⟨-, hbyte⟩ := hholds.byte _ (by omega) hown entry hleaf
  refine ⟨entry, e', hfirst, hleaf, hentry, ?_⟩
  rw [readByte, hleaf, map_some, hbyte, hnat]

theorem hasRights_iff :
    HasRights root (loaded image offset root p m) e (e.vAddr + offset + ofNat 64 k) ↔
      ∀ e', firstCovering image offset ((t.start + k) / 4096) = some e' → SameRights e' e := by
  obtain ⟨entry, e', hfirst, hleaf, hflags, -⟩ := segment_leaf hexec hready p he ht hk
  obtain ⟨huser, hwritable, hexecutable⟩ := flags_segmentProtection e'.flags
  rw [← hflags, ← and_flag (by decide)] at huser hwritable hexecutable
  constructor
  · rintro ⟨entry', hleaf', -, hwrite, hrun⟩ e'' hfirst'
    cases hleaf.symm.trans hleaf'
    cases hfirst.symm.trans hfirst'
    exact ⟨hwritable.symm.trans hwrite, hexecutable.symm.trans hrun⟩
  · intro hsame
    obtain ⟨hwrite, hrun⟩ := hsame e' hfirst
    exact ⟨entry, hleaf, huser, hwritable.trans hwrite, hexecutable.trans hrun⟩

end Byte

include hexec hready he ht

theorem contents_read_iff :
    ((∀ k < e.pFilesz.toNat, readByte (loaded image offset root p m) root (e.vAddr + offset + ofNat 64 k) =
        some (image (e.pOffset.toNat + k))) ∧
      ∀ k, e.pFilesz.toNat ≤ k → k < e.pMemsz.toNat →
        readByte (loaded image offset root p m) root (e.vAddr + offset + ofNat 64 k) = some 0) ↔
      ∀ k < t.memsz, (loadedPages image offset root m).byte (t.start + k) = t.content k := by
  have hread {k : Nat} (hk : k < t.memsz) :
      readByte (loaded image offset root p m) root (e.vAddr + offset + ofNat 64 k) =
        some ((loadedPages image offset root m).byte (t.start + k)) := by
    obtain ⟨-, -, -, -, -, hbyte⟩ := segment_leaf hexec hready p he ht hk
    exact hbyte
  subst ht
  have hsizes := hexec.sizes e he
  have hdata {k : Nat} (hk : k < e.pFilesz.toNat) :
      (segmentOf image offset e).content k = image (e.pOffset.toNat + k) := if_pos hk
  have hrest {k : Nat} (hk : e.pFilesz.toNat ≤ k) : (segmentOf image offset e).content k = 0 :=
    if_neg (not_lt.mpr hk)
  constructor
  · rintro ⟨hfile, hzero⟩ k hk
    by_cases hin : k < e.pFilesz.toNat
    · rw [hdata hin]
      exact some.inj ((hread hk).symm.trans (hfile k hin))
    · rw [hrest (not_lt.mp hin)]
      exact some.inj ((hread hk).symm.trans (hzero k (not_lt.mp hin) hk))
  · intro hbyte
    constructor
    · intro k hk
      rw [hread (hk.trans_le hsizes), hbyte k (hk.trans_le hsizes), hdata hk]
    · intro k hle hk
      rw [hread hk, hbyte k hk, hrest hle]

end Result

include hexec hready in
theorem contents_clear_iff :
    (∀ e ∈ loads image, ∀ k < (segmentOf image offset e).memsz, (loadedPages image offset root m).byte
        ((segmentOf image offset e).start + k) = (segmentOf image offset e).content k) ↔
      (segments image offset).Pairwise Segment.Clear := by
  have hfits : ∀ t ∈ segments image offset, t.Fits := by
    intro t ht
    obtain ⟨e, he, rfl⟩ := mem_map.mp ht
    exact (hexec.placed hready he rfl).fits rfl
  rw [← Paged.contents_iff (by decide : 0 < 4096) hfits hexec.layout (pagesOf m root)]
  constructor
  · intro hbyte t ht
    obtain ⟨e, he, rfl⟩ := mem_map.mp ht
    exact hbyte e he
  · intro hbyte e he
    exact hbyte _ (mem_map_of_mem he)

/-- The segments are in memory with their contents and rights exactly if the file is `Loadable`. -/
theorem segments_loaded (hexec : Executable image offset) (hready : Ready image offset root m) (p : Process) :
    Meets image offset root (elfLoadProcess image offset root p m) ↔ Loadable image offset := by
  rw [elfLoadProcess_eq hexec.signature]
  split_ifs with hdivides
  · constructor
    · rintro ⟨r, hr, -⟩
      cases hr
    · intro hloadable
      obtain ⟨e, he, hzero⟩ := hdivides
      exact absurd hzero (hloadable.divides e he)
  · constructor
    · rintro ⟨r, hr, -, hmemory⟩
      cases hr
      refine ⟨fun e he hzero => hdivides ⟨e, he, hzero⟩, ?_, (contents_clear_iff hexec hready).mp ?_⟩
      · intro e he k hk
        exact (hasRights_iff hexec hready p he rfl hk).mp ((hmemory e he).rights k hk)
      · intro e he
        exact (contents_read_iff hexec hready p he rfl).mp ⟨(hmemory e he).file, (hmemory e he).zero⟩
    · intro hloadable
      refine ⟨_, rfl, rfl, fun e he => ?_⟩
      obtain ⟨hfile, hzero⟩ := (contents_read_iff hexec hready p he rfl).mpr
        ((contents_clear_iff hexec hready).mpr hloadable.clear e he)
      exact ⟨hfile, hzero, fun k hk => (hasRights_iff hexec hready p he rfl hk).mpr (hloadable.rights e he k hk)⟩

def entryOf (i type flags offset vaddr filesz memsz alignment : Nat) : List Write :=
  [⟨64 + 56 * i, 4, type⟩, ⟨68 + 56 * i, 4, flags⟩, ⟨72 + 56 * i, 8, offset⟩, ⟨80 + 56 * i, 8, vaddr⟩,
    ⟨96 + 56 * i, 8, filesz⟩, ⟨104 + 56 * i, 8, memsz⟩, ⟨112 + 56 * i, 8, alignment⟩]

def frames : Machine where
  mem _ _ := 0
  pool := (range 16).map fun i => ofNat 64 (0x1000 * (i + 2))
  freed := []

theorem tree_frames : TreeInv frames (p2v 0x1000) ∧ Flat frames (p2v 0x1000) :=
  treeInv_empty (fun _ => rfl) (by decide) (by decide +kernel)

theorem leaf_frames (a : Word) : frames.leaf (p2v 0x1000) (pageNumber a) = none := by
  have hempty : frames.mem (p2v 0x1000) (level4Index a) = 0 := rfl
  exact (absent_of_empty hempty).2

def smallProgram (code data alignment : Nat) : Buf :=
  imageOf ([⟨0, 4, 0x464C457F⟩, ⟨32, 8, 64⟩, ⟨54, 2, 56⟩, ⟨56, 2, 3⟩] ++ entryOf 0 1 5 232 code 4 16 4096 ++
    entryOf 1 1 6 236 data 4 16 4096 ++ entryOf 2 0x6474E551 6 0 0 0 0 alignment ++ [⟨232, 8, 0x0807060504030201⟩])

def codeEntry (code : Nat) : ProgramEntry := ⟨1, 5, 232, ofNat 64 code, 4, 16, 4096⟩
def dataEntry (data : Nat) : ProgramEntry := ⟨1, 6, 236, ofNat 64 data, 4, 16, 4096⟩
def stackEntry (alignment : Nat) : ProgramEntry := ⟨0x6474E551, 6, 0, 0, 0, 0, ofNat 64 alignment⟩

/-- One that can be loaded, one with the data in the page behind the code, and one whose stack has no alignment. -/
def smallPrograms : List (Nat × Nat × Nat) :=
  [(0x400000, 0x401100, 16), (0x400800, 0x401000, 16), (0x400000, 0x401100, 0)]

section Small

variable {code data alignment : Nat} (hsmall : (code, data, alignment) ∈ smallPrograms)

include hsmall

theorem programEntries_small : programEntries (smallProgram code data alignment) =
    [codeEntry code, dataEntry data, stackEntry alignment] := by
  have hall : ∀ r ∈ smallPrograms, programEntries (smallProgram r.1 r.2.1 r.2.2) =
      [codeEntry r.1, dataEntry r.2.1, stackEntry r.2.2] := by decide +kernel
  exact hall (code, data, alignment) hsmall

theorem loads_small : loads (smallProgram code data alignment) = [codeEntry code, dataEntry data] := by
  rw [loads, programEntries_small hsmall]
  rfl

theorem segments_small : segments (smallProgram code data alignment) 0 =
    [codeEntry code, dataEntry data].map (segmentOf (smallProgram code data alignment) 0) := by
  rw [segments, loads_small hsmall]

theorem executable_small : Executable (smallProgram code data alignment) 0 := by
  constructor
  case signature =>
    have hall : ∀ r ∈ smallPrograms, checkSignature (smallProgram r.1 r.2.1 r.2.2) := by decide
    exact hall (code, data, alignment) hsmall
  case alignment =>
    rw [loads_small hsmall]
    have hall : ∀ r ∈ smallPrograms, ∀ e ∈ [codeEntry r.1, dataEntry r.2.1], e.alignment = pageSize := by decide
    exact hall (code, data, alignment) hsmall
  case sizes =>
    rw [loads_small hsmall]
    have hall : ∀ r ∈ smallPrograms, ∀ e ∈ [codeEntry r.1, dataEntry r.2.1], e.pFilesz.toNat ≤ e.pMemsz.toNat := by
      decide
    exact hall (code, data, alignment) hsmall
  case userspace =>
    rw [segments_small hsmall]
    have hall : ∀ r ∈ smallPrograms,
        ∀ t ∈ [codeEntry r.1, dataEntry r.2.1].map (segmentOf (smallProgram r.1 r.2.1 r.2.2) 0),
          (t.start + t.memsz + 4095) / 4096 * 4096 ≤ userspaceMaxAddr.toNat := by decide
    exact hall (code, data, alignment) hsmall
  case layout =>
    rw [segments_small hsmall]
    have hall : ∀ r ∈ smallPrograms, ([codeEntry r.1, dataEntry r.2.1].map
        (segmentOf (smallProgram r.1 r.2.1 r.2.2) 0)).Pairwise (Segment.Before 4096) := by decide
    exact hall (code, data, alignment) hsmall

theorem ready_small : Ready (smallProgram code data alignment) 0 (p2v 0x1000) frames := by
  obtain ⟨htree, hflat⟩ := tree_frames
  refine ⟨htree, fun a _ => hflat.along a, ?_, fun _ _ a _ _ => leaf_frames a, ?_⟩
  · intro a _ entry hentry
    rw [leaf_frames] at hentry
    cases hentry
  · rw [pagesAsked, segments_small hsmall]
    have hall : ∀ r ∈ smallPrograms, Supplied frames.pool (4 * (([codeEntry r.1, dataEntry r.2.1].map
        (segmentOf (smallProgram r.1 r.2.1 r.2.2) 0)).map pageCount).sum) := by decide
    exact hall (code, data, alignment) hsmall

end Small

theorem segments_loaded_small :
    Meets (smallProgram 0x400000 0x401100 16) 0 (p2v 0x1000)
      (elfLoadProcess (smallProgram 0x400000 0x401100 16) 0 (p2v 0x1000) emptyProcess frames) := by
  have hsmall : (0x400000, 0x401100, 16) ∈ smallPrograms := mem_cons_self
  refine (segments_loaded (executable_small hsmall) (ready_small hsmall) emptyProcess).mpr ⟨?_, ?_, ?_⟩
  · decide
  · rw [loads_small hsmall]
    have hrights : ∀ e ∈ [codeEntry 0x400000, dataEntry 0x401100], ∀ k < e.pMemsz.toNat,
        ∀ e' ∈ firstCovering (smallProgram 0x400000 0x401100 16) 0 (((e.vAddr + 0).toNat + k) / 4096),
          SameRights e' e := by
      unfold firstCovering
      decide +kernel
    exact hrights
  · rw [segments_small hsmall]
    decide

/-- The data cannot be written behind the code in one page, and without an alignment the loader divides by zero. -/
theorem data_not_writable :
    (Executable (smallProgram 0x400800 0x401000 16) 0 ∧
    Ready (smallProgram 0x400800 0x401000 16) 0 (p2v 0x1000) frames ∧
      dataEntry 0x401000 ∈ loads (smallProgram 0x400800 0x401000 16) ∧
      (dataEntry 0x401000).flags &&& elfSegmentFlagWrite ≠ 0 ∧
      ∃ r entry, elfLoadProcess (smallProgram 0x400800 0x401000 16) 0 (p2v 0x1000) emptyProcess frames = some r ∧
        r.machine.leaf (p2v 0x1000) (pageNumber 0x401000) = some entry ∧ entry &&& pageWritable = 0) ∧
    Executable (smallProgram 0x400000 0x401100 0) 0 ∧ Ready (smallProgram 0x400000 0x401100 0) 0 (p2v 0x1000) frames ∧
      elfLoadProcess (smallProgram 0x400000 0x401100 0) 0 (p2v 0x1000) emptyProcess frames = none := by
  have hcrowded : (0x400800, 0x401000, 16) ∈ smallPrograms := mem_cons_of_mem _ mem_cons_self
  have hstack : (0x400000, 0x401100, 0) ∈ smallPrograms :=
    mem_cons_of_mem _ (mem_cons_of_mem _ mem_cons_self)
  have he : dataEntry 0x401000 ∈ loads (smallProgram 0x400800 0x401000 16) := by
    exact mem_cons_of_mem _ mem_cons_self
  have hcode : firstCovering (smallProgram 0x400800 0x401000 16) 0
      (((segmentOf (smallProgram 0x400800 0x401000 16) 0 (dataEntry 0x401000)).start + 0) / 4096) =
      some (codeEntry 0x400800) := by
    decide
  have hdivides : ¬ ∃ e ∈ programEntries (smallProgram 0x400800 0x401000 16), e.alignment = 0 := by
    decide
  obtain ⟨r, hload, hmachine⟩ := elfLoadProcess_some (executable_small hcrowded).signature hdivides 0 (p2v 0x1000)
    emptyProcess frames
  refine ⟨⟨executable_small hcrowded, ready_small hcrowded, he, by decide, ?_⟩, executable_small hstack,
    ready_small hstack, ?_⟩
  · obtain ⟨entry, e', hfirst, hleaf, hflags, -⟩ :=
      segment_leaf (executable_small hcrowded) (ready_small hcrowded) emptyProcess he rfl (k := 0) (by decide)
    rw [← Option.some.inj hfirst] at hflags
    rw [← hmachine] at hleaf
    refine ⟨r, entry, hload, hleaf, ?_⟩
    rw [and_flag (by decide), hflags]
    decide
  · rw [elfLoadProcess_eq (executable_small hstack).signature, if_pos]
    rw [programEntries_small hstack]
    decide

end Kairax.Proc
