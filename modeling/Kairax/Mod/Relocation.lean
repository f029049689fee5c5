import Mathlib.Data.BitVec
import Kairax.Mod.Loader

/-!
# Relocations of kernel modules

The loader reads the tables from an image in which only the entry of `.bss` has been changed. Every relocation writes
at most one field, and since the fields do not overlap, what one relocation has written is there in the end.
-/

namespace Kairax.Mod

open Lib Elf List Option BitVec

variable {k : Kernel} {image : Buf} {size i m n o : Nat} {T : Tables} {r : Nat × Nat} {modules : List Module}
  {p : Nat → Prop} {s : Word}

namespace WellFormed

theorem entryPos (hwell : WellFormed image size T) (hi : i < sectionHeaderEntriesNum image) :
    sectionEntryPos image i = sectionHeaderTablePos image + 64 * i := by
  have hlt : sectionHeaderEntriesNum image < 65536 := readLE_lt image 60 2
  rw [sectionEntryPos, hwell.entrySize, Nat.mod_eq_of_lt (by omega), mul_comm]

theorem bss_lt (hwell : WellFormed image size T) {b : Nat} (hb : T.bss = some b) : b < sectionHeaderEntriesNum image :=
  ((hwell.bss b).mp hb).1

section

variable (hwell : WellFormed image size T)
include hwell

theorem placeBss_apply {p : Nat} (hp : p < sectionHeaderTablePos image ∨
    sectionHeaderTablePos image + 64 * sectionHeaderEntriesNum image ≤ p) : placeBss image size T.bss p = image p := by
  cases hbss : T.bss with
  | none => rfl
  | some b =>
    have hb := hwell.bss_lt hbss
    rw [placeBss, hwell.entryPos hb]
    exact writeLE_of_outside (by omega)

theorem readLE_placeBss {len : Nat} (hapart : o + len ≤ sectionHeaderTablePos image ∨
    sectionHeaderTablePos image + 64 * sectionHeaderEntriesNum image ≤ o) :
    readLE (placeBss image size T.bss) o len = readLE image o len :=
  readLE_congr fun _ _ _ => hwell.placeBss_apply (by omega)

theorem word_placeBss {len : Nat} (hapart : o + len ≤ sectionHeaderTablePos image ∨
    sectionHeaderTablePos image + 64 * sectionHeaderEntriesNum image ≤ o) :
    word (placeBss image size T.bss) o len = word image o len := by
  rw [word, word, hwell.readLE_placeBss hapart]

theorem entryPos_placeBss (i : Nat) : sectionEntryPos (placeBss image size T.bss) i = sectionEntryPos image i := by
  have hbehind := hwell.behindHeader
  rw [sectionEntryPos, sectionEntryPos, sectionHeaderTablePos, sectionHeaderTablePos, sectionHeaderEntrySize,
    sectionHeaderEntrySize, hwell.readLE_placeBss (by omega), hwell.readLE_placeBss (by omega)]

theorem getSectionEntry_placeBss (hi : i < sectionHeaderEntriesNum image) :
    getSectionEntry (placeBss image size T.bss) i =
      { getSectionEntry image i with offset := loadOffset image size T i } := by
  rw [getSectionEntry, getSectionEntry, hwell.entryPos_placeBss, loadOffset]
  cases hbss : T.bss with
  | none => rfl
  | some b =>
    have hb := hwell.bss_lt hbss
    rw [placeBss, hwell.entryPos hb, hwell.entryPos hi]
    have hentry : readSection (writeLE image (sectionHeaderTablePos image + 64 * b + 24) 8 size)
        (sectionHeaderTablePos image + 64 * i) =
        { readSection image (sectionHeaderTablePos image + 64 * i) with
          offset := word (writeLE image (sectionHeaderTablePos image + 64 * b + 24) 8 size)
            (sectionHeaderTablePos image + 64 * i + 24) 8 } :=
      readSection_eq fun p hlow hout hhigh => writeLE_of_outside (by omega)
    rw [hentry]
    by_cases hib : i = b
    · subst hib
      have hoffset : word (writeLE image (sectionHeaderTablePos image + 64 * i + 24) 8 size)
          (sectionHeaderTablePos image + 64 * i + 24) 8 = BitVec.ofNat 64 size := by
        rw [word, readLE_writeLE]
        apply BitVec.eq_of_toNat_eq
        exact Nat.mod_mod_of_dvd _ (Nat.dvd_refl _)
      rw [hoffset, if_pos rfl]
    · have hoffset : word (writeLE image (sectionHeaderTablePos image + 64 * b + 24) 8 size)
          (sectionHeaderTablePos image + 64 * i + 24) 8 = word image (sectionHeaderTablePos image + 64 * i + 24) 8 := by
        rw [word, word, readLE_writeLE_of_disjoint (by omega)]
      have hne : ¬ some b = some i := fun h => hib (some.inj h).symm
      rw [hoffset, if_neg hne, getSectionEntry, hwell.entryPos hi]
      rfl

theorem loadOffset_of_ne (hi : ¬ nameIs image i ".bss") :
    loadOffset image size T i = (getSectionEntry image i).offset := by
  rw [loadOffset, if_neg fun h => hi ((hwell.bss i).mp h).2]

variable (hapart : o + 24 ≤ sectionHeaderTablePos image ∨
  sectionHeaderTablePos image + 64 * sectionHeaderEntriesNum image ≤ o)

include hapart

theorem readRela_placeBss : readRela (placeBss image size T.bss) o = readRela image o := by
  rw [readRela, readRela, hwell.word_placeBss (by omega), hwell.word_placeBss (by omega),
    hwell.word_placeBss (by omega)]

theorem readSymbol_placeBss : readSymbol (placeBss image size T.bss) o = readSymbol image o := by
  rw [readSymbol, readSymbol, hwell.readLE_placeBss (by omega), hwell.readLE_placeBss (by omega),
    hwell.word_placeBss (by omega)]

end

theorem not_nameIs {a b : String} (hname : nameIs image i a) (hne : ofString a ≠ ofString b) (hza : 0 ∉ ofString a)
    (hzb : 0 ∉ ofString b) : ¬ nameIs image i b := fun h => hne (stringIs_unique hname h hza hzb)

end WellFormed

theorem filter_lt_succ (o : Option Nat) (m : Nat) :
    o.filter (· < m + 1) = if o = some m then some m else o.filter (· < m) := by
  cases o with
  | none => rfl
  | some i =>
    by_cases him : i = m
    · rw [him, if_pos rfl, filter_some, if_pos (decide_eq_true (Nat.lt_succ_self m))]
    · rw [if_neg fun h => him (some.inj h)]
      exact if_congr (by rw [decide_eq_true_iff, decide_eq_true_iff]; omega) rfl rfl

/-- What the loop has found before section `m`. -/
def foundUpTo (image : Buf) (T : Tables) (m : Nat) : Scan where
  moduleHeader := (T.header.filter (· < m)).elim 0 fun i => (getSectionEntry image i).offset
  symtab := (some T.symtab).filter (· < m)
  strtab := (some T.strtab).filter (· < m)
  bss := T.bss.filter (· < m)
  relas := (range m).filter fun i => (getSectionEntry image i).type = shtRela

variable (hwell : WellFormed image size T)

include hwell

theorem foundUpTo_succ (hm : m < sectionHeaderEntriesNum image) :
    foundUpTo image T (m + 1) =
      { moduleHeader := if nameIs image m ".kxmod_header" then (getSectionEntry image m).offset
          else (foundUpTo image T m).moduleHeader
        symtab := if (getSectionEntry image m).type = shtSymtab then some m else (foundUpTo image T m).symtab
        strtab := if nameIs image m ".strtab" then some m else (foundUpTo image T m).strtab
        bss := if nameIs image m ".bss" then some m else (foundUpTo image T m).bss
        relas := if (getSectionEntry image m).type = shtRela then (foundUpTo image T m).relas ++ [m]
          else (foundUpTo image T m).relas } := by
  have hheader : T.header = some m ↔ nameIs image m ".kxmod_header" := by rw [hwell.header, and_iff_right hm]
  have hsymtab : some T.symtab = some m ↔ (getSectionEntry image m).type = shtSymtab := by
    rw [some.injEq, eq_comm, hwell.symtab, and_iff_right hm]
  have hstrtab : some T.strtab = some m ↔ nameIs image m ".strtab" := by
    rw [some.injEq, eq_comm, hwell.strtab, and_iff_right hm]
  have hbss : T.bss = some m ↔ nameIs image m ".bss" := by rw [hwell.bss, and_iff_right hm]
  have hrelas : (range (m + 1)).filter (fun i => (getSectionEntry image i).type = shtRela) =
      if (getSectionEntry image m).type = shtRela then (foundUpTo image T m).relas ++ [m]
      else (foundUpTo image T m).relas := by
    rw [range_succ, filter_append, foundUpTo]
    by_cases hrela : (getSectionEntry image m).type = shtRela
    · simp only [hrela, filter_cons, filter_nil, decide_true, if_true]
    · simp only [hrela, filter_cons, filter_nil, decide_false, if_false, Bool.false_eq_true, append_nil]
  rw [foundUpTo, filter_lt_succ, filter_lt_succ, filter_lt_succ, filter_lt_succ, if_congr hsymtab rfl rfl,
    if_congr hstrtab rfl rfl, if_congr hbss rfl rfl, if_congr hheader rfl rfl]
  congr 1
  split_ifs with h
  · rfl
  · rfl

theorem scanSection_found (hm : m < sectionHeaderEntriesNum image) :
    scanSection image (foundUpTo image T m) m =
      if (getSectionEntry image m).type = shtRela ∧ maxRelaSections ≤ (foundUpTo image T m).relas.length
      then .error (.error (-e2big)) else .ok (foundUpTo image T (m + 1)) := by
  have hplain := hwell.plain m hm
  rw [foundUpTo_succ hwell hm, scanSection]
  by_cases hheader : nameIs image m ".kxmod_header"
  · have hsymtab : ¬ (getSectionEntry image m).type = shtSymtab := fun h => (hplain (.inl h)).1 hheader
    have hrela : ¬ (getSectionEntry image m).type = shtRela := fun h => (hplain (.inr h)).1 hheader
    have hstrtab : ¬ nameIs image m ".strtab" := WellFormed.not_nameIs hheader (by decide) (by decide) (by decide)
    have hbss : ¬ nameIs image m ".bss" := WellFormed.not_nameIs hheader (by decide) (by decide) (by decide)
    simp only [hheader, hsymtab, hstrtab, hbss, hrela, if_true, if_false, false_and]
  · by_cases hsymtab : (getSectionEntry image m).type = shtSymtab
    · obtain ⟨-, hstrtab, hbss⟩ := hplain (.inl hsymtab)
      have hrela : ¬ (getSectionEntry image m).type = shtRela := by
        rw [hsymtab]
        decide
      simp only [hheader, hsymtab, hstrtab, hbss, if_true, if_false]
      rw [if_neg fun h => hrela (hsymtab.trans h.1), if_neg fun h => hrela (hsymtab.trans h)]
    · by_cases hrela : (getSectionEntry image m).type = shtRela
      · obtain ⟨-, hstrtab, hbss⟩ := hplain (.inr hrela)
        simp only [hheader, hsymtab, hstrtab, hbss, if_false, if_pos hrela, and_iff_right hrela]
      · by_cases hstrtab : nameIs image m ".strtab"
        · have hbss : ¬ nameIs image m ".bss" := WellFormed.not_nameIs hstrtab (by decide) (by decide) (by decide)
          simp only [hheader, hsymtab, hstrtab, hbss, hrela, if_true, if_false, false_and]
        · simp only [hsymtab, hrela, if_false, false_and]
          split_ifs <;> rfl

theorem scan_upTo (hm : m ≤ sectionHeaderEntriesNum image) :
    (range m).foldlM (scanSection image) ⟨0, none, none, none, []⟩ =
      if maxRelaSections < (foundUpTo image T m).relas.length then .error (.error (-e2big))
      else .ok (foundUpTo image T m) := by
  induction m with
  | zero =>
    have hnone (o : Option Nat) : o.filter (· < 0) = none := by
      cases o with
      | none => rfl
      | some i => exact filter_some_neg (by simp)
    rw [foundUpTo, hnone, hnone, hnone, hnone]
    rfl
  | succ m ih =>
    have hlength : (foundUpTo image T (m + 1)).relas.length = (foundUpTo image T m).relas.length +
        if (getSectionEntry image m).type = shtRela then 1 else 0 := by
      rw [foundUpTo_succ hwell (by omega)]
      dsimp only
      split_ifs
      · rw [length_append]
        rfl
      · rfl
    rw [range_succ, foldlM_append, ih (by omega)]
    by_cases hfull : maxRelaSections < (foundUpTo image T m).relas.length
    · rw [if_pos hfull, if_pos (by omega)]
      rfl
    · rw [if_neg hfull]
      show (scanSection image (foundUpTo image T m) m >>= pure) = _
      rw [bind_pure, scanSection_found hwell (by omega), hlength]
      refine if_congr ?_ rfl rfl
      split_ifs with hrela
      · exact ⟨fun h => Nat.lt_succ_of_le h.2, fun h => ⟨hrela, Nat.le_of_lt_succ h⟩⟩
      · exact ⟨fun h => absurd h.1 hrela, fun h => absurd h hfull⟩

omit hwell

theorem mem_relocations (hr : r ∈ relocations image) :
    r.1 ∈ relaSections image ∧ 24 * r.2 + 24 ≤ (getSectionEntry image r.1).size := by
  obtain ⟨j, hj, hr⟩ := mem_flatMap.mp hr
  obtain ⟨i, hi, rfl⟩ := mem_map.mp hr
  rw [mem_range] at hi
  exact ⟨hj, by dsimp only; omega⟩

theorem mem_relaSections {j : Nat} : j ∈ relaSections image ↔
    j < sectionHeaderEntriesNum image ∧ (getSectionEntry image j).type = shtRela := by
  rw [relaSections, mem_filter, mem_range, decide_eq_true_iff]

include hwell in
theorem kfunctionsGetByName_placeBss (functions : List KernelFunction) {name : Nat}
    (hname : name < (getSectionEntry image T.strtab).size) :
    kfunctionsGetByName functions (placeBss image size T.bss)
        ((getSectionEntry image T.strtab).offset.toNat + name) =
      kfunctionsGetByName functions image ((getSectionEntry image T.strtab).offset.toNat + name) := by
  obtain ⟨⟨-, hapart⟩, hlast⟩ := hwell.strings
  have hend : (getSectionEntry image T.strtab).offset.toNat + name +
      ((getSectionEntry image T.strtab).size - 1 - name) =
      (getSectionEntry image T.strtab).offset.toNat + (getSectionEntry image T.strtab).size - 1 := by omega
  have hsame : (fun f : KernelFunction => decide (stringIs (placeBss image size T.bss)
        ((getSectionEntry image T.strtab).offset.toNat + name) f.name)) =
      fun f => decide (stringIs image ((getSectionEntry image T.strtab).offset.toNat + name) f.name) := by
    funext f
    refine decide_eq_decide.mpr (stringIs_congr (e := (getSectionEntry image T.strtab).size - 1 - name) ?_ ?_
      f.terminated)
    · rw [hend]
      exact hlast
    · intro i hi
      exact hwell.placeBss_apply (by omega)
  rw [kfunctionsGetByName, kfunctionsGetByName, hsame]

def fieldWrite (k : Kernel) (image : Buf) (size : Nat) (T : Tables) (r : Nat × Nat) : Option Write :=
  let rela := relaAt image r
  let sym := symbolOf image T r
  let value := place image size T r
  if sym.shndx = 0 then
    let funcPtr := kfunctionsGetByName k.functions image ((getSectionEntry image T.strtab).offset.toNat + sym.name)
    if rela.type = rX8664Plt32 then some ⟨value.toNat, 4, (funcPtr - (k.kernelTop + value)).toNat⟩ else none
  else if rela.type = rX8664Pc32 ∨ rela.type = rX8664Plt32 then
    some ⟨value.toNat, 4, ((loadOffset image size T sym.shndx + sym.value + rela.addend).setWidth 32 -
      value.setWidth 32).toNat⟩
  else if rela.type = rX8664 then
    some ⟨value.toNat, 8, (k.kernelTop + loadOffset image size T sym.shndx + sym.value + rela.addend).toNat⟩
  else none

include hwell in
theorem relocate_placeBss (hr : r ∈ relocations image) (mem : Buf) :
    relocate k.functions (placeBss image size T.bss) k.kernelTop T.symtab T.strtab r.1 r.2 mem =
      if symbolAddress k image size T r = none then .error (.error (-1))
      else .ok (writeAll mem (fieldWrite k image size T r).toList) := by
  obtain ⟨hj, hi⟩ := mem_relocations hr
  obtain ⟨hjn, hjtype⟩ := mem_relaSections.mp hj
  obtain ⟨hinfo, -, hjapart⟩ := hwell.relas r.1 hj
  obtain ⟨hsym, hshndx, hname⟩ := hwell.relocs r hr
  obtain ⟨hsymtabn, hsymtabtype⟩ := (hwell.symtab T.symtab).mp rfl
  obtain ⟨hstrtabn, hstrtabname⟩ := (hwell.strtab T.strtab).mp rfl
  obtain ⟨-, hsymbols⟩ := hwell.symbols
  have hjoffset := hwell.loadOffset_of_ne (hwell.plain r.1 hjn (.inr hjtype)).2.2
  have hsymtab := hwell.loadOffset_of_ne (hwell.plain T.symtab hsymtabn (.inl hsymtabtype)).2.2
  have hstrtab := hwell.loadOffset_of_ne
    (WellFormed.not_nameIs hstrtabname (by decide) (by decide) (by decide) : ¬ nameIs image T.strtab ".bss")
  have hrela : readRela (placeBss image size T.bss) ((getSectionEntry image r.1).offset.toNat + 24 * r.2) =
      relaAt image r := hwell.readRela_placeBss (by omega)
  have hsymbol : readSymbol (placeBss image size T.bss)
      ((getSectionEntry image T.symtab).offset.toNat + 24 * (relaAt image r).sym) = symbolOf image T r :=
    hwell.readSymbol_placeBss (by omega)
  rw [relocate, hwell.getSectionEntry_placeBss hjn, hwell.getSectionEntry_placeBss hsymtabn,
    hwell.getSectionEntry_placeBss hstrtabn]
  dsimp only
  rw [hwell.getSectionEntry_placeBss hinfo, hjoffset, hsymtab, hstrtab, hrela, hsymbol,
    kfunctionsGetByName_placeBss hwell k.functions hname, hwell.getSectionEntry_placeBss hshndx, symbolAddress,
    fieldWrite]
  dsimp only
  rw [← place]
  by_cases hundefined : (symbolOf image T r).shndx = 0
  · rw [if_pos hundefined, if_pos hundefined]
    by_cases hnull : kfunctionsGetByName k.functions image
        ((getSectionEntry image T.strtab).offset.toNat + (symbolOf image T r).name) = 0
    · rw [if_pos hnull, if_pos hnull, if_pos rfl]
    · rw [if_neg hnull, if_neg hnull, if_neg (some_ne_none _)]
      split_ifs with hplt
      · rw [writeAll_some]
      · rw [writeAll_none]
  · rw [if_neg hundefined, if_neg hundefined, if_neg hundefined, if_neg (some_ne_none _)]
    by_cases hpc : (relaAt image r).type = rX8664Pc32 ∨ (relaAt image r).type = rX8664Plt32
    · rw [if_pos hpc, if_pos hpc, writeAll_some]
    · split_ifs with habs
      · rw [writeAll_some]
      · rw [writeAll_none]

include hwell

theorem foldlM_relocate {l : List (Nat × Nat)} (hl : ∀ r ∈ l, r ∈ relocations image) (mem : Buf) :
    l.foldlM (fun mem r =>
        relocate k.functions (placeBss image size T.bss) k.kernelTop T.symtab T.strtab r.1 r.2 mem) mem =
      if ∃ r ∈ l, symbolAddress k image size T r = none then .error (.error (-1))
      else .ok (writeAll mem (l.filterMap (fieldWrite k image size T))) := by
  induction l generalizing mem with
  | nil =>
    rw [if_neg]
    · rfl
    · rintro ⟨r, hr, -⟩
      cases hr
  | cons r l ih =>
    obtain ⟨hr, hl⟩ := forall_mem_cons.mp hl
    rw [foldlM_cons, relocate_placeBss hwell hr]
    by_cases hnone : symbolAddress k image size T r = none
    · rw [if_pos hnone, if_pos ⟨r, mem_cons_self, hnone⟩]
      rfl
    · rw [if_neg hnone]
      refine (ih hl _).trans ?_
      rw [writeAll_filterMap_cons]
      refine if_congr ?_ rfl rfl
      rw [exists_mem_cons_iff, or_iff_right hnone]

theorem relocateSection_placeBss {j : Nat} (hj : j ∈ relaSections image) (mem : Buf) :
    relocateSection k.functions (placeBss image size T.bss) k.kernelTop T.symtab (some T.strtab) mem j =
      ((range ((getSectionEntry image j).size / 24)).map fun i => (j, i)).foldlM (fun mem r =>
        relocate k.functions (placeBss image size T.bss) k.kernelTop T.symtab T.strtab r.1 r.2 mem) mem := by
  rw [relocateSection, hwell.getSectionEntry_placeBss (mem_relaSections.mp hj).1, foldlM_map]

theorem relocateAll_found (mem : Buf) :
    relocateAll k.functions (placeBss image size T.bss) k.kernelTop
        (foundUpTo image T (sectionHeaderEntriesNum image)) mem =
      if ∃ r ∈ relocations image, symbolAddress k image size T r = none then .error (.error (-1))
      else .ok (writeAll mem ((relocations image).filterMap (fieldWrite k image size T))) := by
  have hsymtab : (some T.symtab).filter (· < sectionHeaderEntriesNum image) = some T.symtab :=
    filter_some_pos (decide_eq_true ((hwell.symtab T.symtab).mp rfl).1)
  have hstrtab : (some T.strtab).filter (· < sectionHeaderEntriesNum image) = some T.strtab :=
    filter_some_pos (decide_eq_true ((hwell.strtab T.strtab).mp rfl).1)
  rw [foundUpTo, hsymtab, hstrtab, ← foldlM_relocate hwell fun _ hr => hr, relocations, foldlM_flatMap]
  exact foldlM_congr (fun mem j hj => relocateSection_placeBss hwell hj mem) mem

omit hwell

theorem width_of_ne (hne : (relaAt image r).type ≠ rX8664) : width image r = 4 := if_neg hne

theorem width_of_eq (heq : (relaAt image r).type = rX8664) : width image r = 8 := if_pos heq

theorem ne_of_plt32 {type : Nat} (hplt : type = rX8664Plt32) : type ≠ rX8664 := by
  rw [hplt]
  decide

theorem ne_of_pc32 {type : Nat} (hpc : type = rX8664Pc32 ∨ type = rX8664Plt32) : type ≠ rX8664 := by
  obtain rfl | rfl := hpc
  · decide
  · decide

theorem fieldWrite_pos {w : Write} (hwrite : fieldWrite k image size T r = some w) :
    w.pos = (place image size T r).toNat ∧ w.len = width image r := by
  rw [fieldWrite] at hwrite
  by_cases hundefined : (symbolOf image T r).shndx = 0
  · rw [if_pos hundefined] at hwrite
    by_cases hplt : (relaAt image r).type = rX8664Plt32
    · rw [if_pos hplt] at hwrite
      rw [← some.inj hwrite, width_of_ne (ne_of_plt32 hplt)]
      exact ⟨rfl, rfl⟩
    · rw [if_neg hplt] at hwrite
      cases hwrite
  · rw [if_neg hundefined] at hwrite
    by_cases hpc : (relaAt image r).type = rX8664Pc32 ∨ (relaAt image r).type = rX8664Plt32
    · rw [if_pos hpc] at hwrite
      rw [← some.inj hwrite, width_of_ne (ne_of_pc32 hpc)]
      exact ⟨rfl, rfl⟩
    · rw [if_neg hpc] at hwrite
      by_cases habs : (relaAt image r).type = rX8664
      · rw [if_pos habs] at hwrite
        rw [← some.inj hwrite, width_of_eq habs]
        exact ⟨rfl, rfl⟩
      · rw [if_neg habs] at hwrite
        cases hwrite

include hwell

theorem pairwise_fieldWrite : ((relocations image).filterMap (fieldWrite k image size T)).Pairwise Write.Disjoint := by
  refine List.Pairwise.filterMap _ ?_ hwell.fields
  intro r r' hapart w hw w' hw'
  obtain ⟨hpos, hlen⟩ := fieldWrite_pos hw
  obtain ⟨hpos', hlen'⟩ := fieldWrite_pos hw'
  rw [Write.Disjoint, hpos, hlen, hpos', hlen']
  exact hapart

theorem readLE_field (mem : Buf) (hr : r ∈ relocations image) :
    readLE (writeAll mem ((relocations image).filterMap (fieldWrite k image size T))) (place image size T r).toNat
        (width image r) =
      (fieldWrite k image size T r).elim (readLE mem (place image size T r).toNat (width image r))
        fun w => w.value % 256 ^ width image r := by
  cases hwrite : fieldWrite k image size T r with
  | some w =>
    obtain ⟨hpos, hlen⟩ := fieldWrite_pos hwrite
    rw [← hpos, ← hlen]
    exact readLE_writeAll (pairwise_fieldWrite hwell) (mem_filterMap.mpr ⟨r, hr, hwrite⟩)
  | none =>
    refine readLE_writeAll_of_disjoint ?_
    intro w hw
    obtain ⟨r', hr', hw⟩ := mem_filterMap.mp hw
    obtain ⟨hpos, hlen⟩ := fieldWrite_pos hw
    have hne : r ≠ r' := by
      rintro rfl
      rw [hwrite] at hw
      cases hw
    rw [hpos, hlen]
    have hsymm : Std.Symm fun r r' : Nat × Nat =>
        (place image size T r).toNat + width image r ≤ (place image size T r').toNat ∨
          (place image size T r').toNat + width image r' ≤ (place image size T r).toNat := ⟨fun _ _ => Or.symm⟩
    exact hwell.fields.forall hr hr' hne

omit hwell

theorem pc32_value (top l v a p : Word) :
    ((l + v + a).setWidth 32 - p.setWidth 32).toNat % 256 ^ 4 = (top + l + v + a - (top + p)).toNat % 2 ^ 32 := by
  have hcancel : top + l + v + a - (top + p) = l + v + a - p := by
    rw [add_assoc, add_assoc, add_assoc]
    exact add_sub_add_left_eq_sub _ _ _
  rw [hcancel, toNat_sub, toNat_sub, toNat_setWidth, toNat_setWidth]
  omega

theorem plt32_value (s a p : Word) : (s - p).toNat % 256 ^ 4 = (s + a - p).toNat % 2 ^ 32 ↔ a.toNat % 2 ^ 32 = 0 := by
  have hcomm : s + a - p = s - p + a := add_sub_right_comm s a p
  rw [hcomm, toNat_add]
  omega

theorem prescribed_of_ne (hne : (relaAt image r).type ≠ rX8664) :
    prescribed k image size T s r =
      (s + (relaAt image r).addend - (k.kernelTop + place image size T r)).toNat % 2 ^ 32 := if_neg hne

theorem fieldWrite_defined (hdefined : (symbolOf image T r).shndx ≠ 0) (hsupported : Supported image r)
    (hs : symbolAddress k image size T r = some s) :
    ∃ w, fieldWrite k image size T r = some w ∧ w.value % 256 ^ width image r = prescribed k image size T s r := by
  rw [symbolAddress] at hs
  rw [if_neg hdefined] at hs
  rw [fieldWrite, ← some.inj hs]
  rw [if_neg hdefined]
  by_cases hpc : (relaAt image r).type = rX8664Pc32 ∨ (relaAt image r).type = rX8664Plt32
  · rw [if_pos hpc, width_of_ne (ne_of_pc32 hpc), prescribed_of_ne (ne_of_pc32 hpc)]
    exact ⟨_, rfl, pc32_value _ _ _ _ _⟩
  · have habs : (relaAt image r).type = rX8664 := hsupported.resolve_right hpc
    rw [if_neg hpc, if_pos habs, width_of_eq habs, prescribed, if_pos habs]
    exact ⟨_, rfl, Nat.mod_eq_of_lt (isLt _)⟩

theorem fieldWrite_undefined (hundefined : (symbolOf image T r).shndx = 0)
    (hs : symbolAddress k image size T r = some s) :
    fieldWrite k image size T r = if (relaAt image r).type = rX8664Plt32
      then some ⟨(place image size T r).toNat, 4, (s - (k.kernelTop + place image size T r)).toNat⟩ else none := by
  rw [symbolAddress] at hs
  rw [if_pos hundefined] at hs
  rw [fieldWrite]
  rw [if_pos hundefined]
  by_cases hnull : kfunctionsGetByName k.functions image
      ((getSectionEntry image T.strtab).offset.toNat + (symbolOf image T r).name) = 0
  · rw [if_pos hnull] at hs
    cases hs
  · rw [if_neg hnull] at hs
    rw [some.inj hs]

def loadedImage (image : Buf) (size : Nat) (T : Tables) : Buf :=
  copy (fun _ => 0) 0 (placeBss image size T.bss) size

def relocated (k : Kernel) (image : Buf) (size : Nat) (T : Tables) : Buf :=
  writeAll (loadedImage image size T) ((relocations image).filterMap (fieldWrite k image size T))

include hwell in
theorem applied_iff_fits (hr : r ∈ relocations image) :
    Applied k image size T (relocated k image size T) r ↔ Fits k image size T r := by
  rw [Applied, Fits, and_congr_right_iff]
  intro hsupported
  refine exists_congr fun s => and_congr_right fun hs => ?_
  rw [relocated, readLE_field hwell _ hr]
  by_cases hundefined : (symbolOf image T r).shndx = 0
  · rw [fieldWrite_undefined hundefined hs, or_iff_right (not_not.mpr hundefined)]
    split_ifs with hplt
    · rw [or_iff_left fun h => h.1 hplt, and_iff_right hplt, width_of_ne (ne_of_plt32 hplt),
        prescribed_of_ne (ne_of_plt32 hplt)]
      exact plt32_value _ _ _
    · rw [or_iff_right fun h => hplt h.1, and_iff_right hplt]
      exact Iff.rfl
  · obtain ⟨w, hwrite, hvalue⟩ := fieldWrite_defined hundefined hsupported hs
    rw [hwrite]
    exact iff_of_true hvalue (.inl hundefined)

include hwell in
theorem scan_eq :
    scan image = if maxRelaSections < (relaSections image).length then .error (.error (-e2big))
      else .ok (foundUpTo image T (sectionHeaderEntriesNum image)) := scan_upTo hwell le_rfl

theorem filter_found {o : Option Nat} (hlt : ∀ i, o = some i → i < n) : o.filter (· < n) = o := by
  cases o with
  | none => rfl
  | some i => exact filter_some_pos (decide_eq_true (hlt i rfl))

include hwell

theorem found_bss : (foundUpTo image T (sectionHeaderEntriesNum image)).bss = T.bss :=
  filter_found fun i hi => ((hwell.bss i).mp hi).1

theorem found_moduleHeader :
    (foundUpTo image T (sectionHeaderEntriesNum image)).moduleHeader =
      T.header.elim 0 fun i => (getSectionEntry image i).offset := by
  rw [foundUpTo, filter_found fun i hi => ((hwell.header i).mp hi).1]

omit hwell

theorem moduleName_congr {buf buf' : Buf} (hsame : ∀ i < nameSize, buf' (o + i) = buf (o + i)) :
    moduleName buf' o = moduleName buf o := by
  have hfind : (range nameSize).find? (fun i => decide (buf' (o + i) = 0)) =
      (range nameSize).find? fun i => decide (buf (o + i) = 0) := by
    rw [← head?_filter, ← head?_filter, filter_congr]
    intro i hi
    rw [hsame i (mem_range.mp hi)]
  rw [moduleName, moduleName, hfind]
  cases hn : (range nameSize).find? fun i => decide (buf (o + i) = 0) with
  | none => rfl
  | some n =>
    have hlt := mem_range.mp (mem_of_find?_eq_some hn)
    rw [map_some, map_some, some.injEq]
    exact map_congr_left fun i hi => hsame i ((mem_range.mp hi).trans hlt)

include hwell in
theorem moduleName_placeBss (hi : T.header = some i) :
    moduleName (placeBss image size T.bss) (getSectionEntry image i).offset.toNat =
      moduleName image (getSectionEntry image i).offset.toNat := by
  obtain ⟨⟨-, hapart⟩, -⟩ := hwell.name i hi
  refine moduleName_congr fun p hp => hwell.placeBss_apply ?_
  rw [nameSize] at hp
  omega

/-- The module that `module_load` registers. -/
def newModule (k : Kernel) (image : Buf) (size : Nat) (T : Tables) (name : List Byte) (state : ModuleState) : Module :=
  ⟨name, k.kernelTop, requiredMem image size T.bss, state⟩

include hwell

theorem moduleLoad_cases :
    (Refused k image T ∧ ∃ rc, moduleLoad k image size = (.error (.error rc), k.modules)) ∨
      ¬ Refused k image T ∧ ∃ name routine, moduleLoad k image size =
        if ∃ r ∈ relocations image, symbolAddress k image size T r = none
        then (.error (.error (-1)), k.modules ++ [newModule k image size T name .loading])
        else (.ok ⟨relocated k image size T, routine⟩, k.modules ++ [newModule k image size T name .ready]) := by
  rw [moduleLoad]
  by_cases hsignature : checkSignature image
  swap
  · exact .inl ⟨.inl hsignature, _, if_pos hsignature⟩
  rw [if_neg (not_not.mpr hsignature), scan_eq hwell]
  by_cases hrelas : maxRelaSections < (relaSections image).length
  · rw [if_pos hrelas]
    exact .inl ⟨.inr (.inr (.inl hrelas)), _, rfl⟩
  rw [if_neg hrelas]
  dsimp only
  rw [found_moduleHeader hwell]
  cases hheader : T.header with
  | none => exact .inl ⟨.inr (.inl fun i hi => by cases hheader.symm.trans hi), _, if_pos rfl⟩
  | some i =>
    rw [elim_some]
    by_cases hoffset : (getSectionEntry image i).offset = 0
    · refine .inl ⟨.inr (.inl fun j hj => ?_), _, if_pos hoffset⟩
      cases hheader.symm.trans hj
      exact hoffset
    rw [if_neg hoffset]
    by_cases hmemory : k.memory = true
    swap
    · exact .inl ⟨.inr (.inr (.inr (.inl (Bool.eq_false_iff.mpr hmemory)))), _, if_pos hmemory⟩
    obtain ⟨-, name, hname⟩ := hwell.name i hheader
    rw [if_neg (not_not.mpr hmemory), found_bss hwell, moduleName_placeBss hwell hheader, hname]
    dsimp only [register]
    by_cases htaken : ∃ other ∈ k.modules, other.name = name
    · rw [if_pos htaken]
      exact .inl ⟨.inr (.inr (.inr (.inr ⟨i, name, hheader, hname, htaken⟩))), _, rfl⟩
    refine .inr ⟨?_, name, word (relocated k image size T) ((getSectionEntry image i).offset.toNat + 24) 8, ?_⟩
    · rintro (h | h | h | h | ⟨i', name', hi', hname', h⟩)
      · exact h hsignature
      · exact hoffset (h i hheader)
      · exact hrelas h
      · cases hmemory.symm.trans h
      · cases hheader.symm.trans hi'
        cases hname.symm.trans hname'
        exact htaken h
    · rw [if_neg htaken]
      rw [relocateAll_found hwell]
      split_ifs
      · rfl
      · rfl

omit hwell

theorem relocated_zero {p : Nat} (hp : size ≤ p) (hout : ∀ r ∈ relocations image,
    p < (place image size T r).toNat ∨ (place image size T r).toNat + width image r ≤ p) :
    relocated k image size T p = 0 := by
  rw [relocated, writeAll_of_outside]
  · exact copy_of_outside (by omega)
  · intro w hw
    obtain ⟨r, hr, hwrite⟩ := mem_filterMap.mp hw
    obtain ⟨hpos, hlen⟩ := fieldWrite_pos hwrite
    rw [hpos, hlen]
    exact hout r hr

theorem meets_error {rc : Int} : Meets k image size T (.error (.error rc), modules) ↔ modules = k.modules := by
  constructor
  · intro hmeets
    exact hmeets.rejected rc rfl
  · intro hmodules
    refine ⟨?_, fun _ _ => hmodules, ?_, ?_⟩
    · intro h
      cases h
    · intro loaded h
      cases h
    · intro loaded h
      cases h

include hwell in
theorem meets_relocated {routine : Word} :
    Meets k image size T (.ok ⟨relocated k image size T, routine⟩, modules) ↔
      ∀ r ∈ relocations image, Fits k image size T r := by
  constructor
  · intro hmeets r hr
    exact (applied_iff_fits hwell hr).mp (hmeets.applied _ rfl r hr)
  · intro hfits
    refine ⟨?_, ?_, ?_, ?_⟩
    · intro h
      cases h
    · intro rc h
      cases h
    · intro loaded h r hr
      obtain rfl := Except.ok.inj h
      exact (applied_iff_fits hwell hr).mpr (hfits r hr)
    · intro loaded h p hp hout
      obtain rfl := Except.ok.inj h
      exact relocated_zero hp hout

/-- A module is relocated as its image prescribes, or rejected without a trace, exactly if it is refused before it is
registered or each relocation fits. -/
theorem module_relocated (hwell : WellFormed image size T) :
    Meets k image size T (moduleLoad k image size) ↔
      Refused k image T ∨ ∀ r ∈ relocations image, Fits k image size T r := by
  obtain ⟨hrefused, rc, hload⟩ | ⟨hrefused, name, routine, hload⟩ := moduleLoad_cases hwell
  · rw [hload]
    exact iff_of_true (meets_error.mpr rfl) (.inl hrefused)
  · rw [or_iff_right hrefused, hload]
    split_ifs with hmissing
    · obtain ⟨r, hr, hnone⟩ := hmissing
      rw [meets_error]
      constructor
      · intro h
        exact absurd (append_right_eq_self.mp h) (cons_ne_nil _ _)
      · intro hfits
        obtain ⟨-, s, hs, -⟩ := hfits r hr
        rw [hnone] at hs
        cases hs
    · exact meets_relocated hwell

def sectionOf (i name type offset size info : Nat) : List Write :=
  [⟨64 + 64 * i, 4, name⟩, ⟨68 + 64 * i, 4, type⟩, ⟨88 + 64 * i, 8, offset⟩, ⟨96 + 64 * i, 8, size⟩,
    ⟨108 + 64 * i, 4, info⟩]

def stringAt (pos : Nat) (s : String) : List Write :=
  [⟨pos, s.length, (ofString s).foldr (fun b n => b.toNat + 256 * n) 0⟩]

/-- A module with a field of type `type` for one symbol: the second is in `.bss`, and the first is not defined. -/
def smallModule (type sym addend : Nat) : Buf :=
  imageOf ([⟨0, 4, 0x464C457F⟩, ⟨40, 8, 64⟩, ⟨58, 2, 64⟩, ⟨60, 2, 7⟩, ⟨62, 2, 5⟩] ++
    sectionOf 1 3 1 512 40 0 ++ sectionOf 2 0 1 552 16 0 ++ sectionOf 3 0 shtRela 568 24 2 ++
    sectionOf 4 0 shtSymtab 592 72 0 ++ sectionOf 5 17 3 664 30 0 ++ sectionOf 6 25 8 694 16 0 ++
    stringAt 512 "m" ++ [⟨568, 8, 4⟩, ⟨576, 8, type + 2 ^ 32 * sym⟩, ⟨584, 8, addend⟩] ++
    [⟨616, 4, 1⟩, ⟨646, 2, 6⟩, ⟨648, 8, 8⟩] ++
    stringAt 665 "f" ++ stringAt 667 ".kxmod_header" ++ stringAt 681 ".strtab" ++ stringAt 689 ".bss")

def smallTables : Tables := ⟨some 1, some 6, 4, 5⟩

def smallKernel : Kernel := ⟨[⟨ofString "f", 0xFFFF0000, by decide⟩], [], 0xFFFF8000, true⟩

theorem eq_some_iff_lt_and {o : Option Nat} (h : (∀ i < n, o = some i ↔ p i) ∧ ∀ i ∈ o, i < n) (i : Nat) :
    o = some i ↔ i < n ∧ p i := by
  obtain ⟨hbelow, hlt⟩ := h
  constructor
  · intro hi
    exact ⟨hlt i hi, (hbelow i (hlt i hi)).mp hi⟩
  · rintro ⟨hi, hp⟩
    exact (hbelow i hi).mpr hp

theorem eq_iff_lt_and {a : Nat} (h : (∀ i < n, some a = some i ↔ p i) ∧ ∀ i ∈ some a, i < n) (i : Nat) :
    i = a ↔ i < n ∧ p i := by
  rw [← eq_some_iff_lt_and h, some.injEq, eq_comm]

/-- A symbol in `.bss`, a call of a symbol that is not defined, and a type that is not known. -/
def smallRelocs : List (Nat × Nat × Nat) := [(rX8664, 2, 5), (rX8664Plt32, 1, 2 ^ 64 - 4), (9, 2, 0)]

theorem smallModule_wellFormed {r : Nat × Nat × Nat} (hr : r ∈ smallRelocs) :
    WellFormed (smallModule r.1 r.2.1 r.2.2) 694 smallTables := by
  constructor
  case header =>
    refine eq_some_iff_lt_and ?_
    revert r
    decide +kernel
  case bss =>
    refine eq_some_iff_lt_and ?_
    revert r
    decide +kernel
  case symtab =>
    refine eq_iff_lt_and ?_
    revert r
    decide +kernel
  case strtab =>
    refine eq_iff_lt_and ?_
    revert r
    decide +kernel
  case name =>
    intro i hi
    rw [← some.inj hi, ← isSome_iff_exists]
    revert r
    decide +kernel
  all_goals
    revert r
    decide +kernel

theorem module_relocated_small :
    (moduleLoad smallKernel (smallModule rX8664 2 5) 694).1.toOption.isSome ∧
      Meets smallKernel (smallModule rX8664 2 5) 694 smallTables
        (moduleLoad smallKernel (smallModule rX8664 2 5) 694) := by
  refine ⟨by decide +kernel,
    (module_relocated (smallModule_wellFormed (r := (rX8664, 2, 5)) (by decide))).mpr (.inr ?_)⟩
  have hrelocs : relocations (smallModule rX8664 2 5) = [(3, 0)] := by decide +kernel
  rw [hrelocs, forall_mem_singleton]
  exact ⟨.inl (by decide +kernel), 0xFFFF8000 + 694 + 8, by decide +kernel, .inl (by decide +kernel)⟩

/-- A call of the kernel is four bytes off, a field of an unknown type is left as it is, and a module with a missing
symbol stays. -/
theorem call_past_start :
    (WellFormed (smallModule rX8664Plt32 1 (2 ^ 64 - 4)) 694 smallTables ∧
      symbolAddress smallKernel (smallModule rX8664Plt32 1 (2 ^ 64 - 4)) 694 smallTables (3, 0) = some 0xFFFF0000 ∧
      prescribed smallKernel (smallModule rX8664Plt32 1 (2 ^ 64 - 4)) 694 smallTables 0xFFFF0000 (3, 0) =
        2 ^ 32 - 0x822C - 4 ∧
      (moduleLoad smallKernel (smallModule rX8664Plt32 1 (2 ^ 64 - 4)) 694).1.toOption.map
        (fun loaded => readLE loaded.mem 556 4) = some (2 ^ 32 - 0x822C)) ∧
    (WellFormed (smallModule 9 2 0) 694 smallTables ∧ relocations (smallModule 9 2 0) = [(3, 0)] ∧
      ¬ Supported (smallModule 9 2 0) (3, 0) ∧
      (moduleLoad smallKernel (smallModule 9 2 0) 694).1.toOption.isSome) ∧
    (moduleLoad { smallKernel with functions := [] } (smallModule rX8664Plt32 1 (2 ^ 64 - 4)) 694).1.toOption.isNone ∧
    (moduleLoad { smallKernel with functions := [] } (smallModule rX8664Plt32 1 (2 ^ 64 - 4)) 694).2.length = 1 := by
  refine ⟨⟨smallModule_wellFormed (r := (rX8664Plt32, 1, 2 ^ 64 - 4)) (by decide), ?_⟩,
    ⟨smallModule_wellFormed (r := (9, 2, 0)) (by decide), ?_⟩, ?_⟩
  · decide +kernel
  · decide +kernel
  · decide +kernel

end Kairax.Mod
