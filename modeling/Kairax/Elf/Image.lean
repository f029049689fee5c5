import Kairax.Word
import Kairax.Lib.Bytes

/-!
# ELF images

The tables of an ELF file in memory, read as the loaders read them: the header, the entries of the section and program
tables, symbols, relocations and the strings they are named by. An image is a buffer, a pointer into it an offset.
-/

namespace Kairax.Elf

open Lib

def word (buf : Buf) (o len : Nat) : Word := BitVec.ofNat 64 (readLE buf o len)

def ofString (s : String) : List Byte := s.toList.map fun c => BitVec.ofNat 8 c.toNat

/-- `strcmp` of the string at an offset with a name returns 0. -/
def stringIs (buf : Buf) (o : Nat) (name : List Byte) : Prop :=
  (∀ i < name.length, some (buf (o + i)) = name[i]?) ∧ buf (o + name.length) = 0

instance (buf : Buf) (o : Nat) (name : List Byte) : Decidable (stringIs buf o name) :=
  inferInstanceAs (Decidable (_ ∧ _))

theorem stringIs_unique {buf : Buf} {o : Nat} {a b : List Byte} (ha : stringIs buf o a) (hb : stringIs buf o b)
    (hza : 0 ∉ a) (hzb : 0 ∉ b) : a = b := by
  have hle {a b : List Byte} (ha : stringIs buf o a) (hb : stringIs buf o b) (hzb : 0 ∉ b) : b.length ≤ a.length := by
    by_contra hlt
    have hbyte := hb.1 a.length (by omega)
    rw [ha.2] at hbyte
    exact hzb (List.mem_of_getElem? hbyte.symm)
  apply List.ext_getElem?
  intro i
  by_cases hi : i < a.length
  · have hib : i < b.length := by
      have hlen := hle hb ha hza
      omega
    rw [← ha.1 i hi, ← hb.1 i hib]
  · have hib : b.length ≤ i := by
      have hlen := hle ha hb hzb
      omega
    rw [List.getElem?_eq_none (not_lt.mp hi), List.getElem?_eq_none hib]

theorem stringIs_congr {buf buf' : Buf} {o e : Nat} {name : List Byte} (hend : buf (o + e) = 0)
    (hsame : ∀ i ≤ e, buf' (o + i) = buf (o + i)) (hname : 0 ∉ name) : stringIs buf' o name ↔ stringIs buf o name := by
  by_cases hlen : name.length ≤ e
  · rw [stringIs, hsame _ hlen]
    refine and_congr_left fun _ => forall₂_congr fun i hi => ?_
    rw [hsame i (by omega)]
  · have hout (b : Buf) (hzero : b (o + e) = 0) : ¬ stringIs b o name := by
      intro h
      have hbyte := h.1 e (by omega)
      rw [hzero] at hbyte
      exact hname (List.mem_of_getElem? hbyte.symm)
    exact iff_of_false (hout buf' ((hsame e le_rfl).trans hend)) (hout buf hend)

def checkSignature (image : Buf) : Prop := image 0 = 0x7F ∧ image 1 = 0x45 ∧ image 2 = 0x4C ∧ image 3 = 0x46

instance (image : Buf) : Decidable (checkSignature image) := inferInstanceAs (Decidable (_ ∧ _))

def progEntryPos (image : Buf) : Word := word image 24 8
def progHeaderTablePos (image : Buf) : Nat := readLE image 32 8
def sectionHeaderTablePos (image : Buf) : Nat := readLE image 40 8
def progHeaderEntrySize (image : Buf) : Nat := readLE image 54 2
def progHeaderEntriesNum (image : Buf) : Nat := readLE image 56 2
def sectionHeaderEntrySize (image : Buf) : Nat := readLE image 58 2
def sectionHeaderEntriesNum (image : Buf) : Nat := readLE image 60 2
def sectionNamesIndex (image : Buf) : Nat := readLE image 62 2

/-- `struct elf_section_header_entry` -/
structure SectionEntry where
  nameOffset : Nat
  type : Nat
  flags : Word
  offset : Word
  size : Nat
  info : Nat

/-- The index and the size of an entry are multiplied as 32-bit numbers. -/
def sectionEntryPos (image : Buf) (i : Nat) : Nat :=
  sectionHeaderTablePos image + i * sectionHeaderEntrySize image % 2 ^ 32

def readSection (image : Buf) (o : Nat) : SectionEntry where
  nameOffset := readLE image o 4
  type := readLE image (o + 4) 4
  flags := word image (o + 8) 8
  offset := word image (o + 24) 8
  size := readLE image (o + 32) 8
  info := readLE image (o + 44) 4

theorem readSection_eq {buf buf' : Buf} {o : Nat}
    (hsame : ∀ p, o ≤ p → p < o + 24 ∨ o + 32 ≤ p → p < o + 64 → buf' p = buf p) :
    readSection buf' o = { readSection buf o with offset := word buf' (o + 24) 8 } := by
  have hfield (a len : Nat) (hlow : o ≤ a) (hin : a + len ≤ o + 24 ∨ o + 32 ≤ a ∧ a + len ≤ o + 64) :
      readLE buf' a len = readLE buf a len :=
    readLE_congr fun p hp hp' => hsame p (by omega) (by omega) (by omega)
  have hflags : word buf' (o + 8) 8 = word buf (o + 8) 8 := by rw [word, word, hfield (o + 8) 8 (by omega) (by omega)]
  rw [readSection, readSection, hfield o 4 (by omega) (by omega), hfield (o + 4) 4 (by omega) (by omega), hflags,
    hfield (o + 32) 8 (by omega) (by omega), hfield (o + 44) 4 (by omega) (by omega)]

/-- `elf_get_section_entry` -/
def getSectionEntry (image : Buf) (i : Nat) : SectionEntry := readSection image (sectionEntryPos image i)

/-- `elf_get_string_at` -/
def getStringAt (image : Buf) (i : Nat) : Nat :=
  (getSectionEntry image (sectionNamesIndex image)).offset.toNat + i

def nameIs (image : Buf) (i : Nat) (name : String) : Prop :=
  stringIs image (getStringAt image (getSectionEntry image i).nameOffset) (ofString name)

instance (image : Buf) (i : Nat) (name : String) : Decidable (nameIs image i name) :=
  inferInstanceAs (Decidable (stringIs _ _ _))

/-- `struct elf_program_header_entry`, without the physical address -/
structure ProgramEntry where
  type : Nat
  flags : BitVec 32
  pOffset : Word
  vAddr : Word
  pFilesz : Word
  pMemsz : Word
  alignment : Word
  deriving DecidableEq

def programEntryPos (image : Buf) (i : Nat) : Nat :=
  progHeaderTablePos image + i * progHeaderEntrySize image % 2 ^ 32

def readProgram (image : Buf) (o : Nat) : ProgramEntry where
  type := readLE image o 4
  flags := BitVec.ofNat 32 (readLE image (o + 4) 4)
  pOffset := word image (o + 8) 8
  vAddr := word image (o + 16) 8
  pFilesz := word image (o + 32) 8
  pMemsz := word image (o + 40) 8
  alignment := word image (o + 48) 8

/-- `elf_get_program_entry` -/
def getProgramEntry (image : Buf) (i : Nat) : ProgramEntry := readProgram image (programEntryPos image i)

def elfSegmentTypeLoad : Nat := 1

def elfSegmentFlagExec : BitVec 32 := 1
def elfSegmentFlagWrite : BitVec 32 := 2

def shtSymtab : Nat := 2
def shtRela : Nat := 4

/-- `struct elf_symbol` -/
structure Symbol where
  name : Nat
  shndx : Nat
  value : Word

def readSymbol (image : Buf) (o : Nat) : Symbol where
  name := readLE image o 4
  shndx := readLE image (o + 6) 2
  value := word image (o + 8) 8

/-- `struct elf_rela` -/
structure Rela where
  offset : Word
  info : Word
  addend : Word

def readRela (image : Buf) (o : Nat) : Rela where
  offset := word image o 8
  info := word image (o + 8) 8
  addend := word image (o + 16) 8

/-- `ELF64_R_SYM`, kept in an `int` -/
def Rela.sym (r : Rela) : Nat := (r.info >>> 32).toNat

/-- `ELF64_R_TYPE` -/
def Rela.type (r : Rela) : Nat := (r.info &&& 0xffffffff).toNat

def rX8664 : Nat := 1
def rX8664Pc32 : Nat := 2
def rX8664Plt32 : Nat := 4

end Kairax.Elf
