import Kairax.Errors
import Mathlib.Data.List.Pairwise
import Kairax.Elf.Image

/-!
# Loading kernel modules

`module_load` registers the module, copies the image behind the kernel and applies the relocations. The area of `.bss`
is behind the image. For symbols of the kernel only `R_X86_64_PLT32` is applied, without its addend; other types are
skipped. A symbol that is not found ends the load, but the module stays registered.
-/

namespace Kairax.Mod

open Lib Elf List

/-- `struct kernel_function` -/
structure KernelFunction where
  name : List Byte
  funcPtr : Word
  terminated : 0 ∉ name

inductive ModuleState
  | loading
  | ready
  deriving DecidableEq

/-- `struct module` -/
structure Module where
  name : List Byte
  offset : Word
  size : Word
  state : ModuleState
  deriving DecidableEq

inductive Stop
  | error (rc : Int)
  | fault
  deriving DecidableEq

def maxRelaSections : Nat := 7

/-- What the loop over the sections finds. The header pointer is null if there is none. -/
structure Scan where
  moduleHeader : Word
  symtab : Option Nat
  strtab : Option Nat
  bss : Option Nat
  relas : List Nat

def scanSection (image : Buf) (found : Scan) (i : Nat) : Except Stop Scan :=
  let entry := getSectionEntry image i
  if nameIs image i ".kxmod_header" then .ok { found with moduleHeader := entry.offset }
  else if entry.type = shtSymtab then .ok { found with symtab := some i }
  else if nameIs image i ".strtab" then .ok { found with strtab := some i }
  else if nameIs image i ".bss" then .ok { found with bss := some i }
  else if entry.type = shtRela then
    if maxRelaSections ≤ found.relas.length then .error (.error (-e2big))
    else .ok { found with relas := found.relas ++ [i] }
  else .ok found

def scan (image : Buf) : Except Stop Scan :=
  (range (sectionHeaderEntriesNum image)).foldlM (scanSection image) ⟨0, none, none, none, []⟩

/-- The room for names in `struct module`. -/
def nameSize : Nat := 30

/-- The name of the module, which `strcpy` copies up to the zero byte. -/
def moduleName (image : Buf) (o : Nat) : Option (List Byte) :=
  ((range nameSize).find? fun i => image (o + i) = 0).map fun n => (range n).map fun i => image (o + i)

/-- The entry of `.bss` gets the size of the image as its offset, in the image. -/
def placeBss (image : Buf) (size : Nat) : Option Nat → Buf
  | some i => writeLE image (sectionEntryPos image i + 24) 8 size
  | none => image

def requiredMem (image : Buf) (size : Nat) : Option Nat → Word
  | some i => BitVec.ofNat 64 size + BitVec.ofNat 64 (getSectionEntry image i).size
  | none => BitVec.ofNat 64 size

/-- `kfunctions_get_by_name`; null if there is no such function. -/
def kfunctionsGetByName (functions : List KernelFunction) (image : Buf) (o : Nat) : Word :=
  match functions.find? fun f => stringIs image o f.name with
  | some f => f.funcPtr
  | none => 0

/-- One relocation. Memory is that of the module, from its own start on, and `offset` is the address of the start. -/
def relocate (functions : List KernelFunction) (image : Buf) (offset : Word) (symtab strtab relaSection i : Nat)
    (mem : Buf) : Except Stop Buf :=
  let relocating := getSectionEntry image (getSectionEntry image relaSection).info
  let rela := readRela image ((getSectionEntry image relaSection).offset.toNat + 24 * i)
  let sym := readSymbol image ((getSectionEntry image symtab).offset.toNat + 24 * rela.sym)
  let value := relocating.offset + rela.offset
  if sym.shndx = 0 then
    let funcPtr := kfunctionsGetByName functions image ((getSectionEntry image strtab).offset.toNat + sym.name)
    if funcPtr = 0 then .error (.error (-1))
    else if rela.type = rX8664Plt32 then
      -- The addend is not added.
      .ok (writeLE mem value.toNat 4 (funcPtr - (offset + value)).toNat)
    else .ok mem
  else
    let symSection := getSectionEntry image sym.shndx
    if rela.type = rX8664Pc32 ∨ rela.type = rX8664Plt32 then
      let origin : BitVec 32 := value.setWidth 32
      let jmpoffset : BitVec 32 := (symSection.offset + sym.value + rela.addend).setWidth 32
      .ok (writeLE mem value.toNat 4 (jmpoffset - origin).toNat)
    else if rela.type = rX8664 then
      .ok (writeLE mem value.toNat 8 (offset + symSection.offset + sym.value + rela.addend).toNat)
    else .ok mem

def relocateSection (functions : List KernelFunction) (image : Buf) (offset : Word) (symtab : Nat)
    (strtab : Option Nat) (mem : Buf) (relaSection : Nat) : Except Stop Buf :=
  (range ((getSectionEntry image relaSection).size / 24)).foldlM (fun mem i =>
    match strtab with
    | some strtab => relocate functions image offset symtab strtab relaSection i mem
    | none => .error .fault) mem

def relocateAll (functions : List KernelFunction) (image : Buf) (offset : Word) (found : Scan) (mem : Buf) :
    Except Stop Buf :=
  match found.symtab with
  | some symtab => found.relas.foldlM (relocateSection functions image offset symtab found.strtab) mem
  | none => .error .fault

/-- A loaded module: its memory and its routine, which is called if it is not null. -/
structure Loaded where
  mem : Buf
  modInitRoutine : Word

/-- What `module_load` works in: the registered modules, the end of the kernel, where new memory is put, and whether
`kmalloc` succeeds. -/
structure Kernel where
  functions : List KernelFunction
  modules : List Module
  kernelTop : Word
  memory : Bool

def register (k : Kernel) (m : Module) : Except Stop (List Module) :=
  if ∃ other ∈ k.modules, other.name = m.name then .error (.error (-errorAlreadyExists)) else .ok (k.modules ++ [m])

/-- `module_load`, with the modules that are registered afterwards. -/
def moduleLoad (k : Kernel) (image : Buf) (size : Nat) : Except Stop Loaded × List Module :=
  if ¬ checkSignature image then (.error (.error (-errorBadExecFormat)), k.modules)
  else
    match scan image with
    | .error stop => (.error stop, k.modules)
    | .ok found =>
      if found.moduleHeader = 0 then (.error (.error (-errorBadExecFormat)), k.modules)
      else if ¬ k.memory then (.error (.error (-enomem)), k.modules)
      else
        let image' := placeBss image size found.bss
        match moduleName image' found.moduleHeader.toNat with
        | none => (.error .fault, k.modules)
        | some name =>
          let mod : Module := ⟨name, k.kernelTop, requiredMem image size found.bss, .loading⟩
          match register k mod with
          | .error stop => (.error stop, k.modules)
          | .ok modules =>
            match relocateAll k.functions image' k.kernelTop found (copy (fun _ => 0) 0 image' size) with
            | .error stop => (.error stop, modules)
            | .ok mem =>
              (.ok ⟨mem, word mem (found.moduleHeader.toNat + 24) 8⟩, k.modules ++ [{ mod with state := .ready }])

structure Tables where
  header : Option Nat
  bss : Option Nat
  symtab : Nat
  strtab : Nat

section Prescribed

variable (k : Kernel) (image : Buf) (size : Nat) (T : Tables)

def loadOffset (i : Nat) : Word :=
  if T.bss = some i then BitVec.ofNat 64 size else (getSectionEntry image i).offset

def relaSections : List Nat :=
  (range (sectionHeaderEntriesNum image)).filter fun i => (getSectionEntry image i).type = shtRela

def relocations : List (Nat × Nat) :=
  (relaSections image).flatMap fun j => (range ((getSectionEntry image j).size / 24)).map fun i => (j, i)

def relaAt (r : Nat × Nat) : Rela := readRela image ((getSectionEntry image r.1).offset.toNat + 24 * r.2)

def symbolOf (r : Nat × Nat) : Symbol :=
  readSymbol image ((getSectionEntry image T.symtab).offset.toNat + 24 * (relaAt image r).sym)

def place (r : Nat × Nat) : Word := loadOffset image size T (getSectionEntry image r.1).info + (relaAt image r).offset

/-- The address of the symbol: that of a function of the kernel, or that of its section and its value. -/
def symbolAddress (r : Nat × Nat) : Option Word :=
  let sym := symbolOf image T r
  if sym.shndx = 0 then
    let funcPtr := kfunctionsGetByName k.functions image ((getSectionEntry image T.strtab).offset.toNat + sym.name)
    if funcPtr = 0 then none else some funcPtr
  else some (k.kernelTop + loadOffset image size T sym.shndx + sym.value)

def Supported (r : Nat × Nat) : Prop :=
  (relaAt image r).type = rX8664 ∨ (relaAt image r).type = rX8664Pc32 ∨ (relaAt image r).type = rX8664Plt32

instance (r : Nat × Nat) : Decidable (Supported image r) := inferInstanceAs (Decidable (_ ∨ _))

def width (r : Nat × Nat) : Nat := if (relaAt image r).type = rX8664 then 8 else 4

/-- `S + A`, and `S + A - P` in 32 bits. -/
def prescribed (s : Word) (r : Nat × Nat) : Nat :=
  if (relaAt image r).type = rX8664 then (s + (relaAt image r).addend).toNat
  else (s + (relaAt image r).addend - (k.kernelTop + place image size T r)).toNat % 2 ^ 32

def Applied (mem : Buf) (r : Nat × Nat) : Prop :=
  Supported image r ∧ ∃ s, symbolAddress k image size T r = some s ∧
    readLE mem (place image size T r).toNat (width image r) = prescribed k image size T s r

/-- A module that is started has its relocations applied and zeros behind its image, and a rejected one is not
registered. -/
structure Meets (result : Except Stop Loaded × List Module) : Prop where
  noFault : result.1 ≠ .error .fault
  rejected : ∀ rc, result.1 = .error (.error rc) → result.2 = k.modules
  applied : ∀ loaded, result.1 = .ok loaded → ∀ r ∈ relocations image, Applied k image size T loaded.mem r
  zeroed : ∀ loaded, result.1 = .ok loaded → ∀ p, size ≤ p →
    (∀ r ∈ relocations image, p < (place image size T r).toNat ∨ (place image size T r).toNat + width image r ≤ p) →
    loaded.mem p = 0

def Apart (o len : Nat) : Prop :=
  o + len ≤ size ∧ (o + len ≤ sectionHeaderTablePos image ∨
    sectionHeaderTablePos image + 64 * sectionHeaderEntriesNum image ≤ o)

/-- The tables of the image are where the entries say, and the fields of the relocations do not overlap. -/
structure WellFormed : Prop where
  entrySize : sectionHeaderEntrySize image = 64
  behindHeader : 64 ≤ sectionHeaderTablePos image
  table : sectionHeaderTablePos image + 64 * sectionHeaderEntriesNum image ≤ size
  header : ∀ i, T.header = some i ↔ i < sectionHeaderEntriesNum image ∧ nameIs image i ".kxmod_header"
  bss : ∀ i, T.bss = some i ↔ i < sectionHeaderEntriesNum image ∧ nameIs image i ".bss"
  symtab : ∀ i, i = T.symtab ↔ i < sectionHeaderEntriesNum image ∧ (getSectionEntry image i).type = shtSymtab
  strtab : ∀ i, i = T.strtab ↔ i < sectionHeaderEntriesNum image ∧ nameIs image i ".strtab"
  plain : ∀ i < sectionHeaderEntriesNum image,
    (getSectionEntry image i).type = shtSymtab ∨ (getSectionEntry image i).type = shtRela →
    ¬ nameIs image i ".kxmod_header" ∧ ¬ nameIs image i ".strtab" ∧ ¬ nameIs image i ".bss"
  name : ∀ i, T.header = some i → Apart image size (getSectionEntry image i).offset.toNat 40 ∧
    ∃ name, moduleName image (getSectionEntry image i).offset.toNat = some name
  symbols : Apart image size (getSectionEntry image T.symtab).offset.toNat (getSectionEntry image T.symtab).size
  strings : Apart image size (getSectionEntry image T.strtab).offset.toNat (getSectionEntry image T.strtab).size ∧
    image ((getSectionEntry image T.strtab).offset.toNat + (getSectionEntry image T.strtab).size - 1) = 0
  relas : ∀ j ∈ relaSections image, (getSectionEntry image j).info < sectionHeaderEntriesNum image ∧
    Apart image size (getSectionEntry image j).offset.toNat (getSectionEntry image j).size
  relocs : ∀ r ∈ relocations image, 24 * (relaAt image r).sym + 24 ≤ (getSectionEntry image T.symtab).size ∧
    (symbolOf image T r).shndx < sectionHeaderEntriesNum image ∧
    (symbolOf image T r).name < (getSectionEntry image T.strtab).size
  inside : ∀ r ∈ relocations image,
    (place image size T r).toNat + width image r ≤ (requiredMem image size T.bss).toNat
  fields : (relocations image).Pairwise fun r r' =>
    (place image size T r).toNat + width image r ≤ (place image size T r').toNat ∨
      (place image size T r').toNat + width image r' ≤ (place image size T r).toNat

instance (o len : Nat) : Decidable (Apart image size o len) := inferInstanceAs (Decidable (_ ∧ _))

def Refused : Prop :=
  ¬ checkSignature image ∨ (∀ i, T.header = some i → (getSectionEntry image i).offset = 0) ∨
    maxRelaSections < (relaSections image).length ∨ k.memory = false ∨
    ∃ i name, T.header = some i ∧ moduleName image (getSectionEntry image i).offset.toNat = some name ∧
      ∃ other ∈ k.modules, other.name = name

/-- A symbol of the module, a call by `R_X86_64_PLT32` with an addend that does not matter, or a field that has its
value already. -/
def Fits (r : Nat × Nat) : Prop :=
  Supported image r ∧ ∃ s, symbolAddress k image size T r = some s ∧
    ((symbolOf image T r).shndx ≠ 0 ∨
      (relaAt image r).type = rX8664Plt32 ∧ (relaAt image r).addend.toNat % 2 ^ 32 = 0 ∨
      (relaAt image r).type ≠ rX8664Plt32 ∧
        readLE (copy (fun _ => 0) 0 (placeBss image size T.bss) size) (place image size T r).toNat (width image r) =
          prescribed k image size T s r)

end Prescribed

end Kairax.Mod
