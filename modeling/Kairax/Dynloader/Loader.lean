import Kairax.Lib.Bytes
import Kairax.Lib.Rose
import Kairax.Word

/-!
# The dynamic loader

`load_object_data` loads an object and then each library that it needs, and keeps no record of what is loaded.
`process_relocations` then fills the slots: `R_X86_64_RELATIVE` adds the base to what is in the slot, `R_X86_64_64`
and `R_X86_64_GLOB_DAT` look into the object itself first, and `R_X86_64_TPOFF64` places symbols one behind the other.
The loader dies when it prints the name of an entry of another type, and with the name of a library that is too long.
-/

namespace Kairax.Dynloader

open Lib List Option BitVec Prod

abbrev Name := List Byte

inductive Binding
  | localSym
  | globalSym
  | weakSym
  deriving DecidableEq

/-- `struct elf_symbol`. It is defined if `shndx` is not `SHN_UNDEF`. -/
structure Symbol where
  name : Name
  value : Word
  size : Word
  binding : Binding
  defined : Bool

inductive RelocType
  | copy
  | abs64
  | relative
  | globDat
  | tpoff64
  | other
  deriving DecidableEq

/-- `struct elf_rela` of `.rela.dyn`. -/
structure Rela where
  offset : Nat
  type : RelocType
  sym : Nat
  addend : Word

/-- An object file: the entries `DT_NEEDED` and `DT_PLTGOT`, the tables, the slots of `.rela.plt`, `tls_size`, and the
bytes of the segments by their addresses. -/
structure ObjFile where
  needed : List Name
  pltGot : List Nat
  dynsym : List Symbol
  rela : List Rela
  pltRela : List Nat
  tlsSize : Word
  data : Buf

/-- `struct object_data` without its dependencies, and the result of `process_relocations`. It has none if the loader
dies there, and then what is left to do is not done. -/
structure Object where
  name : Name
  base : Word
  file : ObjFile
  data : Buf
  rc : Option Nat

abbrev Tree := Rose Object

/-- The libraries by name, their bases and the addresses of `struct object_data` in the order of the calls of
`map_memory`, that of `linker_entry`, and the TLS offset of an object. -/
structure System where
  files : Name → Option ObjFile
  bases : Nat → Word
  objects : Nat → Word
  linkerEntry : Word
  tlsBase : Object → Word

section Loading

variable (sys : System)

/-- `struct got_plt` is filled at the address that `DT_PLTGOT` gives. -/
def setGot (object base : Word) (data : Buf) (o : Nat) : Buf :=
  writeLE (writeLE (writeLE data o 8 object.toNat) (o + 8) 8 (base + BitVec.ofNat 64 o).toNat) (o + 16) 8
    sys.linkerEntry.toNat

/-- The base is added to a slot of `.rela.plt` that is not zero. -/
def movePlt (base : Word) (data : Buf) (o : Nat) : Buf :=
  if 0 < readLE data o 8 then writeLE data o 8 (BitVec.ofNat 64 (readLE data o 8) + base).toNat else data

/-- An object before its dependencies are loaded. -/
def newObject (name : Name) (object base : Word) (file : ObjFile) : Object :=
  ⟨name, base, file, file.pltRela.foldl (movePlt base) (file.pltGot.foldl (setGot sys object base) file.data), some 0⟩

/-- The loop of `load_object_data` over `DT_NEEDED`. A library that is not found is left out. It is `none` if there are
more dependencies than the array has, or a name is longer than its field, or than the path of a library that is not
found. -/
def loadDependencies (load : Name → ObjFile → Nat → Option (Tree × Nat)) :
    List Name → List Tree → Nat → Option (List Tree × Nat)
  | [], deps, n => some (deps, n)
  | name :: rest, deps, n =>
    match sys.files name with
    | none => if 294 ≤ name.length then none else loadDependencies load rest deps n
    | some file =>
      (load name file n).bind fun r =>
        if 50 ≤ name.length ∨ 30 ≤ deps.length then none
        else loadDependencies load rest (deps ++ [r.1]) r.2

/-- `load_object_data` of a library with so many nested calls at most. -/
def loadLibrary : Nat → Name → ObjFile → Nat → Option (Tree × Nat)
  | 0, _, _, _ => none
  | depth + 1, name, file, n =>
    (loadDependencies sys (loadLibrary depth) file.needed [] (n + 1)).map fun r =>
      (.node (newObject sys name (sys.objects (n + 1)) (sys.bases n) file) r.1, r.2)

end Loading

def Object.symbol (o : Object) (r : Rela) : Symbol := o.file.dynsym.getD r.sym ⟨[], 0, 0, .localSym, false⟩

/-- `look_for_symbol` in one object. -/
def Object.look (o : Object) (name : Name) : Option Symbol :=
  o.file.dynsym.find? fun s => s.name == name && s.binding == .globalSym && s.defined

mutual

def lookForSymbol (name : Name) (inCurrent inDeps : Bool) : Tree → Option (Object × Symbol)
  | .node o deps =>
    (if inCurrent then (o.look name).map fun s => (o, s) else none).or
      (if inDeps then lookInDeps name deps else none)

def lookInDeps (name : Name) : List Tree → Option (Object × Symbol)
  | [] => none
  | t :: ts => (lookForSymbol name true true t).or (lookInDeps name ts)

end

/-- The search of `R_X86_64_GLOB_DAT` and `R_X86_64_TPOFF64`: the object itself, and then all from the root on. -/
def findSymbol (root t : Tree) (name : Name) : Option (Object × Symbol) :=
  (lookForSymbol name true false t).or (lookForSymbol name true true root)

section Relocations

variable (root t : Tree)

/-- One entry, with the bytes of the object and `tls_offset`. It is `none` if the symbol is not found, and if the type
is another one. -/
def relocate (r : Rela) (data : Buf) (tlsOffset : Word) : Option (Buf × Word) :=
  let o := t.val
  let sym := o.symbol r
  let store (v : Word) : Buf := writeLE data r.offset 8 v.toNat
  match r.type with
  | .abs64 => some (store (o.base + sym.value + r.addend), tlsOffset)
  | .relative => some (store (BitVec.ofNat 64 (readLE data r.offset 8) + o.base), tlsOffset)
  | .copy =>
    (lookForSymbol sym.name false true t).map fun d =>
      (copy data sym.value.toNat (fun i => d.1.data (d.2.value.toNat + i)) d.2.size.toNat, tlsOffset)
  | .globDat => (findSymbol root t sym.name).map fun d => (store (d.1.base + d.2.value), tlsOffset)
  | .tpoff64 =>
    (findSymbol root t sym.name).map fun d =>
      (store (tlsOffset - o.file.tlsSize + r.addend), tlsOffset + d.2.size)
  | .other => none

/-- The loop of `process_relocations`, with its result. For a type that it does not know it prints a name that is
NULL. -/
def relocateAll : List Rela → Buf → Word → Option Nat × Buf
  | [], data, _ => (some 0, data)
  | r :: rs, data, tlsOffset =>
    match relocate root t r data tlsOffset with
    | none => (if r.type = .other then none else some 1, data)
    | some st => relocateAll rs st.1 st.2

/-- An object after its own relocations. Those of its dependencies are done. -/
def relocated (o : Object) (done : List Tree) : Object :=
  let r := relocateAll root (.node o done) o.file.rela o.data 0#64
  { o with data := r.2, rc := r.1 }

end Relocations

mutual

/-- `process_relocations`. What it returns for a dependency is not looked at. -/
def processRelocations (root : Tree) : Tree → Tree
  | .node o deps =>
    let done := processAll root deps
    .node (relocated root o done) done

def processAll (root : Tree) : List Tree → List Tree
  | [] => []
  | t :: ts => processRelocations root t :: processAll root ts

end

/-- The first definition of a name in the objects from the root on, breadth first. -/
def scopeLookup (root : Tree) (name : Name) : Option (Object × Symbol) :=
  root.breadthFirst.findSome? fun t =>
    (t.val.file.dynsym.find? fun s => s.name == name && s.binding != .localSym && s.defined).map fun s => (t.val, s)

/-- The definition that an entry stands for. A local symbol stands for itself. -/
def definition (root t : Tree) (r : Rela) : Option (Object × Symbol) :=
  if (t.val.symbol r).binding = .localSym then some (t.val, t.val.symbol r)
  else scopeLookup root (t.val.symbol r).name

def prescribed (sys : System) (root t : Tree) (r : Rela) : Option Word :=
  match r.type with
  | .abs64 | .globDat => (definition root t r).map fun d => d.1.base + d.2.value + r.addend
  | .relative => some (t.val.base + r.addend)
  | .tpoff64 => (definition root t r).map fun d => sys.tlsBase d.1 + d.2.value + r.addend
  | .copy | .other => none

/-- All entries of the object have been processed, and the slots have their values. -/
def Linked (sys : System) (root t : Tree) : Prop :=
  (processRelocations root t).val.rc = some 0 ∧
    ∀ r ∈ t.val.file.rela, ∀ v ∈ prescribed sys root t r,
      readLE (processRelocations root t).val.data r.offset 8 = v.toNat

def System.found (sys : System) (needed : List Name) : List Name := needed.filter fun name => (sys.files name).isSome

inductive Unfolds (sys : System) : List Name → Nat → List Tree → Nat → Prop
  | nil (n : Nat) : Unfolds sys [] n [] n
  | missing {name : Name} {rest : List Name} {ts : List Tree} {n m : Nat} (hfile : sys.files name = none)
      (hname : name.length < 294) (hrest : Unfolds sys rest n ts m) : Unfolds sys (name :: rest) n ts m
  | found {name : Name} {file : ObjFile} {rest : List Name} {below ts : List Tree} {n k m : Nat}
      (hfile : sys.files name = some file) (hname : name.length < 50) (hroom : (sys.found file.needed).length ≤ 30)
      (hbelow : Unfolds sys file.needed (n + 1) below k) (hrest : Unfolds sys rest k ts m) :
      Unfolds sys (name :: rest) n (.node (newObject sys name (sys.objects (n + 1)) (sys.bases n) file) below :: ts) m

/-- The tree of an executable. -/
def TreeOf (sys : System) (exe : ObjFile) (root : Tree) : Prop :=
  (sys.found exe.needed).length ≤ 30 ∧ ∃ deps n, Unfolds sys exe.needed 0 deps n ∧
    root = .node (newObject sys [] (sys.objects 0) 0 exe) deps

/-- The sizes of the symbols of the entries `R_X86_64_TPOFF64` before. -/
def tlsBefore (root t : Tree) (before : List Rela) : Word :=
  (before.map fun r =>
    if r.type = .tpoff64 then (findSymbol root t (t.val.symbol r).name).elim 0#64 fun d => d.2.size else 0#64).sum

/-- The entry computes what it should: the slot holds the addend, the definition is in the object itself, or the search
finds the definition and there is no addend, or the definition is where the entries before it leave off. -/
def Fits (sys : System) (root t : Tree) (before : List Rela) (r : Rela) : Prop :=
  match r.type with
  | .abs64 => ∀ d ∈ definition root t r, t.val.base + (t.val.symbol r).value = d.1.base + d.2.value
  | .relative => BitVec.ofNat 64 (readLE t.val.data r.offset 8) = r.addend
  | .globDat => ∃ e, findSymbol root t (t.val.symbol r).name = some e ∧
      ∀ d ∈ definition root t r, e.1.base + e.2.value = d.1.base + d.2.value + r.addend
  | .tpoff64 => (∃ e, findSymbol root t (t.val.symbol r).name = some e) ∧
      ∀ d ∈ definition root t r, tlsBefore root t before - t.val.file.tlsSize = sys.tlsBase d.1 + d.2.value
  | .copy => ∃ e, lookInDeps (t.val.symbol r).name t.children = some e
  | .other => False

def region (t : Tree) (r : Rela) : Nat × Nat :=
  match r.type with
  | .copy =>
    ((t.val.symbol r).value.toNat, (lookInDeps (t.val.symbol r).name t.children).elim 0 fun d => d.2.size.toNat)
  | .other => (r.offset, 0)
  | .abs64 | .relative | .globDat | .tpoff64 => (r.offset, 8)

def Apart (t : Tree) : Prop :=
  t.val.file.rela.Pairwise fun r r' =>
    (region t r).1 + (region t r).2 ≤ (region t r').1 ∨ (region t r').1 + (region t r').2 ≤ (region t r).1

variable {load : Name → ObjFile → Nat → Option (Tree × Nat)} {names : List Name} {deps : List Tree} {before : List Rela}

section Loads

variable {sys : System}

theorem found_cons_some {name : Name} {file : ObjFile} (hfile : sys.files name = some file) (rest : List Name) :
    sys.found (name :: rest) = name :: sys.found rest :=
  filter_cons_of_pos (by rw [hfile]; rfl)

theorem found_cons_none {name : Name} (hfile : sys.files name = none) (rest : List Name) :
    sys.found (name :: rest) = sys.found rest :=
  filter_cons_of_neg (by rw [hfile]; exact Bool.false_ne_true)

theorem Unfolds.loadDependencies {new : List Tree} {n m : Nat} (hunfolds : Unfolds sys names n new m) :
    ∃ depth₀, ∀ depth, depth₀ ≤ depth → ∀ deps : List Tree, deps.length + (sys.found names).length ≤ 30 →
      Dynloader.loadDependencies sys (loadLibrary sys depth) names deps n = some (deps ++ new, m) := by
  induction hunfolds with
  | nil n => exact ⟨0, fun depth _ deps _ => by rw [append_nil]; rfl⟩
  | missing hfile hname _ ih =>
    obtain ⟨depth₀, ih⟩ := ih
    refine ⟨depth₀, fun depth hdepth deps hroom => ?_⟩
    rw [found_cons_none hfile] at hroom
    rw [Dynloader.loadDependencies, hfile]
    dsimp only
    rw [if_neg (not_le.mpr hname)]
    exact ih depth hdepth deps hroom
  | @found name file rest below ts n k m hfile hname hroom _ _ ihbelow ihrest =>
    obtain ⟨depth₁, ihbelow⟩ := ihbelow
    obtain ⟨depth₂, ihrest⟩ := ihrest
    refine ⟨max (depth₁ + 1) depth₂, fun depth hdepth deps hdeps => ?_⟩
    obtain ⟨d, rfl⟩ := Nat.exists_eq_add_of_le (show 1 ≤ depth by omega)
    rw [found_cons_some hfile, length_cons] at hdeps
    have hlibrary : loadLibrary sys (1 + d) name file n =
        some (.node (newObject sys name (sys.objects (n + 1)) (sys.bases n) file) below, k) := by
      rw [add_comm, loadLibrary, ihbelow d (by omega) [] (by simpa using hroom)]
      rfl
    rw [Dynloader.loadDependencies, hfile]
    show (loadLibrary sys (1 + d) name file n).bind _ = _
    rw [hlibrary, Option.bind_some, if_neg (by omega), ihrest (1 + d) (by omega) _ (by
      rw [length_append, length_singleton]
      omega), List.append_assoc]
    rfl

theorem Unfolds.unique {ts us : List Tree} {n m k : Nat} (hts : Unfolds sys names n ts m)
    (hus : Unfolds sys names n us k) : ts = us ∧ m = k := by
  induction hts generalizing us k with
  | nil n =>
    cases hus
    exact ⟨rfl, rfl⟩
  | missing hfile _ _ ih =>
    cases hus with
    | missing _ _ hrest => exact ih hrest
    | found hfile' => cases hfile.symm.trans hfile'
  | found hfile _ _ _ _ ihbelow ihrest =>
    cases hus with
    | missing hfile' => cases hfile.symm.trans hfile'
    | found hfile' _ _ hbelow hrest =>
      cases hfile.symm.trans hfile'
      obtain ⟨rfl, rfl⟩ := ihbelow hbelow
      obtain ⟨rfl, rfl⟩ := ihrest hrest
      exact ⟨rfl, rfl⟩

theorem TreeOf.unique {exe : ObjFile} {root root' : Tree} (hroot : TreeOf sys exe root)
    (hroot' : TreeOf sys exe root') :
    root = root' := by
  obtain ⟨-, deps, n, hdeps, rfl⟩ := hroot
  obtain ⟨-, deps', n', hdeps', rfl⟩ := hroot'
  rw [(hdeps.unique hdeps').1]

end Loads

section Slots

variable {root t : Tree} {r : Rela} {rs : List Rela} {data : Buf} {tlsOffset : Word}

def Found (root t : Tree) (r : Rela) : Prop :=
  match r.type with
  | .copy => ∃ e, lookInDeps (t.val.symbol r).name t.children = some e
  | .globDat | .tpoff64 => ∃ e, findSymbol root t (t.val.symbol r).name = some e
  | .abs64 | .relative => True
  | .other => False

/-- What the entry adds to `tls_offset`. -/
def tlsStep (root t : Tree) (r : Rela) : Word :=
  if r.type = .tpoff64 then (findSymbol root t (t.val.symbol r).name).elim 0#64 fun d => d.2.size else 0#64

def stored (root t : Tree) (r : Rela) (slot tlsOffset : Word) : Option Word :=
  match r.type with
  | .abs64 => some (t.val.base + (t.val.symbol r).value + r.addend)
  | .relative => some (slot + t.val.base)
  | .globDat => (findSymbol root t (t.val.symbol r).name).map fun d => d.1.base + d.2.value
  | .tpoff64 => (findSymbol root t (t.val.symbol r).name).map fun _ => tlsOffset - t.val.file.tlsSize + r.addend
  | .copy | .other => none

def Clear (o len : Nat) (place : Nat × Nat) : Prop := o + len ≤ place.1 ∨ place.1 + place.2 ≤ o

theorem lookForSymbol_deps (name : Name) (t : Tree) : lookForSymbol name false true t = lookInDeps name t.children := by
  cases t with
  | node o deps => rw [lookForSymbol]; rfl

theorem relocate_spec (hfound : Found root t r) (data : Buf) (tlsOffset : Word) :
    ∃ data', relocate root t r data tlsOffset = some (data', tlsOffset + tlsStep root t r) ∧
      (∀ o len, Clear o len (region t r) → readLE data' o len = readLE data o len) ∧
      ∀ v ∈ stored root t r (BitVec.ofNat 64 (readLE data r.offset 8)) tlsOffset,
        readLE data' r.offset 8 = v.toNat := by
  have hstore (v : Word) : readLE (writeLE data r.offset 8 v.toNat) r.offset 8 = v.toNat := by
    rw [readLE_writeLE, Nat.mod_eq_of_lt (show v.toNat < 256 ^ 8 from v.isLt)]
  have hframe (v : Word) (o len : Nat) (hclear : Clear o len (r.offset, 8)) :
      readLE (writeLE data r.offset 8 v.toNat) o len = readLE data o len :=
    readLE_writeLE_of_disjoint hclear
  rw [Found] at hfound
  rw [relocate, tlsStep, region, stored]
  cases htype : r.type with
  | copy =>
    rw [htype] at hfound
    obtain ⟨e, he⟩ := hfound
    simp only [lookForSymbol_deps, he, reduceCtorEq, if_false, BitVec.add_zero]
    refine ⟨_, rfl, fun o len hclear => ?_, fun v hv => absurd hv (by simp)⟩
    exact readLE_copy_of_disjoint hclear
  | globDat =>
    rw [htype] at hfound
    obtain ⟨e, he⟩ := hfound
    simp only [he, map_some, reduceCtorEq, if_false, BitVec.add_zero, mem_some_iff, forall_eq']
    exact ⟨_, rfl, hframe _, hstore _⟩
  | tpoff64 =>
    rw [htype] at hfound
    obtain ⟨e, he⟩ := hfound
    simp only [he, map_some, mem_some_iff, forall_eq']
    exact ⟨_, rfl, hframe _, hstore _⟩
  | abs64 | relative =>
    simp only [reduceCtorEq, if_false, BitVec.add_zero, mem_some_iff, forall_eq']
    exact ⟨_, rfl, hframe _, hstore _⟩
  | other =>
    rw [htype] at hfound
    exact hfound.elim

theorem region_of_stored {slot v : Word} (hv : v ∈ stored root t r slot tlsOffset) : region t r = (r.offset, 8) := by
  rw [stored] at hv
  rw [region]
  cases htype : r.type with
  | copy | other =>
    rw [htype] at hv
    cases hv
  | abs64 | relative | globDat | tpoff64 => rfl

def ApartIn (t : Tree) (rs : List Rela) : Prop :=
  rs.Pairwise fun r r' => Clear (region t r).1 (region t r).2 (region t r')

theorem clear_comm {a b : Nat × Nat} (hclear : Clear a.1 a.2 b) : Clear b.1 b.2 a := Or.symm hclear

theorem relocateAll_found (hfound : ∀ r ∈ rs, Found root t r) (hapart : ApartIn t rs) :
    ∃ out, relocateAll root t rs data tlsOffset = (some 0, out) ∧
      (∀ o len, (∀ r ∈ rs, Clear o len (region t r)) → readLE out o len = readLE data o len) ∧
      ∀ before r after, rs = before ++ r :: after →
        ∀ v ∈ stored root t r (BitVec.ofNat 64 (readLE data r.offset 8)) (tlsOffset + tlsBefore root t before),
          readLE out r.offset 8 = v.toNat := by
  induction rs generalizing data tlsOffset with
  | nil => exact ⟨data, rfl, fun _ _ _ => rfl, fun before r after heq => absurd heq (by simp)⟩
  | cons r rs ih =>
    obtain ⟨hhead, hrest⟩ := pairwise_cons.mp hapart
    obtain ⟨data', hone, hframe, hslot⟩ :=
      relocate_spec (hfound r (mem_cons_self ..)) data tlsOffset
    obtain ⟨out, hall, hframe', hslots⟩ := @ih data' (tlsOffset + tlsStep root t r)
      (fun r' hr' => hfound r' (mem_cons_of_mem r hr')) hrest
    refine ⟨out, ?_, fun o len hclear => ?_, fun before r' after heq v hv => ?_⟩
    · rw [relocateAll, hone]
      exact hall
    · rw [hframe' o len fun r' hr' => hclear r' (mem_cons_of_mem r hr'), hframe o len (hclear r (mem_cons_self ..))]
    · have hregion := region_of_stored hv
      cases before with
      | nil =>
        obtain ⟨rfl, rfl⟩ := cons.inj heq
        rw [show tlsBefore root t [] = 0#64 from rfl, BitVec.add_zero] at hv
        rw [hframe' r.offset 8 fun r' hr' => by simpa only [hregion] using hhead r' hr', hslot v hv]
      | cons r₀ before =>
        obtain ⟨rfl, hrs⟩ := cons.inj heq
        have hmem : r' ∈ rs := by
          rw [hrs]
          exact mem_append_right _ (mem_cons_self ..)
        have hclear : Clear r'.offset 8 (region t r) := by
          have hclear := clear_comm (hhead r' hmem)
          simpa only [hregion] using hclear
        rw [tlsBefore, map_cons, sum_cons, ← tlsBefore, ← add_assoc, ← hframe _ _ hclear] at hv
        exact hslots before r' after hrs v hv

end Slots

mutual

theorem lookForSymbol_process (root : Tree) (name : Name) (inCurrent inDeps : Bool) : (t : Tree) →
    (lookForSymbol name inCurrent inDeps (processRelocations root t)).map snd =
      (lookForSymbol name inCurrent inDeps t).map snd
  | .node o deps => by
    have hdeps := lookInDeps_process root name deps
    have hcurrent (p : Object) (hfile : p.file = o.file) :
        (if inCurrent then (p.look name).map fun s => (p, s) else none).map snd =
          if inCurrent then o.look name else none := by
      have hlook : p.look name = o.look name := by rw [Object.look, Object.look, hfile]
      rw [hlook]
      cases inCurrent with
      | true => cases o.look name <;> rfl
      | false => rfl
    rw [processRelocations, lookForSymbol, lookForSymbol, map_or, map_or, hcurrent o rfl,
      hcurrent (relocated root o _) rfl]
    cases inDeps with
    | true => rw [if_pos rfl, if_pos rfl, hdeps]
    | false => rfl

theorem lookInDeps_process (root : Tree) (name : Name) : (ts : List Tree) →
    (lookInDeps name (processAll root ts)).map snd = (lookInDeps name ts).map snd
  | [] => rfl
  | t :: ts => by
    rw [processAll, lookInDeps, lookInDeps, map_or, map_or, lookForSymbol_process root name true true t,
      lookInDeps_process root name ts]

end

section Linked

variable {sys : System} {root t : Tree} {r : Rela}

theorem fits_iff : Fits sys root t before r ↔ Found root t r ∧
    ∀ v ∈ prescribed sys root t r,
      stored root t r (BitVec.ofNat 64 (readLE t.val.data r.offset 8)) (0#64 + tlsBefore root t before) = some v := by
  rw [Fits, Found, prescribed, stored]
  cases htype : r.type with
  | abs64 =>
    simp only [true_and, mem_def, map_eq_some_iff, some.injEq]
    constructor
    · rintro hfits v ⟨d, hd, rfl⟩
      rw [hfits d hd]
    · intro hstored d hd
      exact (add_left_inj _).mp (hstored _ ⟨d, hd, rfl⟩)
  | relative =>
    simp only [true_and, mem_def, some.injEq, forall_eq']
    rw [BitVec.add_comm (BitVec.ofNat 64 _), BitVec.add_right_inj]
  | globDat =>
    simp only [mem_def, map_eq_some_iff]
    constructor
    · rintro ⟨e, he, hfits⟩
      refine ⟨⟨e, he⟩, ?_⟩
      rintro v ⟨d, hd, rfl⟩
      exact ⟨e, he, hfits d hd⟩
    · rintro ⟨⟨e, he⟩, hstored⟩
      refine ⟨e, he, fun d hd => ?_⟩
      obtain ⟨e', he', heq⟩ := hstored _ ⟨d, hd, rfl⟩
      rw [he] at he'
      rw [some.inj he', heq]
  | tpoff64 =>
    simp only [mem_def, map_eq_some_iff]
    constructor
    · rintro ⟨⟨e, he⟩, hfits⟩
      refine ⟨⟨e, he⟩, ?_⟩
      rintro v ⟨d, hd, rfl⟩
      exact ⟨e, he, by rw [BitVec.zero_add, hfits d hd]⟩
    · rintro ⟨hfound, hstored⟩
      refine ⟨hfound, fun d hd => ?_⟩
      obtain ⟨-, -, heq⟩ := hstored _ ⟨d, hd, rfl⟩
      rw [BitVec.zero_add] at heq
      exact (add_left_inj _).mp heq
  | copy => simp only [mem_def, reduceCtorEq, false_imp_iff, implies_true, and_true]
  | other => exact ⟨False.elim, And.left⟩

end Linked

end Kairax.Dynloader
