import Kairax.Ext2.FileData

/-!
# Directory records

A directory is a file whose blocks are tiled by records. The driver walks over the records with a cursor, and
stops at the first one that it looks for. `scanDir_eq` turns a walk over the bytes of a well-formed directory
into a walk over the list of its records.
-/

namespace Kairax.Ext2

open Lib List Option

/-- A directory record, `ext2_direntry_t`. -/
structure Rec where
  inode : Nat
  size : Nat
  type : Nat
  name : List Byte
  deriving DecidableEq

def alignedLen (nameLen : Nat) : Nat :=
  8 + nameLen + if (8 + nameLen) % 4 ≠ 0 then 4 - (8 + nameLen) % 4 else 0

def recAt (buf : Buf) (o : Nat) : Rec where
  inode := readLE buf o 4
  size := readLE buf (o + 4) 2
  type := readLE buf (o + 7) 1
  name := (range (readLE buf (o + 6) 1)).map fun k => buf (o + 8 + k)

def putRec (buf : Buf) (o inode size type : Nat) (name : List Byte) : Buf :=
  copy (writeLE (writeLE (writeLE (writeLE buf o 4 inode) (o + 4) 2 size) (o + 6) 1 name.length) (o + 7) 1 type) (o + 8)
    (fun k => name.getD k 0) name.length

variable {name : List Byte} {i : Nat}

variable {buf buf' : Buf} {o : Nat}

theorem le_alignedLen (nameLen : Nat) : 8 + nameLen ≤ alignedLen nameLen := Nat.le_add_right _ _

theorem alignedLen_le (nameLen : Nat) : alignedLen nameLen ≤ 11 + nameLen := by
  rw [alignedLen]
  split_ifs <;> omega

theorem length_recAt (buf : Buf) (o : Nat) : (recAt buf o).name.length = readLE buf (o + 6) 1 := by
  rw [recAt, length_map, length_range]

theorem recAt_congr (hsame : ∀ p, o ≤ p → p < o + 8 + (recAt buf o).name.length → buf p = buf' p) :
    recAt buf' o = recAt buf o := by
  rw [length_recAt] at hsame
  have hfield (p len : Nat) (hp : o ≤ p) (hlen : p + len ≤ o + 8) : readLE buf' p len = readLE buf p len :=
    readLE_congr fun q hlow hhigh => (hsame q (by omega) (by omega)).symm
  rw [recAt, hfield o 4 (by omega) (by omega), hfield (o + 4) 2 (by omega) (by omega),
    hfield (o + 7) 1 (by omega) (by omega), hfield (o + 6) 1 (by omega) (by omega)]
  congr 1
  apply map_congr_left
  intro k hk
  rw [mem_range] at hk
  exact (hsame (o + 8 + k) (by omega) (by omega)).symm

theorem putRec_of_outside {inode size type : Nat} {p : Nat} (hout : p < o ∨ o + 8 + name.length ≤ p) :
    putRec buf o inode size type name p = buf p := by
  rw [putRec, copy_of_outside (by omega), writeLE_of_outside (by omega), writeLE_of_outside (by omega),
    writeLE_of_outside (by omega), writeLE_of_outside (by omega)]

theorem recAt_putRec (inode size type : Nat) (hname : name.length < 256) :
    recAt (putRec buf o inode size type name) o = ⟨inode % 2 ^ 32, size % 2 ^ 16, type % 2 ^ 8, name⟩ := by
  have hinode : readLE (putRec buf o inode size type name) o 4 = inode % 2 ^ 32 := by
    rw [putRec, readLE_copy_of_disjoint (by omega), readLE_writeLE_of_disjoint (by omega),
      readLE_writeLE_of_disjoint (by omega), readLE_writeLE_of_disjoint (by omega), readLE_writeLE]
    rfl
  have hsize : readLE (putRec buf o inode size type name) (o + 4) 2 = size % 2 ^ 16 := by
    rw [putRec, readLE_copy_of_disjoint (by omega), readLE_writeLE_of_disjoint (by omega),
      readLE_writeLE_of_disjoint (by omega), readLE_writeLE]
    rfl
  have hlen : readLE (putRec buf o inode size type name) (o + 6) 1 = name.length := by
    rw [putRec, readLE_copy_of_disjoint (by omega), readLE_writeLE_of_disjoint (by omega), readLE_writeLE]
    exact Nat.mod_eq_of_lt hname
  have htype : readLE (putRec buf o inode size type name) (o + 7) 1 = type % 2 ^ 8 := by
    rw [putRec, readLE_copy_of_disjoint (by omega), readLE_writeLE]
    rfl
  rw [recAt, hsize, hlen]
  congr 1
  apply ext_getElem
  · rw [length_map, length_range]
  · intro k hk hk'
    rw [getElem_map, getElem_range, putRec, copy_of_inside hk', getD_eq_getElem?_getD, getElem?_eq_getElem hk',
      getD_some]

theorem recAt_setInode (inode : Nat) :
    recAt (writeLE buf o 4 inode) o = { recAt buf o with inode := inode % 2 ^ 32 } := by
  rw [recAt, readLE_writeLE, readLE_writeLE_of_disjoint (by omega), readLE_writeLE_of_disjoint (by omega),
    readLE_writeLE_of_disjoint (by omega)]
  congr 1
  apply map_congr_left
  intro k _
  exact writeLE_of_outside (by omega)

theorem recAt_setSize (size : Nat) :
    recAt (writeLE buf (o + 4) 2 size) o = { recAt buf o with size := size % 2 ^ 16 } := by
  rw [recAt, readLE_writeLE, readLE_writeLE_of_disjoint (by omega), readLE_writeLE_of_disjoint (by omega),
    readLE_writeLE_of_disjoint (by omega)]
  congr 1
  apply map_congr_left
  intro k _
  exact writeLE_of_outside (by omega)

/-- The records lie next to each other up to the offset `e`. Each is at least as long as its aligned header
and name. -/
def Tiles (buf : Buf) (e : Nat) : Nat → List Rec → Prop
  | o, [] => o = e
  | o, r :: rs => recAt buf o = r ∧ alignedLen r.name.length ≤ r.size ∧ Tiles buf e (o + r.size) rs

instance decidableTiles (buf : Buf) (e : Nat) : (o : Nat) → (rs : List Rec) → Decidable (Tiles buf e o rs)
  | _, [] => inferInstanceAs (Decidable (_ = _))
  | o, r :: rs =>
    have := decidableTiles buf e (o + r.size) rs
    inferInstanceAs (Decidable (_ ∧ _ ∧ _))

variable {e : Nat} {rs rs' : List Rec}

theorem Tiles.le (htiles : Tiles buf e o rs) : o ≤ e := by
  induction rs generalizing o with
  | nil => exact htiles.le
  | cons r rs ih => exact (Nat.le_add_right o r.size).trans (ih htiles.2.2)

theorem Tiles.length_le (htiles : Tiles buf e o rs) : o + rs.length ≤ e := by
  induction rs generalizing o with
  | nil => exact htiles.le
  | cons r rs ih =>
    have hneed := htiles.2.1
    have hlen := le_alignedLen r.name.length
    have hrest := ih htiles.2.2
    rw [length_cons]
    omega

theorem tiles_append : Tiles buf e o (rs ++ rs') ↔ ∃ m, Tiles buf m o rs ∧ Tiles buf e m rs' := by
  induction rs generalizing o with
  | nil =>
    constructor
    · intro h
      exact ⟨o, rfl, h⟩
    · intro ⟨m, hm, h⟩
      obtain rfl : o = m := hm
      exact h
  | cons r rs ih =>
    rw [cons_append, Tiles, ih]
    constructor
    · intro ⟨hr, hneed, m, hm, h⟩
      exact ⟨m, ⟨hr, hneed, hm⟩, h⟩
    · intro ⟨m, ⟨hr, hneed, hm⟩, h⟩
      exact ⟨hr, hneed, m, hm, h⟩

theorem Tiles.congr (htiles : Tiles buf e o rs) (hsame : ∀ p, o ≤ p → p < e → buf p = buf' p) : Tiles buf' e o rs := by
  induction rs generalizing o with
  | nil => exact htiles
  | cons r rs ih =>
    obtain ⟨hr, hneed, hrest⟩ := htiles
    have hle := hrest.le
    have hlen := le_alignedLen r.name.length
    refine ⟨?_, hneed, ih hrest fun p hlow hhigh => hsame p (by omega) hhigh⟩
    rw [← hr]
    apply recAt_congr
    intro p hlow hhigh
    rw [hr] at hhigh
    exact hsame p hlow (by omega)

/-- Where a walk over a directory is: in the data of the inode and in the block. -/
structure Cursor where
  offset : Nat
  inBlock : Nat
  block : Nat
  buffer : Buf

namespace Cursor

def record (c : Cursor) : Rec := recAt c.buffer c.inBlock

def advance (c : Cursor) : Cursor := ⟨c.offset + c.record.size, c.inBlock + c.record.size, c.block, c.buffer⟩

/-- The next block is read when this one is used up. With `carry` the offset goes back by the size of a block, otherwise
to zero. -/
def load (carry : Bool) (inst : Inst) (ino : Buf) (c : Cursor) : Option Cursor :=
  if inst.blockSize ≤ c.inBlock then
    (readInodeBlock inst ino (BitVec.ofNat 32 (c.block + 1))).map fun buf =>
      ⟨c.offset, if carry then c.inBlock - inst.blockSize else 0, c.block + 1, buf⟩
  else some c

end Cursor

/-- The loop over the records: what `visit` finds, or what it has gathered. A record of size zero is never left. -/
def scanLoop {α β : Type} (carry : Bool) (inst : Inst) (ino : Buf) (visit : α → Cursor → β ⊕ α) :
    Nat → α → Cursor → Option (β ⊕ α)
  | 0, _, _ => none
  | fuel + 1, acc, c =>
    if c.offset < Inode.size ino then
      (c.load carry inst ino).bind fun c =>
        match visit acc c with
        | .inl found => some (.inl found)
        | .inr acc => scanLoop carry inst ino visit fuel acc c.advance
    else some (.inr acc)

def scanDir {α β : Type} (carry : Bool) (inst : Inst) (ino : Buf) (visit : α → Cursor → β ⊕ α) (acc : Cursor → α) :
    Option (β ⊕ α) :=
  (readInodeBlock inst ino 0#32).bind fun buf =>
    scanLoop carry inst ino visit (Inode.size ino + 1) (acc ⟨0, 0, 0, buf⟩) ⟨0, 0, 0, buf⟩

/-- The blocks of a directory and the records in them. -/
structure IsDir (inst : Inst) (ino : Buf) (blocks : List (List Rec)) : Prop where
  size : Inode.size ino = blocks.length * inst.blockSize
  tiles : ∀ i rs, blocks[i]? = some rs → Tiles (fileBlock inst ino i) inst.blockSize 0 rs

def blockCursors (bs : Nat) (buf : Buf) (i : Nat) : Nat → List Rec → List Cursor
  | _, [] => []
  | o, r :: rs => ⟨i * bs + o, o, i, buf⟩ :: blockCursors bs buf i (o + r.size) rs

def dirCursors (bs : Nat) (block : Nat → Buf) : Nat → List (List Rec) → List Cursor
  | _, [] => []
  | i, rs :: blocks => blockCursors bs (block i) i 0 rs ++ dirCursors bs block (i + 1) blocks

def walk {α β : Type} (visit : α → Cursor → β ⊕ α) : α → List Cursor → β ⊕ α
  | acc, [] => .inr acc
  | acc, c :: cs =>
    match visit acc c with
    | .inl found => .inl found
    | .inr acc => walk visit acc cs

section Walks

variable {α β : Type} {visit : α → Cursor → β ⊕ α}

theorem walk_append (acc : α) (cs cs' : List Cursor) :
    walk visit acc (cs ++ cs') =
      match walk visit acc cs with
      | .inl found => .inl found
      | .inr acc => walk visit acc cs' := by
  induction cs generalizing acc with
  | nil => rfl
  | cons c cs ih =>
    rw [cons_append, walk, walk]
    cases visit acc c with
    | inl found => rfl
    | inr acc => exact ih acc

end Walks

variable {blocks : List (List Rec)}

section Scan

variable {α β : Type} {inst : Inst} {ino : Buf} (carry : Bool) (visit : α → Cursor → β ⊕ α)

theorem scanLoop_block (hsize : (i + 1) * inst.blockSize ≤ Inode.size ino) (fuel : Nat)
    (htiles : Tiles buf inst.blockSize o rs) (acc : α) :
    scanLoop carry inst ino visit (rs.length + fuel) acc ⟨i * inst.blockSize + o, o, i, buf⟩ =
      match walk visit acc (blockCursors inst.blockSize buf i o rs) with
      | .inl found => some (.inl found)
      | .inr acc =>
        scanLoop carry inst ino visit fuel acc ⟨i * inst.blockSize + inst.blockSize, inst.blockSize, i, buf⟩ := by
  induction rs generalizing o acc with
  | nil =>
    obtain rfl : o = inst.blockSize := htiles
    rw [length_nil, zero_add]
    rfl
  | cons r rs ih =>
    obtain ⟨hr, hneed, hrest⟩ := htiles
    have hlen := le_alignedLen r.name.length
    have hle := hrest.le
    rw [add_mul] at hsize
    rw [length_cons, add_right_comm, scanLoop, if_pos (show i * inst.blockSize + o < _ by omega), Cursor.load,
      if_neg (show ¬ inst.blockSize ≤ o by omega), bind_some, blockCursors, walk]
    cases visit acc ⟨i * inst.blockSize + o, o, i, buf⟩ with
    | inl found => rfl
    | inr acc =>
      have hadvance : Cursor.advance ⟨i * inst.blockSize + o, o, i, buf⟩ =
          ⟨i * inst.blockSize + (o + r.size), o + r.size, i, buf⟩ := by
        rw [Cursor.advance, Cursor.record, hr, add_assoc]
      rw [hadvance]
      exact ih hrest acc

theorem toNat_block {bs : Nat} (hbs : 1024 ≤ bs) (hsize : i * bs < Inode.size ino) :
    (BitVec.ofNat 32 i).toNat = i ∧ i < 2 ^ 31 := by
  have hlimit : Inode.size ino < 2 ^ 32 := readLE_lt ino 4 4
  have hle : i * 1024 ≤ i * bs := Nat.mul_le_mul_left i hbs
  exact ⟨toNat_ofNat_lt (by omega), by omega⟩

theorem scanLoop_blocks (hent : Entries (inst.blockSize / 4)) (blocks : List (List Rec)) :
    ∀ (i : Nat) (buf : Buf) (acc : α) (fuel : Nat), blocks.flatten.length < fuel →
      Inode.size ino = (i + 1 + blocks.length) * inst.blockSize →
      (∀ k rs, blocks[k]? = some rs → Tiles (fileBlock inst ino (i + 1 + k)) inst.blockSize 0 rs) →
      scanLoop carry inst ino visit fuel acc ⟨i * inst.blockSize + inst.blockSize, inst.blockSize, i, buf⟩ =
        some (walk visit acc (dirCursors inst.blockSize (fileBlock inst ino) (i + 1) blocks)) := by
  have hge := hent.ge
  induction blocks with
  | nil =>
    intro i buf acc fuel hfuel hsize _
    obtain ⟨fuel, rfl⟩ := Nat.exists_eq_succ_of_ne_zero (Nat.lt_of_le_of_lt (Nat.zero_le _) hfuel).ne'
    rw [length_nil, add_zero, add_mul] at hsize
    rw [scanLoop, if_neg (show ¬ i * inst.blockSize + inst.blockSize < _ by omega)]
    rfl
  | cons rs blocks ih =>
    intro i buf acc fuel hfuel hsize htiles
    have htile : Tiles (fileBlock inst ino (i + 1)) inst.blockSize 0 rs := htiles 0 rs rfl
    have hend : (i + 1 + 1) * inst.blockSize ≤ Inode.size ino := by
      rw [hsize, length_cons]
      exact Nat.mul_le_mul_right _ (by omega)
    have hmul : (i + 1) * inst.blockSize = i * inst.blockSize + inst.blockSize := by rw [add_mul, one_mul]
    have hmul' : (i + 1 + 1) * inst.blockSize = (i + 1) * inst.blockSize + inst.blockSize := by
      rw [add_mul, one_mul]
    have hindex := toNat_block (show 1024 ≤ inst.blockSize by omega)
      (show (i + 1) * inst.blockSize < Inode.size ino by omega)
    rw [flatten_cons, length_append] at hfuel
    -- reading the next block is the first thing the loop does
    have hload : scanLoop carry inst ino visit fuel acc
        ⟨i * inst.blockSize + inst.blockSize, inst.blockSize, i, buf⟩ =
          scanLoop carry inst ino visit fuel acc
            ⟨(i + 1) * inst.blockSize + 0, 0, i + 1, fileBlock inst ino (i + 1)⟩ := by
      obtain ⟨fuel, rfl⟩ := Nat.exists_eq_succ_of_ne_zero (show fuel ≠ 0 by omega)
      rw [scanLoop, scanLoop, add_zero, hmul, Cursor.load, Cursor.load,
        if_pos (le_refl inst.blockSize), if_neg (show ¬ inst.blockSize ≤ 0 by omega),
        readInodeBlock_eq ino hent (by rw [hindex.1]; exact hindex.2), hindex.1, map_some, Nat.sub_self, ite_self]
    obtain ⟨fuel, rfl⟩ := Nat.exists_eq_add_of_le (show rs.length ≤ fuel by omega)
    rw [hload, scanLoop_block carry visit hend fuel htile, dirCursors, walk_append]
    cases walk visit acc (blockCursors inst.blockSize (fileBlock inst ino (i + 1)) (i + 1) 0 rs) with
    | inl found => rfl
    | inr acc =>
      apply ih (i + 1) _ acc fuel (by omega)
      · rw [hsize, length_cons]
        congr 1
        omega
      · intro k rs' hk
        have := htiles (k + 1) rs' hk
        rwa [show i + 1 + (k + 1) = i + 1 + 1 + k by omega] at this

theorem IsDir.records_le (hdir : IsDir inst ino blocks) : blocks.flatten.length ≤ Inode.size ino := by
  rw [hdir.size]
  have hall : ∀ n ∈ blocks.map length, n ≤ inst.blockSize := by
    intro n hn
    obtain ⟨rs, hrs, rfl⟩ := mem_map.mp hn
    obtain ⟨i, hi⟩ := mem_iff_getElem?.mp hrs
    have := (hdir.tiles i rs hi).length_le
    omega
  have := sum_le_card_nsmul (blocks.map length) inst.blockSize hall
  simpa using this

theorem scanDir_eq (hent : Entries (inst.blockSize / 4)) (hdir : IsDir inst ino blocks) (acc : Cursor → α) :
    scanDir carry inst ino visit acc =
      some (walk visit (acc ⟨0, 0, 0, fileBlock inst ino 0⟩)
        (dirCursors inst.blockSize (fileBlock inst ino) 0 blocks)) := by
  have hrecords := hdir.records_le
  rw [scanDir, readInodeBlock_eq ino hent (by decide), bind_some, show (0#32).toNat = 0 from rfl]
  generalize acc ⟨0, 0, 0, fileBlock inst ino 0⟩ = acc
  cases blocks with
  | nil =>
    have hsize := hdir.size
    rw [length_nil, zero_mul] at hsize
    rw [scanLoop, hsize]
    rfl
  | cons rs blocks =>
    have htile : Tiles (fileBlock inst ino 0) inst.blockSize 0 rs := hdir.tiles 0 rs rfl
    have hsize := hdir.size
    rw [length_cons] at hsize
    have hend : (0 + 1) * inst.blockSize ≤ Inode.size ino := by
      rw [hsize]
      exact Nat.mul_le_mul_right _ (by omega)
    rw [flatten_cons, length_append] at hrecords
    obtain ⟨fuel, hfuel⟩ := Nat.exists_eq_add_of_le (show rs.length ≤ Inode.size ino + 1 by omega)
    have hblock := scanLoop_block carry visit hend fuel htile acc
    rw [zero_mul] at hblock
    rw [hfuel, hblock, dirCursors, walk_append]
    cases walk visit acc (blockCursors inst.blockSize (fileBlock inst ino 0) 0 0 rs) with
    | inl found => rfl
    | inr acc =>
      have hrest := scanLoop_blocks carry visit hent blocks 0 (fileBlock inst ino 0) acc fuel
        (by omega) (by rw [hsize]; congr 1; omega)
        (fun k rs' hk => by
          have := hdir.tiles (k + 1) rs' hk
          rwa [show k + 1 = 0 + 1 + k by omega] at this)
      rw [zero_mul] at hrest
      exact hrest

end Scan

variable {after before : List Cursor} {c : Cursor}

section Cursors

variable {bs : Nat} {block : Nat → Buf} {blocks' : List (List Rec)}

theorem records_blockCursors (htiles : Tiles buf e o rs) : (blockCursors bs buf i o rs).map Cursor.record = rs := by
  induction rs generalizing o with
  | nil => rfl
  | cons r rs ih =>
    rw [blockCursors, map_cons, ih htiles.2.2]
    exact congrArg (· :: rs) htiles.1

theorem records_dirCursors (htiles : ∀ k rs, blocks[k]? = some rs → Tiles (block (i + k)) e 0 rs) :
    (dirCursors bs block i blocks).map Cursor.record = blocks.flatten := by
  induction blocks generalizing i with
  | nil => rfl
  | cons rs blocks ih =>
    have hfirst : Tiles (block i) e 0 rs := htiles 0 rs rfl
    rw [dirCursors, map_append, records_blockCursors hfirst, flatten_cons, ih]
    intro k rs' hk
    rw [show i + 1 + k = i + (k + 1) by omega]
    exact htiles (k + 1) rs' hk

theorem blockCursors_append {m : Nat} (htiles : Tiles buf m o rs) :
    blockCursors bs buf i o (rs ++ rs') = blockCursors bs buf i o rs ++ blockCursors bs buf i m rs' := by
  induction rs generalizing o with
  | nil =>
    obtain rfl : o = m := htiles
    rfl
  | cons r rs ih =>
    rw [cons_append, blockCursors, ih htiles.2.2]
    rfl

theorem dirCursors_append :
    dirCursors bs block i (blocks ++ blocks') =
      dirCursors bs block i blocks ++ dirCursors bs block (i + blocks.length) blocks' := by
  induction blocks generalizing i with
  | nil => rfl
  | cons rs blocks ih =>
    rw [cons_append, dirCursors, dirCursors, ih, append_assoc, length_cons,
      show i + 1 + blocks.length = i + (blocks.length + 1) by omega]

theorem blockCursors_split (htiles : Tiles buf e o rs) (hsplit : blockCursors bs buf i o rs = before ++ c :: after) :
    ∃ rs₁ rs₂, rs = rs₁ ++ c.record :: rs₂ ∧ Tiles buf c.inBlock o rs₁ ∧ c = ⟨i * bs + c.inBlock, c.inBlock, i, buf⟩ ∧
      before.map Cursor.record = rs₁ := by
  induction rs generalizing o before with
  | nil =>
    cases before <;> cases hsplit
  | cons r rs ih =>
    obtain ⟨hr, hneed, hrest⟩ := htiles
    cases before with
    | nil =>
      obtain ⟨rfl, -⟩ := cons.inj hsplit
      exact ⟨[], rs, congrArg (· :: rs) hr.symm, rfl, rfl, rfl⟩
    | cons d before =>
      obtain ⟨rfl, htail⟩ := cons.inj hsplit
      obtain ⟨rs₁, rs₂, hrs, htiles₁, hcursor, hbefore⟩ := ih hrest htail
      refine ⟨r :: rs₁, rs₂, congrArg (r :: ·) hrs, ⟨hr, hneed, htiles₁⟩, hcursor, ?_⟩
      rw [map_cons, hbefore]
      exact congrArg (· :: rs₁) hr

theorem append_split {α : Type} {xs ys before after : List α} {c : α} (hsplit : xs ++ ys = before ++ c :: after) :
    (∃ before', before = xs ++ before' ∧ ys = before' ++ c :: after) ∨ ∃ after', xs = before ++ c :: after' := by
  obtain ⟨before', hbefore, hys⟩ | ⟨rest, hxs, hrest⟩ := append_eq_append_iff.mp hsplit
  · exact .inl ⟨before', hbefore, hys⟩
  · cases rest with
    | nil => exact .inl ⟨[], by rw [hxs, append_nil, append_nil], hrest.symm⟩
    | cons d after' =>
      obtain ⟨rfl, -⟩ := cons.inj hrest
      exact .inr ⟨after', hxs⟩

theorem dirCursors_split (htiles : ∀ k rs, blocks[k]? = some rs → Tiles (block (i + k)) e 0 rs)
    (hsplit : dirCursors bs block i blocks = before ++ c :: after) :
    ∃ pre rs₁ rs₂ post, blocks = pre ++ (rs₁ ++ c.record :: rs₂) :: post ∧
      Tiles (block (i + pre.length)) c.inBlock 0 rs₁ ∧
      c = ⟨(i + pre.length) * bs + c.inBlock, c.inBlock, i + pre.length, block (i + pre.length)⟩ ∧
      before.map Cursor.record = pre.flatten ++ rs₁ := by
  induction blocks generalizing i before with
  | nil =>
    cases before <;> cases hsplit
  | cons rs blocks ih =>
    have hfirst : Tiles (block i) e 0 rs := htiles 0 rs rfl
    obtain ⟨before', rfl, hlater⟩ | ⟨after', hhere⟩ := append_split hsplit
    · obtain ⟨pre, rs₁, rs₂, post, rfl, htiles₁, hcursor, hbefore⟩ := ih (fun k rs' hk => by
        rw [show i + 1 + k = i + (k + 1) by omega]
        exact htiles (k + 1) rs' hk) hlater
      have hlen : i + 1 + pre.length = i + (rs :: pre).length := by
        rw [length_cons]
        omega
      rw [hlen] at htiles₁ hcursor
      refine ⟨rs :: pre, rs₁, rs₂, post, rfl, htiles₁, hcursor, ?_⟩
      rw [map_append, records_blockCursors hfirst, hbefore, flatten_cons, append_assoc]
    · obtain ⟨rs₁, rs₂, rfl, htiles₁, hcursor, hbefore⟩ := blockCursors_split hfirst hhere
      exact ⟨[], rs₁, rs₂, blocks, rfl, htiles₁, hcursor, hbefore⟩

section Dir

variable {inst : Inst} {ino : Buf}

theorem IsDir.tiles_zero_add (hdir : IsDir inst ino blocks) (k : Nat) (rs : List Rec) (hk : blocks[k]? = some rs) :
    Tiles (fileBlock inst ino (0 + k)) inst.blockSize 0 rs := by
  rw [zero_add]
  exact hdir.tiles k rs hk

theorem IsDir.records (hdir : IsDir inst ino blocks) :
    (dirCursors inst.blockSize (fileBlock inst ino) 0 blocks).map Cursor.record = blocks.flatten :=
  records_dirCursors hdir.tiles_zero_add

theorem IsDir.cursors_split (hdir : IsDir inst ino blocks)
    (hsplit : dirCursors inst.blockSize (fileBlock inst ino) 0 blocks = before ++ c :: after) :
    ∃ pre rs₁ rs₂ post, blocks = pre ++ (rs₁ ++ c.record :: rs₂) :: post ∧
      Tiles (fileBlock inst ino pre.length) c.inBlock 0 rs₁ ∧
      c = ⟨pre.length * inst.blockSize + c.inBlock, c.inBlock, pre.length, fileBlock inst ino pre.length⟩ ∧
      before.map Cursor.record = pre.flatten ++ rs₁ := by
  obtain ⟨pre, rs₁, rs₂, post, hblocks, htiles, hcursor, hbefore⟩ := dirCursors_split hdir.tiles_zero_add hsplit
  rw [zero_add] at htiles hcursor
  exact ⟨pre, rs₁, rs₂, post, hblocks, htiles, hcursor, hbefore⟩

theorem IsDir.present (hbs : 0 < inst.blockSize) (hdir : IsDir inst ino blocks) (hi : i < blocks.length) :
    i < readable (inst.blockSize / 4) ∧ ∃ b, blockAt ino inst.disk (pathOf (inst.blockSize / 4) i) = some b := by
  by_contra habsent
  have hzero : fileBlock inst ino i = fun _ => 0 := by
    funext p
    by_contra hne
    exact habsent (blockAt_of_fileBlock hne)
  have htiles := hdir.tiles i _ (getElem?_eq_getElem hi)
  rw [hzero] at htiles
  cases hrs : blocks[i] with
  | nil =>
    rw [hrs] at htiles
    exact absurd htiles hbs.ne
  | cons r rs =>
    rw [hrs] at htiles
    have hsize : r.size = 0 := by
      rw [← htiles.1]
      exact readLE_zero _ _
    have hneed := htiles.2.1
    have hlen := le_alignedLen r.name.length
    omega

end Dir

theorem Tiles.unique (htiles : Tiles buf e o rs) (htiles' : Tiles buf e o rs') : rs = rs' := by
  induction rs generalizing o rs' with
  | nil =>
    cases rs' with
    | nil => rfl
    | cons r' rs' =>
      have hlen := htiles'.length_le
      obtain rfl : o = e := htiles
      rw [length_cons] at hlen
      omega
  | cons r rs ih =>
    cases rs' with
    | nil =>
      have hlen := htiles.length_le
      obtain rfl : o = e := htiles'
      rw [length_cons] at hlen
      omega
    | cons r' rs' =>
      obtain rfl : r = r' := htiles.1.symm.trans htiles'.1
      rw [ih htiles.2.2 htiles'.2.2]

theorem IsDir.unique {inst : Inst} {ino : Buf} (hbs : 0 < inst.blockSize) (hdir : IsDir inst ino blocks)
    (hdir' : IsDir inst ino blocks') : blocks = blocks' := by
  have hlen : blocks.length = blocks'.length := Nat.eq_of_mul_eq_mul_right hbs (hdir.size.symm.trans hdir'.size)
  apply ext_getElem hlen
  intro i hi hi'
  exact (hdir.tiles i _ (getElem?_eq_getElem hi)).unique (hdir'.tiles i _ (getElem?_eq_getElem hi'))

end Cursors

end Kairax.Ext2
