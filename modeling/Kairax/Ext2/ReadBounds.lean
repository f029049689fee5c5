import Kairax.Ext2.FileData
import Kairax.Word

/-!
# The bounds of a read

`read_inode_filedata` for every offset and size that a caller can pass, with `ext2_file_read` and `file_seek` above
it. `copyCalls` are the calls of `memcpy` that the loop makes, with lengths that can be negative.
-/

namespace Kairax.Ext2

open Lib List Option BitVec

/-- A `memcpy` of the loop over the blocks: `len` bytes from `src` on in the block, to `dst` of the caller. -/
structure BlockCopy where
  block : Nat
  dst : Int
  src : Int
  len : Int
  deriving DecidableEq, Repr

def copyCalls (bs start last startOffset endSize : Nat) : Nat → Nat → Int → List BlockCopy
  | 0, _, _ => []
  | left + 1, i, current =>
    let leftOffset : Int := if i = start then startOffset else 0
    let rightOffset : Int := if i = last then (endSize : Int) - 1 else (bs : Int) - 1
    let len := rightOffset - leftOffset + 1
    ⟨i, current, leftOffset, len⟩ :: copyCalls bs start last startOffset endSize left (i + 1) (current + len)

/-- A negative length is a huge `size_t`. -/
def BlockCopy.run (inst : Inst) (ino : Buf) (out : Buf) (c : BlockCopy) : Option Buf :=
  (readInodeBlock inst ino (BitVec.ofNat 32 c.block)).bind fun temp =>
    if c.len < 0 then none
    else some (copy out c.dst.toNat (fun p => temp (c.src.toNat + p)) c.len.toNat)

/-- `end_offset`. -/
def endOffset (isize : Nat) (offset size : Word) : Nat :=
  if (offset + size).toNat ≤ isize then (offset + size).toNat else isize

def readCalls (bs isize : Nat) (offset size : Word) : List BlockCopy :=
  let start := offset.toNat / bs
  let last := endOffset isize offset size / bs
  copyCalls bs start last (offset.toNat % bs) (endOffset isize offset size - last * bs) (last + 1 - start) start 0

/-- `read_inode_filedata` -/
def readFiledata (inst : Inst) (ino : Buf) (offset size : Word) (out : Buf) : Option (Int × Buf) :=
  ((readCalls inst.blockSize (Inode.size ino) offset size).foldlM (BlockCopy.run inst ino) out).map fun out =>
    ((endOffset (Inode.size ino) offset size : Int) - offset.toInt, out)

/-- `ext2_file_read`, with the new position of the file. -/
def fileRead (inst : Inst) (ino : Buf) (pos count : Word) (out : Buf) : Option (Int × Word × Buf) :=
  (readFiledata inst ino pos count out).map fun (result, out) =>
    (result, if 0 ≤ result then pos + BitVec.ofInt 64 result else pos, out)

inductive Whence where
  | set
  | cur
  | fromEnd

/-- `file_seek`, for the three values of `whence` that it accepts. -/
def fileSeek (size pos offset : Word) : Whence → Word
  | .set => offset
  | .cur => pos + offset
  | .fromEnd => size + offset

def contentAt (inst : Inst) (ino : Buf) (q : Nat) : BitVec 8 :=
  (blockAt ino inst.disk (pathOf (inst.blockSize / 4) (q / inst.blockSize))).elim 0
    fun b => inst.disk b (q % inst.blockSize)

/-- The number of bytes of a file from `offset` on, at most `size`. -/
def available (isize offset size : Nat) : Nat := min (offset + size) isize - offset

/-- Inside a buffer of `bs` bytes and the first `size` bytes of the caller's. -/
structure BlockCopy.Within (c : BlockCopy) (bs size : Nat) : Prop where
  src_nonneg : 0 ≤ c.src
  dst_nonneg : 0 ≤ c.dst
  len_nonneg : 0 ≤ c.len
  src_le : c.src + c.len ≤ bs
  dst_le : c.dst + c.len ≤ size

structure ReadsExactly (inst : Inst) (ino : Buf) (offset size : Word) (out : Buf) : Prop where
  within : ∀ c ∈ readCalls inst.blockSize (Inode.size ino) offset size, c.Within inst.blockSize size.toNat
  result : ∃ out', readFiledata inst ino offset size out =
      some ((available (Inode.size ino) offset.toNat size.toNat : Int), out') ∧
    ∀ p, out' p = if p < available (Inode.size ino) offset.toNat size.toNat
      then contentAt inst ino (offset.toNat + p) else out p

variable {inst : Inst}

section Loop

variable {bs start last startOffset endSize : Nat}

theorem foldlM_copyCalls (inst : Inst) (ino : Buf) (left : Nat) :
    ∀ (i current : Nat) (out : Buf),
      (copyCalls inst.blockSize start last startOffset endSize left i current).foldlM (BlockCopy.run inst ino) out =
        readBlocks inst ino start last startOffset endSize left i current out := by
  induction left with
  | zero => exact fun _ _ _ => rfl
  | succ left ih =>
    intro i current out
    have hleft : ((if i = start then (startOffset : Int) else 0) : Int) =
        ((if i = start then startOffset else 0 : Nat) : Int) := by
      split_ifs <;> rfl
    have hright : ((if i = last then (endSize : Int) - 1 else (inst.blockSize : Int) - 1) : Int) =
        ((if i = last then endSize else inst.blockSize : Nat) : Int) - 1 := by
      split_ifs <;> rfl
    rw [copyCalls, List.foldlM_cons, readBlocks, hleft, hright]
    generalize (if i = start then startOffset else 0) = l
    generalize (if i = last then endSize else inst.blockSize) = r
    rw [BlockCopy.run]
    cases readInodeBlock inst ino (BitVec.ofNat 32 i) with
    | none => rfl
    | some temp =>
      simp only [bind_some]
      by_cases hlt : r < l
      · rw [if_pos hlt, if_pos (by omega)]
        rfl
      · have hlen : ((r : Int) - 1 - l + 1) = ((r - l : Nat) : Int) := by omega
        rw [if_neg hlt, if_neg (by omega), hlen, bind_eq_bind, bind_some, Int.toNat_natCast,
          Int.toNat_natCast, Int.toNat_natCast, ← Nat.cast_add, ih]

theorem copyCalls_within {offset count : Nat} (hoffset : offset = start * bs + startOffset)
    (hlt : startOffset < bs) (hend : offset + count = last * bs + endSize) (hle : endSize < bs) (left : Nat) :
    ∀ i current : Nat, start ≤ i → i + left = last + 1 →
      (i ≤ last → offset + current = i * bs + if i = start then startOffset else 0) →
      ∀ c ∈ copyCalls bs start last startOffset endSize left i current, c.Within bs count := by
  induction left with
  | zero => exact fun _ _ _ _ _ => forall_mem_nil _
  | succ left ih =>
    intro i current hlow hi hpos
    have hilast : i ≤ last := by omega
    -- the bytes of the block lie between those copied so far and the end
    obtain ⟨l, hl⟩ : ∃ l : Nat, (if i = start then startOffset else 0) = l := ⟨_, rfl⟩
    obtain ⟨r, hr⟩ : ∃ r : Nat, (if i = last then endSize else bs) = r := ⟨_, rfl⟩
    have hleft : ((if i = start then (startOffset : Int) else 0) : Int) = l := by
      rw [← hl]
      split_ifs <;> rfl
    have hright : ((if i = last then (endSize : Int) - 1 else (bs : Int) - 1) : Int) = (r : Int) - 1 := by
      rw [← hr]
      split_ifs <;> rfl
    have hstop : i * bs + r ≤ offset + count := by
      by_cases hfinal : i = last
      · rw [if_pos hfinal] at hr
        rw [hend, hfinal, hr]
      · have hnext : (i + 1) * bs ≤ last * bs := Nat.mul_le_mul_right bs (by omega)
        rw [Nat.add_mul] at hnext
        omega
    have hlr : l ≤ r := by
      split_ifs at hl with hfirst
      · split_ifs at hr with hfinal
        · rw [← hfinal, hfirst] at hend
          omega
        · omega
      · omega
    rw [copyCalls, hleft, hright]
    have hlen : (r : Int) - 1 - l + 1 = ((r - l : Nat) : Int) := by omega
    rw [hlen]
    refine forall_mem_cons.mpr ⟨⟨?_, ?_, ?_, ?_, ?_⟩, ih (i + 1) _ (by omega) (by omega) fun hnext => ?_⟩
    · exact Int.natCast_nonneg l
    · exact Int.natCast_nonneg current
    · exact Int.natCast_nonneg _
    · change (l : Int) + ((r - l : Nat) : Int) ≤ bs
      omega
    · change (current : Int) + ((r - l : Nat) : Int) ≤ count
      omega
    · rw [if_neg (by omega), Nat.add_mul]
      omega

theorem foldlM_within {ino : Buf} {count : Nat} {calls : List BlockCopy} (hwithin : ∀ c ∈ calls, c.Within bs count)
    {out out' : Buf} (hrun : calls.foldlM (BlockCopy.run inst ino) out = some out') {p : Nat} (hp : count ≤ p) :
    out' p = out p := by
  induction calls generalizing out with
  | nil => rw [some.inj hrun]
  | cons c calls ih =>
    obtain ⟨hc, hcalls⟩ := forall_mem_cons.mp hwithin
    rw [foldlM_cons, bind_eq_bind, bind_eq_some_iff] at hrun
    obtain ⟨mid, hmid, hrun⟩ := hrun
    rw [ih hcalls hrun]
    rw [BlockCopy.run, bind_eq_some_iff] at hmid
    obtain ⟨temp, -, hmid⟩ := hmid
    rw [if_neg (by have := hc.len_nonneg; omega)] at hmid
    rw [← some.inj hmid]
    have hdst := hc.dst_nonneg
    have hlen := hc.len_nonneg
    have hle := hc.dst_le
    exact copy_of_outside (.inr (by omega))

end Loop

theorem lt_readable {bs q : Nat} (hsized : ∃ k ≤ 6, bs = 1024 * 2 ^ k) (hq : q < 2 ^ 32) :
    q / bs < readable (bs / 4) := by
  obtain ⟨k, hk, rfl⟩ := hsized
  have hbound : q / (1024 * 2 ^ k) ≤ (2 ^ 32 - 1) / (1024 * 2 ^ k) := Nat.div_le_div_right (by omega)
  apply lt_of_le_of_lt hbound
  interval_cases k <;> decide

theorem fileBytes_eq_contentAt (hsized : ∃ k ≤ 6, inst.blockSize = 1024 * 2 ^ k) (ino : Buf) {q : Nat}
    (hq : q < 2 ^ 32) : fileBytes inst ino q = contentAt inst ino q := by
  rw [fileBytes, flat, fileBlock, if_pos (lt_readable hsized hq), contentAt]
  cases blockAt ino inst.disk (pathOf (inst.blockSize / 4) (q / inst.blockSize)) with
  | none | some b => rfl

theorem toInt_of_nonneg {x : Word} (hnonneg : 0 ≤ x.toInt) : x.toInt = x.toNat :=
  toInt_eq_toNat_of_lt (toInt_pos_iff.mp hnonneg)

theorem endOffset_le (isize : Nat) (offset size : Word) : endOffset isize offset size ≤ isize := by
  rw [endOffset]
  split_ifs with hle
  · exact hle
  · exact le_rfl

theorem readsExactly_of_bounds (hsized : ∃ k ≤ 6, inst.blockSize = 1024 * 2 ^ k) (ino : Buf) {offset size : Word}
    (hnonneg : 0 ≤ offset.toInt) (hoffset : offset.toNat ≤ Inode.size ino) (hsum : offset.toNat + size.toNat < 2 ^ 64)
    (out : Buf) : ReadsExactly inst ino offset size out := by
  have hent := entries_of_sized hsized
  have hge := hent.ge
  have hbs : 0 < inst.blockSize := by omega
  have hlimit : Inode.size ino < 2 ^ 32 := readLE_lt ino 4 4
  obtain ⟨E, hE⟩ : ∃ E, endOffset (Inode.size ino) offset size = E := ⟨_, rfl⟩
  obtain ⟨count, hcount⟩ : ∃ count, available (Inode.size ino) offset.toNat size.toNat = count := ⟨_, rfl⟩
  have hstop : offset.toNat + count = E := by
    rw [← hE, ← hcount, endOffset, available, toNat_add, Nat.mod_eq_of_lt hsum]
    split_ifs <;> omega
  have hEle : E ≤ Inode.size ino := hE ▸ endOffset_le _ _ _
  have hsplit := Nat.div_add_mod' E inst.blockSize
  have hmod : E - E / inst.blockSize * inst.blockSize = E % inst.blockSize := by omega
  have hstart : offset.toNat / inst.blockSize ≤ E / inst.blockSize := Nat.div_le_div_right (by omega)
  have hlast : E / inst.blockSize < 2 ^ 31 := by
    apply Nat.div_lt_of_lt_mul
    omega
  have hoff := (Nat.div_add_mod' offset.toNat inst.blockSize).symm
  have hwithin : ∀ c ∈ readCalls inst.blockSize (Inode.size ino) offset size, c.Within inst.blockSize count := by
    rw [readCalls, hE]
    exact copyCalls_within hoff (Nat.mod_lt _ hbs) (by rw [hstop, hmod, hsplit])
      (by rw [hmod]; exact Nat.mod_lt _ hbs) _ _ 0 le_rfl (by omega)
      (fun _ => by rw [if_pos rfl, add_zero, Nat.div_add_mod'])
  obtain ⟨out', hread, hbytes⟩ := readBlocks_spec ino hent hstart hlast hoff (Nat.mod_lt _ hbs)
    (show offset.toNat + count = _ by rw [hstop, hsplit]) (Nat.mod_lt _ hbs)
    (E / inst.blockSize + 1 - offset.toNat / inst.blockSize) _ 0 out le_rfl (by omega)
    (fun _ => by rw [if_pos rfl, add_zero, Nat.div_add_mod']) (fun h => by omega) (fun p hp => by omega)
  have hrun : (readCalls inst.blockSize (Inode.size ino) offset size).foldlM (BlockCopy.run inst ino) out =
      some out' := by
    rw [readCalls, hE, hmod, ← hread]
    exact foldlM_copyCalls inst ino _ _ 0 out
  refine ⟨fun c hc => ?_, out', ?_, fun p => ?_⟩
  · obtain ⟨h₁, h₂, h₃, h₄, h₅⟩ := hwithin c hc
    refine ⟨h₁, h₂, h₃, h₄, h₅.trans ?_⟩
    rw [← hcount, available]
    omega
  · rw [readFiledata, hrun, hE, hcount, ← hstop, toInt_of_nonneg hnonneg]
    simp
  · rw [hcount]
    split_ifs with hp
    · rw [hbytes p hp, fileBytes_eq_contentAt hsized ino (by omega)]
    · exact foldlM_within hwithin hrun (not_lt.mp hp)

theorem endOffset_ge_of_readsExactly {ino : Buf} {offset size : Word} {out : Buf} (hnonneg : 0 ≤ offset.toInt)
    (hexact : ReadsExactly inst ino offset size out) : offset.toNat ≤ endOffset (Inode.size ino) offset size := by
  obtain ⟨out', hread, -⟩ := hexact.result
  rw [readFiledata, map_eq_some_iff] at hread
  obtain ⟨_, -, hpair⟩ := hread
  have hresult := (Prod.mk.inj hpair).1
  rw [toInt_of_nonneg hnonneg] at hresult
  omega

/-- A read gives exactly the bytes of the file and stays in its buffers when the offset is not past the end and offset
plus size does not wrap. -/
theorem readFiledata_exact_iff (inst : Inst) (hsized : ∃ k ≤ 6, inst.blockSize = 1024 * 2 ^ k) (ino : Buf)
    (offset size : Word) (hnonneg : 0 ≤ offset.toInt) (out : Buf) :
    ReadsExactly inst ino offset size out ↔
      offset.toNat ≤ Inode.size ino ∧ offset.toNat + size.toNat < 2 ^ 64 := by
  constructor
  · intro hexact
    have hge := endOffset_ge_of_readsExactly hnonneg hexact
    have hle := endOffset_le (Inode.size ino) offset size
    have hbound := hge.trans hle
    by_contra hwrap
    rw [endOffset, toNat_add, if_pos (by omega)] at hge
    omega
  · rintro ⟨hoffset, hsum⟩
    exact readsExactly_of_bounds hsized ino hnonneg hoffset hsum out

def holeInode : Buf := Inode.setSize (fun _ => 0) 3000

theorem readFiledata_exact_hole :
    Inode.size holeInode = 3000 ∧ ReadsExactly freshVolume holeInode 1000 5000 (fun _ => 7) := by
  have hsize : Inode.size holeInode = 3000 := by decide
  refine ⟨hsize, (readFiledata_exact_iff freshVolume ⟨0, by decide, by decide⟩ holeInode 1000 5000
    (by decide) _).mpr ?_⟩
  decide

/-- Past the end in a later block the result is negative; in the last block the length of the copy is. -/
theorem read_past_end :
    (fileRead freshVolume holeInode (fileSeek 3000 0 4000 .set) 10 (fun _ => 7)).map (·.1) = some (-1000) ∧
      readCalls freshVolume.blockSize (Inode.size holeInode) 3010 10 = [⟨2, 0, 962, -10⟩] ∧
      (readFiledata freshVolume holeInode 3010 10 (fun _ => 7)).isNone := by
  decide

end Kairax.Ext2
