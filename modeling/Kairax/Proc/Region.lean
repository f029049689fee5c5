import Kairax.Word

/-!
# Memory ranges of a process

`struct mmap_range` and the functions of `proc/process.c` that look through `process->mmap_ranges`. The ends of ranges
wrap. `Laid` is how the ranges are meant to be: apart from each other and inside user space.
-/

namespace Kairax.Proc

open List
open BitVec (le_def lt_def toNat_add toNat_sub)

def mapShared : BitVec 32 := 0x01
def mapPrivate : BitVec 32 := 0x02
def mapAnonymous : BitVec 32 := 0x20
def mapStack : BitVec 32 := 0x20000

/-- `USERSPACE_MAX_ADDR`. -/
def userspaceMaxAddr : Word := 0x00007FFFFFFFFFFF

@[simp] theorem toNat_userspaceMaxAddr : userspaceMaxAddr.toNat = 0x7FFFFFFFFFFF := rfl

/-- `USERSPACE_MMAP_ADDR`. -/
def userspaceMmapAddr : Word := 0x7fcc372d7000

/-- The two fields of a range that placing it takes. -/
structure Extent where
  base : Word
  length : Word
  deriving DecidableEq, Repr

structure MmapRange extends Extent where
  protection : BitVec 32
  flags : BitVec 32
  fileOffset : Word
  file : Option Nat
  refs : Int
  deriving DecidableEq, Repr

def MmapRange.shared (r : MmapRange) : Bool := r.flags &&& mapShared = mapShared

def mmapRegionRef (region : MmapRange) : MmapRange := { region with refs := region.refs + 1 }

def processAddMmapRegion (ranges : List MmapRange) (region : MmapRange) : List MmapRange :=
  ranges ++ [mmapRegionRef region]

def processGetRegionByAddr (ranges : List MmapRange) (addr : Word) : Option MmapRange :=
  ranges.find? fun range =>
    let maxAddr := range.base + range.length - 1
    addr ≥ range.base ∧ addr ≤ maxAddr

def isRegionsCollide (region1 region2 : Extent) : Bool :=
  let region1End := region1.base + region1.length - 1
  let region2End := region2.base + region2.length - 1
  let a := region1.base ≥ region2.base ∧ region1.base ≤ region2End
  let b := region1End ≥ region2.base ∧ region1End ≤ region2End
  let c := region2.base ≥ region1.base ∧ region2.base ≤ region1End
  let d := region2End ≥ region1.base ∧ region2End ≤ region1End
  a ∨ b ∨ c ∨ d

/-- The second loop of `process_get_free_addr`, at the ranges after `before`: an address right after a
range. -/
def freeAddrAfter (brk length hint : Word) (before : List MmapRange) : List MmapRange → Option Word
  | [] => none
  | range :: after =>
    let base := range.base + range.length
    if base < hint ∨ base < brk ∨ base + length ≥ userspaceMaxAddr then
      freeAddrAfter brk length hint (before ++ [range]) after
    else if (before ++ after).any fun region => isRegionsCollide ⟨base, length⟩ region.toExtent then
      freeAddrAfter brk length hint (before ++ [range]) after
    else some base

def processGetFreeAddr (ranges : List MmapRange) (brk length hint : Word) : Word :=
  if hint > 0 ∧ ¬ ranges.any fun region => isRegionsCollide ⟨hint, length⟩ region.toExtent then hint
  else (freeAddrAfter brk length hint [] ranges).getD null

def Extent.stop (e : Extent) : Nat := e.base.toNat + e.length.toNat

def Extent.Has (e : Extent) (a : Word) : Prop := e.base.toNat ≤ a.toNat ∧ a.toNat < e.stop

/-- Ranges that lie in user space, on page boundaries. -/
structure Extent.Inside (e : Extent) : Prop where
  base_aligned : e.base.toNat % 4096 = 0
  length_aligned : e.length.toNat % 4096 = 0
  stop_pos : 0 < e.stop
  stop_le : e.stop ≤ userspaceMaxAddr.toNat

structure Laid (ranges : List MmapRange) : Prop where
  inside : ∀ r ∈ ranges, r.toExtent.Inside
  disjoint : ranges.Pairwise fun r r' => ∀ a, r.Has a → ¬ r'.Has a

/-- A collision for `is_regions_collide`. An empty range collides with what it borders on. -/
def Extent.Touches (e : Extent) (base n : Nat) : Prop :=
  e.length = 0 ∧ base ≤ e.base.toNat ∧ e.base.toNat ≤ base + n ∨
    e.length ≠ 0 ∧ e.base.toNat < base + n ∧ base < e.stop

instance (e : Extent) (base n : Nat) : Decidable (e.Touches base n) :=
  inferInstanceAs (Decidable (_ ∨ _))

theorem toNat_last {e : Extent} (hpos : 0 < e.length.toNat) (hstop : e.stop < 2 ^ 64) :
    (e.base + e.length - 1).toNat = e.stop - 1 := by
  rw [Extent.stop] at hstop ⊢
  rw [toNat_sub, toNat_add, show (1 : Word).toNat = 1 from rfl]
  omega

theorem isRegionsCollide_iff (new e : Extent) (hpos : 0 < new.length.toNat) (hnew : new.stop < 2 ^ 64)
    (hinside : e.Inside) : isRegionsCollide new e = true ↔ e.Touches new.base.toNat new.length.toNat := by
  have hstop := hinside.stop_le
  simp only [isRegionsCollide, Extent.Touches, decide_eq_true_eq, le_def, toNat_last hpos hnew]
  by_cases hempty : e.length = 0
  · -- the last address of an empty range is the one before its base
    have hbase : e.stop = e.base.toNat := by
      rw [Extent.stop, hempty]
      rfl
    have hlast : (e.base + e.length - 1).toNat = e.base.toNat - 1 := by
      have hstart := hinside.stop_pos
      rw [hempty, toNat_sub, toNat_add, show (1 : Word).toNat = 1 from rfl, show (0 : Word).toNat = 0 from rfl]
      omega
    rw [hlast]
    simp only [hempty, true_and]
    rw [Extent.stop] at hnew ⊢
    omega
  · have hlength : 0 < e.length.toNat := by
      rw [pos_iff_ne_zero]
      exact fun hzero => hempty (BitVec.eq_of_toNat_eq hzero)
    simp only [hempty, false_and, false_or, ne_eq, not_false_eq_true, true_and, toNat_last hlength (by omega)]
    rw [Extent.stop] at hnew hstop ⊢
    rw [Extent.stop]
    omega

theorem Extent.disjoint_of_not_touches {new e : Extent}
    (htouches : ¬ e.Touches new.base.toNat new.length.toNat) (a : Word) : e.Has a → ¬ new.Has a := by
  intro he hnew
  rw [Extent.Has] at he hnew
  apply htouches
  by_cases hempty : e.length = 0
  · rw [Extent.stop, hempty, show (0 : Word).toNat = 0 from rfl] at he
    omega
  · rw [Extent.stop] at hnew
    exact .inr ⟨hempty, by omega⟩

/-- An address right after a range of the list, from `hint` and `brk` on, with room for `n` addresses. -/
def RoomAt (ranges : List MmapRange) (brk hint : Word) (n base : Nat) : Prop :=
  ∃ before range after, ranges = before ++ range :: after ∧ base = range.stop ∧ hint.toNat ≤ base ∧
    brk.toNat ≤ base ∧ base + n < userspaceMaxAddr.toNat ∧ ∀ r ∈ before ++ after, ¬ r.Touches base n

section Room

variable {length : Word} (brk hint : Word) (hpos : 0 < length.toNat) (hlength : length.toNat < 2 ^ 63)

include hpos hlength

theorem any_collide_iff {ranges : List MmapRange} {base : Word} (hbase : base.toNat ≤ userspaceMaxAddr.toNat)
    (hinside : ∀ r ∈ ranges, r.toExtent.Inside) :
    (ranges.any fun region => isRegionsCollide ⟨base, length⟩ region.toExtent) = true ↔
      ∃ r ∈ ranges, r.Touches base.toNat length.toNat := by
  rw [toNat_userspaceMaxAddr] at hbase
  have hstop : (⟨base, length⟩ : Extent).stop < 2 ^ 64 := by
    show base.toNat + length.toNat < 2 ^ 64
    omega
  rw [any_eq_true]
  constructor
  · intro ⟨r, hr, hcollide⟩
    exact ⟨r, hr, (isRegionsCollide_iff ⟨base, length⟩ r.toExtent hpos hstop (hinside r hr)).mp hcollide⟩
  · intro ⟨r, hr, htouches⟩
    exact ⟨r, hr, (isRegionsCollide_iff ⟨base, length⟩ r.toExtent hpos hstop (hinside r hr)).mpr htouches⟩

theorem freeAddrAfter_cons {before after : List MmapRange} {range : MmapRange}
    (hinside : ∀ r ∈ before ++ range :: after, r.toExtent.Inside) :
    (range.base + range.length).toNat = range.stop ∧
      freeAddrAfter brk length hint before (range :: after) =
        if hint.toNat ≤ range.stop ∧ brk.toNat ≤ range.stop ∧ range.stop + length.toNat < userspaceMaxAddr.toNat ∧
            ∀ r ∈ before ++ after, ¬ r.Touches range.stop length.toNat then
          some (range.base + range.length)
        else freeAddrAfter brk length hint (before ++ [range]) after := by
  have hstop := (hinside range (by simp)).stop_le
  have hbase : (range.base + range.length).toNat = range.stop := by
    rw [Extent.stop] at hstop
    rw [toNat_add, Extent.stop]
    omega
  have hothers : ∀ r ∈ before ++ after, r.toExtent.Inside := by
    intro r hr
    apply hinside r
    rcases mem_append.mp hr with hr | hr
    · exact mem_append_left _ hr
    · exact mem_append_right _ (mem_cons_of_mem _ hr)
  have hcollide := any_collide_iff hpos hlength (hbase ▸ hstop) hothers
  rw [hbase] at hcollide
  refine ⟨hbase, ?_⟩
  rw [freeAddrAfter]
  have hbounds : (range.base + range.length < hint ∨ range.base + range.length < brk ∨
      range.base + range.length + length ≥ userspaceMaxAddr) ↔
      ¬ (hint.toNat ≤ range.stop ∧ brk.toNat ≤ range.stop ∧ range.stop + length.toNat < userspaceMaxAddr.toNat) := by
    rw [toNat_userspaceMaxAddr] at hstop ⊢
    rw [ge_iff_le, lt_def, lt_def, le_def, toNat_add _ length, toNat_userspaceMaxAddr]
    omega
  simp only [hbounds, hcollide]
  by_cases hroom : hint.toNat ≤ range.stop ∧ brk.toNat ≤ range.stop ∧
      range.stop + length.toNat < userspaceMaxAddr.toNat
  · by_cases htouches : ∃ r ∈ before ++ after, r.Touches range.stop length.toNat
    · rw [if_neg (not_not_intro hroom), if_pos htouches, if_neg]
      intro h
      obtain ⟨r, hr, htouch⟩ := htouches
      exact h.2.2.2 r hr htouch
    · rw [if_neg (not_not_intro hroom), if_neg htouches, if_pos]
      refine ⟨hroom.1, hroom.2.1, hroom.2.2, fun r hr htouch => htouches ⟨r, hr, htouch⟩⟩
  · rw [if_pos hroom, if_neg]
    exact fun h => hroom ⟨h.1, h.2.1, h.2.2.1⟩

theorem freeAddrAfter_spec (before after : List MmapRange) (hinside : ∀ r ∈ before ++ after, r.toExtent.Inside) :
    (∀ base, freeAddrAfter brk length hint before after = some base →
      RoomAt (before ++ after) brk hint length.toNat base.toNat) ∧
    (freeAddrAfter brk length hint before after = none → ∀ pre range post, after = pre ++ range :: post →
      hint.toNat ≤ range.stop → brk.toNat ≤ range.stop → range.stop + length.toNat < userspaceMaxAddr.toNat →
      ∃ r ∈ before ++ pre ++ post, r.Touches range.stop length.toNat) := by
  induction after generalizing before with
  | nil =>
    constructor
    · intro base hsome
      exact absurd hsome (by simp [freeAddrAfter])
    · intro _ pre range post hsplit
      exact absurd hsplit (by simp)
  | cons range after ih =>
    obtain ⟨hbase, hstep⟩ := freeAddrAfter_cons brk hint hpos hlength hinside
    obtain ⟨hsome, hnone⟩ := ih (before ++ [range]) (by rwa [← append_cons])
    rw [← append_cons] at hsome
    rw [hstep]
    split_ifs with hroom
    · constructor
      · intro base heq
        cases heq
        rw [hbase]
        exact ⟨before, range, after, rfl, rfl, hroom⟩
      · intro heq
        exact absurd heq (by simp)
    · refine ⟨hsome, fun heq pre range' post hsplit hhint hbrk hmax => ?_⟩
      cases pre with
      | nil =>
        obtain ⟨rfl, rfl⟩ := cons.inj hsplit
        by_contra hfree
        apply hroom
        refine ⟨hhint, hbrk, hmax, fun r hr htouch => hfree ⟨r, ?_, htouch⟩⟩
        rwa [append_nil]
      | cons first pre =>
        obtain ⟨rfl, hrest⟩ := cons.inj hsplit
        obtain ⟨r, hr, htouch⟩ := hnone heq pre range' post hrest hhint hbrk hmax
        refine ⟨r, ?_, htouch⟩
        rwa [append_cons before]

theorem processGetFreeAddr_cases (ranges : List MmapRange) (hhint : hint.toNat ≤ userspaceMaxAddr.toNat)
    (hinside : ∀ r ∈ ranges, r.toExtent.Inside) :
    (0 < hint.toNat ∧ (∀ r ∈ ranges, ¬ r.Touches hint.toNat length.toNat) ∧
      processGetFreeAddr ranges brk length hint = hint) ∨
    (hint = 0 ∨ ∃ r ∈ ranges, r.Touches hint.toNat length.toNat) ∧
      (RoomAt ranges brk hint length.toNat (processGetFreeAddr ranges brk length hint).toNat ∨
        processGetFreeAddr ranges brk length hint = null ∧ ∀ base, ¬ RoomAt ranges brk hint length.toNat base) := by
  have hcollide := any_collide_iff hpos hlength hhint hinside
  have hpositive : hint > 0 ↔ 0 < hint.toNat := lt_def
  by_cases hfree : 0 < hint.toNat ∧ ∀ r ∈ ranges, ¬ r.Touches hint.toNat length.toNat
  · left
    refine ⟨hfree.1, hfree.2, ?_⟩
    rw [processGetFreeAddr, if_pos]
    refine ⟨hpositive.mpr hfree.1, fun h => ?_⟩
    obtain ⟨r, hr, htouch⟩ := hcollide.mp h
    exact hfree.2 r hr htouch
  · right
    have hbusy : hint = 0 ∨ ∃ r ∈ ranges, r.Touches hint.toNat length.toNat := by
      by_contra hnot
      rw [not_or] at hnot
      refine hfree ⟨pos_of_ne_zero fun hzero => hnot.1 (BitVec.eq_of_toNat_eq hzero), ?_⟩
      exact fun r hr htouch => hnot.2 ⟨r, hr, htouch⟩
    refine ⟨hbusy, ?_⟩
    have hsearch : processGetFreeAddr ranges brk length hint = (freeAddrAfter brk length hint [] ranges).getD null := by
      rw [processGetFreeAddr, if_neg]
      rintro ⟨hgt, hany⟩
      apply hfree
      refine ⟨hpositive.mp hgt, fun r hr htouch => hany (hcollide.mpr ⟨r, hr, htouch⟩)⟩
    obtain ⟨hsome, hnone⟩ := freeAddrAfter_spec brk hint hpos hlength [] ranges hinside
    rw [hsearch]
    cases hresult : freeAddrAfter brk length hint [] ranges with
    | some base =>
      left
      exact hsome base hresult
    | none =>
      right
      refine ⟨rfl, ?_⟩
      rintro base ⟨pre, range, post, hsplit, rfl, hhint', hbrk, hmax, hclear⟩
      obtain ⟨r, hr, htouch⟩ := hnone hresult pre range post hsplit hhint' hbrk hmax
      exact hclear r hr htouch

end Room

end Kairax.Proc
