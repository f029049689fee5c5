import Kairax.Proc.Region

/-!
# Checking a user pointer

`process_is_userspace_region` of `proc/process.c`, which the system calls ask before they touch memory at an
address that the process gave. The top address is computed in 64 bits, so a length that carries it once around
the address space passes for a short one.
-/

namespace Kairax.Proc

open BitVec (le_def lt_def toNat_add)

def processIsUserspaceRegion (ranges : List MmapRange) (base len : Word) (protection : BitVec 32) : Bool :=
  let topAddress := base + len
  if topAddress ≥ userspaceMaxAddr then false
  else if topAddress < 0x1000 then false
  else
    match processGetRegionByAddr ranges base with
    | none => false
    | some range =>
      if topAddress > range.base + range.length then false
      else if protection ≠ 0 ∧ range.protection &&& protection ≠ protection then false
      else true

/-- Ranges that lie apart and end within the 64-bit addresses. -/
structure Apart (ranges : List MmapRange) : Prop where
  stop_le : ∀ r ∈ ranges, r.stop ≤ 2 ^ 64
  disjoint : ranges.Pairwise fun r r' => ∀ a, r.Has a → ¬ r'.Has a

def MmapRange.Grants (r : MmapRange) (mask : BitVec 32) : Prop := r.protection &&& mask = mask

instance (r : MmapRange) (mask : BitVec 32) : Decidable (r.Grants mask) :=
  inferInstanceAs (Decidable (_ = _))

/-- The addresses of `len` bytes from `base` on, as numbers: user addresses of one range that grants the
mask. -/
def Usable (ranges : List MmapRange) (base len : Nat) (mask : BitVec 32) : Prop :=
  ∃ r ∈ ranges, r.Grants mask ∧
    ∀ n, base ≤ n → n < base + len →
      n < userspaceMaxAddr.toNat ∧ r.base.toNat ≤ n ∧ n < r.stop

/-- The bytes run past the last address and, counted on from zero, end above the first page, where `base` is found in a
range that grants the mask. An empty range at zero is taken for one that has every address. -/
structure Around (ranges : List MmapRange) (base len : Word) (mask : BitVec 32) : Prop where
  above : 2 ^ 64 + 0x1000 ≤ base.toNat + len.toNat
  below : base.toNat + len.toNat < 2 ^ 64 + userspaceMaxAddr.toNat
  found : ∃ before r after, ranges = before ++ r :: after ∧
    (∀ e ∈ before, ¬ (e.base = 0 ∧ e.length = 0)) ∧
    r.Has base ∧ r.stop < 2 ^ 64 ∧ r.Grants mask

theorem inRange_iff {e : Extent} (hstop : e.stop ≤ 2 ^ 64) (addr : Word) :
    addr ≥ e.base ∧ addr ≤ e.base + e.length - 1 ↔ e.Has addr ∨ e.base = 0 ∧ e.length = 0 := by
  have hone : (1 : Word).toNat = 1 := rfl
  have hzero : (0 : Word).toNat = 0 := rfl
  simp only [le_def, ← BitVec.toNat_inj, Extent.Has, BitVec.toNat_sub, toNat_add]
  rw [Extent.stop] at hstop ⊢
  omega

variable {ranges : List MmapRange} {mask : BitVec 32} {base len : Word}

theorem processGetRegionByAddr_eq_some_iff (happart : Apart ranges) {addr : Word} {r : MmapRange} :
    processGetRegionByAddr ranges addr = some r ↔
      ∃ before after, ranges = before ++ r :: after ∧
        (∀ e ∈ before, ¬ e.Has addr ∧ ¬ (e.base = 0 ∧ e.length = 0)) ∧
        (r.Has addr ∨ r.base = 0 ∧ r.length = 0) := by
  rw [processGetRegionByAddr, List.find?_eq_some_iff_append]
  simp only [decide_eq_true_eq, Bool.not_eq_eq_eq_not, Bool.not_true, decide_eq_false_iff_not]
  constructor
  · rintro ⟨hr, before, after, hsplit, hbefore⟩
    have hmem : r ∈ ranges := by simp [hsplit]
    refine ⟨before, after, hsplit, fun e he => ?_, (inRange_iff (happart.stop_le r hmem) addr).mp hr⟩
    have heMem : e ∈ ranges := by simp [hsplit, he]
    have hne := hbefore e he
    rw [inRange_iff (happart.stop_le e heMem)] at hne
    exact not_or.mp hne
  · rintro ⟨before, after, hsplit, hbefore, hr⟩
    have hmem : r ∈ ranges := by simp [hsplit]
    refine ⟨(inRange_iff (happart.stop_le r hmem) addr).mpr hr, before, after, hsplit, fun e he => ?_⟩
    have heMem : e ∈ ranges := by simp [hsplit, he]
    rw [inRange_iff (happart.stop_le e heMem)]
    exact not_or.mpr (hbefore e he)

theorem processGetRegionByAddr_of_has {before after : List MmapRange} {r : MmapRange} {addr : Word}
    (happart : Apart (before ++ r :: after)) (hbefore : ∀ e ∈ before, ¬ (e.base = 0 ∧ e.length = 0))
    (hhas : r.Has addr) : processGetRegionByAddr (before ++ r :: after) addr = some r := by
  rw [processGetRegionByAddr_eq_some_iff happart]
  refine ⟨before, after, rfl, fun e he => ⟨fun heHas => ?_, hbefore e he⟩, Or.inl hhas⟩
  exact (List.pairwise_append.mp happart.disjoint).2.2 e he r List.mem_cons_self addr heHas hhas

theorem MmapRange.grants_iff (r : MmapRange) (mask : BitVec 32) :
    r.Grants mask ↔ ¬ (mask ≠ 0 ∧ r.protection &&& mask ≠ mask) := by
  rw [not_and, not_not]
  refine ⟨fun hgrants _ => hgrants, fun hgrants => ?_⟩
  by_cases hmask : mask = 0
  · rw [hmask]
    exact BitVec.and_zero
  · exact hgrants hmask

theorem processIsUserspaceRegion_iff (ranges : List MmapRange) (base len : Word) (mask : BitVec 32) :
    processIsUserspaceRegion ranges base len mask = true ↔
      (base + len).toNat < userspaceMaxAddr.toNat ∧ 0x1000 ≤ (base + len).toNat ∧
        ∃ r, processGetRegionByAddr ranges base = some r ∧
          (base + len).toNat ≤ (r.base + r.length).toNat ∧ r.Grants mask := by
  simp only [processIsUserspaceRegion]
  by_cases hmax : base + len ≥ userspaceMaxAddr
  · have htop : userspaceMaxAddr.toNat ≤ (base + len).toNat := le_def.mp hmax
    simp only [if_pos hmax, Bool.false_eq_true, false_iff, not_and]
    exact fun hlt => absurd hlt (not_lt.mpr htop)
  · have htop : (base + len).toNat < userspaceMaxAddr.toNat := not_le.mp hmax
    by_cases hlow : base + len < 0x1000
    · have hsmall : (base + len).toNat < 0x1000 := lt_def.mp hlow
      simp only [if_neg hmax, if_pos hlow, Bool.false_eq_true, false_iff, not_and]
      exact fun _ hle => absurd hle (not_le.mpr hsmall)
    · have hlarge : 0x1000 ≤ (base + len).toNat := not_lt.mp hlow
      simp only [if_neg hmax, if_neg hlow, htop, hlarge, true_and]
      cases processGetRegionByAddr ranges base with
      | none => simp
      | some r =>
        simp only [Option.some.injEq, exists_eq_left']
        by_cases hover : base + len > r.base + r.length
        · have hlt : (r.base + r.length).toNat < (base + len).toNat := lt_def.mp hover
          simp only [if_pos hover, Bool.false_eq_true, false_iff, not_and]
          exact fun hle => absurd hle (not_le.mpr hlt)
        · have hle : (base + len).toNat ≤ (r.base + r.length).toNat := not_lt.mp hover
          simp only [hle, true_and, r.grants_iff mask]
          split_ifs with hdenied
          · exact iff_of_false id (not_not.mpr hdenied)
          · exact iff_of_true rfl hdenied

theorem usable_of_accepted (happart : Apart ranges) (hnowrap : base.toNat + len.toNat < 2 ^ 64)
    (haccepted : processIsUserspaceRegion ranges base len mask = true) : Usable ranges base.toNat len.toNat mask := by
  obtain ⟨hmax, hlow, r, hfound, htop, hgrants⟩ :=
    (processIsUserspaceRegion_iff ranges base len mask).mp haccepted
  obtain ⟨before, after, hsplit, -, hhas⟩ := (processGetRegionByAddr_eq_some_iff happart).mp hfound
  have hmem : r ∈ ranges := by simp [hsplit]
  have hstop : (r.base + r.length).toNat ≤ r.stop := by
    exact Nat.mod_le _ _
  rw [toNat_add] at hmax htop
  have hbase : r.base.toNat ≤ base.toNat := by
    cases hhas with
    | inl hhas => exact hhas.1
    | inr hempty =>
      rw [hempty.1]
      exact Nat.zero_le _
  exact ⟨r, hmem, hgrants, fun n hle hlt => by omega⟩

theorem not_usable_of_wrap (hwrap : 2 ^ 64 ≤ base.toNat + len.toNat) : ¬ Usable ranges base.toNat len.toNat mask := by
  rintro ⟨r, -, -, hall⟩
  have hlast := (hall (2 ^ 64 - 1) (by omega) (by omega)).1
  omega

theorem accepted_iff_around (happart : Apart ranges) (hwrap : 2 ^ 64 ≤ base.toNat + len.toNat) :
    processIsUserspaceRegion ranges base len mask = true ↔ Around ranges base len mask := by
  have htop : (base + len).toNat = base.toNat + len.toNat - 2 ^ 64 := by
    rw [toNat_add]
    omega
  rw [processIsUserspaceRegion_iff]
  constructor
  · rintro ⟨hmax, hlow, r, hfound, hle, hgrants⟩
    obtain ⟨before, after, hsplit, hbefore, hhas⟩ := (processGetRegionByAddr_eq_some_iff happart).mp hfound
    have hstop := happart.stop_le r (by simp [hsplit])
    -- a range that is empty at zero, or that ends with the addresses, has the end zero
    have hend : 0x1000 ≤ (r.stop % 2 ^ 64) := by
      exact hlow.trans hle
    refine ⟨by omega, by omega, before, r, after, hsplit, fun e he => (hbefore e he).2, ?_, by omega, hgrants⟩
    cases hhas with
    | inl hhas => exact hhas
    | inr hempty =>
      rw [Extent.stop, hempty.1, hempty.2] at hend
      exact absurd hend (by decide)
  · rintro ⟨habove, hbelow, before, r, after, hsplit, hbefore, hhas, hstop, hgrants⟩
    rw [hsplit] at happart
    have hend : (r.base + r.length).toNat = r.stop := by
      rw [toNat_add, ← Extent.stop, Nat.mod_eq_of_lt hstop]
    have hlt := hhas.2
    refine ⟨by omega, by omega, r, ?_, by omega, hgrants⟩
    rw [hsplit]
    exact processGetRegionByAddr_of_has happart hbefore hhas

/-- What the check accepts is usable, unless the length carries the top address around to user space. -/
theorem userspace_region_sound (ranges : List MmapRange) (happart : Apart ranges) (base len : Word)
    (mask : BitVec 32) :
    (processIsUserspaceRegion ranges base len mask = true → Usable ranges base.toNat len.toNat mask) ↔
      ¬ Around ranges base len mask := by
  by_cases hwrap : 2 ^ 64 ≤ base.toNat + len.toNat
  · rw [accepted_iff_around happart hwrap]
    exact ⟨fun hsound haround => not_usable_of_wrap hwrap (hsound haround), fun hnot haround => absurd haround hnot⟩
  · have hnowrap := not_le.mp hwrap
    refine iff_of_true (usable_of_accepted happart hnowrap) fun haround => ?_
    have habove := haround.above
    omega

/-- One page at `0x400000` with all rights. -/
def codePage : List MmapRange :=
  [⟨⟨0x400000, 0x1000⟩, 7, 0, 0, none, 1⟩]

theorem codePage_apart : Apart codePage := by
  constructor
  · intro r hr
    rw [List.mem_singleton.mp hr]
    decide
  · exact List.pairwise_singleton _ _

theorem userspace_region_sound_page :
    processIsUserspaceRegion codePage 0x400000 0x1000 3 = true ∧
      Usable codePage (0x400000 : Word).toNat (0x1000 : Word).toNat 3 := by
  have haccepted : processIsUserspaceRegion codePage 0x400000 0x1000 3 = true := by decide
  refine ⟨haccepted, (userspace_region_sound codePage codePage_apart _ _ _).mpr (fun haround => ?_) haccepted⟩
  exact absurd haround.above (by decide)

/-- A length just short of the whole address space: the check accepts the page and everything after it. -/
theorem length_around_accepted :
    Apart codePage ∧ processIsUserspaceRegion codePage 0x400000 0xFFFFFFFFFFFFF000 7 = true ∧
      ¬ Usable codePage (0x400000 : Word).toNat (0xFFFFFFFFFFFFF000 : Word).toNat 7 :=
  ⟨codePage_apart, by decide, not_usable_of_wrap (by decide)⟩

end Kairax.Proc
