import Kairax.Lib.Run
import Kairax.Mem.PmmScan
import Mathlib.Data.Finset.Card
import Mathlib.Data.List.Perm.Basic
import Mathlib.Order.Interval.Finset.Nat

/-!
# Allocation histories of the page allocator

Beside the allocator's own state a history records the pages each outstanding allocation holds and those that were
reserved. `HistoryInv` is what it promises and `StepSpec` what each call does. Both hold along every history whose
multi-page requests find the bitmap orderly; without that two single pages, a release and a request for two pages
break them.
-/

namespace Kairax.Pmm

open Lib List Option
open BitVec (ofNat)

inductive Call
  | allocPage
  | allocPages (pages : BitVec 32)
  | freePage (addr : Word)
  | freePages (addr : Word) (pages : BitVec 32)

/-- The arguments of one `pmm_set_mem_region`. -/
structure Region where
  offset : Word
  size : Word
  markAsUsed : Bool

structure History where
  pmm : State
  reserved : Nat → Prop
  held : List (List Nat)

def Region.first (r : Region) : Nat := pageOf (r.offset - r.offset % pageSize)

def Region.count (r : Region) : Nat := pageOf (align r.size pageSize)

def reserve (h : History) (r : Region) : Option History :=
  (pmmSetMemRegion h.pmm r.offset r.size r.markAsUsed).map fun pmm =>
    { h with pmm, reserved := fun page => (r.first ≤ page ∧ page < r.first + r.count) ∨ h.reserved page }

/-- `init_pmm` and the reservations after it. -/
def boot (regions : List Region) : Option History :=
  regions.foldlM reserve { pmm := initPmm, reserved := fun _ => False, held := [] }

/-- A successful allocation of `pages` pages at `addr` becomes outstanding. -/
def grant (addr : Word) (pages : Nat) (held : List (List Nat)) : List (List Nat) :=
  if addr = null then held else range' (pageOf addr) pages :: held

/-- The pages `first`, …, `first + pages - 1` leave the allocations that held them. -/
def release (first pages : Nat) (held : List (List Nat)) : List (List Nat) :=
  held.map fun allocation => allocation.filter fun page => ¬ (first ≤ page ∧ page < first + pages)

def step (h : History) : Call → Option History
  | .allocPage =>
    let (addr, pmm) := pmmAllocPage h.pmm
    some { h with pmm, held := grant addr 1 h.held }
  | .allocPages pages =>
    (pmmAllocPages h.pmm pages).map fun (addr, pmm) =>
      { h with pmm, held := grant addr pages.toNat h.held }
  | .freePage addr =>
    some { h with pmm := pmmFreePage h.pmm addr, held := release (pageOf addr) 1 h.held }
  | .freePages addr pages =>
    some { h with pmm := pmmFreePages h.pmm addr pages, held := release (pageOf addr) pages.toNat h.held }

/-- The callers' side: requests are for at least one page, and only held pages are freed. -/
def Legal (h : History) : Call → Prop
  | .allocPage => True
  | .allocPages pages => 1 ≤ pages.toNat
  | .freePage addr => pageOf addr ∈ h.held.flatten
  | .freePages addr pages => ∀ page ∈ range' (pageOf addr) pages.toNat, page ∈ h.held.flatten

instance (h : History) (c : Call) : Decidable (Legal h c) := by
  cases c <;> (unfold Legal; infer_instance)

def MeetsOrder (h : History) : Call → Prop
  | .allocPages pages => Orderly h.pmm.bitmap pages.toNat
  | _ => True

structure HistoryInv (h : History) : Prop where
  nodup : h.held.flatten.Nodup
  heldUsed : ∀ page ∈ h.held.flatten, page < maxPages ∧ used h.pmm.bitmap page = true
  reservedUsed : ∀ page, h.reserved page → used h.pmm.bitmap page = true
  heldFree : ∀ page ∈ h.held.flatten, ¬ h.reserved page

def newlySet (before after : Bitmap) : Finset Nat :=
  (Finset.range maxPages).filter fun page => used before page = false ∧ used after page = true

/-- The pages a call hands out, none when it is not a successful allocation. -/
def handedOut (h : History) : Call → List Nat
  | .allocPage => (grant (pmmAllocPage h.pmm).1 1 []).flatten
  | .allocPages pages =>
    match pmmAllocPages h.pmm pages with
    | none => []
    | some (addr, _) => (grant addr pages.toNat []).flatten
  | _ => []

structure StepSpec (before : History) (c : Call) (after : History) : Prop where
  clear : ∀ page ∈ handedOut before c, used before.pmm.bitmap page = false
  counted : after.pmm.pagesUsed = before.pmm.pagesUsed
    + ofNat 64 (newlySet before.pmm.bitmap after.pmm.bitmap).card
    - ofNat 64 (newlySet after.pmm.bitmap before.pmm.bitmap).card

section Flips

variable (bm : Bitmap) {i n : Nat}

theorem newlySet_setBits (hroom : i + n ≤ maxPages) (hclear : ∀ k < n, used bm (i + k) = false) :
    newlySet bm (setBits bm i n) = Finset.Ico i (i + n) := by
  ext page
  simp only [newlySet, Finset.mem_filter, Finset.mem_range, Finset.mem_Ico, used_setBits]
  constructor
  · rintro ⟨_, hbefore, hafter⟩
    simpa [hbefore] using hafter
  · intro hin
    have hpage := hclear (page - i) (by omega)
    rw [show i + (page - i) = page by omega] at hpage
    exact ⟨by omega, hpage, by simp [hin]⟩

theorem newlySet_of_setBits : newlySet (setBits bm i n) bm = ∅ := by
  ext page
  cases h : used bm page <;> simp [newlySet, used_setBits]

theorem newlySet_unsetBits : newlySet bm (unsetBits bm i n) = ∅ := by
  ext page
  cases h : used bm page <;> simp [newlySet, used_unsetBits, h]

theorem newlySet_of_unsetBits (hused : ∀ k < n, i + k < maxPages ∧ used bm (i + k) = true) :
    newlySet (unsetBits bm i n) bm = Finset.Ico i (i + n) := by
  ext page
  simp only [newlySet, Finset.mem_filter, Finset.mem_range, Finset.mem_Ico, used_unsetBits]
  constructor
  · rintro ⟨_, hafter, hbefore⟩
    simpa [hbefore] using hafter
  · intro hin
    have hpage := hused (page - i) (by omega)
    rw [show i + (page - i) = page by omega] at hpage
    exact ⟨hpage.1, by simp [hin], hpage.2⟩

end Flips

section Step

variable {h : History} {i n : Nat}

theorem HistoryInv.grant (hinv : HistoryInv h) (hroom : i + n ≤ maxPages)
    (hclear : ∀ k < n, used h.pmm.bitmap (i + k) = false) (pagesUsed : Word) :
    HistoryInv { h with
      pmm := { bitmap := setBits h.pmm.bitmap i n, pagesUsed }
      held := range' i n :: h.held } := by
  have hpage : ∀ page ∈ range' i n, page < maxPages ∧ used h.pmm.bitmap page = false := by
    intro page hmem
    obtain ⟨k, hk, rfl⟩ := mem_range'.mp hmem
    rw [one_mul]
    exact ⟨by omega, hclear k hk⟩
  have hnew : ∀ page ∈ range' i n, page ∉ h.held.flatten ∧ ¬ h.reserved page := by
    intro page hmem
    have hfalse := (hpage page hmem).2
    constructor <;> intro hin
    · rw [(hinv.heldUsed page hin).2] at hfalse
      exact absurd hfalse (by decide)
    · rw [hinv.reservedUsed page hin] at hfalse
      exact absurd hfalse (by decide)
  refine ⟨?_, ?_, ?_, ?_⟩
  · exact nodup_append.mpr ⟨nodup_range', hinv.nodup,
      fun page hmem other hother heq => (hnew page hmem).1 (heq ▸ hother)⟩
  · intro page hmem
    rw [flatten_cons, mem_append] at hmem
    rw [used_setBits]
    rcases hmem with hmem | hmem
    · have hin : i ≤ page ∧ page < i + n := by simpa using hmem
      exact ⟨(hpage page hmem).1, by simp [hin]⟩
    · exact ⟨(hinv.heldUsed page hmem).1, by simp [(hinv.heldUsed page hmem).2]⟩
  · intro page hmem
    rw [used_setBits, hinv.reservedUsed page hmem, Bool.or_true]
  · intro page hmem
    rw [flatten_cons, mem_append] at hmem
    rcases hmem with hmem | hmem
    · exact (hnew page hmem).2
    · exact hinv.heldFree page hmem

theorem mem_flatten_release {held : List (List Nat)} {page : Nat} :
    page ∈ (release i n held).flatten ↔
      page ∈ held.flatten ∧ ¬ (i ≤ page ∧ page < i + n) := by
  rw [release, ← filter_flatten, mem_filter, decide_eq_true_iff]

theorem HistoryInv.release (hinv : HistoryInv h) (hheld : ∀ k < n, i + k ∈ h.held.flatten) (pagesUsed : Word) :
    HistoryInv { h with
      pmm := { bitmap := unsetBits h.pmm.bitmap i n, pagesUsed }
      held := release i n h.held } := by
  refine ⟨?_, ?_, ?_, ?_⟩
  · rw [Pmm.release, ← filter_flatten]
    exact hinv.nodup.filter _
  · intro page hmem
    obtain ⟨hin, hout⟩ := mem_flatten_release.mp hmem
    rw [used_unsetBits, (hinv.heldUsed page hin).2]
    exact ⟨(hinv.heldUsed page hin).1, by simp only [hout]; rfl⟩
  · intro page hmem
    have hout : ¬ (i ≤ page ∧ page < i + n) := by
      intro hin
      have := hheld (page - i) (by omega)
      rw [show i + (page - i) = page by omega] at this
      exact hinv.heldFree page this hmem
    rw [used_unsetBits, hinv.reservedUsed page hmem]
    simp only [hout]
    rfl
  · intro page hmem
    exact hinv.heldFree page (mem_flatten_release.mp hmem).1

theorem counted_grant (hroom : i + n ≤ maxPages) (hclear : ∀ k < n, used h.pmm.bitmap (i + k) = false) :
    h.pmm.pagesUsed + ofNat 64 n = h.pmm.pagesUsed
      + ofNat 64 (newlySet h.pmm.bitmap (setBits h.pmm.bitmap i n)).card
      - ofNat 64 (newlySet (setBits h.pmm.bitmap i n) h.pmm.bitmap).card := by
  rw [newlySet_setBits _ hroom hclear, newlySet_of_setBits]
  simp

theorem counted_release (hinv : HistoryInv h) (hheld : ∀ k < n, i + k ∈ h.held.flatten) :
    h.pmm.pagesUsed - ofNat 64 n = h.pmm.pagesUsed
      + ofNat 64 (newlySet h.pmm.bitmap (unsetBits h.pmm.bitmap i n)).card
      - ofNat 64 (newlySet (unsetBits h.pmm.bitmap i n) h.pmm.bitmap).card := by
  rw [newlySet_unsetBits, newlySet_of_unsetBits _ fun k hk => hinv.heldUsed _ (hheld k hk)]
  simp

theorem counted_same (p : State) :
    p.pagesUsed = p.pagesUsed + ofNat 64 (newlySet p.bitmap p.bitmap).card
      - ofNat 64 (newlySet p.bitmap p.bitmap).card := by
  simp

end Step

theorem addrOf_ne_null {page : Nat} (hpage : page < maxPages) (hne : page ≠ 0) : addrOf page ≠ null := by
  intro hnull
  have hpageOf := pageOf_addrOf hpage
  rw [hnull] at hpageOf
  exact hne (by rw [← hpageOf]; rfl)

theorem step_spec {h : History} (hinv : HistoryInv h) {c : Call} (hlegal : Legal h c) (hmeets : MeetsOrder h c) :
    ∃ after, step h c = some after ∧ StepSpec h c after ∧ HistoryInv after := by
  cases c with
  | allocPage =>
    by_cases hnone : findFreePage h.pmm.bitmap = 0
    · refine ⟨h, ?_, ⟨?_, counted_same h.pmm⟩, hinv⟩
      · simp [step, pmmAllocPage, hnone, grant]
      · simp [handedOut, pmmAllocPage, hnone, grant]
    · obtain ⟨hclear, hlt⟩ := findFreePage_spec hnone
      have hne := addrOf_ne_null hlt hnone
      have hrun : ∀ k < 1, used h.pmm.bitmap (findFreePage h.pmm.bitmap + k) = false := by
        intro k hk
        obtain rfl : k = 0 := by omega
        exact hclear
      refine ⟨_, ?_, ⟨?_, counted_grant hlt hrun⟩, hinv.grant hlt hrun _⟩
      · simp [step, pmmAllocPage, hnone, grant, hne, pageOf_addrOf hlt, setBits]
      · simpa [handedOut, pmmAllocPage, hnone, grant, hne, pageOf_addrOf hlt] using hclear
  | allocPages pages =>
    obtain ⟨start, hfind, hstart⟩ := findFreePages_spec hlegal hmeets
    by_cases hnone : start = 0
    · refine ⟨h, ?_, ⟨?_, counted_same h.pmm⟩, hinv⟩
      · simp [step, pmmAllocPages, hfind, hnone, grant]
      · simp [handedOut, pmmAllocPages, hfind, hnone, grant]
    · obtain ⟨hroom, hclear⟩ := hstart.resolve_left hnone
      have hlt : start < maxPages := by
        have : 1 ≤ pages.toNat := hlegal
        omega
      have hne := addrOf_ne_null hlt hnone
      refine ⟨_, ?_, ⟨?_, counted_grant hroom hclear⟩, hinv.grant hroom hclear _⟩
      · simp [step, pmmAllocPages, hfind, hnone, grant, hne, pageOf_addrOf hlt]
      · intro page hmem
        simp only [handedOut, pmmAllocPages, hfind, Option.map_some, if_neg hnone, grant, if_neg hne,
          pageOf_addrOf hlt, flatten_cons, flatten_nil, append_nil,
          mem_range'] at hmem
        obtain ⟨k, hk, rfl⟩ := hmem
        rw [one_mul]
        exact hclear k hk
  | freePage addr =>
    have hheld : ∀ k < 1, pageOf addr + k ∈ h.held.flatten := by
      intro k hk
      obtain rfl : k = 0 := by omega
      exact hlegal
    exact ⟨_, rfl, ⟨by simp [handedOut], counted_release hinv hheld⟩, hinv.release hheld _⟩
  | freePages addr pages =>
    have hheld : ∀ k < pages.toNat, pageOf addr + k ∈ h.held.flatten := by
      intro k hk
      exact hlegal _ (mem_range'.mpr ⟨k, hk, by rw [one_mul]⟩)
    have hspec := counted_release hinv hheld
    rw [BitVec.ofNat_toNat] at hspec
    exact ⟨_, rfl, ⟨by simp [handedOut], hspec⟩, hinv.release hheld _⟩

theorem historyInv_reserve {h after : History} {r : Region} (hinv : HistoryInv h) (hheld : h.held = [])
    (hreserve : reserve h r = some after) : HistoryInv after ∧ after.held = [] := by
  obtain ⟨pmm, hpmm, rfl⟩ := map_eq_some_iff.mp hreserve
  rw [pmmSetMemRegion] at hpmm
  split at hpmm
  · simp at hpmm
  · cases hpmm
    refine ⟨⟨hinv.nodup, by simp [hheld], ?_, by simp [hheld]⟩, hheld⟩
    intro page hmem
    change used (setBits h.pmm.bitmap r.first r.count) page = true
    rw [used_setBits]
    rcases hmem with hin | hold
    · rw [decide_eq_true hin, Bool.true_or]
    · rw [hinv.reservedUsed page hold, Bool.or_true]

theorem historyInv_boot {regions : List Region} {h : History} (hboot : boot regions = some h) : HistoryInv h := by
  have hfold : ∀ (regions : List Region) (start : History), HistoryInv start → start.held = [] →
      regions.foldlM reserve start = some h → HistoryInv h := by
    intro regions
    induction regions with
    | nil =>
      intro start hinv _ hrun
      cases hrun
      exact hinv
    | cons r regions ih =>
      intro start hinv hheld hrun
      obtain ⟨mid, hreserve, hrest⟩ := bind_eq_some_iff.mp hrun
      obtain ⟨hmid, hmidHeld⟩ := historyInv_reserve hinv hheld hreserve
      exact ih mid hmid hmidHeld hrest
  refine hfold regions _ ?_ rfl hboot
  exact ⟨by simp, by simp, by simp, by simp⟩

/-- Along every legal history whose multi-page requests find the bitmap orderly, allocations are disjoint and hold no
reserved page, and every next call is defined, hands out only clear pages and moves the counter by the flipped bits. -/
theorem history_sound {regions : List Region} {h₀ h : History} {calls : List Call} (hboot : boot regions = some h₀)
    (hrun : Run step (fun h c => Legal h c ∧ MeetsOrder h c) h₀ calls h) :
    h.held.Pairwise List.Disjoint ∧
      (∀ allocation ∈ h.held, ∀ page ∈ allocation, ¬ h.reserved page) ∧
      ∀ c, Legal h c → MeetsOrder h c → ∃ after, step h c = some after ∧ StepSpec h c after := by
  have hinv : HistoryInv h := by
    refine hrun.invariant HistoryInv (fun s c t hs hguard hstep => ?_) (historyInv_boot hboot)
    obtain ⟨after, hafter, _, hinv⟩ := step_spec hs hguard.1 hguard.2
    obtain rfl : after = t := some.inj (hafter.symm.trans hstep)
    exact hinv
  refine ⟨(nodup_flatten.mp hinv.nodup).2, ?_, fun c hlegal hmeets => ?_⟩
  · intro allocation hmem page hpage
    exact hinv.heldFree page (mem_flatten.mpr ⟨allocation, hmem, hpage⟩)
  · obtain ⟨after, hafter, hspec, _⟩ := step_spec hinv hlegal hmeets
    exact ⟨after, hafter, hspec⟩

def firstPage : Region := { offset := 0, size := 0x1000, markAsUsed := true }

def firstPageHistory : History :=
  { pmm := { bitmap := setBits (fun _ => 0) 0 1, pagesUsed := 1 }
    reserved := fun page => (firstPage.first ≤ page ∧ page < firstPage.first + firstPage.count) ∨ False
    held := [] }

theorem boot_firstPage : boot [firstPage] = some firstPageHistory := rfl

theorem orderly_firstPage (n : Nat) : Orderly firstPageHistory.pmm.bitmap n := by
  have hbit : ∀ i, ∀ bit < 64, (firstPageHistory.pmm.bitmap i).getLsbD bit = decide (64 * i + bit = 0) := by
    intro i bit hlt
    rw [← used_word _ i bit hlt, firstPageHistory, used_setBits, used_zero, Bool.or_false, decide_eq_decide]
    omega
  have hnotFull : ∀ i, firstPageHistory.pmm.bitmap i ≠ fullWord := by
    intro i hfull
    have hlast := used_of_full hfull 63 (by decide)
    rw [used_word _ i 63 (by decide), hbit i 63 (by decide)] at hlast
    simp at hlast
  refine ⟨fun i _ high hhigh _ hset low hlow => ?_, fun i _ _ hfull => absurd hfull (hnotFull i),
    0, by decide, hnotFull 0⟩
  rw [hbit i high hhigh, decide_eq_true_iff] at hset
  omega

theorem history_sound_firstPage :
    ∃ h, Run step (fun h c => Legal h c ∧ MeetsOrder h c) firstPageHistory [.allocPages 2] h ∧
      h.held.Pairwise List.Disjoint ∧
      (∀ allocation ∈ h.held, ∀ page ∈ allocation, ¬ h.reserved page) ∧
      ∀ c, Legal h c → MeetsOrder h c → ∃ after, step h c = some after ∧ StepSpec h c after := by
  have hlegal : Legal firstPageHistory (.allocPages 2) := by decide
  obtain ⟨h, hstep, _, _⟩ := step_spec (historyInv_boot boot_firstPage) hlegal (orderly_firstPage 2)
  have hrun : Run step (fun h c => Legal h c ∧ MeetsOrder h c) firstPageHistory [.allocPages 2] h :=
    .cons ⟨hlegal, orderly_firstPage 2⟩ hstep (.nil h)
  exact ⟨h, hrun, history_sound boot_firstPage hrun⟩

theorem history_overlap :
    ¬ ∀ (regions : List Region) (h₀ h : History) (calls : List Call), boot regions = some h₀ →
      Run step Legal h₀ calls h → h.held.Pairwise List.Disjoint := by
  intro hclaim
  have hheld : (replay step Legal firstPageHistory
      [.allocPage, .allocPage, .freePage 0x1000, .allocPages 2]).map History.held =
        some [[1, 2], [2], []] := by decide
  obtain ⟨h, hreplay, hlist⟩ := Option.map_eq_some_iff.mp hheld
  have hdisjoint := hclaim [firstPage] _ h _ boot_firstPage (run_of_replay hreplay)
  rw [hlist, List.pairwise_cons] at hdisjoint
  exact hdisjoint.1 [2] (by simp) (show 2 ∈ [1, 2] by simp) (show 2 ∈ [2] by simp)

end Kairax.Pmm
