import Kairax.Lib.Bits
import Kairax.Mem.Pmm

/-!
# What the page searches return

A page that `findFreePage` returns is clear. `findFreePages` counts every later page of a word as clear, and keeps the
count over the full words it skips. `Orderly` says when neither is met: up to the end of the first run of the
requested length, a used page has no clear page before it in its word, and a full word has none at all.
-/

namespace Kairax.Pmm

open Lib BitVec

theorem used_word (bm : Bitmap) (i bit : Nat) (hbit : bit < 64) : used bm (64 * i + bit) = (bm i).getLsbD bit := by
  have hdiv : (64 * i + bit) / 64 = i := by omega
  have hmod : (64 * i + bit) % 64 = bit := by omega
  rw [used, hdiv, hmod]

variable {bm : Bitmap} {i : Nat}

theorem used_of_full (hfull : bm i = fullWord) (bit : Nat) (hbit : bit < 64) : used bm (64 * i + bit) = true := by
  rw [used_word bm i bit hbit, hfull, show fullWord = allOnes 64 from rfl, getLsbD_allOnes, decide_eq_true hbit]

variable {word : Word} {left bit : Nat} {pages : Int}

theorem exists_lowest_clear_of_ne_full (hword : word ≠ fullWord) :
    ∃ bit, bit < 64 ∧ word.getLsbD bit = false ∧ ∀ lower < bit, word.getLsbD lower = true :=
  exists_lowest_clear hword

theorem skipFull_spec {j : Nat} (hskip : skipFull bm left i = some j) : i ≤ j ∧ j < i + left ∧ bm j ≠ fullWord := by
  induction left generalizing i with
  | zero => simp [skipFull] at hskip
  | succ left ih =>
    rw [skipFull] at hskip
    split at hskip
    · obtain ⟨hle, hlt, hne⟩ := ih hskip
      exact ⟨by omega, by omega, hne⟩
    · rename_i hne
      cases hskip
      exact ⟨le_rfl, by omega, hne⟩

theorem countSet_eq (hbit : bit < left) (hclear : word.getLsbD bit = false)
    (hset : ∀ lower < bit, word.getLsbD lower = true) (bitpos : Nat) : countSet left word bitpos = bitpos + bit := by
  induction bit generalizing left word bitpos with
  | zero =>
    cases left with
    | zero => omega
    | succ left =>
      rw [countSet, if_neg (by rw [and_one_ne_zero, hclear]; decide), add_zero]
  | succ bit ih =>
    cases left with
    | zero => omega
    | succ left =>
      have hlow : word.getLsbD 0 = true := hset 0 (by omega)
      rw [countSet, if_pos ((and_one_ne_zero word).mpr hlow)]
      rw [ih (by omega) (by simpa [add_comm] using hclear)
        (fun lower hlower => by simpa [add_comm] using hset (lower + 1) (by omega))]
      omega

theorem findFreePage_spec (hfound : findFreePage bm ≠ 0) :
    used bm (findFreePage bm) = false ∧ findFreePage bm < maxPages := by
  rw [findFreePage] at hfound ⊢
  cases hskip : skipFull bm maxBitmaskData 0 with
  | none => simp [hskip] at hfound
  | some i =>
    obtain ⟨_, hlt, hne⟩ := skipFull_spec hskip
    obtain ⟨bit, hbit, hclear, hset⟩ := exists_lowest_clear_of_ne_full hne
    simp only [countSet_eq hbit hclear hset]
    rw [zero_add, mul_comm i 64]
    refine ⟨by rw [used_word bm i bit hbit, hclear], ?_⟩
    simp only [maxPages]
    omega

theorem scanWord_of_clear (hclear : word.getLsbD 0 = false) (left bitpos nfound : Nat) :
    scanWord pages left bitpos word nfound =
      if (nfound : Int) < pages ∧ pages ≤ nfound + left then
        .found (bitpos + (pages.toNat - nfound) - 1)
      else .next (nfound + left) := by
  induction left generalizing bitpos nfound with
  | zero =>
    rw [scanWord, if_neg (by omega), add_zero]
  | succ left ih =>
    rw [scanWord, if_neg (by rw [and_one_ne_zero, hclear]; decide)]
    by_cases hhere : pages = nfound + 1
    · rw [if_pos hhere, if_pos (by omega)]
      congr 1
      omega
    · rw [if_neg hhere, ih]
      by_cases hlater : ((nfound + 1 : Nat) : Int) < pages ∧ pages ≤ (nfound + 1 : Nat) + left
      · rw [if_pos hlater, if_pos (by omega)]
        congr 1
        omega
      · rw [if_neg hlater, if_neg (by omega)]
        congr 1
        omega

/-- The run counter when the scan of a word reaches its lowest clear page `bit`. -/
def carried (bit nfound : Nat) : Nat := if bit = 0 then nfound else 0

theorem scanWord_of_set (hbit : bit ≤ left) (hset : ∀ lower < bit, word.getLsbD lower = true) (bitpos nfound : Nat) :
    scanWord pages left bitpos word nfound =
      scanWord pages (left - bit) (bitpos + bit) (word >>> bit) (carried bit nfound) := by
  induction bit generalizing left word bitpos nfound with
  | zero => simp [carried]
  | succ bit ih =>
    obtain ⟨left, rfl⟩ : ∃ rest, left = rest + 1 := ⟨left - 1, by omega⟩
    have hlow : word.getLsbD 0 = true := hset 0 (by omega)
    have hrest : ∀ lower < bit, (word >>> 1).getLsbD lower = true := fun lower hlower => by
      simpa [add_comm] using hset (lower + 1) (by omega)
    have hshift : word >>> 1 >>> bit = word >>> (bit + 1) := by
      rw [add_comm, shiftRight_add]
    rw [scanWord, if_pos ((and_one_ne_zero word).mpr hlow), ih (by omega) hrest, hshift,
      show bitpos + 1 + bit = bitpos + (bit + 1) by omega]
    simp [carried]

theorem scanWord_eq (hbit : bit < 64) (hclear : word.getLsbD bit = false)
    (hset : ∀ lower < bit, word.getLsbD lower = true) (nfound : Nat) :
    scanWord pages 64 0 word nfound =
      if (carried bit nfound : Int) < pages ∧ pages ≤ carried bit nfound + (64 - bit : Nat) then
        .found (bit + (pages.toNat - carried bit nfound) - 1)
      else .next (carried bit nfound + (64 - bit)) := by
  rw [scanWord_of_set hbit.le hset, scanWord_of_clear (by simpa using hclear), zero_add]

/-- No `n` consecutive pages below `bound` are all clear. -/
def NoRun (bm : Bitmap) (n bound : Nat) : Prop :=
  ∀ start, start + n ≤ bound → ∃ k < n, used bm (start + k) = true

/-- Before the first run of `n` clear pages ends, a used page has no clear page before it in its word and a full word
has none at all; and some page is clear. -/
structure Orderly (bm : Bitmap) (n : Nat) : Prop where
  packed : ∀ i < maxBitmaskData, ∀ high < 64, NoRun bm n (64 * i + high) →
    (bm i).getLsbD high = true → ∀ low < high, (bm i).getLsbD low = true
  fullFirst : ∀ i < maxBitmaskData, NoRun bm n (64 * i) → bm i = fullWord → ∀ j < i, bm j = fullWord
  room : ∃ i < maxBitmaskData, bm i ≠ fullWord

/-- A search that has read the pages below `page`: the counter is the run of clear pages that ends there, and no run
below is long enough. -/
structure ScanInv (bm : Bitmap) (n page nfound : Nat) : Prop where
  bound : nfound ≤ page
  clear : ∀ other, page ≤ other + nfound → other < page → used bm other = false
  maximal : nfound = page ∨ used bm (page - nfound - 1) = true
  noRun : NoRun bm n page

theorem scanInv_zero (bm : Bitmap) {n : Nat} (hn : 1 ≤ n) : ScanInv bm n 0 0 where
  bound := by omega
  clear := by omega
  maximal := Or.inl rfl
  noRun := fun start hle => by omega

namespace ScanInv

variable {n page nfound : Nat}

section

variable (hinv : ScanInv bm n page nfound)
include hinv

theorem nfound_lt : nfound < n := by
  by_contra hge
  have hbound := hinv.bound
  obtain ⟨k, hk, hused⟩ := hinv.noRun (page - n) (by omega)
  rw [hinv.clear (page - n + k) (by omega) (by omega)] at hused
  exact absurd hused (by decide)

theorem step_used (hused : used bm page = true) : ScanInv bm n (page + 1) 0 := by
  have hlt := hinv.nfound_lt
  refine ⟨by omega, by omega, Or.inr hused, fun start hle => ?_⟩
  by_cases hbelow : start + n ≤ page
  · exact hinv.noRun start hbelow
  · refine ⟨n - 1, by omega, ?_⟩
    rwa [show start + (n - 1) = page by omega]

theorem step_clear (hclear : used bm page = false) (hmiss : nfound + 1 < n) : ScanInv bm n (page + 1) (nfound + 1) := by
  have hbound := hinv.bound
  refine ⟨by omega, fun other hlow hhigh => ?_, ?_, fun start hle => ?_⟩
  · rcases Nat.eq_or_lt_of_le (Nat.le_of_lt_succ hhigh) with rfl | hlt
    · exact hclear
    · exact hinv.clear other (by omega) hlt
  · rcases hinv.maximal with hall | hused
    · exact Or.inl (by omega)
    · exact Or.inr (by rwa [show page + 1 - (nfound + 1) - 1 = page - nfound - 1 by omega])
  · by_cases hbelow : start + n ≤ page
    · exact hinv.noRun start hbelow
    · rcases hinv.maximal with hall | hused
      · omega
      · refine ⟨page - nfound - 1 - start, by omega, ?_⟩
        rwa [show start + (page - nfound - 1 - start) = page - nfound - 1 by omega]

theorem pass_used (hset : ∀ lower < bit, used bm (page + lower) = true) :
    ScanInv bm n (page + bit) (carried bit nfound) := by
  induction bit with
  | zero => exact hinv
  | succ bit ih =>
    have hstep := (ih fun lower hlower => hset lower (by omega)).step_used (hset bit (by omega))
    rwa [carried, if_neg (Nat.succ_ne_zero bit)]

end

theorem clear_after (horderly : Orderly bm n) (hi : i < maxBitmaskData)
    (hclear : (bm i).getLsbD bit = false) {k : Nat} (hlt : bit + k < 64)
    (hinv : ScanInv bm n (64 * i + (bit + k)) nfound) : used bm (64 * i + (bit + k)) = false := by
  rw [used_word bm i _ hlt]
  by_contra hused
  have hset := horderly.packed i hi (bit + k) hlt hinv.noRun (by simpa using hused)
  rcases eq_zero_or_pos k with rfl | hpos
  · exact hused hclear
  · rw [hset bit (by omega)] at hclear
    exact absurd hclear (by decide)

theorem pass_clear (horderly : Orderly bm n) (hi : i < maxBitmaskData)
    (hclear : (bm i).getLsbD bit = false) (hinv : ScanInv bm n (64 * i + bit) nfound) {k : Nat}
    (hlt : bit + k ≤ 64) (hmiss : nfound + k < n) : ScanInv bm n (64 * i + (bit + k)) (nfound + k) := by
  induction k with
  | zero => exact hinv
  | succ k ih =>
    have hbefore := ih (by omega) (by omega)
    exact hbefore.step_clear (clear_after horderly hi hclear (by omega) hbefore) (by omega)

theorem zero_of_full (hinv : ScanInv bm n (64 * i) nfound) (hbefore : ∀ j < i, bm j = fullWord) : nfound = 0 := by
  by_contra hpos
  have hbound := hinv.bound
  have hlast := hinv.clear (64 * (i - 1) + 63) (by omega) (by omega)
  rw [used_of_full (hbefore (i - 1) (by omega)) 63 (by decide)] at hlast
  exact absurd hlast (by decide)

end ScanInv

/-- The argument `int pages` of a request for `n` pages, negative if larger than any bitmap. -/
def Requests (pages : Int) (n : Nat) : Prop := pages = n ∨ (pages < 0 ∧ maxPages < n)

theorem requests_toInt (pages : BitVec 32) : Requests pages.toInt pages.toNat := by
  rw [Requests, toInt_eq_toNat_cond]
  simp only [maxPages, maxBitmaskData]
  split <;> omega

theorem findFreePagesFrom_spec {n : Nat} (hpages : Requests pages n) (horderly : Orderly bm n) {nfound : Nat}
    (hleft : i + left = maxBitmaskData) (hinv : ScanInv bm n (64 * i) nfound) :
    ∃ start, findFreePagesFrom bm pages left i nfound = some start ∧
      (start = 0 ∨ (start + n ≤ maxPages ∧ ∀ k < n, used bm (start + k) = false)) := by
  induction left generalizing i nfound with
  | zero => exact ⟨0, rfl, Or.inl rfl⟩
  | succ left ih =>
    by_cases hfull : bm i = fullWord
    · have hbefore := horderly.fullFirst i (by omega) hinv.noRun hfull
      have hleft' : left ≠ 0 := by
        rintro rfl
        obtain ⟨j, hj, hne⟩ := horderly.room
        rcases Nat.eq_or_lt_of_le (show j ≤ i by omega) with rfl | hlt
        · exact hne hfull
        · exact hne (hbefore j hlt)
      obtain rfl := hinv.zero_of_full hbefore
      rw [findFreePagesFrom, if_pos hfull, if_neg hleft']
      exact ih (by omega) (hinv.pass_used fun lower (hlower : lower < 64) => used_of_full hfull lower hlower)
    · have hi : i < maxBitmaskData := by omega
      obtain ⟨bit, hbit, hclear, hset⟩ := exists_lowest_clear_of_ne_full hfull
      have hword : ScanInv bm n (64 * i + bit) (carried bit nfound) :=
        hinv.pass_used fun lower hlower => by
          rw [used_word bm i lower (by omega)]
          exact hset lower hlower
      have hlt := hword.nfound_lt
      have hbound := hword.bound
      have hmax : 64 * (i + 1) ≤ maxPages := by
        simp only [maxPages]
        omega
      rw [findFreePagesFrom, if_neg hfull, scanWord_eq hbit hclear hset]
      by_cases hin : (carried bit nfound : Int) < pages ∧
          pages ≤ carried bit nfound + (64 - bit : Nat)
      · obtain rfl : pages = n := by
          rcases hpages with heq | ⟨hneg, _⟩
          · exact heq
          · omega
        obtain ⟨k, rfl⟩ : ∃ k, n = carried bit nfound + k + 1 := ⟨n - carried bit nfound - 1, by omega⟩
        have hend := hword.pass_clear horderly hi hclear (k := k) (by omega) (by omega)
        have hlast := ScanInv.clear_after horderly hi hclear (by omega) hend
        simp only [if_pos hin, Int.toNat_natCast]
        refine ⟨_, rfl, Or.inr ⟨by omega, fun m hm => ?_⟩⟩
        rcases Nat.eq_or_lt_of_le (Nat.le_of_lt_succ hm) with rfl | hless
        · rwa [show i * 64 + (bit + (carried bit nfound + k + 1 - carried bit nfound) - 1) + 1 -
            (carried bit nfound + k + 1) + (carried bit nfound + k) = 64 * i + (bit + k) by omega]
        · exact hend.clear _ (by omega) (by omega)
      · have hmiss : carried bit nfound + (64 - bit) < n := by
          rcases hpages with heq | ⟨_, hhuge⟩ <;> omega
        have hend := hword.pass_clear horderly hi hclear (k := 64 - bit) (by omega) hmiss
        rw [show 64 * i + (bit + (64 - bit)) = 64 * (i + 1) by omega] at hend
        simp only [if_neg hin]
        exact ih (by omega) hend

theorem findFreePages_spec {pages : BitVec 32} (hpages : 1 ≤ pages.toNat) (horderly : Orderly bm pages.toNat) :
    ∃ start, findFreePages bm pages = some start ∧
      (start = 0 ∨ (start + pages.toNat ≤ maxPages ∧
        ∀ k < pages.toNat, used bm (start + k) = false)) :=
  findFreePagesFrom_spec (requests_toInt pages) horderly (zero_add _) (scanInv_zero bm hpages)

end Kairax.Pmm
