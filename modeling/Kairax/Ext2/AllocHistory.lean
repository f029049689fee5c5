import Kairax.Ext2.Alloc

/-!
# Allocation histories of a volume

A history takes and returns blocks and inode numbers, and records which are held. The blocks of the bitmaps have to
stay marked used: otherwise `ext2_alloc_block` hands one out and zeroes it, and the counters no longer agree with it.
-/

namespace Kairax.Ext2

open Lib List Function

inductive AllocCall
  | allocBlock
  | freeBlock (b : Nat)
  | allocInode
  | releaseInode (n : Nat)

structure Ledger where
  inst : Inst
  held : Resource → List Nat

def Resource.index : Resource → Nat → Nat
  | block, b => b
  | inode, n => n - 1

namespace Ledger

def grant (s : Ledger) (inst : Inst) (r : Resource) (num : Nat) : Ledger :=
  ⟨inst, update s.held r (num :: s.held r)⟩

def drop (s : Ledger) (inst : Inst) (r : Resource) (num : Nat) : Ledger :=
  ⟨inst, update s.held r ((s.held r).filter (· ≠ num))⟩

section Held

variable (s : Ledger) (inst : Inst) (r : Resource) (num : Nat)

theorem held_grant_same : (s.grant inst r num).held r = num :: s.held r := update_self ..

theorem held_grant_of_ne {r' : Resource} (hne : r' ≠ r) : (s.grant inst r num).held r' = s.held r' :=
  update_of_ne hne ..

theorem held_drop_same : (s.drop inst r num).held r = (s.held r).filter (· ≠ num) := update_self ..

theorem held_drop_of_ne {r' : Resource} (hne : r' ≠ r) : (s.drop inst r num).held r' = s.held r' :=
  update_of_ne hne ..

end Held

def call (s : Ledger) : AllocCall → Option (Option (Resource × Nat) × Ledger)
  | .allocBlock =>
    (Ext2.allocBlock s.inst).map fun (b, inst) =>
      if b = 0 then (none, { s with inst }) else (some (.block, b), s.grant inst .block b)
  | .freeBlock b => (Ext2.freeBlock s.inst b).map fun inst => (none, s.drop inst .block b)
  | .allocInode =>
    match Ext2.allocInode s.inst with
    | (none, inst) => some (none, { s with inst })
    | (some n, inst) => some (some (.inode, n), s.grant inst .inode n)
  | .releaseInode n => (Ext2.releaseInode s.inst n).map fun inst => (none, s.drop inst .inode n)

def step (s : Ledger) (c : AllocCall) : Option Ledger := (s.call c).map Prod.snd

def Legal (s : Ledger) : AllocCall → Prop
  | .freeBlock b =>
    b < s.inst.totalGroups * s.inst.blocksPerGroup ∧ s.inst.geo.inUse s.inst.disk .block b = true
  | .releaseInode n =>
    1 ≤ n ∧ n ≤ s.inst.totalGroups * s.inst.inodesPerGroup ∧ s.inst.geo.inUse s.inst.disk .inode (n - 1) = true
  | _ => True

def SparesBitmaps (s : Ledger) : AllocCall → Prop
  | .freeBlock b => ∀ r, ∀ g < s.inst.totalGroups, s.inst.geo.bitmap r g ≠ b
  | _ => True

end Ledger

/-- The counters of the groups and of the superblock are the numbers of clear bits. -/
def Tallied (inst : Inst) : Prop :=
  (∀ r, ∀ g < inst.totalGroups, inst.groupFree r g = inst.geo.free inst.disk r g) ∧
    ∀ r, inst.superFree r = ∑ g ∈ Finset.range inst.totalGroups, inst.geo.free inst.disk r g

def MarksBitmaps (inst : Inst) : Prop :=
  ∀ r, ∀ g < inst.totalGroups, inst.geo.inUse inst.disk .block (inst.geo.bitmap r g) = true

/-- The number that a call hands out was free and is used, and nobody holds it. -/
def Granted (s u : Ledger) (r : Resource) (num : Nat) : Prop :=
  s.inst.geo.inUse s.inst.disk r (r.index num) = false ∧ u.inst.geo.inUse u.inst.disk r (r.index num) = true ∧
    num ∉ s.held r

instance {p : Resource → Prop} [Decidable (p .block)] [Decidable (p .inode)] : Decidable (∀ r, p r) :=
  decidable_of_iff (p .block ∧ p .inode)
    ⟨fun h r => match r with | .block => h.1 | .inode => h.2, fun h => ⟨h .block, h .inode⟩⟩

instance (inst : Inst) : Decidable (Tallied inst) := inferInstanceAs (Decidable (_ ∧ _))

instance (inst : Inst) : Decidable (MarksBitmaps inst) := by
  unfold MarksBitmaps
  infer_instance

instance (s : Ledger) (c : AllocCall) : Decidable (s.Legal c) := by
  cases c <;> (unfold Ledger.Legal; infer_instance)

instance (s : Ledger) (c : AllocCall) : Decidable (s.SparesBitmaps c) := by
  cases c <;> (unfold Ledger.SparesBitmaps; infer_instance)

structure LedgerInv (G : Geo) (s : Ledger) : Prop where
  counted : Counted G s.inst
  nodup : ∀ r, (s.held r).Nodup
  used : ∀ r, ∀ num ∈ s.held r,
    r.index num < G.totalGroups * G.perGroup r ∧ G.inUse s.inst.disk r (r.index num) = true
  positive : ∀ n ∈ s.held .inode, 0 < n

section Steps

variable {G : Geo} {s : Ledger} {inst' : Inst} {r : Resource} {num : Nat}

theorem tallied_iff {inst : Inst} (hgeo : inst.geo = G) : Tallied inst ∧ MarksBitmaps inst ↔ Counted G inst := by
  subst hgeo
  constructor
  · intro ⟨htallied, hmarked⟩
    exact ⟨rfl, htallied.1, htallied.2, hmarked⟩
  · intro hcount
    exact ⟨⟨hcount.group, hcount.super⟩, hcount.kept⟩

theorem LedgerInv.not_held (hinv : LedgerInv G s) (hfree : G.inUse s.inst.disk r (r.index num) = false) :
    num ∉ s.held r := by
  intro hheld
  have hused := (hinv.used r num hheld).2
  rw [hfree] at hused
  cases hused

theorem LedgerInv.grant (hinv : LedgerInv G s) (hcount : Counted G inst')
    (hlt : r.index num < G.totalGroups * G.perGroup r) (hpos : r = .inode → 0 < num)
    (hfree : G.inUse s.inst.disk r (r.index num) = false) (huse : ∀ r' x, x < G.totalGroups * G.perGroup r' →
      G.inUse inst'.disk r' x = if r' = r ∧ x = r.index num then true else G.inUse s.inst.disk r' x) :
    LedgerInv G (s.grant inst' r num) := by
  have hheld (r' : Resource) (m : Nat) (hm : m ∈ (s.grant inst' r num).held r') :
      m ∈ s.held r' ∨ r' = r ∧ m = num := by
    by_cases hr : r' = r
    · subst hr
      rw [Ledger.held_grant_same, mem_cons] at hm
      exact hm.symm.imp_right fun hm => ⟨rfl, hm⟩
    · rw [Ledger.held_grant_of_ne _ _ _ _ hr] at hm
      exact .inl hm
  refine ⟨hcount, fun r' => ?_, fun r' m hm => ?_, fun n hn => ?_⟩
  · by_cases hr : r' = r
    · subst hr
      rw [Ledger.held_grant_same, nodup_cons]
      exact ⟨hinv.not_held hfree, hinv.nodup r'⟩
    · rw [Ledger.held_grant_of_ne _ _ _ _ hr]
      exact hinv.nodup r'
  · cases hheld r' m hm with
    | inl hold =>
      obtain ⟨hlt', hused⟩ := hinv.used r' m hold
      refine ⟨hlt', ?_⟩
      rw [Ledger.grant, huse r' _ hlt', hused, ite_self]
    | inr hnew =>
      obtain ⟨rfl, rfl⟩ := hnew
      exact ⟨hlt, by rw [Ledger.grant, huse r' _ hlt, if_pos ⟨rfl, rfl⟩]⟩
  · cases hheld .inode n hn with
    | inl hold => exact hinv.positive n hold
    | inr hnew => exact hnew.2 ▸ hpos hnew.1.symm

theorem LedgerInv.drop (hinv : LedgerInv G s) (hcount : Counted G inst') (hpos : r = .inode → 0 < num)
    (huse : ∀ r' x, x < G.totalGroups * G.perGroup r' →
      G.inUse inst'.disk r' x = if r' = r ∧ x = r.index num then false else G.inUse s.inst.disk r' x) :
    LedgerInv G (s.drop inst' r num) := by
  have hheld (r' : Resource) (m : Nat) (hm : m ∈ (s.drop inst' r num).held r') :
      m ∈ s.held r' ∧ (r' = r → m ≠ num) := by
    by_cases hr : r' = r
    · subst hr
      rw [Ledger.held_drop_same, mem_filter] at hm
      exact ⟨hm.1, fun _ => by simpa using hm.2⟩
    · rw [Ledger.held_drop_of_ne _ _ _ _ hr] at hm
      exact ⟨hm, fun h => absurd h hr⟩
  refine ⟨hcount, fun r' => ?_, fun r' m hm => ?_, fun n hn => hinv.positive n (hheld .inode n hn).1⟩
  · by_cases hr : r' = r
    · subst hr
      rw [Ledger.held_drop_same]
      exact (hinv.nodup r').filter _
    · rw [Ledger.held_drop_of_ne _ _ _ _ hr]
      exact hinv.nodup r'
  · obtain ⟨hold, hne⟩ := hheld r' m hm
    obtain ⟨hlt, hused⟩ := hinv.used r' m hold
    refine ⟨hlt, ?_⟩
    rw [Ledger.drop, huse r' _ hlt, if_neg, hused]
    intro hsame
    obtain ⟨rfl, hindex⟩ := hsame
    apply hne rfl
    cases r' with
    | block => exact hindex
    | inode =>
      have hm := hinv.positive m hold
      have hnum := hpos rfl
      change m - 1 = num - 1 at hindex
      omega

theorem LedgerInv.call (hvalid : G.Valid) (hinv : LedgerInv G s) (c : AllocCall) (hlegal : s.Legal c)
    (hspares : s.SparesBitmaps c) :
    ∃ out u, s.call c = some (out, u) ∧ LedgerInv G u ∧ ∀ r num, out = some (r, num) → Granted s u r num := by
  have hcount := hinv.counted
  have hgeo := hcount.geo
  cases c with
  | allocBlock =>
    obtain ⟨b, inst', halloc, hcase⟩ := allocBlock_spec hvalid hcount
    rw [Ledger.call, halloc]
    cases hcase with
    | inl hnone =>
      obtain ⟨rfl, rfl⟩ := hnone
      refine ⟨none, _, rfl, { hinv with counted := ⟨hgeo, hcount.group, hcount.super, hcount.kept⟩ },
        fun r num h => by cases h⟩
    | inr htaken =>
      have hinv' : LedgerInv G (s.grant inst' .block b) :=
        hinv.grant (htaken.counted hvalid hcount) htaken.lt (fun h => by cases h) htaken.fresh
          fun r' x hx => htaken.inUse hvalid hx
      refine ⟨_, _, congrArg some (if_neg htaken.ne_zero), hinv', fun r num hout => ?_⟩
      cases hout
      refine ⟨hgeo ▸ htaken.fresh, ?_, hinv.not_held htaken.fresh⟩
      rw [hinv'.counted.geo]
      exact (hinv'.used .block b (by simp [Ledger.grant])).2
  | freeBlock b =>
    obtain ⟨hlt, hused⟩ := hlegal
    subst hgeo
    obtain ⟨inst', hfree, htog, -⟩ := freeBlock_spec hvalid rfl hlt
    have hcount' := hcount.toggle hvalid (r := .block) hlt (v := false) hused htog fun _ _ => hspares
    exact ⟨none, _, by rw [Ledger.call, hfree]; rfl, hinv.drop hcount' (fun h => by cases h) fun r' x hx =>
      Toggled.inUse htog hvalid hx, fun r num h => by cases h⟩
  | allocInode =>
    cases allocInode_spec hvalid hcount with
    | inl hnone => exact ⟨none, s, by rw [Ledger.call, hnone.1], hinv, fun r num h => by cases h⟩
    | inr hsome =>
      obtain ⟨x, inst', halloc, htaken⟩ := hsome
      have hinv' : LedgerInv G (s.grant inst' .inode (x + 1)) :=
        hinv.grant (htaken.counted hvalid hcount) htaken.lt (fun _ => Nat.succ_pos x) htaken.fresh
          fun r' y hy => htaken.inUse hvalid hy
      refine ⟨_, _, by rw [Ledger.call, halloc], hinv', fun r num hout => ?_⟩
      cases hout
      refine ⟨hgeo ▸ htaken.fresh, ?_, hinv.not_held htaken.fresh⟩
      rw [hinv'.counted.geo]
      exact (hinv'.used .inode (x + 1) (by simp [Ledger.grant])).2
  | releaseInode n =>
    obtain ⟨hpos, hle, hused⟩ := hlegal
    subst hgeo
    obtain ⟨x, rfl⟩ : ∃ x, n = x + 1 := ⟨n - 1, by omega⟩
    have hlt : x < s.inst.geo.totalGroups * s.inst.geo.inodesPerGroup := hle
    obtain ⟨inst', hrelease, htog⟩ := releaseInode_spec hvalid rfl hlt
    have hcount' := hcount.toggle hvalid (r := .inode) hlt (v := false) hused htog fun _ h => by cases h
    exact ⟨none, _, by rw [Ledger.call, hrelease]; rfl, hinv.drop hcount' (fun _ => Nat.succ_pos x) fun r' y hy =>
      Toggled.inUse htog hvalid hy, fun r num h => by cases h⟩

end Steps

/-- Every history that spares the bitmaps keeps the counters right, holds no number twice, and its next call is defined
and hands out only a free number. -/
theorem accounts_kept {s t : Ledger} {calls : List AllocCall} (hvalid : s.inst.geo.Valid) (htallied : Tallied s.inst)
    (hmarked : MarksBitmaps s.inst) (hempty : ∀ r, s.held r = [])
    (hrun : Run Ledger.step (fun s c => s.Legal c ∧ s.SparesBitmaps c) s calls t) :
    Tallied t.inst ∧ (∀ r, (t.held r).Nodup) ∧
      ∀ c, t.Legal c → t.SparesBitmaps c →
        ∃ out u, t.call c = some (out, u) ∧ ∀ r num, out = some (r, num) → Granted t u r num := by
  have hinit : LedgerInv s.inst.geo s := by
    refine ⟨(tallied_iff rfl).mp ⟨htallied, hmarked⟩, fun r => ?_, fun r num hnum => ?_, fun n hn => ?_⟩
    · rw [hempty r]
      exact nodup_nil
    · rw [hempty r] at hnum
      cases hnum
    · rw [hempty .inode] at hn
      cases hn
  have hinv : LedgerInv s.inst.geo t := by
    apply hrun.invariant (LedgerInv s.inst.geo) _ hinit
    intro s₁ c s₂ hinv hguard hstep
    obtain ⟨out, u, hcall, hinv', -⟩ := hinv.call hvalid c hguard.1 hguard.2
    rw [Ledger.step, hcall] at hstep
    exact Option.some.inj hstep ▸ hinv'
  refine ⟨((tallied_iff hinv.counted.geo).mpr hinv.counted).1, hinv.nodup, fun c hlegal hspares => ?_⟩
  obtain ⟨out, u, hcall, -, hgranted⟩ := hinv.call hvalid c hlegal hspares
  exact ⟨out, u, hcall, hgranted⟩

/-- A packed structure with some of its fields given by offset, length and value. -/
def packed (fields : List (Nat × Nat × Nat)) : Buf :=
  fields.foldr (fun (o, len, x) buf => writeLE buf o len x) fun _ => 0

/-- A volume of one group with 32 blocks of 1 KiB and 16 inodes. -/
def smallVolume (blockBits freeBlocks inodeBits freeInodes : Nat) : Inst where
  disk b := if b = 3 then packed [(0, 4, blockBits)] else if b = 4 then packed [(0, 4, inodeBits)] else fun _ => 0
  superblock := packed [(12, 4, freeBlocks), (16, 4, freeInodes), (32, 4, 32), (40, 4, 16), (88, 2, 128)]
  bgds := packed [(0, 4, 3), (4, 4, 4), (8, 4, 5), (12, 2, freeBlocks), (14, 2, freeInodes)]
  blockSize := 1024
  totalGroups := 1
  bgdStartBlock := 2
  bgdsBlocks := 1
  fileSize64bitFlag := false
  exhausted := false

section SmallVolume

variable (blockBits freeBlocks inodeBits freeInodes : Nat)

theorem smallVolume_perGroup (r : Resource) :
    (smallVolume blockBits freeBlocks inodeBits freeInodes).geo.perGroup r = if r = .block then 32 else 16 := by
  cases r <;> rfl

theorem smallVolume_bitmap (r : Resource) :
    (smallVolume blockBits freeBlocks inodeBits freeInodes).geo.bitmap r 0 = if r = .block then 3 else 4 := by
  cases r <;> rfl

theorem smallVolume_valid : (smallVolume blockBits freeBlocks inodeBits freeInodes).geo.Valid := by
  have hblocks : (smallVolume blockBits freeBlocks inodeBits freeInodes).geo.blocksPerGroup = 32 :=
    smallVolume_perGroup _ _ _ _ .block
  have hinodes : (smallVolume blockBits freeBlocks inodeBits freeInodes).geo.inodesPerGroup = 16 :=
    smallVolume_perGroup _ _ _ _ .inode
  have hgroups : (smallVolume blockBits freeBlocks inodeBits freeInodes).geo.totalGroups = 1 := rfl
  have hsize : (smallVolume blockBits freeBlocks inodeBits freeInodes).geo.blockSize = 1024 := rfl
  refine ⟨fun r => ?_, fun r => ?_, fun r => ?_, ?_, ?_, ?_, fun {r r' g g'} hg hg' => ?_, fun {r g} hg => ?_,
    fun {r g} hg => ?_⟩
  · rw [smallVolume_perGroup]
    cases r <;> decide
  · rw [smallVolume_perGroup, hsize]
    cases r <;> decide
  · rw [smallVolume_perGroup]
    cases r <;> decide
  · rw [hgroups, hblocks]
    decide
  · rw [hgroups, hinodes]
    decide
  · rw [hsize]
    decide
  · obtain rfl := Nat.lt_one_iff.mp hg
    obtain rfl := Nat.lt_one_iff.mp hg'
    rw [smallVolume_bitmap, smallVolume_bitmap]
    cases r <;> cases r' <;> decide
  · obtain rfl := Nat.lt_one_iff.mp hg
    rw [smallVolume_bitmap, Geo.Header, hsize]
    change ¬ (_ ∨ 2 ≤ _ ∧ _ < 2 + 1)
    cases r <;> decide
  · obtain rfl := Nat.lt_one_iff.mp hg
    rw [smallVolume_bitmap, hgroups, hblocks]
    cases r <;> decide

end SmallVolume

theorem accounts_kept_fiveCalls :
    ∃ t, Run Ledger.step (fun s c => s.Legal c ∧ s.SparesBitmaps c) ⟨smallVolume 0xff 24 0x7ff 5, fun _ => []⟩
      [.allocBlock, .allocInode, .freeBlock 8, .allocBlock, .releaseInode 12] t ∧ t.held .block = [8] ∧
      Tallied t.inst := by
  exact exists_run_of_replay_imp (fun t => t.held .block = [8]) (by decide +kernel) fun t hrun hheld =>
    ⟨hheld, (accounts_kept (smallVolume_valid _ _ _ _) (by decide) (by decide +kernel) (fun _ => rfl) hrun).1⟩

/-- A volume that marks its block bitmap free, or releases it, loses count. -/
theorem accounts_lost :
    (Tallied (smallVolume 0xf7 25 0x7ff 5) ∧
      ∃ t, Run Ledger.step Ledger.Legal ⟨smallVolume 0xf7 25 0x7ff 5, fun _ => []⟩ [.allocBlock] t ∧
        ¬ Tallied t.inst) ∧
    Tallied (smallVolume 0xff 24 0x7ff 5) ∧ MarksBitmaps (smallVolume 0xff 24 0x7ff 5) ∧
      ∃ t, Run Ledger.step Ledger.Legal ⟨smallVolume 0xff 24 0x7ff 5, fun _ => []⟩ [.freeBlock 3, .allocBlock] t ∧
        ¬ Tallied t.inst :=
  ⟨⟨by decide +kernel, exists_run_of_replay (by decide +kernel)⟩, by decide +kernel, by decide,
    exists_run_of_replay (by decide)⟩

end Kairax.Ext2
