import Kairax.Paging.Kept

/-!
# Tearing a page table down

`destroy_page_table` and the two calls of `kernel_vmm.c` around it. A user table starts as a copy of the kernel's
root; the teardown goes down the entries that are present and user-accessible, and gives back each table and page it
meets. The calls before it must stay clear of the entries shared with the kernel, and the frames of the bits that
`P2V` sets.
-/

namespace Kairax.Paging

open Lib List Option Function Radix

/-- The loop `for (int i = 0; i < 512; i ++)`. -/
def allIndices : List (BitVec 9) := (range 512).map (BitVec.ofNat 9)

def destroyPageTable (mask : Word) : Nat → Machine → Word → Machine
  | 0, m, entries => pmmFreePage m (v2p entries)
  | level + 1, m, entries =>
    let m := allIndices.foldl (fun m i =>
      let entry := m.mem entries i
      if entry &&& mask = mask then destroyPageTable mask level m (p2v (getPageFrame entry)) else m) m
    pmmFreePage m (v2p entries)

/-- The mask of `arch_destroy_vm_table`. -/
def userMask : Word := pagePresent ||| pageUserAccessible

def archCloneKernelVmTable (m : Machine) (rootPml4 : Word) : Word × Machine :=
  let (result, m) := newPageTable m
  if result = null then (null, m) else (result, m.setPage result (m.mem rootPml4))

def archDestroyVmTable (m : Machine) (root : Word) : Machine := destroyPageTable userMask 4 m root

def userChild (entry : Word) : Option Word :=
  if entry &&& userMask = userMask then some (p2v (getPageFrame entry)) else none

variable {entry f kernel root va : Word} {q : List (BitVec 9)}

theorem userChild_of_user (huser : entry &&& userMask = userMask) :
    userChild entry = some (p2v (getPageFrame entry)) := if_pos huser

theorem mem_allIndices (i : BitVec 9) : i ∈ allIndices := by
  rw [allIndices, List.mem_map]
  exact ⟨i.toNat, List.mem_range.mpr i.isLt, BitVec.eq_of_toNat_eq (by simp)⟩

theorem nodup_allIndices : allIndices.Nodup := by
  apply nodup_range.map_on
  intro i hi j hj heq
  rw [mem_range] at hi hj
  have hnat := congrArg BitVec.toNat heq
  rwa [BitVec.toNat_ofNat, BitVec.toNat_ofNat, Nat.mod_eq_of_lt hi, Nat.mod_eq_of_lt hj] at hnat

def Machine.free (m : Machine) (pages : List Word) : Machine :=
  { m with freed := (pages.map v2p).reverse ++ m.freed }

theorem free_nil (m : Machine) : m.free [] = m := rfl

theorem free_append (m : Machine) (pages pages' : List Word) :
    m.free (pages ++ pages') = (m.free pages).free pages' := by
  rw [Machine.free, Machine.free, Machine.free, map_append, reverse_append, append_assoc]

theorem destroyPageTable_eq (level : Nat) (m : Machine) (entries : Word) :
    destroyPageTable userMask level m entries = m.free (nodes userChild allIndices m.mem level entries) := by
  induction level generalizing m entries with
  | zero => rfl
  | succ level ih =>
    have hloop (is : List (BitVec 9)) (m : Machine) :
        is.foldl (fun m i =>
            let entry := m.mem entries i
            if entry &&& userMask = userMask then destroyPageTable userMask level m (p2v (getPageFrame entry))
            else m) m =
          m.free (is.flatMap fun i =>
            (userChild (m.mem entries i)).elim [] (nodes userChild allIndices m.mem level)) := by
      induction is generalizing m with
      | nil => rfl
      | cons i is ihis =>
        rw [foldl_cons, flatMap_cons, free_append, ihis]
        by_cases huser : m.mem entries i &&& userMask = userMask
        · rw [userChild_of_user huser]
          simp only [if_pos huser, ih]
          rfl
        · have hnone : userChild (m.mem entries i) = none := if_neg huser
          rw [hnone, elim_none, free_nil]
          simp only [if_neg huser]
    rw [nodes, free_append, ← hloop allIndices m]
    rfl

theorem userMask_present (huser : entry &&& userMask = userMask) : ¬ entry &&& pagePresent = 0 := by
  intro habsent
  have hbit := congrArg (fun x => x &&& pagePresent) huser
  simp only [BitVec.and_assoc] at hbit
  rw [show userMask &&& pagePresent = pagePresent by decide, habsent] at hbit
  exact absurd hbit (by decide)

theorem userChild_of_absent (habsent : entry &&& pagePresent = 0) : userChild entry = none :=
  if_neg fun huser => userMask_present huser habsent

def Direct (f : Word) : Prop := v2p (p2v f) = f

theorem LowFrame.direct (hlow : LowFrame f) : Direct f := v2p_p2v hlow.2

theorem Direct.inj {f' : Word} (hf : Direct f) (hf' : Direct f') (heq : p2v f = p2v f') : f = f' := by
  rw [← hf, heq, hf']

def indices (n : BitVec 36) : List (BitVec 9) :=
  [numberIndex 3 n, numberIndex 2 n, numberIndex 1 n, numberIndex 0 n]

theorem indices_pageNumber (va : Word) : indices (pageNumber va) = tablePath va ++ [level1Index va] := by
  obtain ⟨h4, h3, h2, h1⟩ := indices_eq va
  rw [tablePath, h4, h3, h2, h1]
  rfl

theorem indices_injective {n n' : BitVec 36} (heq : indices n = indices n') : n = n' := by
  simp only [indices, cons.injEq, and_true] at heq
  apply pageNumber_ext
  intro level hlevel
  match level, hlevel with
  | 0, _ => exact heq.2.2.2
  | 1, _ => exact heq.2.2.1
  | 2, _ => exact heq.2.1
  | 3, _ => exact heq.1

/-- A copy of the kernel's root, the tables `taken` with the user flag all the way, and below them the pages `map`. -/
structure UserTree (kernel : BitVec 9 → Word) (mem : Word → BitVec 9 → Word) (root : Word) (taken : List Word)
    (map : BitVec 36 → Option Word) : Prop where
  tree : Radix.Separated child mem root 3
  separated : Radix.Separated userChild mem root 4
  shared : ∀ i, ¬ kernel i &&& pagePresent = 0 → mem root i = kernel i
  user : ∀ path t i, path.length ≤ 3 → Radix.walk userChild mem root path = some t →
    (path = [] → kernel i &&& pagePresent = 0) → ¬ mem t i &&& pagePresent = 0 →
    mem t i &&& userMask = userMask ∧ (path.length ≤ 2 → mem t i &&& pageHuge = 0)
  tables : ∀ q t, q.length ≤ 3 → Radix.walk userChild mem root q = some t → ∃ f ∈ taken, t = p2v f
  taken : ∀ f ∈ taken, LowFrame f ∧ ∃ q, q.length ≤ 3 ∧ Radix.walk userChild mem root q = some (p2v f)
  pages : ∀ q t, q.length = 4 → Radix.walk userChild mem root q = some t →
    ∃ n f, map n = some f ∧ q = indices n ∧ t = p2v f
  mapped : ∀ n f, map n = some f → Direct f ∧ Radix.walk userChild mem root (indices n) = some (p2v f)

section UserTree

variable {kernel : BitVec 9 → Word} {m : Machine} {taken : List Word} {map : BitVec 36 → Option Word}

theorem UserTree.teardown (htree : UserTree kernel m.mem root taken map) :
    ∃ fs, (archDestroyVmTable m root).freed = fs ++ m.freed ∧ fs.Nodup ∧
      ∀ f, f ∈ fs ↔ f ∈ taken ∨ ∃ n, map n = some f := by
  refine ⟨((nodes userChild allIndices m.mem 4 root).map v2p).reverse, ?_, ?_, fun f => ?_⟩
  · rw [archDestroyVmTable, destroyPageTable_eq]
    rfl
  all_goals
    have hnode (t : Word) (ht : t ∈ nodes userChild allIndices m.mem 4 root) :
        ∃ f, (f ∈ taken ∨ ∃ n, map n = some f) ∧ Direct f ∧ t = p2v f := by
      obtain ⟨q, hq, hwalk⟩ := (mem_nodes mem_allIndices 4 root t).mp ht
      by_cases hlen : q.length ≤ 3
      · obtain ⟨f, hf, rfl⟩ := htree.tables q t hlen hwalk
        exact ⟨f, .inl hf, (htree.taken f hf).1.direct, rfl⟩
      · obtain ⟨n, f, hn, -, rfl⟩ := htree.pages q t (by omega) hwalk
        exact ⟨f, .inr ⟨n, hn⟩, (htree.mapped n f hn).1, rfl⟩
  · rw [nodup_reverse]
    apply (nodup_nodes mem_allIndices nodup_allIndices 4 root htree.separated).map_on
    intro t ht t' ht' heq
    obtain ⟨f, -, hf, rfl⟩ := hnode t ht
    obtain ⟨f', -, hf', rfl⟩ := hnode t' ht'
    rw [hf, hf'] at heq
    rw [heq]
  · rw [List.mem_reverse, List.mem_map]
    constructor
    · intro ⟨t, ht, hfree⟩
      obtain ⟨f', hf', hdirect, rfl⟩ := hnode t ht
      rw [hdirect] at hfree
      rwa [← hfree]
    · intro hf
      have hnode' : Direct f ∧ ∃ q, q.length ≤ 4 ∧ walk userChild m.mem root q = some (p2v f) := by
        cases hf with
        | inl htaken =>
          obtain ⟨hlow, q, hq, hwalk⟩ := htree.taken f htaken
          exact ⟨hlow.direct, q, by omega, hwalk⟩
        | inr hmapped =>
          obtain ⟨n, hn⟩ := hmapped
          obtain ⟨hdirect, hwalk⟩ := htree.mapped n f hn
          exact ⟨hdirect, indices n, le_rfl, hwalk⟩
      exact ⟨p2v f, (mem_nodes mem_allIndices 4 root _).mpr hnode'.2, hnode'.1⟩

theorem UserTree.walk (htree : UserTree kernel m.mem root taken map) {t : Word} (hlen : q.length ≤ 3)
    (hown : ∀ i rest, q = i :: rest → kernel i &&& pagePresent = 0) (hwalk : m.walk root q = some t) :
    walk userChild m.mem root q = some t := by
  apply walk_of_child _ hwalk
  intro p i rest t' c hq hp hchild
  obtain ⟨hpresent, -, hc⟩ := child_eq_some hchild
  have hshort : p.length ≤ 3 := by
    rw [hq, length_append] at hlen
    omega
  have hfirst (hp : p = []) : kernel i &&& pagePresent = 0 := hown i rest (by rw [hq, hp, nil_append])
  rw [userChild_of_user (htree.user p t' i hshort hp hfirst hpresent).1, hc]

theorem own_of_start (hown : kernel (level4Index va) &&& pagePresent = 0) (hq : q <+: tablePath va) (i : BitVec 9)
    (rest : List (BitVec 9)) (hcons : q = i :: rest) : kernel i &&& pagePresent = 0 := by
  obtain ⟨suffix, hsplit⟩ := hq
  rw [hcons, tablePath, cons_append, cons.injEq] at hsplit
  rw [hsplit.1]
  exact hown

section

variable (htree : UserTree kernel m.mem root taken map)
include htree

theorem UserTree.walk_prefix (hown : kernel (level4Index va) &&& pagePresent = 0) {t : Word} (hq : q <+: tablePath va)
    (hwalk : m.walk root q = some t) : Radix.walk userChild m.mem root q = some t :=
  htree.walk hq.length_le (own_of_start hown hq) hwalk

theorem UserTree.flat (hown : kernel (level4Index va) &&& pagePresent = 0) : FlatAlong m root (tablePath va) := by
  intro path t i hpre hwalk hpresent
  have hpath : path <+: tablePath va := (prefix_append path [i]).trans hpre
  have hlen : path.length + 1 ≤ 3 := by
    have hle := hpre.length_le
    rwa [length_append, length_singleton] at hle
  have hfirst (hnil : path = []) : kernel i &&& pagePresent = 0 :=
    own_of_start hown hpre i [] (by rw [hnil, nil_append])
  exact (htree.user path t i (by omega) (htree.walk_prefix hown hpath hwalk) hfirst hpresent).2 (by omega)

theorem UserTree.unreached (hdirect : Direct f) (htaken : f ∉ taken)
    (hmap : ∀ n, map n ≠ some f) : Radix.Unreached userChild m.mem root 4 (p2v f) := by
  intro q hq hwalk
  by_cases hlen : q.length ≤ 3
  · obtain ⟨f', hf', heq⟩ := htree.tables q _ hlen hwalk
    obtain rfl := hdirect.inj (htree.taken f' hf').1.direct heq
    exact htaken hf'
  · obtain ⟨n, f', hn, -, heq⟩ := htree.pages q _ (by omega) hwalk
    obtain rfl := hdirect.inj (htree.mapped n f' hn).1 heq
    exact hmap n hn

end

section Link

variable {t flags : Word} {path : List (BitVec 9)} {i : BitVec 9} {pool : List Word}

theorem userChild_zero : userChild 0 = none := rfl

theorem UserTree.link (htree : UserTree kernel m.mem root taken map) (hlink : Links m root path t i f flags pool)
    (hown : ∀ j rest, path ++ [i] = j :: rest → kernel j &&& pagePresent = 0)
    (huser : (f ||| flags) &&& userMask = userMask) (hfresh : Radix.Unreached userChild m.mem root 4 (p2v f)) :
    UserTree kernel (m.linkTable t i f flags pool).mem root (taken ++ [f]) map := by
  have hlen := hlink.short
  have hwalk' : Radix.walk userChild m.mem root path = some t := by
    apply htree.walk (by omega) _ hlink.walk
    intro j rest hcons
    exact hown j (rest ++ [i]) (by rw [hcons, cons_append])
  have hfirst (hnil : path = []) : kernel i &&& pagePresent = 0 := hown i [] (by rw [hnil, nil_append])
  have hempty : userChild (m.mem t i) = none := by
    apply userChild_of_absent
    by_contra hpresent
    have hflat := (htree.user path t i (by omega) hwalk' hfirst hpresent).2 hlen
    have hnone := hlink.absent
    rw [child_of_present hpresent hflat] at hnone
    cases hnone
  have hchild : userChild (f ||| flags) = some (p2v f) := by
    rw [userChild_of_user huser, getPageFrame_entry hlink.low.isFrame hlink.flags.noFrame]
  have hlinkable : Radix.Linkable userChild m.mem root 4 path t i (f ||| flags) (p2v f) fun _ => 0 :=
    ⟨htree.separated, hwalk', by omega, hempty, hchild, hfresh, .inr fun _ => userChild_zero⟩
  have hwalks (q : List (BitVec 9)) (hq : q.length ≤ 4) :
      Radix.walk userChild (m.linkTable t i f flags pool).mem root q =
        if q = path ++ [i] then some (p2v f) else Radix.walk userChild m.mem root q := hlinkable.walk_link hq
  have hentry (q : List (BitVec 9)) {t' : Word} (hq : q.length ≤ 4)
      (hold : Radix.walk userChild m.mem root q = some t') (j : BitVec 9) :
      (m.linkTable t i f flags pool).mem t' j = if q = path ∧ j = i then f ||| flags else m.mem t' j :=
    hlinkable.link_apply hold hq j
  constructor
  · exact hlink.treeInv.separated
  · exact hlinkable.separated
  · intro j hj
    rw [hentry [] (Nat.zero_le 4) rfl, if_neg, htree.shared j hj]
    intro ⟨hnil, heq⟩
    rw [heq] at hj
    exact hj (hfirst hnil.symm)
  · intro q t' j hq hnew hown' hpresent
    rw [hwalks q (by omega)] at hnew
    split_ifs at hnew with hplace
    · cases hnew
      rw [hlink.fresh] at hpresent
      exact absurd rfl hpresent
    · rw [hentry q (by omega) hnew] at hpresent ⊢
      split_ifs at hpresent ⊢ with hhere
      · exact ⟨huser, fun _ => tableEntry_noHuge hlink.low hlink.flags⟩
      · exact htree.user q t' j hq hnew hown' hpresent
  · intro q t' hq hnew
    rw [hwalks q (by omega)] at hnew
    split_ifs at hnew with hplace
    · exact ⟨f, mem_append_right _ (mem_singleton_self f), (some.inj hnew).symm⟩
    · obtain ⟨f', hf', ht'⟩ := htree.tables q t' hq hnew
      exact ⟨f', mem_append_left _ hf', ht'⟩
  · intro f' hf'
    cases mem_append.mp hf' with
    | inl hold =>
      obtain ⟨hlow', q, hq, hwalkq⟩ := htree.taken f' hold
      exact ⟨hlow', q, hq, hlinkable.walk_old (by omega) hwalkq⟩
    | inr hlast =>
      rw [mem_singleton.mp hlast]
      have hnew : (path ++ [i]).length ≤ 3 := by
        rw [length_append, length_singleton]
        omega
      exact ⟨hlink.low, path ++ [i], hnew, by rw [hwalks _ (by omega), if_pos rfl]⟩
  · intro q t' hq hnew
    rw [hwalks q (by omega), if_neg] at hnew
    · exact htree.pages q t' hq hnew
    · intro heq
      rw [heq, length_append, length_singleton] at hq
      omega
  · intro n f' hn
    obtain ⟨hdirect, hold⟩ := htree.mapped n f' hn
    exact ⟨hdirect, hlinkable.walk_old le_rfl hold⟩

end Link

section Page

variable {pt frame flags : Word}

section

variable (htree : UserTree kernel m.mem root taken map)
include htree

variable (hown : kernel (level4Index va) &&& pagePresent = 0) (hwalk : m.walk root (tablePath va) = some pt)

include hown hwalk in
theorem UserTree.setLeaf
    {page : Option Word} (htables : Radix.Separated child (m.setEntry pt (level1Index va) entry).mem root 3)
    (hseparated : Radix.Separated userChild (m.setEntry pt (level1Index va) entry).mem root 4)
    (hwalks : ∀ q, q.length ≤ 4 → Radix.walk userChild (m.setEntry pt (level1Index va) entry).mem root q =
      if q = indices (pageNumber va) then page.map p2v else Radix.walk userChild m.mem root q)
    (huser : ¬ entry &&& pagePresent = 0 → entry &&& userMask = userMask) (hdirect : ∀ f, page = some f → Direct f) :
    UserTree kernel (m.setEntry pt (level1Index va) entry).mem root taken (update map (pageNumber va) page) := by
  have hwalk' := htree.walk_prefix hown prefix_rfl hwalk
  have hshort {q : List (BitVec 9)} (hq : q.length ≤ 3) : q ≠ indices (pageNumber va) := by
    intro heq
    rw [heq] at hq
    exact absurd hq (by simp [indices])
  have hentry (q : List (BitVec 9)) {t' : Word} (hq : q.length ≤ 4)
      (hold : Radix.walk userChild m.mem root q = some t') (j : BitVec 9) :
      (m.setEntry pt (level1Index va) entry).mem t' j =
        if q = tablePath va ∧ j = level1Index va then entry else m.mem t' j :=
    write_apply htree.separated hwalk' (by simp [tablePath]) hold hq
  refine ⟨htables, hseparated, ?_, ?_, ?_, ?_, ?_, ?_⟩
  · intro j hj
    rw [hentry [] (Nat.zero_le 4) rfl, if_neg (by simp [tablePath]), htree.shared j hj]
  · intro q t' j hq hnew hown' hpresent
    rw [hwalks q (by omega), if_neg (hshort hq)] at hnew
    rw [hentry q (by omega) hnew] at hpresent ⊢
    split_ifs at hpresent ⊢ with hhere
    · refine ⟨huser hpresent, fun hle => ?_⟩
      rw [hhere.1] at hle
      exact absurd hle (by simp [tablePath])
    · exact htree.user q t' j hq hnew hown' hpresent
  · intro q t' hq hnew
    rw [hwalks q (by omega), if_neg (hshort hq)] at hnew
    exact htree.tables q t' hq hnew
  · intro f hf
    obtain ⟨hlow, q, hq, hold⟩ := htree.taken f hf
    exact ⟨hlow, q, hq, by rw [hwalks q (by omega), if_neg (hshort hq), hold]⟩
  · intro q t' hq hnew
    rw [hwalks q (by omega)] at hnew
    split_ifs at hnew with hplace
    · obtain ⟨f, hf, ht'⟩ := Option.map_eq_some_iff.mp hnew
      exact ⟨pageNumber va, f, (update_self ..).trans hf, hplace, ht'.symm⟩
    · obtain ⟨n, f, hn, hindices, ht'⟩ := htree.pages q t' hq hnew
      refine ⟨n, f, ?_, hindices, ht'⟩
      rw [update_of_ne, hn]
      intro heq
      rw [hindices, heq] at hplace
      exact hplace rfl
  · intro n f hn
    rw [hwalks (indices n) le_rfl]
    by_cases hpage : n = pageNumber va
    · rw [hpage, update_self] at hn
      rw [hpage, if_pos rfl, hn]
      exact ⟨hdirect f hn, rfl⟩
    · rw [update_of_ne hpage] at hn
      rw [if_neg fun heq => hpage (indices_injective heq)]
      exact htree.mapped n f hn

theorem UserTree.page (hinv : TreeInv m root)
    (hown : kernel (level4Index va) &&& pagePresent = 0) (hwalk : m.walk root (tablePath va) = some pt)
    (habsent : m.mem pt (level1Index va) &&& pagePresent = 0) (hframe : IsFrame frame) (hdirect : Direct frame)
    (hflags : getPageFrame flags = 0) (huser : (frame ||| flags) &&& userMask = userMask)
    (htaken : frame ∉ taken) (hmap : ∀ n, map n ≠ some frame) :
    UserTree kernel (m.setEntry pt (level1Index va) (frame ||| flags)).mem root taken
      (update map (pageNumber va) (some frame)) := by
  have hchild : userChild (frame ||| flags) = some (p2v frame) := by
    rw [userChild_of_user huser, getPageFrame_entry hframe hflags]
  have hlinkable : Radix.Linkable userChild m.mem root 4 (tablePath va) pt (level1Index va) (frame ||| flags)
      (p2v frame) (m.mem (p2v frame)) :=
    ⟨htree.separated, htree.walk_prefix hown prefix_rfl hwalk, by simp [tablePath], userChild_of_absent habsent,
      hchild, htree.unreached hdirect htaken hmap, .inl rfl⟩
  have hlink : (m.setEntry pt (level1Index va) (frame ||| flags)).mem =
      Radix.link m.mem pt (level1Index va) (frame ||| flags) (p2v frame) (m.mem (p2v frame)) := by
    rw [Radix.link, update_eq_self]
    rfl
  refine htree.setLeaf hown hwalk (hinv.setEntry hwalk rfl _).separated ?_ (fun q hq => ?_) (fun _ => huser) ?_
  · rw [hlink]
    exact hlinkable.separated
  · rw [hlink, indices_pageNumber]
    exact hlinkable.walk_link hq
  · rintro f ⟨⟩
    exact hdirect

include hown hwalk in
theorem UserTree.unpage :
    UserTree kernel (m.setEntry pt (level1Index va) 0).mem root taken
      (update map (pageNumber va) none) := by
  have hwalk' := htree.walk_prefix hown prefix_rfl hwalk
  refine htree.setLeaf hown hwalk (htree.tree.write_leaf hwalk rfl) (htree.separated.unlink hwalk' rfl userChild_zero)
    (fun q hq => ?_) (fun h => absurd rfl h) nofun
  rw [indices_pageNumber]
  exact Radix.walk_unlink htree.separated hwalk' rfl userChild_zero hq

end

end Page

end UserTree

/-- The tables of a process, the frames taken for tables and the pages that are mapped. -/
structure UserSpace where
  machine : Machine
  taken : List Word
  map : BitVec 36 → Option Word

inductive UserOp
  | map (va frame flags : Word) (supply : List Word)
  | unmap (va : Word)

def UserSpace.step (root : Word) (s : UserSpace) : UserOp → Option UserSpace
  | .map va frame flags supply =>
    let (rc, m) := mapPageMem { s.machine with pool := supply } root va frame flags
    some
      { machine := m
        taken := s.taken ++ (supply.take (supply.length - m.pool.length)).filter (· ≠ 0)
        map := if rc = .ok then Function.update s.map (pageNumber va) (some frame) else s.map }
  | .unmap va =>
    let (rc, m) := unmapPage s.machine root va
    some { s with machine := m, map := if rc = .ok then Function.update s.map (pageNumber va) none else s.map }

/-- A user-accessible mapping of a frame that is not in use, or an unmapping, outside the kernel's entries of the root.
The page allocator returns frames that are not in use. -/
def UserOp.Allowed (kernel : BitVec 9 → Word) (root : Word) (s : UserSpace) : UserOp → Prop
  | .map va frame flags supply =>
    kernel (level4Index va) &&& pagePresent = 0 ∧ flags &&& userMask = userMask ∧ getPageFrame flags = 0 ∧
      IsFrame frame ∧ Direct frame ∧ frame ∉ s.taken ∧ (∀ n, s.map n ≠ some frame) ∧
      supply.Pairwise (fun f f' => f ≠ 0 → f ≠ f') ∧
      ∀ f ∈ supply, f ≠ 0 → LowFrame f ∧ Radix.Unreached child s.machine.mem root 3 (p2v f) ∧ f ≠ frame ∧
        f ∉ s.taken ∧ ∀ n, s.map n ≠ some f
  | .unmap va => kernel (level4Index va) &&& pagePresent = 0

theorem and_userMask_or {x y : Word} (hy : y &&& userMask = userMask) : (x ||| y) &&& userMask = userMask := by
  rw [BitVec.and_or_distrib_right, hy]
  apply BitVec.eq_of_getLsbD_eq
  intro i _
  simp only [BitVec.getLsbD_or, BitVec.getLsbD_and]
  cases userMask.getLsbD i <;> simp

theorem baseFlags_user {flags : Word} (huser : flags &&& userMask = userMask) :
    baseFlags flags &&& userMask = userMask := by
  have haccessible : flags &&& pageUserAccessible = pageUserAccessible := by
    have hbit := congrArg (fun x => x &&& pageUserAccessible) huser
    simp only [BitVec.and_assoc] at hbit
    rwa [show userMask &&& pageUserAccessible = pageUserAccessible by decide] at hbit
  rw [baseFlags, if_pos haccessible]
  decide

section Steps

variable {kernel : BitVec 9 → Word} {s s' : UserSpace}

variable (htree : UserTree kernel s.machine.mem root s.taken s.map)

include htree

theorem step_map {frame flags : Word} {supply : List Word}
    (hallowed : (UserOp.map va frame flags supply).Allowed kernel root s)
    (hstep : s.step root (.map va frame flags supply) = some s') :
    UserTree kernel s'.machine.mem root s'.taken s'.map := by
  obtain ⟨hown, huser, hflags, hframe, hdirect, htaken, hmap, hdistinct, hfresh⟩ := hallowed
  have hinv : TreeInv { s.machine with pool := supply } root :=
    ⟨htree.tree, fun f hf hne => ⟨(hfresh f hf hne).1, (hfresh f hf hne).2.1⟩, hdistinct⟩
  have hflat : FlatAlong { s.machine with pool := supply } root (tablePath va) := htree.flat hown
  -- the tables made so far are the frames that the page allocator has returned so far
  obtain ⟨r, m, hensure, hinv', ⟨used, hused, htree'⟩, hend, -⟩ :=
    ensurePath_spec
      (P := fun m => ∃ used, supply = used ++ m.pool ∧
        UserTree kernel m.mem root (s.taken ++ used.filter (· ≠ 0)) s.map)
      (tableFlags_baseFlags flags) (show (tablePath va).length ≤ 3 by simp [tablePath])
      (fun m path t i hP => by
        obtain ⟨used, -, htree'⟩ := hP
        exact htree'.flat hown path t i)
      (fun m hP hnull => by
        obtain ⟨used, hused, htree'⟩ := hP
        cases hpool : m.pool with
        | nil => exact ⟨used, by rw [hused, hpool]; rfl, htree'⟩
        | cons f pool =>
          rw [hpool, headD_cons] at hnull
          refine ⟨used ++ [f], by rw [hused, hpool]; simp, ?_⟩
          rw [filter_append, hnull, show [(0 : Word)].filter (· ≠ 0) = [] by decide, append_nil]
          exact htree')
      (fun m path t i f pool hlink hP hpre => by
        obtain ⟨used, hused, htree'⟩ := hP
        have hsplit := hdistinct
        rw [hused, hlink.head, pairwise_append] at hsplit
        obtain ⟨hlow, -, -, hold, hunmapped⟩ := hfresh f (by rw [hused, hlink.head]; simp) hlink.ne
        have hnot : f ∉ s.taken ++ used.filter (· ≠ 0) := by
          rw [mem_append, not_or]
          refine ⟨hold, fun hmem => ?_⟩
          exact hsplit.2.2 f (mem_filter.mp hmem).1 f mem_cons_self hlink.ne rfl
        refine ⟨used ++ [f], by rw [hused, hlink.head]; simp [Machine.linkTable], ?_⟩
        rw [filter_append, show [f].filter (· ≠ 0) = [f] from filter_cons_of_pos (decide_eq_true hlink.ne),
          ← append_assoc]
        exact htree'.link hlink (own_of_start hown hpre) (and_userMask_or (baseFlags_user huser))
          (htree'.unreached hlow.direct hnot hunmapped))
      _ [] (tablePath va) root hinv ⟨[], rfl, by simpa using htree⟩ rfl rfl
  have htake : supply.take (supply.length - m.pool.length) = used := by
    rw [hused, length_append, Nat.add_sub_cancel, take_left]
  rw [UserSpace.step, mapPageMem_eq hinv hflat, hensure] at hstep
  cases r with
  | none =>
    cases hstep
    simp only [htake]
    exact htree'
  | some pt =>
    simp only at hstep
    by_cases habsent : m.mem pt (level1Index va) &&& pagePresent = 0
    · rw [if_pos habsent] at hstep
      cases hstep
      have hnot : frame ∉ s.taken ++ used.filter (· ≠ 0) := by
        rw [mem_append, not_or]
        refine ⟨htaken, fun hmem => ?_⟩
        obtain ⟨hmem, hne⟩ := mem_filter.mp hmem
        exact (hfresh frame (by rw [hused]; exact mem_append_left _ hmem) (by simpa using hne)).2.2.1 rfl
      simp only [show (m.setEntry pt (level1Index va) (frame ||| flags)).pool = m.pool from rfl, htake]
      exact htree'.page hinv' hown (hend pt rfl) habsent hframe hdirect hflags (and_userMask_or huser) hnot hmap
    · rw [if_neg habsent] at hstep
      cases hstep
      simp only [htake]
      exact htree'

theorem step_unmap (hown : kernel (level4Index va) &&& pagePresent = 0) (hstep : s.step root (.unmap va) = some s') :
    UserTree kernel s'.machine.mem root s'.taken s'.map := by
  have hflat : FlatAlong s.machine root (tablePath va) := htree.flat hown
  rw [UserSpace.step, unmapPage, unmapPage1, openTable_eq hflat] at hstep
  cases hwalk : s.machine.walk root (tablePath va) with
  | none =>
    rw [hwalk] at hstep
    cases hstep
    exact htree
  | some pt =>
    rw [hwalk] at hstep
    by_cases habsent : s.machine.mem pt (level1Index va) &&& pagePresent = 0
    · simp only [if_pos habsent] at hstep
      cases hstep
      exact htree
    · simp only [if_neg habsent] at hstep
      cases hstep
      exact htree.unpage hown hwalk

end Steps

theorem walk_copy {mem mem' : Word → BitVec 9 → Word} (hroot : Radix.Unreached child mem kernel 3 root)
    (hcopy : mem' root = mem kernel) (hothers : ∀ t, t ≠ root → mem' t = mem t) (i : BitVec 9) (q : List (BitVec 9))
    (hq : q.length ≤ 2) : walk child mem' root (i :: q) = walk child mem kernel (i :: q) := by
  rw [walk, walk, hcopy]
  cases hchild : child (mem kernel i) with
  | none => rfl
  | some c =>
    apply walk_congr
    intro p j rest t hsplit hp
    rw [hothers t]
    intro heq
    rw [hsplit, length_append] at hq
    apply hroot (i :: p) (by rw [length_cons]; omega)
    rw [walk, hchild, bind_some, hp, heq]

theorem archCloneKernelVmTable_spec {m m' : Machine} (hclone : archCloneKernelVmTable m kernel = (root, m'))
    (hroot : root ≠ null) :
    ∃ f pool, m.pool = f :: pool ∧ f ≠ 0 ∧ root = p2v f ∧
      (kernel ≠ root → m'.mem root = m.mem kernel) ∧ ∀ t, t ≠ root → m'.mem t = m.mem t := by
  rw [archCloneKernelVmTable, newPageTable, pmmAllocPage] at hclone
  cases hpool : m.pool with
  | nil =>
    simp only [hpool] at hclone
    exact absurd (congrArg Prod.fst hclone).symm hroot
  | cons f pool =>
    by_cases hf : f = 0
    · simp only [hpool, hf] at hclone
      exact absurd (congrArg Prod.fst hclone).symm hroot
    · simp only [hpool, hf, if_false, p2v_ne_null] at hclone
      cases hclone
      refine ⟨f, pool, rfl, hf, rfl, fun hne => ?_, fun t ht => ?_⟩
      · simp only [Machine.setPage, update_self, update_of_ne hne]
      · simp only [Machine.setPage, update_of_ne ht]

theorem userTree_clone {m m' : Machine} (hkernel : TreeInv m kernel)
    (hshared : ∀ i, m.mem kernel i &&& userMask ≠ userMask) (hclone : archCloneKernelVmTable m kernel = (root, m'))
    (hroot : root ≠ null) : UserTree (m.mem kernel) m'.mem root [v2p root] fun _ => none := by
  obtain ⟨f, pool, hpool, hf, rfl, hcopy, hothers⟩ := archCloneKernelVmTable_spec hclone hroot
  obtain ⟨hlow, hunreached⟩ := hkernel.head hpool hf
  replace hcopy := hcopy fun heq => hunreached [] (Nat.zero_le 3) (by rw [← heq]; rfl)
  have hwalks (i : BitVec 9) (q : List (BitVec 9)) (hq : (i :: q).length ≤ 3) :
      walk child m'.mem (p2v f) (i :: q) = walk child m.mem kernel (i :: q) :=
    walk_copy hunreached hcopy hothers i q (Nat.le_of_succ_le_succ hq)
  have huser {q : List (BitVec 9)} {t : Word} (hwalk : walk userChild m'.mem (p2v f) q = some t) :
      q = [] ∧ t = p2v f := by
    cases q with
    | nil => exact ⟨rfl, (some.inj hwalk).symm⟩
    | cons i q =>
      rw [walk, hcopy, userChild, if_neg (hshared i)] at hwalk
      cases hwalk
  constructor
  · intro p q t hp hq hwalk hwalk'
    cases p with
    | nil =>
      cases q with
      | nil => rfl
      | cons j q =>
        rw [hwalks j q hq] at hwalk'
        exact absurd (hwalk'.trans hwalk.symm) (hunreached (j :: q) hq)
    | cons i p =>
      rw [hwalks i p hp] at hwalk
      cases q with
      | nil => exact absurd (hwalk.trans hwalk'.symm) (hunreached (i :: p) hp)
      | cons j q =>
        rw [hwalks j q hq] at hwalk'
        exact hkernel.separated (i :: p) (j :: q) t hp hq hwalk hwalk'
  · intro p q t _ _ hwalk hwalk'
    rw [(huser hwalk).1, (huser hwalk').1]
  · intro i _
    rw [hcopy]
  · intro path t i _ hwalk hown hpresent
    rw [(huser hwalk).2, hcopy] at hpresent
    exact absurd (hown (huser hwalk).1) hpresent
  · intro q t _ hwalk
    exact ⟨v2p (p2v f), mem_singleton_self _, by rw [(huser hwalk).2, v2p_p2v hlow.2]⟩
  · intro f' hf'
    rw [mem_singleton.mp hf', v2p_p2v hlow.2]
    exact ⟨hlow, [], Nat.zero_le 3, rfl⟩
  · intro q t hq hwalk
    rw [(huser hwalk).1] at hq
    cases hq
  · intro n f' hn
    cases hn

/-- After any calls on a clone of the kernel's table, a teardown gives back the root, the tables made and the frames
still mapped, each once, and nothing else. -/
theorem teardown_exact {m m' : Machine} {kernel root : Word} (hkernel : TreeInv m kernel)
    (hshared : ∀ i, m.mem kernel i &&& userMask ≠ userMask)
    (hclone : archCloneKernelVmTable m kernel = (root, m')) (hroot : root ≠ null)
    {ops : List UserOp} {s : UserSpace}
    (hrun : Run (UserSpace.step root) (fun s op => op.Allowed (m.mem kernel) root s)
      { machine := m', taken := [v2p root], map := fun _ => none } ops s) :
    ∃ fs, (archDestroyVmTable s.machine root).freed = fs ++ s.machine.freed ∧ fs.Nodup ∧
      ∀ f, f ∈ fs ↔ f ∈ s.taken ∨ ∃ n, s.map n = some f := by
  have htree : UserTree (m.mem kernel) s.machine.mem root s.taken s.map := by
    apply hrun.invariant fun s => UserTree (m.mem kernel) s.machine.mem root s.taken s.map
    · intro s op s' htree hallowed hstep
      cases op with
      | map va frame flags supply => exact step_map htree hallowed hstep
      | unmap va => exact step_unmap htree hallowed hstep
    · exact userTree_clone hkernel hshared hclone hroot
  exact htree.teardown

/-- The clone of an empty kernel table, which takes the first free frame. -/
def clonedMachine : Machine := (archCloneKernelVmTable emptyMachine (p2v 0x1000)).2

theorem teardown_exact_onePage :
    ∃ s, Run (UserSpace.step (p2v 0x2000)) (fun s op => op.Allowed (emptyMachine.mem (p2v 0x1000)) (p2v 0x2000) s)
        { machine := clonedMachine, taken := [v2p (p2v 0x2000)], map := fun _ => none }
        [.map 0x400000 0x10000 7 [0x3000, 0x4000, 0x5000]] s ∧
      s.taken = [0x2000, 0x3000, 0x4000, 0x5000] ∧ s.map (pageNumber 0x400000) = some 0x10000 ∧
      ∃ fs, (archDestroyVmTable s.machine (p2v 0x2000)).freed = fs ++ s.machine.freed ∧ fs.Nodup ∧
        ∀ f, f ∈ fs ↔ f ∈ s.taken ∨ ∃ n, s.map n = some f := by
  have hempty (i : BitVec 9) : clonedMachine.mem (p2v 0x2000) i = 0 := rfl
  have hsupply : TreeInv { clonedMachine with pool := [0x3000, 0x4000, 0x5000] } (p2v 0x2000) :=
    (treeInv_empty hempty (by decide) (by decide)).1
  have hallowed : (UserOp.map 0x400000 0x10000 7 [0x3000, 0x4000, 0x5000]).Allowed
      (emptyMachine.mem (p2v 0x1000)) (p2v 0x2000)
      { machine := clonedMachine, taken := [v2p (p2v 0x2000)], map := fun _ => none } := by
    refine ⟨rfl, by decide, by decide, ⟨by decide, by decide⟩, by unfold Direct; decide, by decide, by simp,
      by decide, ?_⟩
    intro f hf hne
    obtain ⟨hlow, hunreached⟩ := hsupply.fresh f hf hne
    simp only [mem_cons, not_mem_nil, or_false] at hf
    exact ⟨hlow, hunreached, by obtain rfl | rfl | rfl := hf <;> decide,
      by obtain rfl | rfl | rfl := hf <;> decide, by simp⟩
  have hrun : Run (UserSpace.step (p2v 0x2000))
      (fun s op => op.Allowed (emptyMachine.mem (p2v 0x1000)) (p2v 0x2000) s)
      { machine := clonedMachine, taken := [v2p (p2v 0x2000)], map := fun _ => none }
      [.map 0x400000 0x10000 7 [0x3000, 0x4000, 0x5000]] _ := .cons hallowed rfl (.nil _)
  exact ⟨_, hrun, by decide, by decide, teardown_exact treeInv_emptyMachine.1 (by decide) rfl (by decide) hrun⟩

def sharedMachine : Machine :=
  { emptyMachine with mem := fun t i => if t = p2v 0x1000 ∧ i = 256 then 0x8003 else 0 }

/-- A page mapped through an entry of the kernel is not given back, nor are its tables. A frame with a bit of the direct
map is given back as another. -/
theorem teardown_misses :
    (∃ s, Run (UserSpace.step (p2v 0x2000)) (fun _ _ => True)
        { machine := (archCloneKernelVmTable sharedMachine (p2v 0x1000)).2, taken := [0x2000], map := fun _ => none }
        [.map 0xFFFF800000000000 0x10000 7 [0x3000, 0x4000]] s ∧
      s.taken = [0x2000, 0x3000, 0x4000] ∧ s.map (pageNumber 0xFFFF800000000000) = some 0x10000 ∧
      (archDestroyVmTable s.machine (p2v 0x2000)).freed = [0x2000]) ∧
    ∃ s, Run (UserSpace.step (p2v 0x2000)) (fun _ _ => True)
        { machine := clonedMachine, taken := [0x2000], map := fun _ => none }
        [.map 0x400000 0x8000000000 7 [0x3000, 0x4000, 0x5000]] s ∧
      s.map (pageNumber 0x400000) = some 0x8000000000 ∧
      (archDestroyVmTable s.machine (p2v 0x2000)).freed = [0x2000, 0x3000, 0x4000, 0x5000, 0] := by
  refine ⟨exists_run_of_replay (by decide +kernel), ?_⟩
  simp only [archDestroyVmTable, destroyPageTable_eq]
  exact exists_run_of_replay (by decide +kernel)

end Kairax.Paging
