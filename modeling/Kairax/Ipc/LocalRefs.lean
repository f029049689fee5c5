import Kairax.Ipc.LocalSocket

/-!
# The references to local sockets

The counter of a socket is the number of its holders, as long as sockets that are closed are connected both ways, and
connections are accepted for clients that are still there and not connected.
-/

namespace Kairax.Ipc

open Lib List Option Finset Function LocalSocket

namespace Locals

/-- The references that the data of socket `j` has to socket `k`. -/
def refsOf (j : Nat) (d : LocalSocket) (k : Nat) : Nat :=
  d.backlog.count k + if j ≠ k ∧ d.peer = some k then 1 else 0

/-- The holders of a socket: its own inode, inodes it is bound to, entries of backlogs, and sockets with it as their
peer. -/
def holders (s : Locals) (k : Nat) : Nat :=
  (if k ∈ s.opened then 1 else 0) + (s.files.filter fun i => s.inodes i = some k).card +
    ∑ j ∈ s.made, refsOf j (s.socks j) k

/-- The counters say how many pointers there are, and sockets that were never made have none. -/
structure Held (s : Locals) (pointers : Nat → Nat) : Prop where
  counts : Counts s.cells pointers
  fresh : ∀ k, s.cells k = .fresh ↔ k ∉ s.made

abbrev entered (s : Locals) (k : Nat) (d : LocalSocket) : Locals :=
  { s with socks := update s.socks k d, made := insert k s.made, opened := insert k s.opened }

variable {s : Locals} {k : Nat}

section Held

variable {pointers pointers' : Nat → Nat}

section

variable (hheld : s.Held pointers)
include hheld

theorem Held.congr (hsame : ∀ j, pointers' j = pointers j) : s.Held pointers' := by
  obtain rfl : pointers' = pointers := funext hsame
  exact hheld

theorem Held.deref (hpos : 0 < pointers k) : s.deref k = some (s.socks k) := by
  rw [Locals.deref, hheld.counts.live hpos]

theorem Held.acquire (hpos : 0 < pointers k) (pointers' : Nat → Nat)
    (hnew : ∀ j, pointers' j = pointers j + if k = j then 1 else 0) :
    ∃ cells, s.acquire k = some { s with cells := cells } ∧ Held { s with cells := cells } pointers' := by
  have htally : Tally s.cells s.cells pointers := ⟨hheld.counts, fun _ _ => rfl⟩
  obtain ⟨cells, hacquire, htally'⟩ := htally.acquire hpos pointers' hnew
  refine ⟨cells, by rw [Locals.acquire, hacquire]; rfl, htally'.counts, fun j => ?_⟩
  rw [acquire_fresh_iff hacquire, hheld.fresh]

theorem Held.releaseSlot (slot : Option Nat) (pointers' : Nat → Nat)
    (hold : ∀ j, pointers j = pointers' j + if slot = some j then 1 else 0) :
    ∃ cells, Lib.releaseSlot s.cells slot = some cells ∧ Held { s with cells := cells } pointers' := by
  cases slot with
  | none => exact ⟨s.cells, rfl, hheld.congr fun j => (hold j).symm⟩
  | some k =>
    have htally : Tally s.cells s.cells pointers := ⟨hheld.counts, fun _ _ => rfl⟩
    obtain ⟨cells, hrelease, htally'⟩ := htally.release k pointers' (by simpa only [some.injEq] using hold)
    refine ⟨cells, hrelease, htally'.counts, fun j => ?_⟩
    rw [release_fresh_iff hrelease, hheld.fresh]

theorem Held.release (k : Nat) (pointers' : Nat → Nat) (hold : ∀ j, pointers j = pointers' j + if k = j then 1 else 0) :
    ∃ cells, s.release k = some { s with cells := cells } ∧ Held { s with cells := cells } pointers' := by
  obtain ⟨cells, hrelease, hheld'⟩ := hheld.releaseSlot (some k) pointers' (by simpa only [some.injEq] using hold)
  exact ⟨cells, congrArg (Option.map _) hrelease, hheld'⟩

theorem Held.releaseAll (ks : List Nat) (pointers' : Nat → Nat) (hold : ∀ j, pointers j = pointers' j + ks.count j) :
    ∃ cells, ks.foldlM Locals.release s = some { s with cells := cells } ∧
      Held { s with cells := cells } pointers' := by
  induction ks generalizing s pointers with
  | nil => exact ⟨s.cells, rfl, hheld.congr fun j => (hold j).symm⟩
  | cons k ks ih =>
    have hfirst : ∀ j, pointers j = (pointers' j + ks.count j) + if k = j then 1 else 0 := by
      intro j
      rw [hold j, count_cons, add_assoc]
      simp only [beq_iff_eq]
    obtain ⟨cells, hrelease, hheld'⟩ := hheld.release k _ hfirst
    obtain ⟨cells', hrest, hheld''⟩ := ih hheld' fun _ => rfl
    refine ⟨cells', ?_, hheld''⟩
    rw [foldlM_cons, hrelease]
    exact hrest

theorem Held.make (hk : k ∉ s.made) (d : LocalSocket) (pointers' : Nat → Nat)
    (hnew : ∀ j, pointers' j = pointers j + if k = j then 1 else 0) :
    ∃ cells, s.make k d = some { s.entered k d with cells := cells } ∧
      Held { s.entered k d with cells := cells } pointers' := by
  have hfresh := (hheld.fresh k).mpr hk
  obtain ⟨cells, hacquire, htally⟩ := Tally.create_acquire hheld.counts hfresh hnew
  refine ⟨cells, by rw [Locals.make, Locals.acquire, hacquire]; rfl, htally.counts, fun j => ?_⟩
  rw [acquire_fresh_iff hacquire, create, mem_insert, not_or]
  by_cases hj : j = k
  · rw [hj, update_self]
    simp only [reduceCtorEq, not_true_eq_false, false_and]
  · rw [update_of_ne hj, hheld.fresh]
    exact ⟨fun h => ⟨hj, h⟩, And.right⟩

end

end Held

variable {d : LocalSocket} {i j : Nat}

theorem holders_set (hj : j ∈ s.made) (d : LocalSocket) (k : Nat) :
    (s.set j d).holders k + refsOf j (s.socks j) k = s.holders k + refsOf j d k := by
  have hrest : ∑ x ∈ s.made.erase j, refsOf x (update s.socks j d x) k =
      ∑ x ∈ s.made.erase j, refsOf x (s.socks x) k := by
    apply sum_congr rfl
    intro x hx
    rw [update_of_ne (ne_of_mem_erase hx)]
  have hold := add_sum_erase s.made (fun x => refsOf x (s.socks x) k) hj
  have hnew := add_sum_erase s.made (fun x => refsOf x (update s.socks j d x) k) hj
  rw [update_self] at hnew
  rw [holders, holders]
  show _ + ∑ x ∈ s.made, refsOf x (update s.socks j d x) k + _ = _
  show (if k ∈ s.opened then 1 else 0) + (s.files.filter fun i => s.inodes i = some k).card + _ + _ = _
  omega

theorem holders_set_same (hj : j ∈ s.made) (hpeer : d.peer = (s.socks j).peer)
    (hbacklog : d.backlog = (s.socks j).backlog) (k : Nat) : (s.set j d).holders k = s.holders k := by
  have hset := holders_set hj d k
  rw [refsOf, refsOf, hpeer, hbacklog] at hset
  omega

theorem refsOf_eq (hown : d.peer ≠ some j) (k : Nat) :
    refsOf j d k = d.backlog.count k + if d.peer = some k then 1 else 0 := by
  have hiff : (j ≠ k ∧ d.peer = some k) ↔ d.peer = some k := ⟨And.right, fun h => ⟨fun hjk => hown (hjk ▸ h), h⟩⟩
  rw [refsOf]
  simp only [hiff]

theorem holders_repoint (hj : j ∈ s.made) (hold : (s.socks j).peer ≠ some j) (hnew : d.peer ≠ some j)
    (hbacklog : d.backlog = (s.socks j).backlog) (k : Nat) :
    ((s.set j d).holders k + if (s.socks j).peer = some k then 1 else 0) =
      s.holders k + if d.peer = some k then 1 else 0 := by
  have hset := holders_set hj d k
  rw [refsOf_eq hold, refsOf_eq hnew, hbacklog] at hset
  omega

theorem holders_pop {client : Nat} (hj : j ∈ s.made) (hbacklog : (s.socks j).backlog = client :: d.backlog)
    (hpeer : d.peer = (s.socks j).peer) (k : Nat) :
    s.holders k = (s.set j d).holders k + if client = k then 1 else 0 := by
  have hset := holders_set hj d k
  rw [refsOf, refsOf, hpeer, hbacklog, count_cons] at hset
  simp only [beq_iff_eq] at hset
  omega

theorem holders_make (hopened : s.opened ⊆ s.made) (hj : j ∉ s.made) (d : LocalSocket) (k : Nat) :
    (s.entered j d).holders k = s.holders k + refsOf j d k + if j = k then 1 else 0 := by
  have hrest : ∑ x ∈ s.made, refsOf x (update s.socks j d x) k = ∑ x ∈ s.made, refsOf x (s.socks x) k := by
    apply sum_congr rfl
    intro x hx
    rw [update_of_ne (ne_of_mem_of_not_mem hx hj)]
  have hopen : (if k ∈ insert j s.opened then 1 else 0) = (if k ∈ s.opened then 1 else 0) + if j = k then 1 else 0 := by
    by_cases hk : j = k
    · rw [← hk, if_pos (Finset.mem_insert_self ..), if_neg fun h => hj (hopened h), if_pos rfl]
    · rw [if_neg hk, add_zero]
      simp only [mem_insert, Ne.symm hk, false_or]
  unfold holders
  dsimp only
  rw [sum_insert hj, update_self]
  omega

theorem holders_attach (hi : i ∉ s.files) (j k : Nat) :
    holders { s with
      files := insert i s.files
      inodes := update s.inodes i (some j) } k = s.holders k + if j = k then 1 else 0 := by
  have hrest : (s.files.filter fun x => update s.inodes i (some j) x = some k) =
      s.files.filter fun x => s.inodes x = some k := by
    apply Finset.filter_congr
    intro x hx
    rw [update_of_ne (ne_of_mem_of_not_mem hx hi)]
  unfold holders
  dsimp only
  rw [filter_insert, hrest]
  have hself : update s.inodes i (some j) i = some j := update_self ..
  by_cases hk : j = k
  · rw [if_pos (hself.trans (congrArg some hk)), if_pos hk, card_insert_of_notMem fun h => hi (mem_filter.mp h).1]
    omega
  · rw [if_neg fun h => hk (some.inj (hself.symm.trans h)), if_neg hk, add_zero]

theorem holders_detach (hi : i ∈ s.files) (hj : s.inodes i = some j) (k : Nat) :
    s.holders k = holders { s with inodes := update s.inodes i none } k + if j = k then 1 else 0 := by
  have hrest : (s.files.filter fun x => update s.inodes i none x = some k) =
      (s.files.filter fun x => s.inodes x = some k).erase i := by
    ext x
    rw [Finset.mem_erase, Finset.mem_filter, Finset.mem_filter]
    by_cases hx : x = i
    · rw [hx, update_self]
      simp only [reduceCtorEq, and_false, ne_eq, not_true_eq_false, false_and]
    · rw [update_of_ne hx]
      simp only [ne_eq, hx, not_false_eq_true, true_and]
  unfold holders
  dsimp only
  rw [hrest]
  by_cases hk : j = k
  · have hmem : i ∈ s.files.filter fun x => s.inodes x = some k := mem_filter.mpr ⟨hi, by rw [hj, hk]⟩
    have hcard := card_erase_add_one hmem
    rw [if_pos hk]
    omega
  · have hmem : i ∉ s.files.filter fun x => s.inodes x = some k := by
      intro h
      rw [Finset.mem_filter, hj] at h
      exact hk (some.inj h.2)
    rw [erase_eq_of_notMem hmem, if_neg hk, add_zero]

theorem holders_erase (hj : j ∈ s.opened) (k : Nat) :
    s.holders k = holders { s with opened := s.opened.erase j } k + if j = k then 1 else 0 := by
  unfold holders
  dsimp only
  by_cases hk : j = k
  · rw [← hk, if_pos hj, if_pos rfl, if_neg (notMem_erase j _)]
    omega
  · simp only [mem_erase, ne_eq, Ne.symm hk, not_false_eq_true, true_and, if_neg hk, add_zero]

theorem holders_pos_of_opened (hk : k ∈ s.opened) : 0 < s.holders k := by
  rw [holders, if_pos hk]
  omega

theorem holders_pos_of_file (hi : i ∈ s.files) (hk : s.inodes i = some k) : 0 < s.holders k := by
  rw [holders_detach hi hk k, if_pos rfl]
  exact Nat.succ_pos _

/-- What holds of the data of socket `k`. -/
structure Fits (k : Nat) (isOpen : Prop) (d : LocalSocket) : Prop where
  own : d.peer ≠ some k
  listening : d.backlog ≠ [] → d.state = .listen
  alone : d.state = .listen → d.ops = .stream ∧ d.peer = none
  closed : ¬ isOpen → d.peer = none ∧ d.state ≠ .listen

structure Shape (s : Locals) : Prop where
  made : s.opened ⊆ s.made
  fits : ∀ k, Fits k (k ∈ s.opened) (s.socks k)
  bound : ∀ k ∈ s.opened, ∀ i, (s.socks k).boundInode = some i → i ∈ s.files ∧ s.inodes i = some k
  files : ∀ i k, s.inodes i = some k → i ∈ s.files

structure Sound (s : Locals) : Prop extends Shape s where
  held : s.Held s.holders

/-- A peer that is cut off by a close is open and connected back. A client that is accepted is open, has no peer and
does not listen, and the type of the listener is set. A socket with a peer does not begin to listen, a socket that
listens does not get connected, and no socket connects to itself. -/
def Legal (s : Locals) : LocalOp → Prop
  | .close k => ∀ j ∈ (s.socks k).peer, j ∈ s.opened ∧ (s.socks j).peer = some k
  | .accept k _ => ∀ client ∈ (s.socks k).backlog.head?,
      client ∈ s.opened ∧ (s.socks client).peer = none ∧ (s.socks client).state ≠ .listen ∧ (s.socks k).type ≠ none
  | .listen k _ => (s.socks k).peer = none
  | .connected k => (s.socks k).state ≠ .listen
  | .connect k i => (s.socks k).ops ≠ .stream → s.inodes i ≠ some k
  | _ => True

instance decidableLegal (s : Locals) (op : LocalOp) : Decidable (s.Legal op) := by
  refine op.casesOn ?_ ?_ ?_ ?_ ?_ ?_ ?_ ?_ <;> intros <;> (unfold Legal; infer_instance)

variable (hshape : s.Shape)

include hshape

theorem Shape.cells (cells : Nat → Cell) : Shape { s with cells := cells } :=
  { hshape with }

theorem Sound.of_held {s₀ : Locals} {pointers : Nat → Nat} (hheld : s₀.Held pointers)
    (hcells : s.cells = s₀.cells) (hmade : s.made = s₀.made) (hsame : ∀ x, s.holders x = pointers x) : s.Sound := by
  refine ⟨hshape, Held.congr ⟨?_, ?_⟩ hsame⟩
  · rw [hcells]
    exact hheld.counts
  · rw [hcells, hmade]
    exact hheld.fresh

theorem Shape.opened_of_listen (hlisten : (s.socks k).state = .listen) : k ∈ s.opened := by
  by_contra hk
  exact ((hshape.fits k).closed hk).2 hlisten

theorem Shape.change {made opened files : Finset Nat} {inodes : Nat → Option Nat} (cells : Nat → Cell)
    (hmade : opened ⊆ made) (hopened : ∀ j ≠ k, j ∈ opened ↔ j ∈ s.opened) (hfits : Fits k (k ∈ opened) d)
    (hbound : k ∈ opened → ∀ i, d.boundInode = some i → i ∈ files ∧ inodes i = some k)
    (hkept : ∀ i j, j ≠ k → i ∈ s.files → s.inodes i = some j → i ∈ files ∧ inodes i = some j)
    (hfiles : ∀ i j, inodes i = some j → i ∈ files) :
    Shape ⟨cells, update s.socks k d, made, opened, files, inodes⟩ := by
  refine ⟨hmade, fun j => ?_, fun j hj i hi => ?_, hfiles⟩
  · show Fits j (j ∈ opened) (update s.socks k d j)
    by_cases heq : j = k
    · rw [heq, update_self]
      exact hfits
    · rw [update_of_ne heq, hopened j heq]
      exact hshape.fits j
  · change (update s.socks k d j).boundInode = some i at hi
    by_cases heq : j = k
    · subst heq
      rw [update_self] at hi
      exact hbound hj i hi
    · rw [update_of_ne heq] at hi
      obtain ⟨hfile, hinode⟩ := hshape.bound j ((hopened j heq).mp hj) i hi
      exact hkept i j heq hfile hinode

theorem Shape.set (hfits : Fits k (k ∈ s.opened) d) (hbound : d.boundInode = (s.socks k).boundInode) :
    (s.set k d).Shape :=
  hshape.change s.cells hshape.made (fun _ _ => .rfl) hfits (fun hk i hi => hshape.bound k hk i (hbound ▸ hi))
    (fun _ _ _ hfile hinode => ⟨hfile, hinode⟩) hshape.files

theorem Shape.make (hfits : Fits k True d) (hbound : d.boundInode = none) : (s.entered k d).Shape := by
  refine hshape.change s.cells (insert_subset_insert k hshape.made) (fun j hj => mem_insert.trans (or_iff_right hj))
    { hfits with closed := fun h => absurd (Finset.mem_insert_self ..) h } (fun _ i hi => ?_)
    (fun _ _ _ hfile hinode => ⟨hfile, hinode⟩) hshape.files
  rw [hbound] at hi
  cases hi

omit hshape

variable (hsound : s.Sound) (hk : k ∈ s.opened)

include hsound hk

theorem Sound.deref : s.deref k = some (s.socks k) := hsound.held.deref (holders_pos_of_opened hk)

theorem Sound.set (hfits : Fits k (k ∈ s.opened) d)
    (hbound : d.boundInode = (s.socks k).boundInode) (hpeer : d.peer = (s.socks k).peer)
    (hbacklog : d.backlog = (s.socks k).backlog) : (s.set k d).Sound := by
  exact .of_held (hsound.toShape.set hfits hbound) hsound.held rfl rfl
    (holders_set_same (hsound.made hk) hpeer hbacklog)

variable (type : SockType)

omit hsound hk

theorem refsOf_new (j k : Nat) : refsOf j (.new type) k = 0 := by
  simp only [refsOf, new, count_nil, reduceCtorEq, and_false, if_false]

theorem fits_new (k : Nat) (isOpen : Prop) : Fits k isOpen (.new type) := by
  constructor <;> simp only [new, ne_eq, reduceCtorEq, not_false_eq_true, not_true_eq_false, false_implies,
    implies_true, and_self]

theorem Sound.make (hsound : s.Sound) (hk : k ∉ s.made) (type : SockType) :
    ∃ s', s.make k (.new type) = some s' ∧ s'.Sound ∧ s'.socks = update s.socks k (.new type) ∧
      s'.made = insert k s.made ∧ s'.opened = insert k s.opened := by
  have hnew : ∀ x, _ = s.holders x + if k = x then 1 else 0 := fun x =>
    (holders_make hsound.made hk (.new type) x).trans (by rw [refsOf_new, add_zero])
  obtain ⟨cells, hmake, hheld⟩ := hsound.held.make hk (.new type) _ hnew
  exact ⟨_, hmake, ⟨(hsound.toShape.make (fits_new type k True) rfl).cells cells, hheld⟩, rfl, rfl, rfl⟩

include hshape in
theorem Shape.attach (hi : i ∉ s.files) (k : Nat) :
    Shape { s.set k { s.socks k with boundInode := some i } with
      files := insert i s.files
      inodes := update s.inodes i (some k) } := by
  have hk := hshape.fits k
  refine hshape.change s.cells hshape.made (fun _ _ => .rfl) { hk with } (fun _ x hx => ?_)
    (fun x j _ hfile hx => ?_) (fun x j hx => ?_)
  · cases hx
    exact ⟨mem_insert_self .., update_self ..⟩
  · exact ⟨mem_insert_of_mem hfile, by rw [update_of_ne (ne_of_mem_of_not_mem hfile hi), hx]⟩
  · by_cases heq : x = i
    · rw [heq]
      exact mem_insert_self ..
    · rw [update_of_ne heq] at hx
      exact mem_insert_of_mem (hshape.files x j hx)

include hsound hk in
theorem Sound.bind (i : Nat) : ∃ s', s.bind k i = some s' ∧ s'.Sound := by
  rw [Locals.bind]
  by_cases hi : i ∈ s.files
  · rw [if_pos hi]
    exact ⟨s, rfl, hsound⟩
  rw [if_neg hi]
  obtain ⟨cells, hacquire, hheld⟩ := hsound.held.acquire (holders_pos_of_opened hk) _ fun _ => rfl
  rw [hacquire, bind_some, hheld.deref (Nat.add_pos_left (holders_pos_of_opened hk) _)]
  refine ⟨_, rfl, .of_held ((hsound.toShape.attach hi k).cells cells) hheld rfl rfl fun x => ?_⟩
  have hset := holders_set_same (d := { s.socks k with boundInode := some i }) (hsound.made hk) rfl rfl x
  exact (holders_attach (s := s.set k { s.socks k with boundInode := some i }) hi k x).trans (by rw [hset])

theorem Fits.of_eq {isOpen : Prop} {d' : LocalSocket} (hfits : Fits k isOpen d) (hpeer : d'.peer = d.peer)
    (hbacklog : d'.backlog = d.backlog) (hstate : d'.state = d.state) (hops : d'.ops = d.ops) : Fits k isOpen d' := by
  constructor
  · rw [hpeer]
    exact hfits.own
  · rw [hbacklog, hstate]
    exact hfits.listening
  · rw [hstate, hops, hpeer]
    exact hfits.alone
  · rw [hpeer, hstate]
    exact hfits.closed

section

variable (hsound : s.Sound)
include hsound

theorem Sound.listen (hk : k ∈ s.opened) (hstream : (s.socks k).ops = .stream)
    (hpeer : (s.socks k).peer = none) (backlog : Nat) : ∃ s', s.listen k backlog = some s' ∧ s'.Sound := by
  rw [Locals.listen, hsound.deref hk, map_some]
  split_ifs
  · exact ⟨s, rfl, hsound⟩
  · refine ⟨_, rfl, hsound.set hk ⟨?_, fun _ => rfl, fun _ => ⟨hstream, hpeer⟩, fun h => absurd hk h⟩ rfl rfl rfl⟩
    exact (hsound.fits k).own

theorem Sound.connected (hk : k ∈ s.opened) (hstate : (s.socks k).state ≠ .listen) :
    ∃ s', s.connected k = some s' ∧ s'.Sound := by
  rw [Locals.connected, hsound.deref hk, map_some]
  have hfits := hsound.fits k
  split_ifs
  · refine ⟨_, rfl, hsound.set hk ⟨hfits.own, fun h => ?_, nofun, fun h => absurd hk h⟩ rfl rfl rfl⟩
    exact absurd (hfits.listening h) hstate
  · exact ⟨s, rfl, hsound⟩

theorem Sound.appendToBacklog (hj : j ∈ s.opened) (hlisten : (s.socks j).state = .listen)
    (hk : k ∈ s.opened) : ∃ s', s.appendToBacklog j k = some s' ∧ s'.Sound := by
  rw [Locals.appendToBacklog, hsound.deref hj, bind_some]
  split_ifs
  · obtain ⟨cells, hacquire, hheld⟩ := hsound.held.acquire (holders_pos_of_opened hk) _ fun _ => rfl
    rw [hacquire]
    have hfits := hsound.fits j
    have hshape := hsound.toShape.set (d := { s.socks j with backlog := (s.socks j).backlog ++ [k] })
      { hfits with listening := fun _ => hlisten } rfl
    refine ⟨_, rfl, .of_held (hshape.cells cells) hheld rfl rfl fun x => ?_⟩
    have hset := holders_set (hsound.made hj) { s.socks j with backlog := (s.socks j).backlog ++ [k] } x
    simp only [refsOf, count_append, count_singleton, beq_iff_eq] at hset
    show (s.set j _).holders x = _
    omega
  · exact ⟨s, rfl, hsound⟩

theorem Sound.connect (hk : k ∈ s.opened) (i : Nat) : ∃ s', s.connect k i = some s' ∧ s'.Sound := by
  rw [Locals.connect, hsound.deref hk, bind_some]
  split_ifs
  · exact ⟨s, rfl, hsound⟩
  have hsound₁ := hsound.set hk (d := { s.socks k with connectionAccepted := false })
    ((hsound.fits k).of_eq rfl rfl rfl rfl) rfl rfl rfl
  have hk₁ : k ∈ (s.set k { s.socks k with connectionAccepted := false }).opened := hk
  dsimp only
  generalize s.set k { s.socks k with connectionAccepted := false } = s₁ at hsound₁ hk₁ ⊢
  cases hserver : s₁.inodes i with
  | none => exact ⟨s₁, rfl, hsound₁⟩
  | some server =>
    dsimp only
    rw [hsound₁.held.deref (holders_pos_of_file (hsound₁.files i server hserver) hserver), bind_some]
    split_ifs with hlisten
    · exact ⟨s₁, rfl, hsound₁⟩
    · rw [not_not] at hlisten
      exact hsound₁.appendToBacklog (hsound₁.opened_of_listen hlisten) hlisten hk₁

theorem Sound.connectDgram (hk : k ∈ s.opened) (htype : (s.socks k).ops ≠ .stream)
    (hother : s.inodes i ≠ some k) : ∃ s', s.connectDgram k i = some s' ∧ s'.Sound := by
  have hfits := hsound.fits k
  have hempty : (s.socks k).backlog = [] := by
    by_contra hne
    exact htype (hfits.alone (hfits.listening hne)).1
  rw [Locals.connectDgram, hsound.deref hk, bind_some]
  cases hinode : s.inodes i with
  | none => exact ⟨s, rfl, hsound⟩
  | some peer =>
    dsimp only
    have hpos := holders_pos_of_file (hsound.files i peer hinode) hinode
    have hne : peer ≠ k := fun h => hother (hinode.trans (congrArg some h))
    rw [hsound.held.deref hpos, bind_some]
    split_ifs with hdgram hsame
    · exact ⟨s, rfl, hsound⟩
    · refine ⟨_, rfl, hsound.set hk ⟨hfits.own, fun h => absurd hempty h, nofun, fun h => absurd hk h⟩ rfl rfl rfl⟩
    · obtain ⟨cells, hacquire, hheld⟩ := hsound.held.acquire hpos _ fun _ => rfl
      rw [hacquire]
      have hshape := hsound.toShape.set (d := { s.socks k with peer := some peer, state := .connected })
        ⟨fun h => hne (some.inj h), fun h => absurd hempty h, nofun, fun h => absurd hk h⟩ rfl
      have hrepoint := holders_repoint (d := { s.socks k with peer := some peer, state := .connected })
        (hsound.made hk) hfits.own (fun h => hne (some.inj h)) rfl
      obtain ⟨cells', hrelease, hheld'⟩ := hheld.releaseSlot _ _ fun x => by
        simpa only [some.injEq] using (hrepoint x).symm
      exact ⟨_, congrArg (Option.map _) hrelease, .of_held (hshape.cells cells') hheld' rfl rfl fun _ => rfl⟩

variable (hk : k ∈ s.opened) (hfits : Fits k (k ∈ s.opened) d) (hbound : d.boundInode = (s.socks k).boundInode)
  (hbacklog : d.backlog = (s.socks k).backlog)
include hk hfits hbound hbacklog

theorem Sound.link (hj : j ∈ s.opened) (hnone : (s.socks k).peer = none) (hpeer : d.peer = some j) :
    ∃ cells, (s.set k d).acquire j = some { s.set k d with cells := cells } ∧
      Sound { s.set k d with cells := cells } := by
  have hrepoint := holders_repoint (hsound.made hk) (hsound.fits k).own hfits.own hbacklog
  have hheld : Held (s.set k d) s.holders := { hsound.held with }
  obtain ⟨cells, hacquire, hheld'⟩ := hheld.acquire (holders_pos_of_opened hj) _ fun _ => rfl
  refine ⟨cells, hacquire, .of_held ((hsound.toShape.set hfits hbound).cells cells) hheld' rfl rfl fun x => ?_⟩
  have hx := hrepoint x
  simp only [hnone, hpeer, some.injEq] at hx
  exact hx

theorem Sound.unlink (hpeer : (s.socks k).peer = some j) (hnone : d.peer = none) :
    ∃ cells, (s.set k d).release j = some { s.set k d with cells := cells } ∧
      Sound { s.set k d with cells := cells } := by
  have hrepoint := holders_repoint (hsound.made hk) (hsound.fits k).own hfits.own hbacklog
  have hheld : Held (s.set k d) s.holders := { hsound.held with }
  obtain ⟨cells, hrelease, hheld'⟩ := hheld.release j (s.set k d).holders fun x => by
    have hx := hrepoint x
    simp only [hnone, hpeer, some.injEq] at hx
    exact hx.symm
  exact ⟨cells, hrelease, .of_held ((hsound.toShape.set hfits hbound).cells cells) hheld' rfl rfl fun _ => rfl⟩

end

theorem fits_connected (hne : j ≠ k) {isOpen : Prop} (hopen : isOpen) {d : LocalSocket}
    (hd : d = { new type with type := d.type, peer := some j, state := .connected }) : Fits k isOpen d := by
  rw [hd]
  exact ⟨fun h => hne (some.inj h), fun h => absurd rfl h, nofun, fun h => absurd hopen h⟩

theorem Sound.pair (hsound : s.Sound) (hj : j ∉ s.made) (hk : k ∉ s.made) (hne : j ≠ k) (type : SockType) :
    ∃ s', s.pair j k type = some s' ∧ s'.Sound ∧ (j ∈ s'.opened ∧ k ∈ s'.opened) ∧
      s'.socks j = { new type with peer := some k, state := .connected } ∧
      s'.socks k = { new type with peer := some j, state := .connected } := by
  obtain ⟨s₁, hmake₁, hsound₁, hsocks₁, hmade₁, hopened₁⟩ := hsound.make hj type
  have hk₁ : k ∉ s₁.made := by
    rw [hmade₁, mem_insert, not_or]
    exact ⟨Ne.symm hne, hk⟩
  obtain ⟨s₂, hmake₂, hsound₂, hsocks₂, -, hopened₂⟩ := hsound₁.make hk₁ type
  have hk₂ : k ∈ s₂.opened := by
    rw [hopened₂]
    exact mem_insert_self ..
  have hj₂ : j ∈ s₂.opened := by
    rw [hopened₂, hopened₁]
    exact mem_insert_of_mem (mem_insert_self ..)
  have hsockj : s₂.socks j = .new type := by rw [hsocks₂, update_of_ne hne, hsocks₁, update_self]
  have hsockk : s₂.socks k = .new type := by rw [hsocks₂, update_self]
  rw [Locals.pair, hmake₁, bind_some, hmake₂, bind_some]
  obtain ⟨cells, hlink, hsound₃⟩ := hsound₂.link hj₂ (fits_connected type (Ne.symm hne) hj₂
    (d := { new type with peer := some k, state := .connected }) rfl)
    (by rw [hsockj]) (by rw [hsockj]) hk₂ (by rw [hsockj]; rfl) rfl
  have hsockk₃ : update s₂.socks j { new type with peer := some k, state := .connected } k =
      .new type := by rw [update_of_ne (Ne.symm hne), hsockk]
  obtain ⟨cells', hlink', hsound₄⟩ := hsound₃.link hk₂ (fits_connected type hne hk₂
    (d := { new type with peer := some j, state := .connected }) rfl)
    (congrArg boundInode hsockk₃).symm (congrArg backlog hsockk₃).symm hj₂
    (congrArg peer hsockk₃) rfl
  dsimp only
  rw [hlink, bind_some, hlink']
  refine ⟨_, rfl, hsound₄, ⟨hj₂, hk₂⟩, ?_, update_self ..⟩
  show update (update s₂.socks j _) k _ j = _
  rw [update_of_ne hne, update_self]

include hsound hk in
theorem Sound.disconnect
    (hpeer : ∀ j, (s.socks k).peer = some j → j ∈ s.opened ∧ (s.socks j).peer = some k) :
    ∃ s', s.disconnect k (s.socks k) = some s' ∧ s'.Sound ∧ s'.opened = s.opened ∧
      s'.socks k = { s.socks k with peer := none } ∧ ∀ j, (s.socks k).peer = some j →
        s'.socks j = { s.socks j with peerDisconnected := true, peer := none, state := .unconnected } := by
  rw [Locals.disconnect]
  have hfits := hsound.fits k
  cases hj : (s.socks k).peer with
  | none => exact ⟨s, rfl, hsound, rfl, by rw [← hj], nofun⟩
  | some j =>
    obtain ⟨hopened, hback⟩ := hpeer j hj
    have hne : j ≠ k := fun h => hfits.own (hj.trans (congrArg some h))
    have hempty : (s.socks j).backlog = [] := by
      by_contra h
      have hnone := ((hsound.fits j).alone ((hsound.fits j).listening h)).2
      rw [hback] at hnone
      cases hnone
    dsimp only
    rw [hsound.deref hopened, bind_some]
    obtain ⟨cells, hrelease, hsound₁⟩ := hsound.unlink hk (d := { s.socks k with peer := none })
      ⟨nofun, hfits.listening, fun h => ⟨(hfits.alone h).1, rfl⟩, fun h => absurd hk h⟩ rfl rfl hj rfl
    have hsockj : update s.socks k { s.socks k with peer := none } j = s.socks j :=
      update_of_ne hne ..
    rw [hrelease, bind_some, hsound₁.deref hopened]
    obtain ⟨cells', hrelease', hsound₂⟩ := hsound₁.unlink hopened
      (d := { s.socks j with peerDisconnected := true, peer := none, state := .unconnected })
      ⟨nofun, fun h => absurd hempty h, nofun, fun h => absurd hopened h⟩ (congrArg boundInode hsockj).symm
      (congrArg backlog hsockj).symm ((congrArg peer hsockj).trans hback) rfl
    refine ⟨_, ?_, hsound₂, rfl, ?_, fun j' hj' => ?_⟩
    · rw [← hrelease']
      show release (Locals.set _ j { update s.socks k { s.socks k with peer := none } j with
        peerDisconnected := true, peer := none, state := .unconnected }) k = _
      rw [hsockj]
    · show update (update s.socks k _) j _ k = _
      rw [update_of_ne (Ne.symm hne), update_self]
    · cases hj'
      exact update_self ..

include hshape in
theorem Shape.acceptClient {client new : Nat}
    (hheld : s.Held fun x => s.holders x + if client = x then 1 else 0) (hclient : client ∈ s.opened)
    (hnone : (s.socks client).peer = none) (hstate : (s.socks client).state ≠ .listen) (hnew : new ∉ s.made)
    (type : SockType) : ∃ s', s.acceptClient client new type = some s' ∧ s'.Sound := by
  have hne : client ≠ new := fun h => hnew (h ▸ hshape.made hclient)
  have hpos := holders_pos_of_opened hclient
  have hfits := hshape.fits client
  obtain ⟨d, hd⟩ : ∃ d : LocalSocket,
      d = { LocalSocket.new type with type := none, peer := some client, state := .connected } := ⟨_, rfl⟩
  have hdfits : Fits new True d := fits_connected type hne trivial (by rw [hd])
  have hrefs : ∀ x, refsOf new d x = if client = x then 1 else 0 := by
    intro x
    rw [refsOf_eq hdfits.own, hd]
    simp only [LocalSocket.new, count_nil, some.injEq, zero_add]
  obtain ⟨s₁, hmake, hheld₁, hshape₁, hholders₁, hsock₁, hclient₁, hnew₁⟩ : ∃ s₁, s.make new d = some s₁ ∧
      s₁.Held (fun x => (s.holders x + if client = x then 1 else 0) + if new = x then 1 else 0) ∧ s₁.Shape ∧
      (∀ x, s₁.holders x = (s.holders x + if client = x then 1 else 0) + if new = x then 1 else 0) ∧
      s₁.socks client = s.socks client ∧ client ∈ s₁.opened ∧ new ∈ s₁.opened := by
    obtain ⟨cells, hmake, hheld₁⟩ := hheld.make hnew d _ fun _ => rfl
    refine ⟨_, hmake, hheld₁, (hshape.make hdfits (by rw [hd]; rfl)).cells cells, fun x => ?_,
      update_of_ne hne .., mem_insert_of_mem hclient, mem_insert_self ..⟩
    rw [← hrefs x]
    exact holders_make hshape.made hnew d x
  have hsound₁ : s₁.Sound := .of_held hshape₁ hheld₁ rfl rfl hholders₁
  rw [Locals.acceptClient, hheld.deref (Nat.add_pos_left hpos _), bind_some, ← hd, hmake, bind_some]
  obtain ⟨cells₂, hacquire, hheld₂⟩ := hsound₁.held.acquire (holders_pos_of_opened hclient₁) _ fun _ => rfl
  obtain ⟨cells₃, hacquire', hheld₃⟩ := hheld₂.acquire (Nat.add_pos_left (holders_pos_of_opened hnew₁) _) _
    fun _ => rfl
  rw [hacquire, bind_some, hacquire', bind_some,
    hheld₃.deref (Nat.add_pos_left (Nat.add_pos_left (holders_pos_of_opened hclient₁) _) _), bind_some]
  dsimp only
  obtain ⟨c, hc⟩ : ∃ c : LocalSocket, c = { s₁.socks client with peer := some new, connectionAccepted := true } :=
    ⟨_, rfl⟩
  have hpeer : c.peer = some new := by rw [hc]
  have hcfits : Fits client (client ∈ s₁.opened) c := by
    refine ⟨fun h => hne (some.inj (hpeer.symm.trans h)).symm, fun h => ?_, fun h => ?_, fun h => absurd hclient₁ h⟩
    · rw [hc, hsock₁] at h ⊢
      exact hfits.listening h
    · rw [hc, hsock₁] at h
      exact absurd h hstate
  have hrepoint := holders_repoint (hshape₁.made hclient₁) (hsock₁ ▸ hfits.own) hcfits.own (by rw [hc])
  rw [← hc]
  have hheld₄ : Held (Locals.set { s₁ with cells := cells₃ } client c) _ := { hheld₃ with }
  obtain ⟨cells₅, hrelease, hheld₅⟩ := hheld₄.release client (s₁.set client c).holders fun x => by
    have hx := hrepoint x
    rw [hsock₁, hnone, hpeer] at hx
    simp only [reduceCtorEq, if_false, some.injEq, add_zero] at hx
    omega
  exact ⟨_, hrelease, .of_held ((hshape₁.set hcfits (by rw [hc])).cells cells₅) hheld₅ rfl rfl fun _ => rfl⟩

include hsound hk

theorem Sound.accept {new : Nat} (hnew : new ∉ s.made)
    (hclient : ∀ client ∈ (s.socks k).backlog.head?,
      client ∈ s.opened ∧ (s.socks client).peer = none ∧ (s.socks client).state ≠ .listen ∧
        (s.socks k).type ≠ none) :
    ∃ s', s.accept k new = some s' ∧ s'.Sound := by
  rw [Locals.accept, hsound.deref hk, bind_some]
  cases hbacklog : (s.socks k).backlog with
  | nil => exact ⟨s, rfl, hsound⟩
  | cons client backlog =>
    have hfits := hsound.fits k
    have hlisten : (s.socks k).state = .listen := hfits.listening (by rw [hbacklog]; nofun)
    obtain ⟨hopened, hnone, hstate, htype⟩ := hclient client (by rw [hbacklog]; rfl)
    have hne : client ≠ k := fun h => hstate (h ▸ hlisten)
    have hshape := hsound.toShape.set (d := { s.socks k with backlog := backlog })
      { hfits with listening := fun _ => hlisten } rfl
    have hsock : (s.set k { s.socks k with backlog := backlog }).socks client = s.socks client :=
      update_of_ne hne ..
    obtain ⟨type, htype⟩ := ne_none_iff_exists'.mp htype
    obtain ⟨s', haccept, hsound'⟩ := hshape.acceptClient
      (Held.congr { hsound.held with } fun x =>
        (holders_pop (d := { s.socks k with backlog := backlog }) (hsound.made hk) hbacklog rfl x).symm)
      hopened (by rw [hsock, hnone]) (by rw [hsock]; exact hstate) hnew type
    exact ⟨s', bind_eq_some_iff.mpr ⟨type, htype, haccept⟩, hsound'⟩

theorem Sound.unbind :
    ∃ cells inodes, s.unbind (s.socks k).boundInode = some { s with cells := cells, inodes := inodes } ∧
      Held { s with cells := cells, inodes := inodes } (holders { s with cells := cells, inodes := inodes }) ∧
      (∀ i j, inodes i = some j → s.inodes i = some j) ∧ ∀ i j, j ≠ k → s.inodes i = some j → inodes i = some j := by
  cases hbound : (s.socks k).boundInode with
  | none => exact ⟨s.cells, s.inodes, rfl, hsound.held, fun _ _ h => h, fun _ _ _ h => h⟩
  | some i =>
    obtain ⟨hfile, hinode⟩ := hsound.bound k hk i hbound
    obtain ⟨cells, hrelease, hheld⟩ := hsound.held.release k _ (holders_detach hfile hinode)
    refine ⟨cells, update s.inodes i none, ?_, { hheld with }, fun x j hx => ?_, fun x j hj hx => ?_⟩
    · rw [Locals.unbind, hinode, bind_some, hrelease]
      rfl
    · by_cases heq : x = i
      · rw [heq, update_self] at hx
        cases hx
      · rw [update_of_ne heq] at hx
        exact hx
    · have heq : x ≠ i := by
        intro h
        rw [h, hinode] at hx
        exact hj (some.inj hx).symm
      exact (update_of_ne heq ..).trans hx

omit hsound hk

theorem Fits.backlog_dropped {isOpen : Prop} (hfits : Fits k isOpen d) :
    (if d.state = .listen then d.backlog else []) = d.backlog ∧ (if d.state = .listen then [] else d.backlog) = [] := by
  by_cases hlisten : d.state = .listen
  · rw [if_pos hlisten, if_pos hlisten]
    exact ⟨rfl, rfl⟩
  · have hempty : d.backlog = [] := by
      by_contra h
      exact hlisten (hfits.listening h)
    rw [if_neg hlisten, if_neg hlisten, hempty]
    exact ⟨rfl, rfl⟩

include hsound hk in
theorem Sound.close
    (hpeer : ∀ j, (s.socks k).peer = some j → j ∈ s.opened ∧ (s.socks j).peer = some k) :
    ∃ s', s.close k = some s' ∧ s'.Sound ∧ s'.opened = s.opened.erase k ∧ ∀ j, (s.socks k).peer = some j →
      s'.socks j = { s.socks j with peerDisconnected := true, peer := none, state := .unconnected } := by
  obtain ⟨s₁, hdisconnect, hsound₁, hopened₁, hsock₁, hcut₁⟩ := hsound.disconnect hk hpeer
  have hk₁ : k ∈ s₁.opened := hopened₁ ▸ hk
  obtain ⟨cells, inodes, hunbind, hheld, hinodes, hkept⟩ := hsound₁.unbind hk₁
  have hpeer₁ : (s₁.socks k).peer = none := by rw [hsock₁]
  obtain ⟨hdropped, hempty⟩ := (hsound₁.fits k).backlog_dropped
  -- the data that the socket is left with
  obtain ⟨d', hd'⟩ : ∃ d' : LocalSocket, d' = { s₁.socks k with rxQueue := [], backlog := [], state := .unconnected } :=
    ⟨_, rfl⟩
  have hpeer' : d'.peer = none := by rw [hd', ← hpeer₁]
  have hbacklog' : d'.backlog = [] := by rw [hd']
  have hset := holders_set (s := { s₁ with cells := cells, inodes := inodes }) (hsound₁.made hk₁) d'
  have hheld₃ : Held (Locals.set { s₁ with cells := cells, inodes := inodes } k d') _ := { hheld with }
  obtain ⟨cells₁, hreleases, hheld₄⟩ := hheld₃.releaseAll (s₁.socks k).backlog _ fun x => by
    have hx := hset x
    rw [refsOf, refsOf, hpeer₁, hpeer', hbacklog'] at hx
    simp only [reduceCtorEq, and_false, count_nil] at hx
    exact hx.symm
  have hheld₅ : Held { s₁.set k d' with cells := cells₁, inodes := inodes, opened := s₁.opened.erase k } _ :=
    { hheld₄ with }
  obtain ⟨cells₂, hrelease, hheld₆⟩ := hheld₅.release k _ (holders_erase hk₁)
  refine ⟨_, ?_, ⟨hsound₁.toShape.change cells₂ ((Finset.erase_subset ..).trans hsound₁.made)
    (fun j hj => mem_erase.trans (and_iff_right hj)) ?_ (fun h => absurd h (notMem_erase k _))
    (fun i j hj hfile hinode => ⟨hfile, hkept i j hj hinode⟩) fun i j hi => hsound₁.files i j (hinodes i j hi), hheld₆⟩,
    by rw [← hopened₁], fun j hj => ?_⟩
  · rw [Locals.close, closeLocal, hsound.deref hk, bind_some, hdisconnect, bind_some]
    have hbound : (s.socks k).boundInode = (s₁.socks k).boundInode := by rw [hsock₁]
    rw [hbound, hunbind, bind_some, hheld.deref (holders_pos_of_opened hk₁), bind_some]
    rw [hdropped, hempty, ← hd', hreleases, bind_some]
    exact hrelease
  · rw [hd']
    exact ⟨by rw [hpeer₁]; nofun, fun h => absurd rfl h, nofun, fun _ => ⟨hpeer₁, nofun⟩⟩
  · have hne : j ≠ k := fun h => (hsound.fits k).own (hj.trans (congrArg some h))
    show update s₁.socks k d' j = _
    rw [update_of_ne hne, hcut₁ j hj]

theorem sound_start : start.Sound := by
  refine ⟨⟨Finset.Subset.refl _, fun k => fits_new .stream k _, nofun, nofun⟩, fun k => rfl, fun k => ?_⟩
  exact ⟨fun _ => notMem_empty k, fun _ => rfl⟩

variable {op : LocalOp}

theorem Sound.step (hsound : s.Sound) (hpossible : s.Possible op) (hlegal : s.Legal op) :
    ∃ s', s.step op = some s' ∧ s'.Sound := by
  rw [Locals.step, if_pos hpossible]
  cases op with
  | socket k type =>
    obtain ⟨s', hmake, hsound', -⟩ := hsound.make hpossible type
    exact ⟨s', hmake, hsound'⟩
  | bind k i => exact hsound.bind hpossible i
  | listen k backlog =>
    rw [call]
    split_ifs with hstream
    · exact hsound.listen hpossible hstream hlegal backlog
    · exact ⟨s, rfl, hsound⟩
  | connect k i =>
    rw [call]
    split_ifs with hstream
    · exact hsound.connect hpossible i
    · exact hsound.connectDgram hpossible hstream (hlegal hstream)
  | connected k =>
    rw [call]
    split_ifs with hstream
    · exact hsound.connected hpossible hlegal
    · exact ⟨s, rfl, hsound⟩
  | accept k new =>
    rw [call]
    split_ifs with hstream
    · exact hsound.accept hpossible.1 hpossible.2 hlegal
    · exact ⟨s, rfl, hsound⟩
  | pair k₁ k₂ type =>
    obtain ⟨s', hpair, hsound', -⟩ := hsound.pair hpossible.1 hpossible.2.1 hpossible.2.2 type
    exact ⟨s', hpair, hsound'⟩
  | close k =>
    obtain ⟨s', hclose, hsound', -⟩ := hsound.close hpossible hlegal
    exact ⟨s', hclose, hsound'⟩

theorem Sound.of_run {ops : List LocalOp} (hrun : Run Locals.step Legal start ops s) : s.Sound := by
  refine hrun.invariant Sound (fun s op s' hsound hlegal hstep => ?_) sound_start
  have hpossible : s.Possible op := by
    by_contra h
    rw [Locals.step, if_neg h] at hstep
    cases hstep
  obtain ⟨s₁, hstep₁, hsound₁⟩ := hsound.step hpossible hlegal
  rw [hstep] at hstep₁
  exact some.inj hstep₁ ▸ hsound₁

/-- In every run the counter of a socket says how many holders it has, and it is there as long as it has one. What has
been freed refers to nothing, and no call touches it. -/
theorem refs_eq_holders {ops : List LocalOp} (hrun : Run Locals.step Legal start ops s) :
    (∀ k ∈ s.made, s.cells k = if s.holders k = 0 then .dead else .live (s.holders k)) ∧
    (∀ k, s.cells k = .dead → (s.socks k).peer = none ∧ (s.socks k).backlog = []) ∧
    ∀ op, s.Possible op → s.Legal op → (s.step op).isSome := by
  have hsound := Sound.of_run hrun
  refine ⟨fun k hk => ?_, fun k hdead => ?_, fun op hpossible hlegal => ?_⟩
  · split_ifs with hnone
    · have hagrees := hsound.held.counts k
      cases hcell : s.cells k with
      | fresh => exact absurd hk ((hsound.held.fresh k).mp hcell)
      | live refs =>
        rw [hcell] at hagrees
        exact absurd hnone hagrees.2.ne'
      | dead => rfl
    · exact hsound.held.counts.live (Nat.pos_of_ne_zero hnone)
  · have hfits := hsound.fits k
    have hclosed : k ∉ s.opened := by
      intro hopened
      have hlive := hsound.held.counts.live (holders_pos_of_opened hopened)
      rw [hdead] at hlive
      cases hlive
    obtain ⟨hpeer, hstate⟩ := hfits.closed hclosed
    refine ⟨hpeer, ?_⟩
    by_contra h
    exact hstate (hfits.listening h)
  · obtain ⟨s', hstep, -⟩ := hsound.step hpossible hlegal
    rw [hstep]
    rfl

/-- A listener, a client that is accepted, and the closes of both ends. -/
theorem refs_eq_holders_stream :
    ∃ s, Run Locals.step Legal start [.socket 0 .stream, .bind 0 7, .listen 0 5, .socket 1 .stream, .connect 1 7,
        .accept 0 2, .connected 1, .close 1, .close 2, .close 0] s ∧
      s.made = {0, 1, 2} ∧ ∀ k ∈ s.made, s.cells k = if s.holders k = 0 then .dead else .live (s.holders k) := by
  exact exists_run_of_replay_imp (fun s => s.made = {0, 1, 2}) (by decide) fun s hrun hmade =>
    ⟨hmade, (refs_eq_holders hrun).1⟩

/-- A datagram socket whose peer knows nothing of it gives up one reference too many on its close. -/
theorem close_frees_held_socket :
    ∃ s, Run Locals.step (fun _ _ => True) start [.socket 0 .dgram, .bind 0 7, .socket 1 .dgram, .bind 1 8,
        .socket 2 .dgram, .connect 2 7, .connect 0 8, .close 0] s ∧
      (s.socks 2).peer = some 0 ∧ s.holders 0 = 1 ∧ s.cells 0 = .dead := by
  apply exists_run_of_replay
  decide

end Locals

end Kairax.Ipc
